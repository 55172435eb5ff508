import NamedContent.Network.WritePath
import NamedContent.Proofs.Network.Holding

/-!
# What a write does to its source

A write path places its fragments in one source. The source tells a fragment that it holds from a
different one of the same name, a store by the digests alone. Placing takes nothing away, in any
source (`place_grows`); it fails exactly if that one source holds under some name a fragment that it
tells from the one to be placed, and otherwise it holds all of them afterwards (`place_cases`). What
the other sources hold plays no part.
-/

namespace NamedContent

variable [Suite]

/-- Whether a source notices that what it holds is not what is to be placed. -/
def Source.TellsApart : Source → Fragment → Fragment → Prop
  | .direct, held, f => held ≠ f
  | .store _, held, f => held.digest ≠ f.digest

/-- Two different fragments that no digest tells apart. -/
def Fragment.Collides (f g : Fragment) : Prop := f ≠ g ∧ f.digest = g.digest

theorem Source.eq_or_collides {src : Source} {held f : Fragment} (h : ¬ src.TellsApart held f) :
    held = f ∨ src ≠ .direct ∧ held.Collides f := by
  by_cases he : held = f
  · exact .inl he
  · right
    cases src with
    | direct => exact absurd he h
    | store id => exact ⟨nofun, he, Classical.not_not.mp h⟩

theorem Source.not_tellsApart_self (src : Source) (f : Fragment) : ¬ src.TellsApart f f := by
  cases src <;> exact fun h => h rfl

/-! ### Saving in a store -/

namespace WritePath

theorem saveAll_of_free {store store' : Store} {f : Fragment} {fs : List Fragment}
    (h : store.save f = .ok (.inserted, store')) :
    saveAll (f :: fs) store = saveAll fs store' := by
  simp only [saveAll, h]

theorem saveAll_of_held {store : Store} {f g : Fragment} (fs : List Fragment)
    (h : store.save f = .ok (if g.digest = f.digest then .exists else .conflict g.digest, store)) :
    saveAll (f :: fs) store = if g.digest = f.digest then saveAll fs store
      else (.error (.writeConflict f.name), store) := by
  split
  · next hd =>
    rw [if_pos hd] at h
    simp only [saveAll, h]
  · next hd =>
    rw [if_neg hd] at h
    simp only [saveAll, h]

/-- Where all names are taken, nothing is saved. -/
theorem saveAll_of_all_held {store : Store} (h : store.Sound) {fs : List Fragment}
    (hfs : ∀ f ∈ fs, f.Storable) (hheld : ∀ f ∈ fs, ∃ g, store.holds? f.name = some g) :
    (saveAll fs store).2 = store := by
  induction fs with
  | nil => rfl
  | cons f fs ih =>
    obtain ⟨g, hg⟩ := hheld f List.mem_cons_self
    rw [saveAll_of_held fs (Store.save_of_held h (hfs f List.mem_cons_self) hg)]
    split
    · exact ih (fun x hx => hfs x (List.mem_cons_of_mem _ hx))
        fun x hx => hheld x (List.mem_cons_of_mem _ hx)
    · rfl

/-- Saving takes nothing away, and everything that it adds was to be saved. -/
theorem saveAll_grows {store : Store} (h : store.Sound) {fs : List Fragment}
    (hfs : ∀ f ∈ fs, f.Storable) :
    (saveAll fs store).2.Sound ∧
      (∀ n g, store.holds? n = some g → (saveAll fs store).2.holds? n = some g) ∧
      ∀ n g, (saveAll fs store).2.holds? n = some g → store.holds? n = some g ∨ g ∈ fs := by
  -- By induction on the fragments: one is added under a free name, or is passed if it is there, or
  -- stops the saving.
  induction fs generalizing store with
  | nil => exact ⟨h, fun _ _ hg => hg, fun _ _ hg => .inl hg⟩
  | cons f fs ih =>
    have hrest : ∀ g ∈ fs, g.Storable := fun g hg => hfs g (List.mem_cons_of_mem _ hg)
    have hf : f.Storable := hfs f List.mem_cons_self
    cases hheld : store.holds? f.name with
    | none =>
      obtain ⟨store', hsave, hsound, hholds⟩ := Store.save_of_free h hf hheld
      obtain ⟨ihSound, ihKeep, ihNew⟩ := ih hsound hrest
      rw [saveAll_of_free hsave]
      refine ⟨ihSound, ?_, ?_⟩
      · intro n g hg
        apply ihKeep
        rw [hholds, if_neg]
        · exact hg
        · rintro rfl
          rw [hheld] at hg
          cases hg
      · intro n g hg
        rcases ihNew n g hg with hg | hg
        · rw [hholds] at hg
          split at hg
          · cases hg
            exact .inr List.mem_cons_self
          · exact .inl hg
        · exact .inr (List.mem_cons_of_mem _ hg)
    | some g =>
      rw [saveAll_of_held fs (Store.save_of_held h hf hheld)]
      split
      · obtain ⟨ihSound, ihKeep, ihNew⟩ := ih h hrest
        refine ⟨ihSound, ihKeep, fun n x hx => ?_⟩
        rcases ihNew n x hx with hx | hx
        · exact .inl hx
        · exact .inr (List.mem_cons_of_mem _ hx)
      · exact ⟨h, fun _ _ hx => hx, fun _ _ hx => .inl hx⟩

/-- Either all is saved, or a fragment is in the way of one that was to be saved. -/
theorem saveAll_cases {store : Store} (h : store.Sound) {fs : List Fragment}
    (hfs : ∀ f ∈ fs, f.Storable) :
    ((saveAll fs store).1 = .ok () ∧ ∀ f ∈ fs, ∃ g,
      (saveAll fs store).2.holds? f.name = some g ∧ g.digest = f.digest) ∨
    ∃ f ∈ fs, ∃ g, (saveAll fs store).1 = .error (.writeConflict f.name) ∧
      (saveAll fs store).2.holds? f.name = some g ∧ g.digest ≠ f.digest := by
  induction fs generalizing store with
  | nil => exact .inl ⟨rfl, nofun⟩
  | cons f fs ih =>
    have hrest : ∀ g ∈ fs, g.Storable := fun g hg => hfs g (List.mem_cons_of_mem _ hg)
    have hf : f.Storable := hfs f List.mem_cons_self
    -- Once something with the digest is held, the rest decides.
    have hlift : ∀ {store' : Store} {g : Fragment}, store'.Sound → store'.holds? f.name = some g →
        g.digest = f.digest → saveAll (f :: fs) store = saveAll fs store' →
        ((saveAll (f :: fs) store).1 = .ok () ∧ ∀ f' ∈ f :: fs, ∃ g,
          (saveAll (f :: fs) store).2.holds? f'.name = some g ∧ g.digest = f'.digest) ∨
        ∃ f' ∈ f :: fs, ∃ g, (saveAll (f :: fs) store).1 = .error (.writeConflict f'.name) ∧
          (saveAll (f :: fs) store).2.holds? f'.name = some g ∧ g.digest ≠ f'.digest := by
      intro store' g hsound hg hd heq
      rw [heq]
      rcases ih hsound hrest with ⟨hok, hall⟩ | ⟨f', hf', g', herr, hg', hne⟩
      · refine .inl ⟨hok, fun f' hf' => ?_⟩
        rcases List.mem_cons.mp hf' with rfl | hf'
        · exact ⟨g, (saveAll_grows hsound hrest).2.1 _ _ hg, hd⟩
        · exact hall f' hf'
      · exact .inr ⟨f', List.mem_cons_of_mem _ hf', g', herr, hg', hne⟩
    cases hheld : store.holds? f.name with
    | none =>
      obtain ⟨store', hsave, hsound, hholds⟩ := Store.save_of_free h hf hheld
      have hself : store'.holds? f.name = some f := by rw [hholds, if_pos rfl]
      exact hlift hsound hself rfl (saveAll_of_free hsave)
    | some g =>
      have heq := saveAll_of_held fs (Store.save_of_held h hf hheld)
      by_cases hd : g.digest = f.digest
      · rw [if_pos hd] at heq
        exact hlift h hheld hd heq
      · rw [if_neg hd] at heq
        refine .inr ⟨f, List.mem_cons_self, g, ?_, ?_, hd⟩
        · rw [heq]
        · rw [heq]
          exact hheld

/-! ### Placing -/

/-- Write fragments to a source. -/
def place : Source → List Fragment → Supply → Except NetworkError Unit × Supply
  | .direct => putDirect
  | .store id => putStored id

omit [Suite] in
theorem putDirect_eq (fs : List Fragment) (s : Supply) :
    putDirect fs s = match s.clash? fs with
      | some f => (.error (.writeConflict f.name), s)
      | none => (.ok (), (s.publish fs).2) := by
  unfold putDirect Supply.put
  cases s.clash? fs <;> rfl

theorem putDirect_grows {s : Supply} (h : s.Sound) (fs : List Fragment) :
    (putDirect fs s).2.Sound ∧ s.Grows (putDirect fs s).2 := by
  rw [putDirect_eq]
  split
  · exact ⟨h, .refl s⟩
  · obtain ⟨hsound, hgrows, _⟩ := Supply.publish_grows h fs
    exact ⟨hsound, hgrows⟩

/-- The store after a write to it, whether the write succeeded or not. -/
theorem putStored_eq (id : StoreId) (fs : List Fragment) (s : Supply) :
    (putStored id fs s).1 = (saveAll fs (s.store id)).1 ∧
      ((putStored id fs s).2 = s.setStore id (saveAll fs (s.store id)).2 ∨
        (putStored id fs s).2 = (s.setStore id (saveAll fs (s.store id)).2).announce) := by
  unfold putStored
  dsimp only
  cases ho : (saveAll fs (s.store id)).1 with
  | ok u => exact ⟨rfl, .inr rfl⟩
  | error e => exact ⟨rfl, .inl rfl⟩

/-- Whatever comes of it, a write takes nothing away from any source. -/
theorem place_grows {s : Supply} (h : s.Sound) {src : Source} (hs : s.Has src)
    {fs : List Fragment} (hfs : ∀ f ∈ fs, f.Storable) :
    (place src fs s).2.Sound ∧ s.Grows (place src fs s).2 := by
  cases src with
  | direct => exact putDirect_grows h fs
  | store id =>
    show (putStored id fs s).2.Sound ∧ s.Grows (putStored id fs s).2
    obtain ⟨hsaved, hkeep, _⟩ := saveAll_grows (h.store id) hfs
    obtain ⟨hsound, hgrows⟩ := Supply.setStore_grows h hs hsaved hkeep
    rcases (putStored_eq id fs s).2 with he | he
    · rw [he]
      exact ⟨hsound, hgrows⟩
    · rw [he]
      exact ⟨hsound.of_content rfl rfl rfl, hgrows.trans (.of_content rfl rfl rfl)⟩

@[simp] theorem sources_place (src : Source) (fs : List Fragment) (s : Supply) :
    (place src fs s).2.sources = s.sources := by
  cases src with
  | direct =>
    show (putDirect fs s).2.sources = s.sources
    rw [putDirect_eq]
    split
    · rfl
    · obtain ⟨c, hc⟩ := s.publish_eq fs
      rw [hc]
      rfl
  | store id =>
    show (putStored id fs s).2.sources = s.sources
    rcases (putStored_eq id fs s).2 with he | he <;> rw [he] <;> rfl

/-- Whatever a source holds after a write it held before, or it is the source of the write and holds
one of its fragments. -/
theorem holds?_of_place {s : Supply} (h : s.Sound) {src : Source} (hs : s.Has src)
    {fs : List Fragment} (hfs : ∀ f ∈ fs, f.Storable) {src' : Source} {n : Name} {g : Fragment}
    (hg : (place src fs s).2.holds? src' n = some g) :
    s.holds? src' n = some g ∨ src' = src ∧ g ∈ fs ∧ g.name = n := by
  have hname := (place_grows h hs hfs).1.name_of_holds? hg
  cases src with
  | direct =>
    have hg' : (putDirect fs s).2.holds? src' n = some g := hg
    rw [putDirect_eq] at hg'
    split at hg'
    · exact .inl hg'
    · obtain ⟨c, hc⟩ := s.publish_eq fs
      cases src' with
      | store id =>
        rw [hc] at hg'
        exact .inl hg'
      | direct =>
        rw [(Supply.publish_grows h fs).2.2, Option.or_eq_some_iff] at hg'
        rcases hg' with hold | ⟨_, hnew⟩
        · exact .inl hold
        · exact .inr ⟨rfl, List.mem_of_find?_eq_some hnew, hname⟩
  | store id =>
    -- In a store what was saved before a conflict stays, so both outcomes of the put are looked at.
    have hview : (s.setStore id (saveAll fs (s.store id)).2).holds? src' n = some g := by
      have hg' : (putStored id fs s).2.holds? src' n = some g := hg
      rcases (putStored_eq id fs s).2 with he | he
      · rw [he] at hg'
        exact hg'
      · rw [he] at hg'
        cases src' <;> exact hg'
    cases src' with
    | direct => exact .inl hview
    | store id' =>
      have hview' : ((s.setStore id (saveAll fs (s.store id)).2).store id').holds? n = some g :=
        hview
      by_cases he : id' = id
      · rw [he, Supply.store_setStore_self hs] at hview'
        rw [he]
        rcases (saveAll_grows (h.store id) hfs).2.2 n g hview' with hold | hnew
        · exact .inl hold
        · exact .inr ⟨rfl, hnew, hname⟩
      · rw [Supply.store_setStore_of_ne he] at hview'
        exact .inl hview'

/-- A source holds a fragment, as far as it can tell. -/
def Holds (s : Supply) (src : Source) (f : Fragment) : Prop :=
  ∃ held, s.holds? src f.name = some held ∧ ¬ src.TellsApart held f

/-- A source holds a fragment that is in the way of another. -/
def Obstructs (s : Supply) (src : Source) (f : Fragment) : Prop :=
  ∃ held, s.holds? src f.name = some held ∧ src.TellsApart held f

theorem Holds.of_grows {s s' : Supply} (h : s.Grows s') {src : Source} {f : Fragment}
    (hf : Holds s src f) : Holds s' src f := by
  obtain ⟨held, hheld, ht⟩ := hf
  exact ⟨held, h.holds _ _ _ hheld, ht⟩

/-- What obstructs a fragment keeps it out for good. -/
theorem not_holds_of_obstructs {s s' : Supply} (h : s.Grows s') {src : Source} {f : Fragment}
    (hf : Obstructs s src f) : ¬ Holds s' src f := by
  obtain ⟨held, hheld, ht⟩ := hf
  rintro ⟨held', hheld', ht'⟩
  have hsame := (h.holds _ _ _ hheld).symm.trans hheld'
  rw [← Option.some.inj hsame] at ht'
  exact ht' ht

theorem putDirect_cases {s : Supply} (h : s.Sound) {fs : List Fragment} (hd : DistinctNames fs) :
    (∃ f ∈ fs, (putDirect fs s).1 = .error (.writeConflict f.name) ∧ Obstructs s .direct f) ∨
      (putDirect fs s).1 = .ok () ∧ ∀ f ∈ fs, Holds (putDirect fs s).2 .direct f := by
  rw [putDirect_eq]
  split
  · next f hclash =>
    left
    refine ⟨f, List.mem_of_find?_eq_some hclash, rfl, ?_⟩
    have hany := List.find?_some hclash
    obtain ⟨held, hheld, hne⟩ := (Option.any_eq_true _ _).mp hany
    exact ⟨held, hheld, bne_iff_ne.mp hne⟩
  · next hclash =>
    right
    refine ⟨rfl, fun f hf => ?_⟩
    obtain ⟨_, _, hholds⟩ := Supply.publish_grows h fs
    have hfind := hd.find?_eq_some_iff.mpr ⟨hf, rfl⟩
    refine ⟨f, ?_, Source.not_tellsApart_self _ _⟩
    rw [hholds, hfind]
    cases hheld : s.holds? .direct f.name with
    | none => rfl
    | some held =>
      -- The name was taken without a clash, so it was taken by the fragment itself.
      have hno := List.find?_eq_none.mp hclash f hf
      have hheld' : s.direct.get? f.name = some held := hheld
      rw [hheld', Option.any_some, bne_iff_ne, ne_eq, Classical.not_not] at hno
      rw [hno]
      rfl

theorem putStored_cases {s : Supply} (h : s.Sound) {id : StoreId} (hs : s.Has (.store id))
    {fs : List Fragment} (hfs : ∀ f ∈ fs, f.Storable) (hd : DistinctNames fs) :
    (∃ f ∈ fs, (putStored id fs s).1 = .error (.writeConflict f.name) ∧
      Obstructs s (.store id) f) ∨
    (putStored id fs s).1 = .ok () ∧ ∀ f ∈ fs, Holds (putStored id fs s).2 (.store id) f := by
  obtain ⟨hout, hafter⟩ := putStored_eq id fs s
  have hview : ∀ n, (putStored id fs s).2.holds? (.store id) n =
      (saveAll fs (s.store id)).2.holds? n := by
    intro n
    have hself : ((s.setStore id (saveAll fs (s.store id)).2).store id).holds? n =
        (saveAll fs (s.store id)).2.holds? n := by rw [Supply.store_setStore_self hs]
    rcases hafter with he | he
    · rw [he]
      exact hself
    · rw [he]
      exact hself
  rw [hout]
  rcases saveAll_cases (h.store id) hfs with ⟨hok, hall⟩ | ⟨f, hf, held, herr, hheld, hne⟩
  · right
    refine ⟨hok, fun f hf => ?_⟩
    obtain ⟨held, hheld, hdig⟩ := hall f hf
    exact ⟨held, (hview _).trans hheld, fun hne => hne hdig⟩
  · left
    refine ⟨f, hf, herr, held, ?_, hne⟩
    rcases (saveAll_grows (h.store id) hfs).2.2 _ _ hheld with hold | hnew
    · exact hold
    · -- A fragment of the write itself is in nobody's way.
      have hsound := (saveAll_grows (h.store id) hfs).1
      have hname := hsound.name_of_holds? hheld
      rw [hd.eq_of_name_eq hnew hf hname] at hne
      exact absurd rfl hne

/-- A write fails with a conflict if its source holds something that is in the way of one of the
fragments; otherwise the source holds them all afterwards. -/
theorem place_cases {s : Supply} (h : s.Sound) {src : Source} (hs : s.Has src)
    {fs : List Fragment} (hfs : ∀ f ∈ fs, f.Storable) (hd : DistinctNames fs) :
    (∃ f ∈ fs, (place src fs s).1 = .error (.writeConflict f.name) ∧ Obstructs s src f) ∨
      (place src fs s).1 = .ok () ∧ (∀ f ∈ fs, Holds (place src fs s).2 src f) ∧
        ∀ f ∈ fs, ¬ Obstructs s src f := by
  have hcases : (∃ f ∈ fs, (place src fs s).1 = .error (.writeConflict f.name) ∧
      Obstructs s src f) ∨
      (place src fs s).1 = .ok () ∧ ∀ f ∈ fs, Holds (place src fs s).2 src f := by
    cases src with
    | direct => exact putDirect_cases h hd
    | store id => exact putStored_cases h hs hfs hd
  rcases hcases with hconflict | ⟨hok, hall⟩
  · exact .inl hconflict
  · right
    refine ⟨hok, hall, fun f hf hobs => ?_⟩
    exact not_holds_of_obstructs (place_grows h hs hfs).2 hobs (hall f hf)

end WritePath
end NamedContent
