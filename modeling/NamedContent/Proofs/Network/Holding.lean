import Mathlib.Data.List.GetD
import NamedContent.Network.Supply
import NamedContent.Proofs.Network.Lookup
import NamedContent.Proofs.Store.Holding

/-!
# What the sources of a supply hold

A supply has one source that is written directly and one for every store. Lookups use the direct one
first and then the attached stores in their order. A lookup selects once from all that they hold,
one after the other (`find_eq_select`), so an exact one returns what the first of them holds that
holds anything under the name (`get_exact`). Nothing that is put on the network directly and no
store that keeps what it had takes anything away from any source (`publish_grows`,
`setStore_grows`).
-/

namespace NamedContent

/-- Where a supply keeps fragments. -/
inductive Source where
  | direct
  | store (id : StoreId)
  deriving DecidableEq

namespace Supply

/-- The fragment that a source holds under a name. -/
def holds? (s : Supply) : Source → Name → Option Fragment
  | .direct, n => s.direct.get? n
  | .store id, n => (s.store id).holds? n

/-- The sources that lookups use, in order. -/
def sources (s : Supply) : List Source := .direct :: s.attached.map .store

/-- The source exists. -/
def Has (s : Supply) : Source → Prop
  | .direct => True
  | .store id => id.index < s.stores.length

variable [Suite]

/-- All sources keep what was put in them. -/
structure Sound (s : Supply) : Prop where
  keyed : ∀ e ∈ s.direct.entries, e.1 = e.2.name
  stores_sound : ∀ store ∈ s.stores, store.Sound
  has_attached : ∀ id ∈ s.attached, id.index < s.stores.length

theorem sound_empty : (Store.memory .empty).Sound :=
  ⟨_, .memory fun e he => by cases he⟩

theorem sound_new (config : NetworkConfig) : ({ config } : Supply).Sound := ⟨nofun, nofun, nofun⟩

theorem Sound.store {s : Supply} (h : s.Sound) (id : StoreId) : (s.store id).Sound := by
  unfold Supply.store
  by_cases hid : id.index < s.stores.length
  · rw [List.getD_eq_getElem _ _ hid]
    exact h.stores_sound _ (List.getElem_mem hid)
  · rw [List.getD_eq_default _ _ (by omega)]
    exact sound_empty

theorem Sound.has_of_mem {s : Supply} (h : s.Sound) {src : Source} (hsrc : src ∈ s.sources) :
    s.Has src := by
  cases src with
  | direct => trivial
  | store id =>
    rcases List.mem_cons.mp hsrc with he | hm
    · cases he
    · obtain ⟨_, hid, he⟩ := List.mem_map.mp hm
      cases he
      exact h.has_attached id hid

theorem Sound.name_of_holds? {s : Supply} (h : s.Sound) {src : Source} {n : Name} {f : Fragment}
    (hf : s.holds? src n = some f) : f.name = n := by
  cases src with
  | direct =>
    have hk := h.keyed _ (NameMap.get?_eq_some_iff.mp hf)
    exact hk.symm
  | store id => exact (h.store id).name_of_holds? hf

/-! ### All that is served -/

omit [Suite] in
/-- A source that lookups use holds the fragment. -/
def Serves (s : Supply) (f : Fragment) : Prop := ∃ src ∈ s.sources, s.holds? src f.name = some f

omit [Suite] in
/-- What the sources hold, one after the other. -/
def contents (s : Supply) : List Fragment :=
  s.direct.values ++ s.attached.flatMap fun id => (s.store id).fragments

theorem Sound.keeps_direct {s : Supply} (h : s.Sound) :
    (Store.memory ⟨s.direct, .empty⟩).Keeps s.direct.values :=
  .memory h.keyed

theorem Sound.holds?_direct {s : Supply} (h : s.Sound) (n : Name) :
    s.holds? .direct n = (Store.memory ⟨s.direct, .empty⟩).holds? n :=
  Store.get?_eq_holds? (m := ⟨s.direct, .empty⟩) h.keyed n

theorem mem_contents_iff {s : Supply} (h : s.Sound) {f : Fragment} :
    f ∈ s.contents ↔ s.Serves f := by
  have hdirect : f ∈ s.direct.values ↔ s.holds? .direct f.name = some f := by
    rw [h.holds?_direct, h.keeps_direct.holds?_eq_some_iff]
    exact (and_iff_left rfl).symm
  unfold contents Serves sources
  rw [List.mem_append, List.mem_flatMap, hdirect]
  constructor
  · rintro (hf | ⟨id, hid, hf⟩)
    · exact ⟨.direct, List.mem_cons_self, hf⟩
    · exact ⟨.store id, List.mem_cons_of_mem _ (List.mem_map_of_mem hid),
        (h.store id).mem_fragments_iff.mp hf⟩
  · rintro ⟨src, hsrc, hf⟩
    rcases List.mem_cons.mp hsrc with rfl | hsrc
    · exact .inl hf
    · obtain ⟨id, hid, rfl⟩ := List.mem_map.mp hsrc
      exact .inr ⟨id, hid, (h.store id).mem_fragments_iff.mpr hf⟩

/-- Of all that is served, what the first source holds comes first. -/
theorem find?_contents {s : Supply} (h : s.Sound) (n : Name) (p : Fragment → Bool) :
    s.contents.find? (fun g => g.name == n && p g) =
      s.sources.findSome? fun src => (s.holds? src n).filter p := by
  have hdirect : s.direct.values.find? (fun g => g.name == n && p g) =
      (s.holds? .direct n).filter p := by
    rw [h.holds?_direct]
    exact Store.Sound.find?_fragments ⟨_, h.keeps_direct⟩ n p
  have hstores : (s.attached.flatMap fun id => (s.store id).fragments).find?
      (fun g => g.name == n && p g) =
        (s.attached.map .store).findSome? fun src => (s.holds? src n).filter p := by
    rw [List.find?_flatMap, List.findSome?_map]
    congr 1
    funext id
    exact (h.store id).find?_fragments n p
  rw [contents, sources, List.find?_append, List.findSome?_cons, hdirect, hstores]
  cases (s.holds? .direct n).filter p <;> rfl

/-! ### Lookups -/

/-- A lookup selects once from all that is served, the direct content first and then the stores in
the order in which they were attached. -/
theorem find_eq_select {s : Supply} (h : s.Sound) (i : Interest) :
    s.find i = .ok (i.select s.contents) := by
  have hdirect : i.select (s.direct.under i.name) = i.select s.direct.values :=
    Except.ok.inj (Store.find?_eq ⟨_, h.keeps_direct⟩ i)
  have hstored : s.attached.mapM (fun id => (s.store id).find? i) =
      .ok (s.attached.map fun id => i.select (s.store id).fragments) := by
    rw [mapM_eq_ok_iff, List.forall₂_map_right_iff, List.forall₂_same]
    intro id _
    exact Store.find?_eq (h.store id) i
  unfold find
  simp only [hstored, bind, Except.bind, pure, Except.pure]
  rw [contents, hdirect, Interest.select_append, Interest.select_toList, List.filterMap_map,
    Interest.select_append, ← Interest.select_filterMap]
  rfl

/-- Whatever a lookup finds is held by a source that lookups use. -/
theorem holds?_of_find {s : Supply} (h : s.Sound) {i : Interest} {f : Fragment}
    (hf : s.find i = .ok (some f)) : s.Serves f := by
  rw [find_eq_select h] at hf
  obtain ⟨hmem, _⟩ := Interest.select_eq_some (Except.ok.inj hf)
  exact (mem_contents_iff h).mp hmem

/-- An exact lookup returns what the first source holds that holds anything of the wanted publisher
under the name. -/
theorem get_exact {s : Supply} (h : s.Sound) (n : Name) (p : Option Publisher) :
    s.get (.exact n p) =
      .ok (s.sources.findSome? fun src => (s.holds? src n).filter fun f => f.isFrom p) := by
  apply get_of_find
  rw [find_eq_select h, Interest.select_exact, ← find?_contents h]
  congr 2
  funext f
  rw [Bool.eq_iff_iff, Interest.accepts_exact_eq_true_iff, Bool.and_eq_true, beq_iff_eq]

/-! ### Direct content -/

omit [Suite] in
theorem addNew_eq_of_zero {content : NameMap Fragment} {fs : List Fragment}
    (h : (addNew content fs).1 = 0) : (addNew content fs).2 = content := by
  induction fs with
  | nil => rfl
  | cons f fs ih =>
    unfold addNew at h ⊢
    split at h
    · next hc =>
      rw [if_pos hc]
      exact ih h
    · cases h

omit [Suite] in
/-- A name that has a fragment keeps it; a free one takes the first that is offered. -/
@[simp] theorem get?_addNew (content : NameMap Fragment) (fs : List Fragment) (n : Name) :
    (addNew content fs).2.get? n = (content.get? n).or (fs.find? fun f => f.name == n) := by
  induction fs generalizing content with
  | nil => simp [addNew]
  | cons f fs ih =>
    unfold addNew
    rw [List.find?_cons]
    split
    · next hc =>
      rw [ih]
      by_cases hn : f.name = n
      · rw [NameMap.contains, hn] at hc
        obtain ⟨g, hg⟩ := Option.isSome_iff_exists.mp hc
        simp [hg]
      · have hb : (f.name == n) = false := beq_eq_false_iff_ne.mpr hn
        rw [hb]
    · next hc =>
      have hfree : content.get? f.name = none := by
        rw [NameMap.contains] at hc
        simpa using hc
      dsimp only
      rw [ih]
      by_cases hn : f.name = n
      · rw [← hn, NameMap.get?_insertNew_self, hfree]
        simp
      · have hb : (f.name == n) = false := beq_eq_false_iff_ne.mpr hn
        rw [NameMap.get?_insertNew_of_ne _ (Ne.symm hn), hb]

omit [Suite] in
theorem keyed_addNew {content : NameMap Fragment} (fs : List Fragment)
    (h : ∀ e ∈ content.entries, e.1 = e.2.name) :
    ∀ e ∈ (addNew content fs).2.entries, e.1 = e.2.name := by
  rintro ⟨n, f⟩ he
  have hget := NameMap.get?_eq_some_iff.mpr he
  rw [get?_addNew] at hget
  rcases Option.or_eq_some_iff.mp hget with hold | ⟨_, hnew⟩
  · exact h _ (NameMap.get?_eq_some_iff.mp hold)
  · have hname : f.name = n := by simpa using List.find?_some hnew
    exact hname.symm

omit [Suite] in
theorem publish_eq (s : Supply) (fs : List Fragment) :
    ∃ c, (s.publish fs).2 = { s with direct := (addNew s.direct fs).2, changes := c } := by
  unfold publish
  dsimp only
  split
  · next h =>
    refine ⟨s.changes, ?_⟩
    rw [addNew_eq_of_zero h]
  · exact ⟨_, rfl⟩

/-! ### Growth -/

omit [Suite] in
/-- Every source still holds what it held, and the same sources and more are served. -/
structure Grows (s s' : Supply) : Prop where
  holds : ∀ src n f, s.holds? src n = some f → s'.holds? src n = some f
  sources : ∀ src ∈ s.sources, src ∈ s'.sources
  has : ∀ src, s.Has src → s'.Has src

omit [Suite] in
theorem Grows.refl (s : Supply) : s.Grows s := ⟨fun _ _ _ h => h, fun _ h => h, fun _ h => h⟩

omit [Suite] in
theorem Grows.trans {s t u : Supply} (h : s.Grows t) (h' : t.Grows u) : s.Grows u :=
  ⟨fun src n f hf => h'.holds src n f (h.holds src n f hf),
    fun src hs => h'.sources src (h.sources src hs), fun src hs => h'.has src (h.has src hs)⟩

omit [Suite] in
/-- What is held depends on the content of the supply only. -/
theorem holds?_of_content {s s' : Supply} (hd : s'.direct = s.direct) (hs : s'.stores = s.stores)
    (src : Source) (m : Name) : s'.holds? src m = s.holds? src m := by
  cases src with
  | direct =>
    show s'.direct.get? m = s.direct.get? m
    rw [hd]
  | store id =>
    show (s'.stores.getD id.index _).holds? m = (s.stores.getD id.index _).holds? m
    rw [hs]

omit [Suite] in
theorem Grows.of_content {s s' : Supply} (hd : s'.direct = s.direct) (hs : s'.stores = s.stores)
    (ha : s'.attached = s.attached) : s.Grows s' := by
  refine ⟨fun src n f hf => ?_, fun src hsrc => ?_, ?_⟩
  · rw [holds?_of_content hd hs]
    exact hf
  · rw [Supply.sources, ha]
    exact hsrc
  · rintro (_ | id) hsrc
    · trivial
    · show id.index < s'.stores.length
      rw [hs]
      exact hsrc

omit [Suite] in
/-- How often a supply has changed plays no part. -/
theorem Grows.of_changes {s s' : Supply} {c : Nat} (h : s' = { s with changes := c }) :
    s.Grows s' := by
  rw [h]
  exact .of_content rfl rfl rfl

theorem Sound.of_content {s s' : Supply} (h : s.Sound) (hd : s'.direct = s.direct)
    (hs : s'.stores = s.stores) (ha : s'.attached = s.attached) : s'.Sound := by
  refine ⟨?_, ?_, ?_⟩
  · rw [hd]
    exact h.keyed
  · rw [hs]
    exact h.stores_sound
  · rw [hs, ha]
    exact h.has_attached

theorem publish_grows {s : Supply} (h : s.Sound) (fs : List Fragment) :
    (s.publish fs).2.Sound ∧ s.Grows (s.publish fs).2 ∧
      (∀ n, (s.publish fs).2.holds? .direct n =
        (s.holds? .direct n).or (fs.find? fun f => f.name == n)) := by
  obtain ⟨c, hc⟩ := s.publish_eq fs
  rw [hc]
  refine ⟨⟨keyed_addNew fs h.keyed, h.stores_sound, h.has_attached⟩, ⟨?_, fun _ hs => hs,
    fun _ hs => hs⟩, fun n => get?_addNew s.direct fs n⟩
  rintro (_ | id) n f hf
  · show (addNew s.direct fs).2.get? n = some f
    have hf' : s.direct.get? n = some f := hf
    rw [get?_addNew, hf']
    rfl
  · exact hf

/-- Where only these were published, they are what is served. -/
theorem serves_publish_new_iff (config : NetworkConfig) {fs : List Fragment} (h : DistinctNames fs)
    {f : Fragment} : (({ config } : Supply).publish fs).2.Serves f ↔ f ∈ fs := by
  have hdirect := (publish_grows (sound_new config) fs).2.2 f.name
  have hsources : (({ config } : Supply).publish fs).2.sources = [.direct] := by
    obtain ⟨c, hc⟩ := publish_eq ({ config } : Supply) fs
    rw [hc]
    rfl
  rw [show ({ config } : Supply).holds? .direct f.name = none from rfl, Option.none_or] at hdirect
  unfold Serves
  rw [hsources]
  simp only [List.mem_singleton, exists_eq_left, hdirect, h.find?_eq_some_iff, and_true]

omit [Suite] in
theorem store_setStore_self {s : Supply} {id : StoreId} (h : id.index < s.stores.length)
    (store : Store) : (s.setStore id store).store id = store := by
  unfold Supply.store setStore
  rw [List.getD_eq_getElem _ _ (by rw [List.length_set]; exact h), List.getElem_set_self]

omit [Suite] in
theorem store_setStore_of_ne {s : Supply} {id id' : StoreId} (h : id' ≠ id) (store : Store) :
    (s.setStore id store).store id' = s.store id' := by
  have hi : id.index ≠ id'.index := by
    intro hi
    cases id
    cases id'
    exact h (congrArg StoreId.mk hi.symm)
  unfold Supply.store setStore
  rw [List.getD_eq_getElem?_getD, List.getD_eq_getElem?_getD, List.getElem?_set_ne hi]

/-- Replacing a store by one that holds as much and more. -/
theorem setStore_grows {s : Supply} (h : s.Sound) {id : StoreId} (hid : s.Has (.store id))
    {store : Store} (hs : store.Sound)
    (hgrow : ∀ n f, (s.store id).holds? n = some f → store.holds? n = some f) :
    (s.setStore id store).Sound ∧ s.Grows (s.setStore id store) := by
  have hlen : (s.setStore id store).stores.length = s.stores.length := List.length_set
  refine ⟨⟨h.keyed, ?_, ?_⟩, ⟨?_, fun _ hs => hs, ?_⟩⟩
  · intro st hst
    rcases List.mem_or_eq_of_mem_set hst with hst | rfl
    · exact h.stores_sound st hst
    · exact hs
  · intro id' hid'
    rw [hlen]
    exact h.has_attached id' hid'
  · rintro (_ | id') n f hf
    · exact hf
    · show ((s.setStore id store).store id').holds? n = some f
      by_cases he : id' = id
      · rw [he, store_setStore_self hid]
        apply hgrow
        rw [← he]
        exact hf
      · rw [store_setStore_of_ne he]
        exact hf
  · rintro (_ | id') hsrc
    · trivial
    · show id'.index < (s.setStore id store).stores.length
      rw [hlen]
      exact hsrc

theorem addStore_grows {s : Supply} (h : s.Sound) {store : Store} (hs : store.Sound) :
    (s.addStore store).2.Sound ∧ s.Grows (s.addStore store).2 := by
  have hlen : (s.addStore store).2.stores.length = s.stores.length + 1 := List.length_append
  refine ⟨⟨h.keyed, ?_, ?_⟩, ⟨?_, fun _ hsrc => hsrc, ?_⟩⟩
  · intro st hst
    rcases List.mem_append.mp hst with hst | hst
    · exact h.stores_sound st hst
    · rw [List.mem_singleton.mp hst]
      exact hs
  · intro id hid
    have := h.has_attached id hid
    omega
  · rintro (_ | id) n f hf
    · exact hf
    · show ((s.stores ++ [store]).getD id.index (.memory .empty)).holds? n = some f
      have hf' : (s.stores.getD id.index (.memory .empty)).holds? n = some f := hf
      by_cases hid : id.index < s.stores.length
      · rw [List.getD_append _ _ _ _ hid]
        exact hf'
      · -- There was no such store, so it held nothing.
        rw [List.getD_eq_default _ _ (by omega)] at hf'
        cases hf'
  · rintro (_ | id) hsrc
    · trivial
    · have hsrc' : id.index < s.stores.length := hsrc
      show id.index < (s.addStore store).2.stores.length
      omega

theorem attach_grows {s : Supply} (h : s.Sound) {id : StoreId} (hid : s.Has (.store id)) :
    (s.attach id).Sound ∧ s.Grows (s.attach id) ∧ .store id ∈ (s.attach id).sources := by
  have hmem : ∀ x, x ∈ (s.attach id).attached ↔ x ∈ s.attached ∨ x = id := by
    intro x
    show x ∈ (if s.attached.contains id then s.attached else s.attached ++ [id]) ↔ _
    split
    · next hc =>
      rw [List.contains_iff_mem] at hc
      constructor
      · exact .inl
      · rintro (hx | rfl)
        · exact hx
        · exact hc
    · rw [List.mem_append, List.mem_singleton]
  refine ⟨⟨h.keyed, h.stores_sound, ?_⟩, ⟨?_, ?_, ?_⟩, ?_⟩
  · intro x hx
    rcases (hmem x).mp hx with hx | rfl
    · exact h.has_attached x hx
    · exact hid
  · rintro (_ | x) n f hf <;> exact hf
  · intro src hsrc
    rcases List.mem_cons.mp hsrc with rfl | hsrc
    · exact List.mem_cons_self
    · obtain ⟨x, hx, rfl⟩ := List.mem_map.mp hsrc
      exact List.mem_cons_of_mem _ (List.mem_map.mpr ⟨x, (hmem x).mpr (.inl hx), rfl⟩)
  · rintro (_ | x) hsrc <;> exact hsrc
  · exact List.mem_cons_of_mem _ (List.mem_map.mpr ⟨id, (hmem id).mpr (.inr rfl), rfl⟩)

/-! ### Supplies that serve the same -/

/-- Two supplies serve the same content under the same settings. -/
structure Alike (s s' : Supply) : Prop where
  holds : ∀ src m, s'.holds? src m = s.holds? src m
  sources : s'.sources = s.sources
  has : ∀ src, s.Has src → s'.Has src
  config : s'.config = s.config
  clock : s'.clock = s.clock

omit [Suite] in
theorem Alike.refl (s : Supply) : s.Alike s :=
  ⟨fun _ _ => rfl, rfl, fun _ hhas => hhas, rfl, rfl⟩

omit [Suite] in
theorem Alike.trans {s t u : Supply} (h : s.Alike t) (h' : t.Alike u) : s.Alike u :=
  ⟨fun src m => (h'.holds src m).trans (h.holds src m), h'.sources.trans h.sources,
    fun src hhas => h'.has src (h.has src hhas), h'.config.trans h.config, h'.clock.trans h.clock⟩

omit [Suite] in
/-- How often a supply has changed, and what is registered, plays no part. -/
theorem alike_of_content {s s' : Supply} (hd : s'.direct = s.direct) (hs : s'.stores = s.stores)
    (ha : s'.attached = s.attached) (hconfig : s'.config = s.config) (hclock : s'.clock = s.clock) :
    s.Alike s' := by
  refine ⟨fun src m => holds?_of_content hd hs src m, ?_, ?_, hconfig, hclock⟩
  · unfold sources
    rw [ha]
  · exact (Grows.of_content hd hs ha).has

omit [Suite] in
theorem Alike.grows {s s' : Supply} (h : s.Alike s') : s.Grows s' := by
  refine ⟨fun src m f hf => ?_, fun src hsrc => ?_, h.has⟩
  · rw [h.holds]
    exact hf
  · rw [h.sources]
    exact hsrc

/-- Replacing a store by one that holds the same. -/
theorem alike_setStore {s : Supply} (h : s.Sound) {id : StoreId} (hid : s.Has (.store id))
    {store : Store} (hs : store.Sound) (hsame : ∀ n, store.holds? n = (s.store id).holds? n) :
    (s.setStore id store).Sound ∧ s.Alike (s.setStore id store) := by
  obtain ⟨hsound, hgrows⟩ := setStore_grows h hid hs fun n f hf => (hsame n).trans hf
  refine ⟨hsound, fun src n => ?_, rfl, hgrows.has, rfl, rfl⟩
  cases src with
  | direct => rfl
  | store id' =>
    show ((s.setStore id store).store id').holds? n = (s.store id').holds? n
    by_cases he : id' = id
    · rw [he, store_setStore_self hid, hsame]
    · rw [store_setStore_of_ne he]

/-- Attaching a store that is served already only counts as a change. -/
theorem alike_attach {s : Supply} (h : s.Sound) {id : StoreId} (hsrc : .store id ∈ s.sources) :
    (s.attach id).Sound ∧ s.Alike (s.attach id) := by
  refine ⟨(attach_grows h (h.has_of_mem hsrc)).1, alike_of_content rfl rfl ?_ rfl rfl⟩
  rcases List.mem_cons.mp hsrc with he | hm
  · cases he
  · obtain ⟨_, hid, he⟩ := List.mem_map.mp hm
    cases he
    exact if_pos (List.contains_iff_mem.mpr hid)

/-! ### The order of lookups -/

/-- The sources that lookups use before a source. -/
def ahead (s : Supply) (src : Source) : List Source := s.sources.takeWhile (· != src)

omit [Suite] in
theorem findSome?_sources {l : List Source} {src : Source} (h : src ∈ l)
    (held : Source → Option Fragment)
    {f : Fragment} (hf : held src = some f) :
    l.findSome? held = ((l.takeWhile (· != src)).findSome? held).or (some f) := by
  induction l with
  | nil => cases h
  | cons a l ih =>
    by_cases ha : a = src
    · rw [ha, List.findSome?_cons, hf, List.takeWhile_cons]
      simp
    · have hne : (a != src) = true := bne_iff_ne.mpr ha
      rw [List.takeWhile_cons, hne, List.findSome?_cons, if_pos rfl, List.findSome?_cons]
      cases held a with
      | some g => rfl
      | none =>
        exact ih ((List.mem_cons.mp h).resolve_left fun he => ha he.symm)

/-- A lookup that a source could answer is answered by it, or by one that comes before it. -/
theorem get_exact_of_holds {s : Supply} (h : s.Sound) {src : Source} (hsrc : src ∈ s.sources)
    {n : Name} {f : Fragment} (hf : s.holds? src n = some f) :
    s.get (.exact n) = .ok (((s.ahead src).findSome? fun a => s.holds? a n).or (some f)) := by
  have hall : (fun src => (s.holds? src n).filter fun f => f.isFrom none) =
      fun src => s.holds? src n := by
    funext src
    cases s.holds? src n <;> rfl
  rw [get_exact h, hall, findSome?_sources hsrc (fun a => s.holds? a n) hf]
  rfl

end Supply
end NamedContent
