import NamedContent.Proofs.Network.Acknowledged

/-!
# What a rejected write leaves behind

A store takes the fragments of a write one after the other, up to the first that is in conflict with
what it holds. Those before it stay (`saveAll_of_conflict`, `holds?_of_saveAll`). So the store is
what it was after a rejected write exactly if it held all of these already; nothing else on the
network changes. A write of a single fragment leaves nothing behind, nor does a raw write
(`unchanged_iff_of_rejected`).

A part that was left behind is served like any other content, and may complete a version together
with the fragments that were in the way: a reader then gets a payload that nobody wrote
(`not_always_unchanged`).
-/

namespace NamedContent

section

variable [Suite]

namespace WritePath

/-- A store that all fragments were saved in holds what it held and, under the names that were free,
these fragments. -/
theorem holds?_of_saveAll {store store' : Store} (h : store.Sound) {fs : List Fragment}
    (hfs : ∀ f ∈ fs, f.Storable) (hd : DistinctNames fs)
    (hok : saveAll fs store = (.ok (), store')) (n : Name) :
    store'.holds? n = (store.holds? n).or (fs.find? fun f => f.name == n) := by
  obtain ⟨hsound, hkeep, hnew⟩ := saveAll_grows h hfs
  rw [hok] at hsound hkeep hnew
  have hall : ∀ f ∈ fs, ∃ g, store'.holds? f.name = some g := by
    rcases saveAll_cases h hfs with ⟨_, hall⟩ | ⟨_, _, _, herr, _⟩
    · intro f hf
      rw [hok] at hall
      obtain ⟨g, hg, _⟩ := hall f hf
      exact ⟨g, hg⟩
    · rw [hok] at herr
      cases herr
  cases hold : store.holds? n with
  | some g => exact hkeep n g hold
  | none =>
    rw [Option.none_or]
    -- The name was free, so what is held there now is one of those that were saved.
    have honly : ∀ g, store'.holds? n = some g → g ∈ fs ∧ g.name = n := by
      intro g hg
      refine ⟨(hnew n g hg).resolve_left fun he => ?_, hsound.name_of_holds? hg⟩
      rw [hold] at he
      cases he
    apply Option.ext
    intro f
    rw [hd.find?_eq_some_iff]
    constructor
    · exact honly f
    · rintro ⟨hf, rfl⟩
      obtain ⟨g, hg⟩ := hall f hf
      obtain ⟨hgmem, hgname⟩ := honly g hg
      rw [hg, hd.eq_of_name_eq hf hgmem hgname.symm]

/-- A conflict leaves what came before it saved. -/
theorem saveAll_of_conflict {store store' : Store} (h : store.Sound) {fs : List Fragment}
    (hfs : ∀ f ∈ fs, f.Storable) {n : Name}
    (hc : saveAll fs store = (.error (.writeConflict n), store')) :
    ∃ saved f rest, fs = saved ++ f :: rest ∧ f.name = n ∧
      saveAll saved store = (.ok (), store') ∧
      ∃ held, store'.holds? n = some held ∧ held.digest ≠ f.digest := by
  induction fs generalizing store with
  | nil => cases hc
  | cons f fs ih =>
    have hrest : ∀ g ∈ fs, g.Storable := fun g hg => hfs g (List.mem_cons_of_mem _ hg)
    have hf : f.Storable := hfs f List.mem_cons_self
    -- A fragment that is saved, or was there, is one more before the conflict.
    have hlift : ∀ {mid : Store}, mid.Sound → (∀ gs, saveAll (f :: gs) store = saveAll gs mid) →
        ∃ saved g rest, f :: fs = saved ++ g :: rest ∧ g.name = n ∧
          saveAll saved store = (.ok (), store') ∧
          ∃ held, store'.holds? n = some held ∧ held.digest ≠ g.digest := by
      intro mid hmid hstep
      rw [hstep] at hc
      obtain ⟨saved, g, rest, rfl, hn, hsaved, hheld⟩ := ih hmid hrest hc
      exact ⟨f :: saved, g, rest, rfl, hn, (hstep saved).trans hsaved, hheld⟩
    cases hheld : store.holds? f.name with
    | none =>
      obtain ⟨mid, hsave, hmid, _⟩ := Store.save_of_free h hf hheld
      exact hlift hmid fun _ => saveAll_of_free hsave
    | some g =>
      have hsave := Store.save_of_held h hf hheld
      by_cases hdigest : g.digest = f.digest
      · refine hlift h fun gs => ?_
        rw [saveAll_of_held gs hsave, if_pos hdigest]
      · rw [saveAll_of_held fs hsave, if_neg hdigest] at hc
        cases hc
        exact ⟨[], f, fs, rfl, rfl, rfl, g, hheld, hdigest⟩

/-- What a store holds after a write to it. -/
theorem holds?_putStored {s : Supply} {id : StoreId} (hs : s.Has (.store id)) (fs : List Fragment)
    (n : Name) : (putStored id fs s).2.holds? (.store id) n =
      (saveAll fs (s.store id)).2.holds? n := by
  have hself : ((s.setStore id (saveAll fs (s.store id)).2).store id).holds? n =
      (saveAll fs (s.store id)).2.holds? n := by rw [Supply.store_setStore_self hs]
  rcases (putStored_eq id fs s).2 with he | he <;> rw [he] <;> exact hself

/-- Other sources hold what they held. -/
theorem holds?_putStored_of_ne {s : Supply} {id : StoreId} {src : Source} (hsrc : src ≠ .store id)
    (fs : List Fragment) (n : Name) : (putStored id fs s).2.holds? src n = s.holds? src n := by
  have hother : (s.setStore id (saveAll fs (s.store id)).2).holds? src n = s.holds? src n := by
    cases src with
    | direct => rfl
    | store id' =>
      have hne : id' ≠ id := fun he => hsrc (congrArg Source.store he)
      show ((s.setStore id _).store id').holds? n = (s.store id').holds? n
      rw [Supply.store_setStore_of_ne hne]
  rcases (putStored_eq id fs s).2 with he | he <;> rw [he]
  · exact hother
  · cases src <;> exact hother

/-- A write to a store was rejected because of a name. The fragments before the one of that name are
in the store, where nothing is in their way, and the one of that name is kept out. -/
structure StoppedAt (s s' : Supply) (id : StoreId) (saved : List Fragment)
    (f : Fragment) : Prop where
  obstructed : Obstructs s (.store id) f
  unobstructed : ∀ g ∈ saved, ¬ Obstructs s (.store id) g
  holds_eq : ∀ n, s'.holds? (.store id) n =
    (s.holds? (.store id) n).or (saved.find? fun g => g.name == n)
  others : ∀ src, src ≠ .store id → ∀ n, s'.holds? src n = s.holds? src n

theorem stoppedAt_of_conflict {s : Supply} (h : s.Sound) {id : StoreId} (hs : s.Has (.store id))
    {fs : List Fragment} (hfs : ∀ f ∈ fs, f.Storable) (hd : DistinctNames fs) {n : Name}
    (hc : (putStored id fs s).1 = .error (.writeConflict n)) :
    ∃ saved f rest, fs = saved ++ f :: rest ∧ f.name = n ∧
      StoppedAt s (putStored id fs s).2 id saved f := by
  rw [(putStored_eq id fs s).1] at hc
  obtain ⟨saved, f, rest, hfs_eq, hn, hsaved, held, hheld, hne⟩ :=
    saveAll_of_conflict (h.store id) hfs (Prod.ext hc rfl)
  have hsub : ∀ g ∈ saved, g ∈ fs := fun g hg => by
    rw [hfs_eq]
    exact List.mem_append_left _ hg
  have hdsaved : DistinctNames saved := by
    rw [DistinctNames, hfs_eq, List.map_append] at hd
    exact hd.of_append_left
  have hview := holds?_of_saveAll (h.store id) (fun g hg => hfs g (hsub g hg)) hdsaved hsaved
  refine ⟨saved, f, rest, hfs_eq, hn, ?_, fun g hg => ?_, fun m => ?_, fun src hsrc m => ?_⟩
  · -- What is in the way was there before: what was saved has other names.
    rw [hview n, Option.or_eq_some_iff] at hheld
    rcases hheld with hold | ⟨_, hnew⟩
    · exact ⟨held, by rw [hn]; exact hold, hne⟩
    · obtain ⟨hmem, hname⟩ := hdsaved.find?_eq_some_iff.mp hnew
      have hf : f ∈ fs := by
        rw [hfs_eq]
        exact List.mem_append_right _ List.mem_cons_self
      rw [hd.eq_of_name_eq (hsub held hmem) hf (hname.trans hn.symm)] at hne
      exact absurd rfl hne
  -- What had been held under a name stayed, and a fragment was saved there: their digests agree.
  · rintro ⟨old, hold, htell⟩
    have hkept := hview g.name
    rcases saveAll_cases (h.store id) fun x hx => hfs x (hsub x hx) with
      ⟨_, hall⟩ | ⟨_, _, _, herr, _⟩
    · rw [hsaved] at hall
      obtain ⟨now, hnow, hdigest⟩ := hall g hg
      rw [hkept, show (s.store id).holds? g.name = some old from hold, Option.some_or] at hnow
      rw [← Option.some.inj hnow] at hdigest
      exact htell hdigest
    · rw [hsaved] at herr
      cases herr
  · rw [holds?_putStored hs]
    exact hview m
  · exact holds?_putStored_of_ne hsrc fs m

/-- A rejected write left nothing behind exactly if all that was saved had been there. -/
theorem StoppedAt.unchanged_iff {s s' : Supply} {id : StoreId} {saved : List Fragment}
    {f : Fragment} (h : StoppedAt s s' id saved f) :
    (∀ n, s'.holds? (.store id) n = s.holds? (.store id) n) ↔
      ∀ g ∈ saved, Holds s (.store id) g := by
  constructor
  · intro hsame g hg
    cases hold : s.holds? (.store id) g.name with
    | some held => exact ⟨held, hold, fun ht => h.unobstructed g hg ⟨held, hold, ht⟩⟩
    | none =>
      have hnone := h.holds_eq g.name
      rw [hsame, hold, Option.none_or, eq_comm, List.find?_eq_none] at hnone
      exact absurd (beq_self_eq_true g.name) (hnone g hg)
  · intro hheld n
    rw [h.holds_eq]
    cases hold : s.holds? (.store id) n with
    | some held => rfl
    | none =>
      rw [Option.none_or, List.find?_eq_none]
      intro g hg hname
      obtain ⟨held, hg', _⟩ := hheld g hg
      rw [beq_iff_eq.mp hname, hold] at hg'
      cases hg'

end WritePath

/-! ### Rejected writes -/

/-- A conflict is not about signing. -/
theorem Writer.exists_fragments_of_conflict {x : Writer} {w : WriteRequest} {s : Supply} {n : Name}
    (hc : (x.send w s).1 = .error (.writeConflict n)) :
    ∃ fs, x.fragments w s = .ok fs ∧
      (WritePath.place x.source fs s).1 = .error (.writeConflict n) ∧
      (x.send w s).2 = (WritePath.place x.source fs s).2 := by
  cases hf : x.fragments w s with
  | error e =>
    rw [send_of_error hf] at hc
    cases hc
    cases w with
    | fragment f outstanding => cases hf
    | stream w =>
      unfold fragments StreamWrite.sign at hf
      dsimp only at hf
      split at hf <;> cases hf
  | ok fs =>
    obtain ⟨ack, hsend⟩ := send_of_fragments hf
    rw [hsend] at hc ⊢
    refine ⟨fs, rfl, ?_, rfl⟩
    cases hp : (WritePath.place x.source fs s).1 with
    | ok u => rw [hp] at hc; cases hc
    | error e => rw [hp] at hc; cases hc; rfl

omit [Suite] in
/-- A raw write that is rejected leaves the network as it was. -/
theorem WritePath.putDirect_of_error {s : Supply} {fs : List Fragment} {e : NetworkError}
    (h : (putDirect fs s).1 = .error e) : (putDirect fs s).2 = s := by
  rw [putDirect_eq] at h ⊢
  split
  · rfl
  · next hfree =>
    rw [hfree] at h
    cases h

/-- A write to a store is rejected because of a name. It is stopped at the fragment of that name,
whose place is taken by a different one; the fragments before it are in the store from then on, and
nothing else on the network changes. So the store is as it was exactly if it held these already,
which holds of every write of a single fragment. The same write on a raw path, if it is rejected,
leaves the network as it was. -/
theorem unchanged_iff_of_rejected {s : Supply} (h : s.Sound) {id : StoreId}
    (hs : s.Has (.store id)) {keys : KeyRing} {w : WriteRequest} (hw : w.Sized) {n : Name}
    (hc : ((⟨.store id, keys⟩ : Writer).send w s).1 = .error (.writeConflict n)) :
    let s' := ((⟨.store id, keys⟩ : Writer).send w s).2
    (∃ saved f rest, (⟨.store id, keys⟩ : Writer).fragments w s = .ok (saved ++ f :: rest) ∧
      f.name = n ∧ WritePath.StoppedAt s s' id saved f ∧
      ((∀ m, s'.holds? (.store id) m = s.holds? (.store id) m) ↔
        ∀ g ∈ saved, WritePath.Holds s (.store id) g)) ∧
    (∀ g outstanding, w = .fragment g outstanding →
      ∀ src m, s'.holds? src m = s.holds? src m) ∧
    ∀ m, ((⟨.direct, keys⟩ : Writer).send w s).1 = .error (.writeConflict m) →
      ((⟨.direct, keys⟩ : Writer).send w s).2 = s := by
  intro s'
  obtain ⟨fs, hfs, hplace, hs'⟩ := Writer.exists_fragments_of_conflict hc
  obtain ⟨hstorable, hdistinct⟩ := Writer.storable_of_fragments hw hfs
  obtain ⟨saved, f, rest, rfl, hn, hstopped⟩ :=
    WritePath.stoppedAt_of_conflict h hs hstorable hdistinct hplace
  rw [show (WritePath.putStored id _ s).2 = s' from hs'.symm] at hstopped
  refine ⟨⟨saved, f, rest, hfs, hn, hstopped, hstopped.unchanged_iff⟩, ?_, ?_⟩
  · rintro g outstanding rfl src m
    -- There is nothing before a fragment that comes alone.
    have hnil : saved = [] := by
      have hlen := congrArg List.length (Except.ok.inj hfs)
      simp only [List.length_append, List.length_cons, List.length_nil] at hlen
      exact List.length_eq_zero_iff.mp (by omega)
    by_cases hsrc : src = .store id
    · rw [hsrc, hstopped.holds_eq, hnil, List.find?_nil, Option.or_none]
    · exact hstopped.others src hsrc m
  · intro m hdirect
    obtain ⟨gs, _, herror, hafter⟩ := Writer.exists_fragments_of_conflict hdirect
    rw [hafter]
    exact WritePath.putDirect_of_error herror

end

/-! ### A segment that is in the way -/

def scribe : Keypair := ⟨.replicate 32 7⟩

/-- A key ring that knows one identity, under a publisher of its own choice. -/
def scribes : KeyRing := ⟨⟨.replicate 32 1⟩, [(⟨.replicate 32 1⟩, scribe)], []⟩

def edition : Name := (⟨[.ofText "n"]⟩ : Name).addVersion ⟨5⟩

/-- The second of two segments of a version, of one byte. -/
def secondSegment (b : UInt8) : Fragment where
  name := edition.segmentName 1
  info := ⟨scribe.publisher, 0, .data, some 1, .named .root none, none⟩
  content := [b]
  signature := ⟨.replicate 64 0⟩

/-- A participant writes through a store, and has saved a second segment there. Fragments are not
verified on this network. -/
def secondSaved : World :=
  (World.empty { segmentSize := 1, verify := false }).run [.addStore (.memory .empty),
    .openWriter ⟨.store ⟨0⟩, scribes⟩, .write 0 (.fragment (secondSegment 9) none)]

/-- A payload of two bytes under the same name. -/
def twoBytes : WriteRequest :=
  .stream { name := edition, payload := [1, 2], locator := some (.named .root none) }

/-- What comes of writing them. -/
def twoBytesSent : Except NetworkError WriteAck × Supply :=
  (⟨.store ⟨0⟩, scribes⟩ : Writer).send twoBytes secondSaved.supply

theorem sized_twoBytes : twoBytes.Sized := by
  refine ⟨by decide, by decide, by decide, ?_⟩
  rintro n p ⟨⟩
  exact ⟨by decide, fun c hc => by cases hc⟩

theorem storable_secondSegment (b : UInt8) : (secondSegment b).Storable := by
  have hshort : (edition.segmentName 1).Short := by decide
  have hcount : edition.components.length + 1 < 2 ^ 64 := by decide
  refine ⟨⟨⟨hcount, fun c hc => Nat.lt_trans (hshort c hc) (by decide)⟩, ?_, ?_⟩, hshort⟩
  · rintro n p ⟨⟩
    exact ⟨by decide, fun c hc => by cases hc⟩
  · show 1 < 2 ^ 64
    decide

theorem sound_secondSaved : secondSaved.Sound := by
  refine (World.run_grows (World.sound_empty _) ?_).1
  intro op hop
  simp only [List.mem_cons, List.not_mem_nil, or_false] at hop
  rcases hop with rfl | rfl | rfl
  · exact Supply.sound_empty
  · trivial
  · exact storable_secondSegment 9

theorem has_secondSaved : secondSaved.supply.Has (.store ⟨0⟩) := by decide +kernel

/-- Nothing is there yet of the first segment, so a reader waits. -/
theorem waiting_secondSaved :
    secondSaved.supply.holds? (.store ⟨0⟩) (edition.segmentName 0) = none ∧
      (do let first ← secondSaved.supply.openVersioned edition none
          secondSaved.supply.readAll scribes first) =
          .error (.noMatchingContent (edition.segmentName 0)) := by
  decide +kernel

/-- The write is rejected because of its second segment. The first one is in the store all the same,
and a reader goes on from it with what was in the way of the second. -/
theorem spliced_twoBytesSent :
    (twoBytesSent.1.map fun _ => ()) = .error (.writeConflict (edition.segmentName 1)) ∧
      (twoBytesSent.2.holds? (.store ⟨0⟩) (edition.segmentName 0)).isSome = true ∧
      (do let first ← twoBytesSent.2.openVersioned edition none
          twoBytesSent.2.readAll scribes first) = .ok [1, 9] := by
  decide +kernel

theorem rejected_twoBytesSent :
    twoBytesSent.1 = .error (.writeConflict (edition.segmentName 1)) := by
  have h := spliced_twoBytesSent.1
  cases hsent : twoBytesSent.1 with
  | ok ack => rw [hsent] at h; cases h
  | error e => rw [hsent] at h; cases h; rfl

theorem unchanged_iff_of_rejected_twoBytes :
    secondSaved.supply.Sound ∧ secondSaved.supply.Has (.store ⟨0⟩) ∧ twoBytes.Sized ∧
      twoBytesSent.1 = .error (.writeConflict (edition.segmentName 1)) ∧
      ∃ saved f rest, (⟨.store ⟨0⟩, scribes⟩ : Writer).fragments twoBytes secondSaved.supply =
          .ok (saved ++ f :: rest) ∧ f.name = edition.segmentName 1 ∧
        WritePath.StoppedAt secondSaved.supply twoBytesSent.2 ⟨0⟩ saved f := by
  obtain ⟨⟨saved, f, rest, hfs, hn, hstopped, _⟩, _, _⟩ := unchanged_iff_of_rejected
    sound_secondSaved.supply has_secondSaved sized_twoBytes rejected_twoBytesSent
  exact ⟨sound_secondSaved.supply, has_secondSaved, sized_twoBytes, rejected_twoBytesSent, saved, f,
    rest, hfs, hn, hstopped⟩

/-- A rejected write does not always leave a store as it was, and a reader may read afterwards what
there was not before. -/
theorem not_always_unchanged :
    (¬ ∀ (s : Supply) (id : StoreId) (keys : KeyRing) (w : WriteRequest) (n : Name), s.Sound →
      s.Has (.store id) → w.Sized →
      ((⟨.store id, keys⟩ : Writer).send w s).1 = .error (.writeConflict n) →
      ∀ m, ((⟨.store id, keys⟩ : Writer).send w s).2.holds? (.store id) m =
        s.holds? (.store id) m) ∧
    ¬ ∀ (s : Supply) (id : StoreId) (keys : KeyRing) (w : WriteRequest) (n : Name), s.Sound →
      s.Has (.store id) → w.Sized →
      ((⟨.store id, keys⟩ : Writer).send w s).1 = .error (.writeConflict n) →
      ∀ (reader : KeyRing) (m : Name) (payload : Octets),
        (do let first ← ((⟨.store id, keys⟩ : Writer).send w s).2.openVersioned m none
            ((⟨.store id, keys⟩ : Writer).send w s).2.readAll reader first) = .ok payload →
        (do let first ← s.openVersioned m none
            s.readAll reader first) = .ok payload := by
  obtain ⟨hfree, hwaits⟩ := waiting_secondSaved
  obtain ⟨_, hleft, hread⟩ := spliced_twoBytesSent
  constructor
  · intro h
    have hsame := h _ ⟨0⟩ scribes twoBytes _ sound_secondSaved.supply has_secondSaved sized_twoBytes
      rejected_twoBytesSent (edition.segmentName 0)
    rw [hfree] at hsame
    rw [show twoBytesSent.2.holds? _ _ = none from hsame] at hleft
    cases hleft
  · intro h
    have hread' := h _ ⟨0⟩ scribes twoBytes _ sound_secondSaved.supply has_secondSaved
      sized_twoBytes rejected_twoBytesSent scribes edition [1, 9] hread
    rw [hwaits] at hread'
    cases hread'

end NamedContent
