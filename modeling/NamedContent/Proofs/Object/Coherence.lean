import Mathlib.Data.List.Induction
import NamedContent.Proofs.Object.State

/-!
# When the flags of an object tell the truth

A save takes two halves: it begins with a snapshot of the edit count, and is recorded when the
writing is over. In between the object goes on, so the record meets a state that may have moved.

`Coherent` says that the flags agree with the value: a tombstone has no value and is clean, a dirty
object has a value, and an available object has a value or is a tombstone, never both and never
neither. Edits, adoptions and beginnings keep it. Recording a save keeps it with one exception: a
saved value that is recorded over a tombstone takes the tombstone away and puts nothing in its
place (`revives`). The main statement, `coherent_iff_never_revived`, says that along every run the
flags tell the truth exactly as long as that does not happen.
-/

namespace NamedContent

variable {α : Type}

/-- The flags of an object agree with its value. -/
structure ObjectState.Coherent (s : ObjectState α) : Prop where
  /-- A tombstone has no value. -/
  payload_of_gone : s.gone = true → s.payload = none
  /-- A tombstone is clean. -/
  clean_of_gone : s.gone = true → s.dirty = false
  /-- What is dirty is a value. -/
  payload_of_dirty : s.dirty = true → s.payload.isSome = true
  /-- An available object has exactly one of a value and the tombstone flag. -/
  value_xor_gone : s.available = true → (s.payload.isSome ^^ s.gone) = true
  /-- The value of an available object is there to be read, or it is gone. -/
  value_ready : s.available = true → s.value ≠ .error .contentNotReady

namespace ObjectState

/-- Reading the value of an available object finds it not ready exactly if neither a value nor the
tombstone flag is there; so the last two parts of `Coherent` say the same. -/
theorem value_eq_notReady_iff (s : ObjectState α) :
    s.value = .error .contentNotReady ↔ s.gone = false ∧ s.payload = none := by
  unfold value
  cases s.gone with
  | true => simp
  | false => cases s.payload <;> simp

theorem coherent_of {s : ObjectState α} (hgone : s.gone = true → s.payload = none ∧ s.dirty = false)
    (hdirty : s.dirty = true → s.payload.isSome = true)
    (havailable : s.available = true → s.gone = false → s.payload.isSome = true) : s.Coherent where
  payload_of_gone h := (hgone h).1
  clean_of_gone h := (hgone h).2
  payload_of_dirty := hdirty
  value_xor_gone h := by
    cases hg : s.gone with
    | true => rw [(hgone hg).1]; rfl
    | false => rw [havailable h hg]; rfl
  value_ready h hv := by
    obtain ⟨hg, hp⟩ := (value_eq_notReady_iff s).mp hv
    have hs := havailable h hg
    rw [hp] at hs
    cases hs

theorem coherent_new (base : Option Name) : (new base : ObjectState α).Coherent :=
  coherent_of (fun h => by cases h) (fun h => by cases h) (fun h => by cases h)

theorem coherent_setPayload (s : ObjectState α) (x : α) : (s.setPayload x).Coherent :=
  coherent_of (fun h => by cases h) (fun _ => rfl) (fun _ _ => rfl)

theorem coherent_take (s : ObjectState α) (a : Adoption α) : (s.take a).Coherent := by
  apply coherent_of
  · intro h
    exact ⟨Option.isNone_iff_eq_none.mp h, rfl⟩
  · intro h
    cases h
  · intro _ h
    show a.payload.isSome = true
    have h' : a.payload.isNone = false := h
    rw [← Option.not_isNone, h']
    rfl

theorem coherent_adopt {s : ObjectState α} (hs : s.Coherent) (a : Adoption α) :
    (s.adopt a).2.Coherent := by
  obtain ⟨_, h⟩ | ⟨_, h⟩ := adopt_cases s a
  · rw [h]; exact coherent_take s a
  · rw [h]; exact hs

/-- Recording a tombstone gives a coherent state. -/
theorem coherent_record_gone (s : ObjectState α) (base : Name) {v : SavedVersion}
    (hv : v.gone = true) : (s.record base v).Coherent := by
  apply coherent_of
  · intro _
    simp [record, hv]
  · intro h
    simp [record, hv] at h
  · intro _ h
    rw [record, hv] at h
    cases h

/-- Recording a saved value gives a coherent state exactly if the value is still there. -/
theorem coherent_record_value_iff (s : ObjectState α) (base : Name) {v : SavedVersion}
    (hv : v.gone = false) : (s.record base v).Coherent ↔ s.payload.isSome = true := by
  constructor
  · intro h
    have := h.value_xor_gone rfl
    simpa [record, hv] using this
  · intro h
    apply coherent_of
    · intro hg
      rw [record, hv] at hg
      cases hg
    · intro _
      simpa [record, hv] using h
    · intro _ _
      simpa [record, hv] using h

/-- Cleaning a coherent object leaves it coherent. -/
theorem coherent_clean {s : ObjectState α} (hs : s.Coherent) : { s with dirty := false }.Coherent :=
  coherent_of (fun h => ⟨hs.payload_of_gone h, rfl⟩) (fun h => by cases h) fun ha hg => by
    have hx := hs.value_xor_gone ha
    have hg' : s.gone = false := hg
    rw [hg', Bool.xor_false] at hx
    exact hx

end ObjectState

/-! ## Runs with saves in flight -/

/-- What a save that has begun takes to its recording. -/
structure Begun where
  gone : Bool
  /-- The edit count when it began. -/
  edits : Nat

/-- An object's state with the saves that have begun on it, which may still be recorded. -/
structure InFlight (α : Type) where
  state : ObjectState α
  begun : List Begun := []

/-- What can happen to an object's state. -/
inductive Move (α : Type) where
  | edit (x : α)
  | adopt (version : Adoption α)
  /-- Begin to save the value, or a tombstone. -/
  | begin (gone : Bool)
  /-- Record the save that began as number `save`, under a version and an origin. -/
  | commit (save : Nat) (version : Version) (publisher : Publisher) (locator : KeyLocator)

namespace InFlight

/-- Whether a save can begin: that of a value needs a dirty object with a value. -/
def canBegin (s : ObjectState α) (gone : Bool) : Bool := gone || s.dirty && s.payload.isSome

/-- What is recorded for a save. -/
def saved (b : Begun) (version : Version) (publisher : Publisher) (locator : KeyLocator) :
    SavedVersion :=
  ⟨version, publisher, locator, b.gone, b.edits⟩

/-- One move. A save that cannot begin, and the recording of one that did not, change nothing. -/
def apply (f : InFlight α) : Move α → InFlight α
  | .edit x => { f with state := f.state.setPayload x }
  | .adopt a => { f with state := (f.state.adopt a).2 }
  | .begin gone =>
    if canBegin f.state gone then { f with begun := f.begun ++ [⟨gone, f.state.edits⟩] } else f
  | .commit i version publisher locator =>
    match f.begun[i]? with
    | some b => { f with state := (f.state.commitSave (saved b version publisher locator)).2 }
    | none => f

/-- A run from an object without a value. -/
def run (base : Option Name) (moves : List (Move α)) : InFlight α :=
  moves.foldl apply { state := .new base }

/-- Whether a move records a saved value over a tombstone: the version moves the object forward, and
what it was saved from is gone. -/
def revives (f : InFlight α) : Move α → Prop
  | .commit i version publisher locator =>
    ∃ b, f.begun[i]? = some b ∧ b.gone = false ∧ f.state.gone = true ∧
      (f.state.commitSave (saved b version publisher locator)).1 = true
  | _ => False

/-- Every save that begins by the rules of `ObjectState.beginSave` can begin here, with the same
snapshot. -/
theorem canBegin_of_beginSave {s : ObjectState α} {gone : Bool} {p : PendingSave α}
    (h : s.beginSave gone = .ok (some p)) : canBegin s gone = true ∧ p.edits = s.edits := by
  obtain ⟨hb, _, he, _⟩ := ObjectState.begun_of_beginSave h
  refine ⟨?_, he⟩
  unfold canBegin
  rcases hb with hg | ⟨hd, hp⟩
  · rw [hg]; rfl
  · rw [hd, hp, Bool.and_self, Bool.or_true]

/-! ### One move -/

/-- What holds along a run until a tombstone is revived: the flags tell the truth, and an object on
which the save of a value began is available. -/
structure Sound (f : InFlight α) : Prop where
  coherent : f.state.Coherent
  available_of_begun : ∀ b ∈ f.begun, b.gone = false → f.state.available = true
  available_of_payload : f.state.payload.isSome = true → f.state.available = true

theorem sound_start (base : Option Name) : Sound ({ state := .new base } : InFlight α) where
  coherent := ObjectState.coherent_new base
  available_of_begun b hb := by cases hb
  available_of_payload h := by cases h

/-- Under `Sound`, the object has its value when a save of a value is recorded, unless it has become
a tombstone meanwhile. -/
theorem payload_of_begun {f : InFlight α} (hf : f.Sound) {b : Begun} (hb : b ∈ f.begun)
    (hv : b.gone = false) : f.state.payload.isSome = true ↔ f.state.gone = false := by
  have hx := hf.coherent.value_xor_gone (hf.available_of_begun b hb hv)
  cases hg : f.state.gone <;> cases hp : f.state.payload.isSome <;> simp_all

/-- A recording in a sound state leaves the flags true exactly if it does not revive a tombstone. -/
theorem coherent_commit_iff {f : InFlight α} (hf : f.Sound) {b : Begun} (hb : b ∈ f.begun)
    (version : Version) (publisher : Publisher) (locator : KeyLocator) :
    (f.state.commitSave (saved b version publisher locator)).2.Coherent ↔
      ¬ (b.gone = false ∧ f.state.gone = true ∧
        (f.state.commitSave (saved b version publisher locator)).1 = true) := by
  rcases ObjectState.commitSave_cases f.state (saved b version publisher locator) with
    ⟨_, h⟩ | ⟨base, _, _, h⟩ | ⟨_, _, _, _, _, h⟩ | ⟨_, _, _, _, h⟩
  · simp [h, hf.coherent]
  · rw [h]
    cases hg : b.gone with
    | true => simp [ObjectState.coherent_record_gone f.state base.base (v := saved b ..) hg]
    | false =>
      rw [ObjectState.coherent_record_value_iff f.state base.base (v := saved b ..) hg,
        payload_of_begun hf hb hg]
      simp
  · simp [h, ObjectState.coherent_clean hf.coherent]
  · simp [h, hf.coherent]

/-- Every move from a sound state leads to a coherent one exactly if it does not revive a
tombstone. -/
theorem coherent_apply_iff {f : InFlight α} (hf : f.Sound) (m : Move α) :
    (f.apply m).state.Coherent ↔ ¬ f.revives m := by
  cases m with
  | edit x => simp [apply, revives, ObjectState.coherent_setPayload]
  | adopt a => simp [apply, revives, ObjectState.coherent_adopt hf.coherent]
  | begin gone =>
    have hs : (f.apply (.begin gone)).state = f.state := by
      unfold apply
      dsimp only
      split <;> rfl
    simp [hs, revives, hf.coherent]
  | commit i version publisher locator =>
    cases hb : f.begun[i]? with
    | none => simp [apply, revives, hb, hf.coherent]
    | some b =>
      have hmem : b ∈ f.begun := List.mem_of_getElem? hb
      simp only [apply, revives, hb]
      rw [coherent_commit_iff hf hmem]
      simp

/-- Once an object is available it stays so. -/
theorem available_apply {f : InFlight α} (h : f.state.available = true) (m : Move α) :
    (f.apply m).state.available = true := by
  cases m with
  | edit x => rfl
  | adopt a =>
    obtain ⟨_, ha⟩ | ⟨_, ha⟩ := ObjectState.adopt_cases f.state a
    · simp [apply, ha, ObjectState.take]
    · simp [apply, ha, h]
  | begin gone =>
    unfold apply
    dsimp only
    split <;> exact h
  | commit i version publisher locator =>
    unfold apply
    dsimp only
    split
    · next b _ =>
      rcases ObjectState.commitSave_cases f.state (saved b version publisher locator) with
        ⟨_, hc⟩ | ⟨_, _, _, hc⟩ | ⟨_, _, _, _, _, hc⟩ | ⟨_, _, _, _, hc⟩
      · rw [hc]; exact h
      · rw [hc]; rfl
      · rw [hc]; exact h
      · rw [hc]; exact h
    · exact h

theorem available_of_payload_apply {f : InFlight α} (hf : f.Sound) (m : Move α)
    (h : (f.apply m).state.payload.isSome = true) : (f.apply m).state.available = true := by
  cases ha : f.state.available with
  | true => exact available_apply ha m
  | false =>
    cases m with
    | edit x => rfl
    | adopt a =>
      obtain ⟨_, hc⟩ | ⟨_, hc⟩ := ObjectState.adopt_cases f.state a
      · simp [apply, hc, ObjectState.take]
      · simp only [apply, hc] at h ⊢
        exact hf.available_of_payload h
    | begin gone =>
      have hs : (f.apply (.begin gone)).state = f.state := by
        unfold apply
        dsimp only
        split <;> rfl
      rw [hs] at h ⊢
      exact hf.available_of_payload h
    | commit i version publisher locator =>
      unfold apply at h ⊢
      dsimp only at h ⊢
      split at h
      · next b _ =>
        -- Only a save that is recorded makes the object available; the others leave payload and
        -- flag.
        rcases ObjectState.commitSave_cases f.state (saved b version publisher locator) with
          ⟨_, hc⟩ | ⟨_, _, _, hc⟩ | ⟨_, _, _, _, _, hc⟩ | ⟨_, _, _, _, hc⟩
        · rw [hc] at h ⊢; exact hf.available_of_payload h
        · rw [hc]; rfl
        · rw [hc] at h ⊢; exact hf.available_of_payload h
        · rw [hc] at h ⊢; exact hf.available_of_payload h
      · exact hf.available_of_payload h

/-- A save of a value that has just begun, or began before, is of an available object. -/
theorem available_of_begun_apply {f : InFlight α} (hf : f.Sound) (m : Move α) {b : Begun}
    (hb : b ∈ (f.apply m).begun) (hv : b.gone = false) : (f.apply m).state.available = true := by
  by_cases hold : b ∈ f.begun
  · exact available_apply (hf.available_of_begun b hold hv) m
  · cases m with
    | edit x => exact absurd hb hold
    | adopt a => exact absurd hb hold
    | commit i version publisher locator =>
      unfold apply at hb
      dsimp only at hb
      split at hb <;> exact absurd hb hold
    | begin gone =>
      unfold apply at hb ⊢
      dsimp only at hb ⊢
      split at hb
      · next hc =>
        rw [if_pos hc]
        rcases List.mem_append.mp hb with hb | hb
        · exact absurd hb hold
        · rw [List.mem_singleton.mp hb] at hv
          have hv' : gone = false := hv
          rw [canBegin, hv', Bool.false_or, Bool.and_eq_true] at hc
          exact hf.available_of_payload hc.2
      · exact absurd hb hold

theorem sound_apply {f : InFlight α} (hf : f.Sound) {m : Move α} (h : ¬ f.revives m) :
    (f.apply m).Sound where
  coherent := (coherent_apply_iff hf m).mpr h
  available_of_begun _ hb hv := available_of_begun_apply hf m hb hv
  available_of_payload := available_of_payload_apply hf m

/-! ### Whole runs -/

theorem run_concat (base : Option Name) (past : List (Move α)) (m : Move α) :
    run base (past ++ [m]) = (run base past).apply m := by
  simp [run]

/-- As long as no tombstone is revived, a run stays sound. -/
theorem sound_run (base : Option Name) (moves : List (Move α))
    (h : ∀ past m, past ++ [m] <+: moves → ¬ (run base past).revives m) :
    (run base moves).Sound := by
  induction moves using List.reverseRecOn with
  | nil => exact sound_start base
  | append_singleton past m ih =>
    rw [run_concat]
    apply sound_apply
    · exact ih fun p n hp => h p n (hp.trans (List.prefix_append past [m]))
    · exact h past m List.prefix_rfl

/-- The flags of an object tell the truth in every state of a run exactly if no move of the run
records a saved value over a tombstone. In particular the value of an available object is then never
"not ready". -/
theorem coherent_iff_never_revived (base : Option Name) (moves : List (Move α)) :
    (∀ past, past <+: moves → (run base past).state.Coherent) ↔
      ∀ past m, past ++ [m] <+: moves → ¬ (run base past).revives m := by
  constructor
  · intro h past m
    -- The first revival is what breaks the flags, so the past of any move is sound by induction.
    induction hn : past.length using Nat.strongRecOn generalizing past m with
    | _ n ih =>
      intro hp
      have hpast : (run base past).Sound := by
        apply sound_run
        intro p k hk
        have hlen : p.length < n := by
          have := hk.length_le
          simp at this
          omega
        exact ih p.length hlen p k rfl (hk.trans ((List.prefix_append past [m]).trans hp))
      have hc := h (past ++ [m]) hp
      rw [run_concat] at hc
      exact (coherent_apply_iff hpast m).mp hc
  · intro h past hp
    exact (sound_run base past fun p m hm => h p m (hm.trans hp)).coherent

/-- The flags do not always tell the truth: a tombstone is adopted while a value is being saved as a
later version. -/
theorem not_always_coherent :
    ¬ ∀ (base : Option Name) (moves : List (Move String)), (run base moves).state.Coherent := by
  intro h
  let n : Name := ⟨[.ofText "n"]⟩
  let p : Publisher := ⟨.replicate 32 1⟩
  have hc := h (some n)
    [.edit "a", .begin false, .adopt ⟨n, ⟨5⟩, p, .named n none, none⟩,
      .commit 0 ⟨9⟩ p (.named n none)]
  exact hc.value_ready rfl rfl

end InFlight
end NamedContent
