import NamedContent.Proofs.Object.FirstAnswer
import NamedContent.Proofs.Object.Passing
import NamedContent.Proofs.Object.Registered
import NamedContent.Proofs.Object.RoundTrip

/-!
# Calls that come to nothing

A call that updates or saves an object comes to nothing if it fails, or answers that nothing
changed. No such call touches the state of the object: what it adopts, it adopts last, and what it
saves, it records last. An update that finds too little waits, and leaves what waiting alone leaves
(`Unread`); then it may arm the watch, which is not part of the state. A save that fails may have
registered its base and opened its write path. A raw write path puts all fragments on the network or
none (`WritePath.perform_raw`), so then nothing else has become of the network.

In all, a call that comes to nothing leaves the state as it is while nothing comes to the object of
itself (`unchanged_in_vain`).
-/

namespace NamedContent

section

variable [Suite] {α : Type}

/-! ### Raw write paths -/

namespace WritePath

omit [Suite] in
theorem putDirect_error {fs : List Fragment} {s s' : Supply} {e : NetworkError}
    (h : putDirect fs s = (.error e, s')) : s' = s := by
  unfold putDirect at h
  split at h
  · cases h
  · cases h
    rfl

/-- A write that fails has put nothing on the network. -/
theorem perform_raw {keys : KeyRing} {w : Write} {s s' : Supply} {e : NetworkError}
    (h : w.perform (raw keys) s = (.error e, s')) : s' = s := by
  have hplace : ∀ {β : Type} {fs : List Fragment} {ack : Unit → β},
      ((putDirect fs s).1.map ack, (putDirect fs s).2) = (.error e, s') → s' = s := by
    intro β fs ack hput
    cases hdirect : putDirect fs s with
    | mk outcome supply =>
      rw [hdirect] at hput
      cases outcome with
      | ok u => cases hput
      | error e' =>
        rw [← (Prod.mk.inj hput).2]
        exact putDirect_error hdirect
  cases w with
  | stream w =>
    unfold Write.perform raw ofPlace at h
    dsimp only at h
    split at h
    · cases h
      rfl
    · exact hplace h
  | tombstone f outstanding => exact hplace h

end WritePath

namespace Session

variable {s s' : Session α} {id : ObjectId} {o : VersionedObject α} {e : ObjectError}
  {path : WritePath}

/-! ### Calls -/

variable [Payload α]

/-- A call that updates or saves an object. -/
inductive Call (α : Type) where
  | update (timeout : Nat)
  | updateName (name : Name) (publisher : Option Publisher)
  | updateFragment (f : Fragment)
  | save (version : Option Version) (outstanding : Option Interest)
  /-- Save with an encoder that can fail. -/
  | saveEncoding (encode : α → Except ObjectError Octets) (version : Option Version)
      (outstanding : Option Interest)
  | saveGone (outstanding : Option Interest)

def call (s : Session α) (id : ObjectId) : Call α → Except ObjectError Bool × Session α
  | .update timeout => s.update id timeout
  | .updateName name publisher => s.updateName id name publisher
  | .updateFragment f => s.updateFragment id f
  | .save version outstanding => s.save id version outstanding
  | .saveEncoding encode version outstanding =>
    s.saveRun ⟨encode, fun s => s, fun s => s⟩ id false version outstanding
  | .saveGone outstanding => s.saveGone id outstanding

def Call.isSave : Call α → Bool
  | .save _ _ | .saveEncoding _ _ _ | .saveGone _ => true
  | _ => false

/-! ### Reading -/

omit [Suite] [Payload α] in
theorem stateOf_modifyObject (s : Session α) (id : ObjectId)
    {change : VersionedObject α → VersionedObject α}
    (h : ∀ o, s.object? id = some o → (change o).state = o.state) :
    (s.modifyObject id change).stateOf id = s.stateOf id := by
  cases ho : s.object? id with
  | none => simp [stateOf, ho]
  | some o => simp [stateOf, ho, h o ho]

omit [Suite] [Payload α] in
/-- Arming is no matter of the state. -/
@[simp] theorem stateOf_watchAgain (s : Session α) (id : ObjectId) (fallback : Name) :
    (s.watchAgain id fallback).stateOf id = s.stateOf id := by
  obtain ⟨known, continuous, hagain⟩ := s.watchAgain_eq_arm id fallback
  rw [hagain]
  cases ho : s.object? id with
  | none => rw [arm_of_object?_eq_none ho]
  | some o => exact stateOf_eq_of_state_eq ho (object?_arm ho _ _) rfl

/-- What a call that reads leaves behind if it comes to nothing: the state as it was or, if it is no
fault, as waiting alone leaves it. -/
inductive Unread (s : Session α) (id : ObjectId) : Except ObjectError Bool → Session α → Prop where
  | kept {outcome : Except ObjectError Bool} {s' : Session α}
      (stateOf_eq : s'.stateOf id = s.stateOf id) : s.Unread id outcome s'
  | waited {s' : Session α} (ms : Nat) (stateOf_eq : s'.stateOf id = (s.elapse ms).stateOf id) :
      s.Unread id (.ok false) s'

variable {outcome : Except ObjectError Bool}

omit [Suite] [Payload α] in
/-- A version that is not adopted changes nothing. -/
theorem stateOf_adopt {a : Adoption α} (h : (s.adopt id a).1 ≠ true) :
    (s.adopt id a).2.stateOf id = s.stateOf id := by
  unfold adopt at h ⊢
  cases ho : s.object? id with
  | none => rfl
  | some o =>
    rw [ho] at h
    rcases ObjectState.adopt_cases o.state a with ⟨_, hadopt⟩ | ⟨_, hadopt⟩
    · simp only [hadopt] at h
      exact absurd rfl h
    · simp only [hadopt]
      refine stateOf_modifyObject s id fun o' ho' => ?_
      rw [Option.some.inj (ho.symm.trans ho')]

theorem Updates.unread (h : s.Updates id outcome s') (hvain : outcome ≠ .ok true) :
    s.Unread id outcome s' := by
  cases h with
  | stays => exact .kept rfl
  | adopts a => exact .kept (stateOf_adopt fun hmoved => hvain (congrArg Except.ok hmoved))
  | waits ms => exact .waited ms rfl
  | leaves ms fallback => exact .waited ms (stateOf_watchAgain _ _ _)

theorem updates_call {c : Call α} (hc : c.isSave = false) :
    s.Updates id (s.call id c).1 (s.call id c).2 := by
  cases c with
  | update timeout => exact s.updates_update id timeout
  | updateName name publisher => exact s.updates_updateName id name publisher
  | updateFragment f => exact s.updates_updateFragment id f
  | save version outstanding => cases hc
  | saveEncoding encode version outstanding => cases hc
  | saveGone outstanding => cases hc

theorem unread_of_call {c : Call α} (hc : c.isSave = false) (h : s.call id c = (outcome, s'))
    (hvain : outcome ≠ .ok true) : s.Unread id outcome s' := by
  have hupdates : s.Updates id (s.call id c).1 (s.call id c).2 := updates_call hc
  rw [h] at hupdates
  exact hupdates.unread hvain

/-! ### Saving -/

/-- The saves of an object go straight to the network, or nowhere yet. -/
def WritesRaw (s : Session α) (id : ObjectId) : Prop :=
  ∀ o, s.object? id = some o →
    (∃ keys, o.writer = some (.raw keys)) ∨ o.writer = none ∧ o.saveMode ≠ some .repository

/-- What a save that comes to nothing leaves behind: the state of the object as it was and, if the
write path is raw, a network on which only names were registered. -/
structure Unsaved (raw : Prop) (id : ObjectId) (s s' : Session α) : Prop where
  stateOf_eq : s'.stateOf id = s.stateOf id
  supply_eq : raw → s'.supply = { s.supply with registered := s'.supply.registered }

omit [Suite] [Payload α] in
theorem Unsaved.refl (raw : Prop) (id : ObjectId) (s : Session α) : Unsaved raw id s s :=
  ⟨rfl, fun _ => rfl⟩

omit [Suite] [Payload α] in
theorem Unsaved.trans {raw raw' : Prop} {s₁ : Session α} (h : Unsaved raw id s s₁)
    (h' : Unsaved raw' id s₁ s') (hraw : raw → raw') : Unsaved raw id s s' where
  stateOf_eq := h'.stateOf_eq.trans h.stateOf_eq
  supply_eq hr := by
    rw [h'.supply_eq (hraw hr), h.supply_eq hr]

omit [Payload α] in
theorem unsaved_of_writePath (ho : s.object? id = some o) (h : s.writePath id o = .ok (path, s')) :
    Unsaved (s.WritesRaw id) id s s' ∧ (s.WritesRaw id → ∃ keys, path = .raw keys) := by
  rcases writePath_cases h with ⟨hwriter, rfl⟩ | ⟨mode, supply, hwriter, hmode, hopen, rfl⟩
  · refine ⟨.refl _ _ _, fun hraw => ?_⟩
    rcases hraw o ho with ⟨keys, hkeys⟩ | ⟨hnone, _⟩
    · exact ⟨keys, Option.some.inj (hwriter.symm.trans hkeys)⟩
    · cases hwriter.symm.trans hnone
  · have hraw : s.WritesRaw id → path = .raw o.keys ∧ supply = s.supply := by
      intro hraw
      rcases hraw o ho with ⟨keys, hkeys⟩ | ⟨_, hnot⟩
      · cases hwriter.symm.trans hkeys
      · cases mode with
        | raw =>
          cases hopen
          exact ⟨rfl, rfl⟩
        | repository => exact absurd hmode hnot
    refine ⟨⟨?_, fun hr => ?_⟩, fun hr => ⟨o.keys, (hraw hr).1⟩⟩
    · exact stateOf_modifyObject (s.withSupply supply) id fun _ _ => rfl
    · rw [(hraw hr).2]
      rfl

omit [Payload α] in
theorem unsaved_of_registerBase {name : Name} (h : s.registerBase path name = .ok s') :
    Unsaved (∃ keys, path = .raw keys) id s s' := by
  obtain ⟨supply, hregister, rfl⟩ := registerBase_eq_ok_iff.mp h
  refine ⟨rfl, ?_⟩
  rintro ⟨keys, rfl⟩
  cases hregister
  rfl

omit [Payload α] in
theorem unsaved_of_writes {encode : α → Except ObjectError Octets} {save : PendingSave α}
    {payload : Option Octets} {v : Version} {outstanding : Option Interest}
    (h : s.Writes ⟨encode, fun s => s, fun s => s⟩ id o path save payload v outstanding outcome s')
    (hvain : outcome ≠ .ok true) : Unsaved (∃ keys, path = .raw keys) id s s' := by
  cases h with
  | unready => exact .refl _ _ _
  | fails w e supply _ hperform =>
    refine ⟨rfl, ?_⟩
    rintro ⟨keys, rfl⟩
    rw [WritePath.perform_raw hperform]
    rfl
  | records => exact absurd rfl hvain

omit [Payload α] in
/-- A save that comes to nothing stopped before it wrote anything, or while it was writing. -/
theorem unsaved_of_saves {encode : α → Except ObjectError Octets} {gone : Bool}
    {version : Option Version} {outstanding : Option Interest}
    (h : s.Saves ⟨encode, fun s => s, fun s => s⟩ id gone version outstanding outcome s')
    (hvain : outcome ≠ .ok true) : Unsaved (s.WritesRaw id) id s s' := by
  have hready : ∀ {o save path t}, s.Begun id gone o save path t →
      Unsaved (s.WritesRaw id) id s t ∧ (s.WritesRaw id → ∃ keys, path = .raw keys) := by
    rintro o save path t ⟨ho, _, s₁, hpath, hregister⟩
    obtain ⟨hopened, hraw⟩ := unsaved_of_writePath ho hpath
    exact ⟨hopened.trans (unsaved_of_registerBase hregister) hraw, hraw⟩
  cases h with
  | vain => exact .refl _ _ _
  | unregistered o save path s₁ e ho hpath => exact (unsaved_of_writePath ho hpath).1
  | unencoded o save path t e hbegun => exact (hready hbegun).1
  | writes o save path t payload hbegun _ hwrites =>
    obtain ⟨hunsaved, hraw⟩ := hready hbegun
    exact hunsaved.trans (unsaved_of_writes hwrites hvain) hraw

/-- So it is with all calls that save. -/
theorem unsaved_of_call {c : Call α} (hc : c.isSave = true)
    (h : s.call id c = (outcome, s')) (hvain : outcome ≠ .ok true) :
    Unsaved (s.WritesRaw id) id s s' := by
  cases c with
  | update timeout => cases hc
  | updateName name publisher => cases hc
  | updateFragment f => cases hc
  | save version outstanding => exact unsaved_of_saves (saves_of_saveRun h) hvain
  | saveEncoding encode version outstanding => exact unsaved_of_saves (saves_of_saveRun h) hvain
  | saveGone outstanding => exact unsaved_of_saves (saves_of_saveGoneRun h) hvain

/-! ### Calls in vain -/

/-- A call that updates or saves an object and fails, or answers that nothing changed, leaves no
trace in the state of the object. If it fails or is a save, the state is what it was before. An
update that waited leaves what waiting alone leaves, and that is the state before unless the watch
finds something by itself meanwhile. A save to a raw path leaves what the network serves, too. -/
theorem unchanged_in_vain {c : Call α} (h : s.call id c = (outcome, s'))
    (hvain : outcome ≠ .ok true) :
    (outcome ≠ .ok false ∨ c.isSave = true → s'.stateOf id = s.stateOf id) ∧
      (s'.stateOf id = s.stateOf id ∨ ∃ ms, s'.stateOf id = (s.elapse ms).stateOf id) ∧
      (s.InStep → s.Undisturbed id → s'.stateOf id = s.stateOf id) ∧
      (c.isSave = true → s.WritesRaw id →
        s'.supply = { s.supply with registered := s'.supply.registered }) := by
  have hunread : s.Unread id outcome s' := by
    cases hc : c.isSave with
    | true => exact .kept (unsaved_of_call hc h hvain).stateOf_eq
    | false => exact unread_of_call hc h hvain
  refine ⟨?_, ?_, fun hin hu => ?_, fun hc => (unsaved_of_call hc h hvain).supply_eq⟩
  · rintro (hnot | hc)
    · cases hunread with
      | kept hsame => exact hsame
      | waited ms hwaited => exact absurd rfl hnot
    · exact (unsaved_of_call hc h hvain).stateOf_eq
  · cases hunread with
    | kept hsame => exact .inl hsame
    | waited ms hwaited => exact .inr ⟨ms, hwaited⟩
  · cases hunread with
    | kept hsame => exact hsame
    | waited ms hwaited => rw [hwaited, stateOf, stateOf, hu.object?_elapse hin ms]

end Session

end

namespace Session

/-! ### A conflict, and a wait -/

/-- An object with a value to be saved, where somebody else has a version already. -/
def contesting [Suite] : Session (List UInt32) :=
  ((start (unverified [strangersVersion])).openObject author none
    (savingIn (.forWrite someContent (some [1])) .raw)).2

/-- An object that watches for versions while there are none. -/
def watching [Suite] : Session (List UInt32) :=
  (((start {}).openObject author none { name := some someContent }).2.updateInBackground ⟨0⟩ none
    true).2

theorem undisturbed_watching [Suite] : watching.Undisturbed ⟨0⟩ where
  no_wait := nofun
  no_answer p hp _ := by
    have hsupply : watching.network.supply = {} := rfl
    rw [Network.answer?, hsupply]
    rfl

/-- A save that would take the place of the version fails, and an update waits for versions in vain
while the watch does. -/
theorem unchanged_in_vain_conflict :
    letI := trusting
    ∃ s₁ s₂,
      contesting.save ⟨0⟩ (some ⟨7⟩) none =
        (.error (.network (.writeConflict strangersVersion.name)), s₁) ∧
      s₁.stateOf ⟨0⟩ = contesting.stateOf ⟨0⟩ ∧
      s₁.supply = { contesting.supply with registered := s₁.supply.registered } ∧
      watching.InStep ∧ watching.Undisturbed ⟨0⟩ ∧
      watching.update ⟨0⟩ 5 = (.ok false, s₂) ∧ s₂.stateOf ⟨0⟩ = watching.stateOf ⟨0⟩ := by
  let _ := trusting
  have hconflict : (contesting.save ⟨0⟩ (some ⟨7⟩) none).1 =
      .error (.network (.writeConflict strangersVersion.name)) := by
    decide +kernel
  have hsave : contesting.call ⟨0⟩ (.save (some ⟨7⟩) none) =
      (.error (.network (.writeConflict strangersVersion.name)),
        (contesting.save ⟨0⟩ (some ⟨7⟩) none).2) := Prod.ext hconflict rfl
  have hnothing : (watching.update ⟨0⟩ 5).1 = .ok false := by
    rw [update_eq]
    rfl
  have hupdate : watching.call ⟨0⟩ (.update 5) = (.ok false, (watching.update ⟨0⟩ 5).2) :=
    Prod.ext hnothing rfl
  have hraw : contesting.WritesRaw ⟨0⟩ := by
    intro o ho
    cases ho
    exact .inr ⟨rfl, nofun⟩
  have hin : watching.InStep :=
    ((inStep_start _).openObject _ _ _).updateInBackground ⟨0⟩ none true
  obtain ⟨hstate, _, _, hsupply⟩ := unchanged_in_vain hsave nofun
  obtain ⟨_, _, hstill, _⟩ := unchanged_in_vain hupdate (by decide)
  exact ⟨_, _, hsave, hstate (.inr rfl), hsupply rfl hraw, hin, undisturbed_watching, hupdate,
    hstill hin undisturbed_watching⟩

end Session

end NamedContent
