import NamedContent.Proofs.Object.InVain
import NamedContent.Proofs.Object.Naming

/-!
# The versions that saves mint

A save that is given no version mints one from the clock and the version that the object holds when
the save begins. If it succeeds, then it has written that version, and records it (`Mints`).
Whatever the clock says, and whoever made the version that is held, the minted one is later, unless
the version held is the greatest there is (`later_of_saveFresh`).

At the greatest version counting stops: it is minted again, and a save under it may well succeed
(`not_always_later`).
-/

namespace NamedContent

section

variable [Suite] {α : Type} [Payload α]

/-- What a write puts on the network has the versioned name, or is the first segment below it. -/
def Write.Named (n : Name) : Write → Prop
  | .stream w => w.name = n
  | .tombstone f _ => f.name = n.firstSegmentName

omit [Payload α] in
theorem Write.named_of_toWrite {o : VersionedObject α} {s : Supply} {payload : Option Octets}
    {n : Name} {outstanding : Option Interest} {w : Write}
    (h : o.toWrite s payload n outstanding = .ok w) : w.Named n := by
  unfold VersionedObject.toWrite at h
  split at h
  · cases h
    rfl
  · unfold VersionedObject.tombstone at h
    dsimp only at h
    split at h
    · cases h
    · cases h
      rfl

namespace Session

variable {s s' : Session α} {id : ObjectId} {gone : Bool} {outstanding : Option Interest}
  {run : SaveRun α}

/-- Save the value of an object or a tombstone, as a version that is minted. -/
def saveFresh (run : SaveRun α) (s : Session α) (id : ObjectId) (gone : Bool)
    (outstanding : Option Interest) : Except ObjectError Bool × Session α :=
  if gone then s.saveGoneRun run id outstanding else s.saveRun run id false none outstanding

/-- A save that began on an object has written a version that was minted after the one held then,
and recorded it in what had become of the object. -/
def Mints (run : SaveRun α) (s s' : Session α) (id : ObjectId) (o : VersionedObject α)
    (gone : Bool) (v : Version) : Prop :=
  ∃ (b : Name) (path : WritePath) (s₁ : Session α) (w : Write) (ack : WriteAck) (supply : Supply),
    o.state.base = some b ∧ s.Ready id o b path s₁ ∧ v = s₁.minted o ∧
    w.Named (b.base.addVersion v) ∧
    w.perform path (run.before s₁).supply = (.ok ack, supply) ∧
    s'.supply = (run.after ((run.before s₁).withSupply supply)).supply ∧
    s'.stateOf id = ((run.after ((run.before s₁).withSupply supply)).stateOf id).map fun state =>
      (state.commitSave ⟨v, ack.publisher, ack.locator, gone, o.state.edits⟩).2

omit [Suite] [Payload α] in
@[simp] theorem stateOf_modifyState (s : Session α) (id : ObjectId)
    (change : ObjectState α → ObjectState α) :
    (s.modifyState id change).stateOf id = (s.stateOf id).map change := by
  cases ho : s.object? id <;> simp [stateOf, modifyState, ho]

omit [Payload α] in
theorem mints_of_saves (h : s.Saves run id gone none outstanding (.ok true) s') :
    ∃ o v, s.object? id = some o ∧ s.Mints run s' id o gone v := by
  cases h with
  | vain hvain => exact absurd rfl hvain
  | writes o save path t payload hbegun _ hwrites =>
    obtain ⟨ho, hbegin, hready⟩ := hbegun
    obtain ⟨_, _, hedits, hbase, _, hversion⟩ := ObjectState.begun_of_beginSave hbegin
    rw [hversion] at hwrites
    cases hwrites with
    | records w ack supply hwrite hperform =>
      refine ⟨o, t.minted o, ho, save.base, path, t, w, ack, supply, hbase, hready, rfl,
        Write.named_of_toWrite hwrite, hperform, rfl, ?_⟩
      rw [stateOf_modifyState, ObjectState.isNone_of_beginSave hbegin, hedits]
      rfl

omit [Payload α] in
theorem mints_of_saveFresh (h : s.saveFresh run id gone outstanding = (.ok true, s')) :
    ∃ o v, s.object? id = some o ∧ s.Mints run s' id o gone v := by
  unfold saveFresh at h
  cases gone with
  | false => exact mints_of_saves (saves_of_saveRun h)
  | true => exact mints_of_saves (saves_of_saveGoneRun h)

omit [Payload α] in
/-- Whatever the clock says when the write path is ready. -/
theorem Mints.exists_clock {o : VersionedObject α} {v : Version}
    (h : s.Mints run s' id o gone v) :
    ∃ clock, v = Version.nextAfter clock o.state.version := by
  obtain ⟨_, _, s₁, _, _, _, _, _, hminted, _⟩ := h
  exact ⟨s₁.supply.clock, hminted⟩

omit [Payload α] in
/-- A version that is minted after any other than the greatest is later, whatever the clock says;
after the greatest it is the greatest again. So it is with saves that are given no version, of
values and of tombstones, in whatever state the session is, and whatever happens while they are in
flight: one that answers yes has written and recorded a minted version, which is later than the one
that the object held when the save began, unless that is the greatest. -/
theorem later_of_saveFresh :
    (∀ (clock : UInt64) (v : Version),
      (v ≠ .last → v < .nextAfter clock (some v)) ∧
        (v = .last → Version.nextAfter clock (some v) = v)) ∧
    ∀ (s s' : Session α) (id : ObjectId) (gone : Bool) (outstanding : Option Interest)
      (run : SaveRun α), s.saveFresh run id gone outstanding = (.ok true, s') →
      ∃ o v, s.object? id = some o ∧ s.Mints run s' id o gone v ∧
        ∀ held, o.state.version = some held →
          (held ≠ .last → held < v) ∧ (held = .last → v = held) := by
  have hmint : ∀ (clock : UInt64) (v : Version), (v ≠ .last → v < .nextAfter clock (some v)) ∧
      (v = .last → Version.nextAfter clock (some v) = v) := by
    intro clock v
    refine ⟨(Version.lt_nextAfter_iff clock).mpr, ?_⟩
    rintro rfl
    exact Version.nextAfter_last clock
  refine ⟨hmint, fun s s' id gone outstanding run h => ?_⟩
  obtain ⟨o, v, ho, hmints⟩ := mints_of_saveFresh h
  refine ⟨o, v, ho, hmints, fun held hheld => ?_⟩
  obtain ⟨clock, rfl⟩ := hmints.exists_clock
  rw [hheld]
  exact hmint clock held

end Session

end

namespace Session

/-! ### The greatest version -/

/-- A suite that signs without a secret, and takes every signature. -/
@[reducible] def signless : Suite := { trusting with sign := fun _ _ => ⟨.replicate 64 0⟩ }

/-- An object is opened with a value to write, saves it as the greatest version, and is edited. -/
def exhausted [Suite] : Session (List UInt32) :=
  (start {}).happenAll
    [.openObject author none (savingIn (.forWrite someContent (some [1])) .raw) [] [],
      .save (fun y => .ok (Payload.encode y)) ⟨0⟩ (some .last) none [] [], .setPayload ⟨0⟩ [1]]

theorem saved_exhausted :
    letI := signless
    (exhausted.saveFresh (.during fun s => s) ⟨0⟩ false none).1 = .ok true ∧
      (exhausted.stateOf ⟨0⟩).map ObjectState.version = some (some .last) := by
  decide +kernel

/-- A version that is minted is not always later, nor is one that is saved. -/
theorem not_always_later :
    letI := signless
    (¬ ∀ (clock : UInt64) (v : Version), v < .nextAfter clock (some v)) ∧
    ¬ ∀ (supply : Supply) (events : List (Event (List UInt32))) (id : ObjectId) (gone : Bool)
      (outstanding : Option Interest) (s' : Session (List UInt32))
      (o : VersionedObject (List UInt32)) (held v : Version),
      ((start supply).happenAll events).object? id = some o → o.state.version = some held →
      ((start supply).happenAll events).saveFresh (.during fun s => s) id gone outstanding =
        (.ok true, s') →
      ((start supply).happenAll events).Mints (.during fun s => s) s' id o gone v → held < v := by
  let _ := signless
  obtain ⟨hsave, hversion⟩ := saved_exhausted
  constructor
  · intro h
    have hlast := h 0 .last
    rw [Version.nextAfter_last] at hlast
    exact absurd hlast (UInt64.lt_irrefl _)
  · intro h
    rcases hs : exhausted.saveFresh (.during fun s => s) ⟨0⟩ false none with ⟨outcome, s'⟩
    rw [hs] at hsave
    obtain rfl : outcome = .ok true := hsave
    obtain ⟨o, v, ho, hmints⟩ := mints_of_saveFresh hs
    have hheld : o.state.version = some .last := by
      rw [stateOf_of_object? ho] at hversion
      exact Option.some.inj hversion
    have hlater := h {} _ ⟨0⟩ false none _ o .last v ho hheld hs hmints
    -- Whatever the clock said, the greatest version was minted from itself.
    obtain ⟨clock, rfl⟩ := hmints.exists_clock
    rw [hheld, Version.nextAfter_last] at hlater
    exact absurd hlater (UInt64.lt_irrefl _)

end Session

end NamedContent
