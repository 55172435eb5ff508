import NamedContent.Object.Save
import NamedContent.Proofs.Object.State
import NamedContent.Proofs.Outcome

/-!
# The stages of a save

A save that has something to save opens the write path, registers the base name, makes ready what it
is to write, writes it and records it. At each of these stages it can fail, and then nothing later
happens. `Saves` says what comes of a save, of a value or of a tombstone, and `Writes` what comes of
one that got as far as writing. What is proved about all saves goes through these two.
-/

namespace NamedContent
namespace Session

variable {α : Type} [Suite] {s s' : Session α} {id : ObjectId} {o : VersionedObject α}
  {path : WritePath} {mode : SaveMode} {supply : Supply} {outcome : Except ObjectError Bool}

/-! ### The write path -/

theorem writePath_of_writer (h : o.writer = some path) : s.writePath id o = .ok (path, s) := by
  unfold writePath
  rw [h]

theorem writePath_of_mode (hwriter : o.writer = none) (hmode : o.saveMode = some mode)
    (hopen : WritePath.ofMode mode o.repository o.keys s.supply = .ok (path, supply)) :
    s.writePath id o = .ok (path,
      (s.withSupply supply).modifyObject id fun o => { o with writer := some path }) := by
  unfold writePath
  rw [hwriter, hmode]
  dsimp only
  rw [hopen]
  rfl

/-- A write path that is to be had was open, or has been opened in the mode that was chosen. -/
theorem writePath_cases (h : s.writePath id o = .ok (path, s')) :
    o.writer = some path ∧ s' = s ∨
      ∃ mode supply, o.writer = none ∧ o.saveMode = some mode ∧
        WritePath.ofMode mode o.repository o.keys s.supply = .ok (path, supply) ∧
        s' = (s.withSupply supply).modifyObject id fun o => { o with writer := some path } := by
  unfold writePath at h
  split at h
  · next hwriter =>
    cases h
    exact .inl ⟨hwriter, rfl⟩
  · cases h
  · next mode hwriter hmode =>
    obtain ⟨opened, hopen, h⟩ := ok_of_bind h
    cases h
    exact .inr ⟨mode, opened.2, hwriter, hmode, ok_of_mapError hopen, rfl⟩

omit [Suite] in
theorem registerBase_eq_ok_iff {name : Name} :
    s.registerBase path name = .ok s' ↔
      ∃ supply, path.register name.base s.supply = .ok supply ∧ s' = s.withSupply supply := by
  constructor
  · intro h
    obtain ⟨supply, hregister, h⟩ := ok_of_bind h
    cases h
    exact ⟨supply, ok_of_mapError hregister, rfl⟩
  · rintro ⟨supply, hregister, rfl⟩
    unfold registerBase
    rw [hregister]
    rfl

/-- The write path of an object is open and the base name registered with it. -/
def Ready (s : Session α) (id : ObjectId) (o : VersionedObject α) (b : Name) (path : WritePath)
    (s' : Session α) : Prop :=
  ∃ opened, s.writePath id o = .ok (path, opened) ∧ opened.registerBase path b = .ok s'

/-- A save has begun, and is ready to write: what it has taken of the object, the path that it
takes, and the session that it has come to. -/
structure Begun (s : Session α) (id : ObjectId) (gone : Bool) (o : VersionedObject α)
    (save : PendingSave α) (path : WritePath) (t : Session α) : Prop where
  object?_eq : s.object? id = some o
  beginSave_eq : o.state.beginSave gone = .ok (some save)
  ready : s.Ready id o save.base path t

/-! ### Writing -/

section

variable (run : SaveRun α) (s : Session α) (id : ObjectId) (o : VersionedObject α)
  (path : WritePath) (save : PendingSave α) (payload : Option Octets) (v : Version)
  (outstanding : Option Interest)

/-- What comes of writing a version: it cannot be made ready, it is not taken, or it is written and
recorded. -/
inductive Writes : Except ObjectError Bool → Session α → Prop where
  | unready (e : NetworkError)
      (toWrite_eq : o.toWrite s.supply payload (save.base.base.addVersion v) outstanding =
        .error e) :
      Writes (.error (.network e)) s
  | fails (w : Write) (e : NetworkError) (supply : Supply)
      (toWrite_eq : o.toWrite s.supply payload (save.base.base.addVersion v) outstanding = .ok w)
      (perform_eq : w.perform path (run.before s).supply = (.error e, supply)) :
      Writes (.error (.network e)) ((run.before s).withSupply supply)
  | records (w : Write) (ack : WriteAck) (supply : Supply)
      (toWrite_eq : o.toWrite s.supply payload (save.base.base.addVersion v) outstanding = .ok w)
      (perform_eq : w.perform path (run.before s).supply = (.ok ack, supply)) :
      Writes (.ok true)
        ((run.after ((run.before s).withSupply supply)).modifyState id fun state =>
          (state.commitSave ⟨v, ack.publisher, ack.locator, save.value.isNone, save.edits⟩).2)

end

variable {run : SaveRun α} {save : PendingSave α} {payload : Option Octets} {gone : Bool}
  {version : Option Version} {outstanding : Option Interest}

theorem writes_of_writeSave
    (h : writeSave run s id o path save payload version outstanding = (outcome, s')) :
    s.Writes run id o path save payload
      (version.getD (.nextAfter s.supply.clock save.version)) outstanding outcome s' := by
  unfold writeSave at h
  dsimp only at h
  split at h
  · next e hwrite =>
    cases h
    exact .unready e hwrite
  · next w hwrite =>
    unfold performSave at h
    split at h
    · next e supply hperform =>
      cases h
      exact .fails w e supply hwrite hperform
    · next ack supply hperform =>
      cases h
      exact .records w ack supply hwrite hperform

theorem writeSave_of_written {w : Write} {ack : WriteAck} {v : Version}
    (hv : version.getD (.nextAfter s.supply.clock save.version) = v)
    (hwrite : o.toWrite s.supply payload (save.base.base.addVersion v) outstanding = .ok w)
    (hperform : w.perform path (run.before s).supply = (.ok ack, supply)) :
    writeSave run s id o path save payload version outstanding =
      (.ok true, (run.after ((run.before s).withSupply supply)).modifyState id fun state =>
        (state.commitSave ⟨v, ack.publisher, ack.locator, save.value.isNone, save.edits⟩).2) := by
  subst hv
  unfold writeSave
  dsimp only
  rw [hwrite]
  unfold performSave
  dsimp only
  rw [hperform]

/-! ### Saving -/

/-- What comes of a save: nothing is begun, or the base cannot be registered, or the value cannot be
encoded, or it is written. -/
inductive Saves (run : SaveRun α) (s : Session α) (id : ObjectId) (gone : Bool)
    (version : Option Version) (outstanding : Option Interest) :
    Except ObjectError Bool → Session α → Prop where
  | vain {outcome : Except ObjectError Bool} (vain : outcome ≠ .ok true) :
      Saves run s id gone version outstanding outcome s
  | unregistered (o : VersionedObject α) (save : PendingSave α) (path : WritePath) (s₁ : Session α)
      (e : ObjectError) (object?_eq : s.object? id = some o)
      (writePath_eq : s.writePath id o = .ok (path, s₁))
      (registerBase_eq : s₁.registerBase path save.base = .error e) :
      Saves run s id gone version outstanding (.error e) s₁
  | unencoded (o : VersionedObject α) (save : PendingSave α) (path : WritePath) (t : Session α)
      (e : ObjectError) (begun : s.Begun id gone o save path t)
      (encode_eq : save.value.mapM run.encode = .error e) :
      Saves run s id gone version outstanding (.error e) t
  | writes (o : VersionedObject α) (save : PendingSave α) (path : WritePath) (t : Session α)
      (payload : Option Octets) {outcome : Except ObjectError Bool} {s' : Session α}
      (begun : s.Begun id gone o save path t)
      (encode_eq : save.value.mapM run.encode = .ok payload)
      (writes : t.Writes run id o path save payload
        (version.getD (.nextAfter t.supply.clock save.version)) outstanding outcome s') :
      Saves run s id gone version outstanding outcome s'

theorem saves_of_saveRun (h : saveRun run s id gone version outstanding = (outcome, s')) :
    s.Saves run id gone version outstanding outcome s' := by
  unfold saveRun onObject at h
  split at h
  · next o ho =>
    dsimp only at h
    split at h
    · cases h
      exact .vain nofun
    · cases h
      exact .vain nofun
    · next save hbegin =>
      split at h
      · cases h
        exact .vain nofun
      · next path s₁ hpath =>
        split at h
        · next e hregister =>
          cases h
          exact .unregistered o save path _ e ho hpath hregister
        · next t hregister =>
          have hbegun : s.Begun id gone o save path t := ⟨ho, hbegin, s₁, hpath, hregister⟩
          split at h
          · next e hencode =>
            cases h
            exact .unencoded o save path _ e hbegun hencode
          · next payload hencode =>
            exact .writes o save path t payload hbegun hencode (writes_of_writeSave h)
  · cases h
    exact .vain nofun

/-- The save of a tombstone begins with a check of the name. -/
theorem saveGoneRun_cases (run : SaveRun α) (s : Session α) (id : ObjectId)
    (outstanding : Option Interest) :
    (∃ outcome, s.saveGoneRun run id outstanding = (outcome, s) ∧ outcome ≠ .ok true) ∨
      s.saveGoneRun run id outstanding = s.saveRun run id true none outstanding := by
  unfold saveGoneRun onObject
  split
  · dsimp only
    split
    · exact .inl ⟨_, rfl, nofun⟩
    · split
      · exact .inl ⟨_, rfl, nofun⟩
      · exact .inr rfl
  · exact .inl ⟨_, rfl, nofun⟩

theorem saves_of_saveGoneRun (h : s.saveGoneRun run id outstanding = (outcome, s')) :
    s.Saves run id true none outstanding outcome s' := by
  rcases s.saveGoneRun_cases run id outstanding with ⟨_, heq, hvain⟩ | heq
  · rw [heq] at h
    cases h
    exact .vain hvain
  · exact saves_of_saveRun (heq.symm.trans h)

/-- A save that has begun writes, if the value can be encoded. -/
theorem saveRun_of_begun {t : Session α} (h : s.Begun id gone o save path t)
    (hencode : save.value.mapM run.encode = .ok payload) :
    s.saveRun run id gone version outstanding =
      writeSave run t id o path save payload version outstanding := by
  obtain ⟨s₁, hpath, hregister⟩ := h.ready
  unfold saveRun onObject
  rw [h.object?_eq]
  dsimp only
  rw [h.beginSave_eq]
  dsimp only
  rw [hpath]
  dsimp only
  rw [hregister]
  dsimp only
  rw [hencode]

/-! ### Encoding as the type says -/

variable [Payload α] {during : Session α → Session α}

omit [Suite] in
/-- The payload of a type can always be had. -/
theorem mapM_encode_during (during : Session α → Session α) (value : Option α) :
    value.mapM (SaveRun.during during).encode = .ok (value.map Payload.encode) := by
  cases value <;> rfl

theorem saveWith_of_begun {t : Session α} (h : s.Begun id gone o save path t) :
    s.saveWith during id gone version outstanding =
      writeSave (.during during) t id o path save (save.value.map Payload.encode) version
        outstanding :=
  saveRun_of_begun h (mapM_encode_during during save.value)

end Session
end NamedContent
