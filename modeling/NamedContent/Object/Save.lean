import NamedContent.Object.Session

/-!
# Saving objects

A save takes the value, opens the write path if that is still to be done, registers the base name,
encodes the value, writes it as a new version and records it. Without a version of its own it is
later than the version held. A tombstone is written as one empty, final fragment of type gone.

What a save writes is fixed when it begins. What happens to the session before the writing, and
between the writing and the recording, is a parameter (`SaveRun`). It is not saved; an edit of the
object leaves it dirty. The writing itself is one step.
-/

namespace NamedContent

/-- A version that is ready to be written. -/
inductive Write where
  /-- A value, to be signed by the writer. -/
  | stream (write : StreamWrite)
  | tombstone (fragment : Fragment) (outstanding : Option Interest)

def Write.perform (w : Write) (path : WritePath) (s : Supply) :
    Except NetworkError WriteAck × Supply :=
  match w with
  | .stream write => path.putStream write s
  | .tombstone f outstanding => path.putFragment f outstanding s

namespace VersionedObject

variable {α : Type} [Suite]

def tombstone (o : VersionedObject α) (s : Supply) (versioned : Name) :
    Except NetworkError Fragment :=
  let publisher := o.identity.publisher.getD o.keys.default
  match o.keys.keypair? publisher with
  | none => .error (.unknownPublisher publisher)
  | some keypair =>
    let draft : Draft := {
      name := versioned.firstSegmentName, contentType := .gone, final := some Segment.first
      locator := some (o.identity.locator.getD (.key keypair.publicKey))
      freshness := s.config.freshness }
    .ok (draft.sign s.clock keypair)

/-- Make ready what a save is to write: a payload, or a tombstone if there is none. -/
def toWrite (o : VersionedObject α) (s : Supply) (payload : Option Octets) (versioned : Name)
    (outstanding : Option Interest) : Except NetworkError Write :=
  match payload with
  | some payload =>
    .ok (.stream {
      name := versioned, payload, publisher := o.identity.publisher
      locator := o.identity.locator, outstanding })
  | none => (o.tombstone s versioned).map (.tombstone · outstanding)

end VersionedObject

namespace Session

variable {α : Type} [Suite]

/-! ### Save modes -/

/-- Choose the save mode. It is fixed once a write path is open. -/
def setSaveMode (s : Session α) (id : ObjectId) (mode : SaveMode) :
    Except ObjectError Unit × Session α :=
  s.onObject id () fun o =>
    let chosen := s.modifyObject id fun o => { o with saveMode := some mode }
    match o.writer with
    | none => (.ok (), chosen)
    | some path =>
      if path.mode = mode then (.ok (), chosen)
      else (.error (.saveModeLocked path.mode mode), s)

/-- The write path of an object, opened in the mode that was chosen if it is not open yet. -/
def writePath (s : Session α) (id : ObjectId) (o : VersionedObject α) :
    Except ObjectError (WritePath × Session α) :=
  match o.writer, o.saveMode with
  | some path, _ => .ok (path, s)
  | none, none => .error .noWritePath
  | none, some mode => do
    let (path, supply) ← (WritePath.ofMode mode o.repository o.keys s.supply).mapError .network
    return (path, (s.withSupply supply).modifyObject id fun o => { o with writer := some path })

def registerBase (s : Session α) (path : WritePath) (name : Name) :
    Except ObjectError (Session α) := do
  return s.withSupply (← (path.register name.base s.supply).mapError .network)

def openWritePath (s : Session α) (id : ObjectId) : Except ObjectError Unit × Session α :=
  s.onObject id () fun o =>
    match s.writePath id o with
    | .error e => (.error e, s)
    | .ok (path, s) =>
      match o.state.requireBase.bind (s.registerBase path) with
      | .error e => (.error e, s)
      | .ok s => (.ok (), s)

/-- Choose the save mode, open the write path and register the base name at once. -/
def setupSave (s : Session α) (id : ObjectId) (mode : SaveMode) :
    Except ObjectError Unit × Session α :=
  match s.setSaveMode id mode with
  | (.error e, s) => (.error e, s)
  | (.ok _, s) => s.openWritePath id

/-! ### Saving -/

/-- How a save runs: how it encodes the value, which can fail, and what happens beside it, before
the writing and between the writing and the recording. -/
structure SaveRun (α : Type) where
  encode : α → Except ObjectError Octets
  before : Session α → Session α
  after : Session α → Session α

/-- Values are encoded as the payloads of their type, and something happens before the writing. -/
def SaveRun.during [Payload α] (before : Session α → Session α) : SaveRun α where
  encode x := .ok (Payload.encode x)
  before
  after s := s

/-- Write what is ready, and record the save if it was written. -/
def performSave (run : SaveRun α) (s : Session α) (id : ObjectId) (path : WritePath)
    (save : PendingSave α) (version : Version) (write : Write) :
    Except ObjectError Bool × Session α :=
  match write.perform path s.supply with
  | (.error e, supply) => (.error (.network e), s.withSupply supply)
  | (.ok ack, supply) =>
    let saved : SavedVersion :=
      ⟨version, ack.publisher, ack.locator, save.value.isNone, save.edits⟩
    (.ok true,
      (run.after (s.withSupply supply)).modifyState id fun state => (state.commitSave saved).2)

def writeSave (run : SaveRun α) (s : Session α) (id : ObjectId) (o : VersionedObject α)
    (path : WritePath) (save : PendingSave α) (payload : Option Octets) (version : Option Version)
    (outstanding : Option Interest) : Except ObjectError Bool × Session α :=
  let version := version.getD (.nextAfter s.supply.clock save.version)
  let versioned := save.base.base.addVersion version
  match o.toWrite s.supply payload versioned outstanding with
  | .error e => (.error (.network e), s)
  | .ok write => (run.before s).performSave run id path save version write

/-- Save the value of an object, or a tombstone, perhaps as a given version and in answer to an
outstanding interest. The result says whether there was anything to save. -/
def saveRun (run : SaveRun α) (s : Session α) (id : ObjectId) (gone : Bool)
    (version : Option Version) (outstanding : Option Interest) :
    Except ObjectError Bool × Session α :=
  s.onObject id false fun o =>
    match o.state.beginSave gone with
    | .error e => (.error e, s)
    | .ok none => (.ok false, s)
    | .ok (some save) =>
      match s.writePath id o with
      | .error e => (.error e, s)
      | .ok (path, s) =>
        match s.registerBase path save.base with
        | .error e => (.error e, s)
        | .ok s =>
          match save.value.mapM run.encode with
          | .error e => (.error e, s)
          | .ok payload => writeSave run s id o path save payload version outstanding

/-- Save a tombstone. The object's name must not carry a version. -/
def saveGoneRun (run : SaveRun α) (s : Session α) (id : ObjectId)
    (outstanding : Option Interest) : Except ObjectError Bool × Session α :=
  s.onObject id false fun o =>
    match o.state.requireBase with
    | .error e => (.error e, s)
    | .ok base =>
      if base.hasVersion then (.error (.versionedTombstone base), s)
      else saveRun run s id true none outstanding

variable [Payload α]

/-- Save with something else going on before the writing. -/
def saveWith (during : Session α → Session α) (s : Session α) (id : ObjectId) (gone : Bool)
    (version : Option Version) (outstanding : Option Interest) :
    Except ObjectError Bool × Session α :=
  saveRun (.during during) s id gone version outstanding

def save (s : Session α) (id : ObjectId) (version : Option Version)
    (outstanding : Option Interest) : Except ObjectError Bool × Session α :=
  saveWith (fun s => s) s id false version outstanding

/-- Save a tombstone with something else going on before the writing. -/
def saveGoneWith (during : Session α → Session α) (s : Session α) (id : ObjectId)
    (outstanding : Option Interest) : Except ObjectError Bool × Session α :=
  saveGoneRun (.during during) s id outstanding

def saveGone (s : Session α) (id : ObjectId) (outstanding : Option Interest) :
    Except ObjectError Bool × Session α :=
  saveGoneWith (fun s => s) s id outstanding

end Session

end NamedContent
