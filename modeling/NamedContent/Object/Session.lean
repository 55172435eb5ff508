import NamedContent.Network.Basic
import NamedContent.Object.Config
import NamedContent.Object.Reading

/-!
# Sessions

A session is a network with the versioned objects that were opened on it. Objects watch the network
through pending interests: the listener of an interest is the arming of some object's watch. A watch
that has confirmed a version of which something is lacking waits for it, up to a deadline on the
session's own clock, and its interest is busy meanwhile.

This module has the parts of a session and what changes only one of them.
-/

namespace NamedContent

structure ObjectId where
  index : Nat
  deriving DecidableEq, Repr

/-- One arming of an object's watch. -/
structure Watcher where
  object : ObjectId
  generation : Nat
  deriving DecidableEq, Repr

/-- A value that follows the versions published under its name. -/
structure VersionedObject (α : Type) where
  keys : KeyRing
  /-- The store for repository saves. -/
  repository : Option StoreId
  identity : Identity
  /-- How long to wait for first segments. -/
  timeout : Nat
  state : ObjectState α
  watch : Watch := .idle
  saveMode : Option SaveMode
  /-- The path that saves take, once it is open. -/
  writer : Option WritePath

/-- A watch that waits for what is lacking of a confirmed version. -/
structure Waiting where
  watcher : Watcher
  id : InterestId
  /-- How often the supply had changed when the version was confirmed. -/
  seen : Nat
  token : Option Component
  lack : Lack
  /-- How often the supply had changed when what is lacking was looked for last. -/
  checked : Nat
  deadline : Nat

/-- A network and the objects that were opened on it. -/
structure Session (α : Type) where
  network : Network Watcher := {}
  objects : List (ObjectId × VersionedObject α) := []
  opened : Nat := 0
  waiting : List Waiting := []
  /-- The clock for deadlines, in milliseconds. It is not the wall clock. -/
  now : Nat := 0

namespace Session

variable {α : Type}

/-! ### Parts -/

def supply (s : Session α) : Supply := s.network.supply

def withSupply (s : Session α) (supply : Supply) : Session α :=
  { s with network := { s.network with supply } }

def object? (s : Session α) (id : ObjectId) : Option (VersionedObject α) := s.objects.lookup id

/-- Act on the object with a number. For a number without an object nothing is done, and the answer
is `absent`. -/
def onObject {β : Type} (s : Session α) (id : ObjectId) (absent : β)
    (act : VersionedObject α → Except ObjectError β × Session α) :
    Except ObjectError β × Session α :=
  match s.object? id with
  | some o => act o
  | none => (.ok absent, s)

def modifyObject (s : Session α) (id : ObjectId)
    (change : VersionedObject α → VersionedObject α) : Session α :=
  { s with objects := s.objects.map fun e => if e.1 = id then (e.1, change e.2) else e }

def modifyState (s : Session α) (id : ObjectId) (change : ObjectState α → ObjectState α) :
    Session α :=
  s.modifyObject id fun o => { o with state := change o.state }

def setWatch (s : Session α) (id : ObjectId) (watch : Watch) : Session α :=
  s.modifyObject id fun o => { o with watch }

def setPayload (s : Session α) (id : ObjectId) (x : α) : Session α :=
  s.modifyState id (·.setPayload x)

/-- Let an object adopt a version, and say whether it moved forward. -/
def adopt (s : Session α) (id : ObjectId) (version : Adoption α) : Bool × Session α :=
  match s.object? id with
  | none => (false, s)
  | some o =>
    let (moved, state) := o.state.adopt version
    (moved, s.modifyState id fun _ => state)

/-! ### Arming and cancelling -/

/-- Cancel an interest, if there is one to cancel. -/
def withdraw (s : Session α) : Option InterestId → Session α
  | some id => { s with network := (s.network.cancel id).2 }
  | none => s

def cancelWatch (s : Session α) (id : ObjectId) : Session α :=
  match s.object? id with
  | none => s
  | some o =>
    let (withdrawn, watch) := o.watch.cancel
    (s.setWatch id watch).withdraw withdrawn

/-- Arm the watch of an object for the versions after a name, if something is running that could
deliver answers. If not, the watch is idle afterwards, whatever it was armed for before. -/
def armWhen (running : Bool) (s : Session α) (id : ObjectId) (known : Name) (continuous : Bool) :
    Except ObjectError Unit × Session α :=
  match s.object? id with
  | none => (.ok (), s)
  | some o =>
    let (query, withdrawn, watch) := o.watch.arm known continuous
    let s := s.withdraw withdrawn
    match s.network.expressWhen running query.interest ⟨id, query.generation⟩ with
    | .error e => (.error (.network e), s.setWatch id watch.cancel.2)
    | .ok (interestId, network) =>
      let (_, watch) := watch.registered query.generation interestId
      (.ok (), { s with network }.setWatch id watch)

/-- Arm the watch of an object where something is running. -/
def arm (s : Session α) (id : ObjectId) (known : Name) (continuous : Bool) : Session α :=
  (s.armWhen true id known continuous).2

/-- Arm the watch of an object after a read that found too little: for the versions after the name
that the object knows, or else after a fallback. A continuous watch stays continuous. -/
def watchAgain (s : Session α) (id : ObjectId) (fallback : Name) : Session α :=
  match s.object? id with
  | none => s
  | some o =>
    let known :=
      match o.state.knownName with
      | .ok name => name
      | .error _ => fallback.base
    s.arm id known o.watch.continuous

def remove (s : Session α) (id : ObjectId) : Session α :=
  { s with objects := s.objects.filter fun e => e.1 != id }

/-- Drop an object: its watch is cancelled, and the object goes. One of which a wait is not over
lives on, since waits are not cancelled; that it goes when the last of them is over is left out. -/
def drop (s : Session α) (id : ObjectId) : Session α :=
  let s := s.cancelWatch id
  if s.waiting.any fun w => w.watcher.object == id then s else s.remove id

end Session

end NamedContent
