import NamedContent.Object.Follow

/-!
# Updating and opening objects

The operations that read versions for their caller. Each answers whether the object moved forward.
One that finds nothing, or a version of which something is lacking, waits as long as it may, and
looks once more when the wait is over. If that is in vain, it leaves a watch behind that goes on in
the background, and answers that nothing changed.

What happens while a call waits is a parameter (`Waits`). Where nothing happens but that time
passes, nothing more is found (`Waits.alone`).
-/

namespace NamedContent

namespace Session

/-- What happens while a call waits so many milliseconds: for a version to be there, and for what is
lacking of the version that it has found. -/
structure Waits (α : Type) where
  looking : Nat → Session α → Session α
  fetching : Nat → Session α → Session α

variable {α : Type} [Suite] [Payload α]

/-- Time passes, and nothing else happens. -/
def Waits.alone : Waits α := ⟨fun ms s => s.elapse ms, fun ms s => s.elapse ms⟩

/-! ### Updates -/

/-- Look for a fragment, and if there is none once more after waiting. -/
def await (waits : Waits α) (s : Session α) (timeout : Nat)
    (find : Supply → Except NetworkError (Option Fragment)) :
    Except NetworkError (Option Fragment) × Session α :=
  match find s.supply with
  | .ok none =>
    let s := waits.looking timeout s
    (find s.supply, s)
  | found => (found, s)

/-- Finish reading for a caller: adopt what was read, or wait for what is lacking, and leave what is
lacking then to the watch. -/
def finishWith (waits : Waits α) (s : Session α) (id : ObjectId) (o : VersionedObject α)
    (reading : Except ObjectError (Reading α)) : Except ObjectError Bool × Session α :=
  match reading with
  | .error e => (.error e, s)
  | .ok (.complete version) =>
    let (moved, s) := s.adopt id version
    (.ok moved, s)
  | .ok (.lacking lack) =>
    let s := waits.fetching (s.patience o lack) s
    match Reading.pursue s.supply o.keys lack with
    | .error e => (.error e, s)
    | .ok (.complete version) =>
      let (moved, s) := s.adopt id version
      (.ok moved, s)
    | .ok (.lacking lack) => (.ok false, s.watchAgain id lack.fallback)

/-- The version that an answer to a query for later versions belongs to. -/
def target (f : Fragment) (i : Interest) : Confirmed :=
  if f.name.isVersionedFirstSegment then .firstSegment f
  else
    match i.versionedNameOf? f.name with
    | some versioned => .version versioned f.publisher
    | none => .firstSegment f

/-- Move an object to the earliest version after its own, waiting for one as long as given. -/
def updateWith (waits : Waits α) (s : Session α) (id : ObjectId) (timeout : Nat) :
    Except ObjectError Bool × Session α :=
  s.onObject id false fun o =>
    match o.state.knownName with
    | .error e => (.error e, s)
    | .ok known =>
      let interest := Interest.nextVersion known
      match s.await waits timeout (·.findVersion interest) with
      | (.error e, s) => (.error (.network e), s)
      | (.ok none, s) => (.ok false, s)
      | (.ok (some f), s) =>
        s.finishWith waits id o (Reading.ofConfirmed s.supply o.keys (target f interest))

def update (s : Session α) (id : ObjectId) (timeout : Nat) : Except ObjectError Bool × Session α :=
  s.updateWith .alone id timeout

/-- Move an object to what a name stands for: the version that it carries, or else the latest. -/
def updateNameWith (waits : Waits α) (s : Session α) (id : ObjectId) (name : Name)
    (publisher : Option Publisher) : Except ObjectError Bool × Session α :=
  s.onObject id false fun o =>
    match s.await waits o.timeout (·.openVersioned? name publisher) with
    | (.error e, s) => (.error (.network e), s)
    | (.ok (some first), s) => s.finishWith waits id o (Reading.ofFirst s.supply o.keys first)
    | (.ok none, s) => (.ok false, s.watchAgain id name)

def updateName (s : Session α) (id : ObjectId) (name : Name) (publisher : Option Publisher) :
    Except ObjectError Bool × Session α :=
  s.updateNameWith .alone id name publisher

/-- Move an object to the version that a fragment belongs to. -/
def updateFragmentWith (waits : Waits α) (s : Session α) (id : ObjectId) (f : Fragment) :
    Except ObjectError Bool × Session α :=
  s.onObject id false fun o =>
    if f.name.isVersionedFirstSegment then
      s.finishWith waits id o (Reading.ofFirst s.supply o.keys f)
    else
      match f.name.versioned? with
      | none => (.error (.unversioned f.name), s)
      | some versioned =>
        s.finishWith waits id o
          (Reading.pursue s.supply o.keys (.firstSegment versioned f.publisher))

def updateFragment (s : Session α) (id : ObjectId) (f : Fragment) :
    Except ObjectError Bool × Session α :=
  s.updateFragmentWith .alone id f

/-- Watch for the versions after a name, or after the object's own if none is given. -/
def updateInBackgroundWhen (running : Bool) (s : Session α) (id : ObjectId) (known : Option Name)
    (continuous : Bool) : Except ObjectError Unit × Session α :=
  s.onObject id () fun o =>
    match (known.map .ok).getD o.state.knownName with
    | .ok known => s.armWhen running id known continuous
    | .error e => (.error e, s)

def updateInBackground (s : Session α) (id : ObjectId) (known : Option Name)
    (continuous : Bool) : Except ObjectError Unit × Session α :=
  s.updateInBackgroundWhen true id known continuous

/-! ### Opening -/

/-- The object that a configuration describes, before it has its first value. -/
def prepare (keys : KeyRing) (repository : Option StoreId) (c : ObjectConfig α) :
    VersionedObject α where
  keys
  repository
  identity := c.identity
  timeout := c.timeout
  state := .new c.name
  saveMode := c.writeMode.saveMode?
  writer := c.writeMode.path?

def giveFirstValueWith (waits : Waits α) (s : Session α) (id : ObjectId) (c : ObjectConfig α) :
    Except ObjectError Unit × Session α :=
  match c.initial with
  | .empty => (.ok (), s)
  | .value x => (.ok (), s.setPayload id x)
  | .read publisher =>
    match c.name with
    | none => (.error .missingName, s)
    | some name =>
      let (outcome, s) := s.updateNameWith waits id name publisher
      (outcome.map fun _ => (), s)
  | .fragment f =>
    let (outcome, s) := s.updateFragmentWith waits id f
    (outcome.map fun _ => (), s)

def giveFirstValue (s : Session α) (id : ObjectId) (c : ObjectConfig α) :
    Except ObjectError Unit × Session α :=
  s.giveFirstValueWith .alone id c

/-- Open an object for a participant with some keys and perhaps a repository, which is attached.
An object that cannot be given its first value is dropped. -/
def openObjectWith (waits : Waits α) (s : Session α) (keys : KeyRing)
    (repository : Option StoreId) (c : ObjectConfig α) : Except ObjectError ObjectId × Session α :=
  let s :=
    match repository with
    | some store => s.withSupply (s.supply.attach store)
    | none => s
  let id : ObjectId := ⟨s.opened⟩
  let s := { s with
    objects := s.objects ++ [(id, prepare keys repository c)]
    opened := s.opened + 1 }
  match s.giveFirstValueWith waits id c with
  | (.ok _, s) => (.ok id, s)
  | (.error e, s) => (.error e, s.drop id)

def openObject (s : Session α) (keys : KeyRing) (repository : Option StoreId)
    (c : ObjectConfig α) : Except ObjectError ObjectId × Session α :=
  s.openObjectWith .alone keys repository c

/-! ### Waiting -/

def waitForData (s : Session α) (id : ObjectId) (timeout : Nat) : Bool × Session α :=
  s.elapseUntil (fun s => (s.object? id).any (·.state.available)) timeout

/-- Whether a version is later than another one; any version is later than none. -/
def isLater (v known : Option Version) : Bool :=
  match v, known with
  | some v, some known => decide (known < v)
  | some _, none => true
  | none, _ => false

def waitForNewer (s : Session α) (id : ObjectId) (known : Option Version) (timeout : Nat) :
    Bool × Session α :=
  s.elapseUntil (fun s => (s.object? id).any fun o => isLater o.state.version known) timeout

end Session

end NamedContent
