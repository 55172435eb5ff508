import NamedContent.Fragment.Basic
import NamedContent.Object.Error

/-!
# The state of a versioned object

An object holds one value under a base name, together with the version that the value came from or
was saved as. It moves forward only: a version of the same base is adopted or recorded only if it is
later than the one held. A tombstone has no value; reading any version makes the object clean; an
edit makes it dirty until a save that began after the edit is recorded.
-/

namespace NamedContent

/-- The version, the value and the flags of an object. -/
structure ObjectState (α : Type) where
  base : Option Name
  version : Option Version := none
  publisher : Option Publisher := none
  locator : Option KeyLocator := none
  payload : Option α := none
  /-- The version is a tombstone. -/
  gone : Bool := false
  /-- The value was edited since the version. -/
  dirty : Bool := false
  /-- Some version or value has been there. -/
  available : Bool := false
  /-- How often the value was edited. -/
  edits : Nat := 0
  deriving DecidableEq

/-- A version that was read from the network; without a value it is a tombstone. -/
structure Adoption (α : Type) where
  base : Name
  version : Version
  publisher : Publisher
  locator : KeyLocator
  payload : Option α

/-- A save that has begun: what it writes, and what the object was like. -/
structure PendingSave (α : Type) where
  base : Name
  /-- The value to write; without one it is a tombstone. -/
  value : Option α
  /-- The edit count at which the value was taken. -/
  edits : Nat
  version : Option Version

/-- A version that the object wrote itself. -/
structure SavedVersion where
  version : Version
  publisher : Publisher
  locator : KeyLocator
  gone : Bool
  edits : Nat

namespace ObjectState

variable {α : Type}

def new (base : Option Name) : ObjectState α := { base }

/-! ### Names -/

/-- The base name, which has to be there and not be the root. -/
def requireBase (s : ObjectState α) : Except ObjectError Name :=
  match s.base with
  | some base => if base.isRoot then .error .missingName else .ok base
  | none => .error .missingName

def versioned? (s : ObjectState α) : Option Name := do
  return (← s.base).addVersion (← s.version)

/-- The most specific name known: the versioned name, or else the base name. -/
def knownName (s : ObjectState α) : Except ObjectError Name := do
  let base ← s.requireBase
  return s.versioned?.getD base

/-! ### The value -/

def value (s : ObjectState α) : Except ObjectError α :=
  if s.gone then .error .contentGone
  else
    match s.payload with
    | some x => .ok x
    | none => .error .contentNotReady

def setPayload (s : ObjectState α) (x : α) : ObjectState α :=
  { s with
    payload := some x, gone := false, dirty := true, available := true
    edits := s.edits + 1 }

/-! ### Versions -/

/-- Whether a version of a base name moves the object forward. Any version of another base does. -/
def isNewer (s : ObjectState α) (base : Name) (v : Version) : Bool :=
  match s.base, s.version with
  | some current, some known => if current.base = base then decide (known < v) else true
  | _, _ => true

/-- Take over a version that was read, unless it does not move the object forward. -/
def adopt (s : ObjectState α) (a : Adoption α) : Bool × ObjectState α :=
  if s.isNewer a.base a.version then
    (true,
      { s with
        base := some a.base, version := some a.version
        publisher := some a.publisher, locator := some a.locator
        payload := a.payload, gone := a.payload.isNone, dirty := false, available := true })
  else (false, s)

/-- Begin to save the value, or a tombstone. A clean object has nothing to save. -/
def beginSave (s : ObjectState α) (gone : Bool) : Except ObjectError (Option (PendingSave α)) := do
  let base ← s.requireBase
  if gone then return some ⟨base, none, s.edits, s.version⟩
  else if !s.dirty then return none
  else
    match s.value with
    | .ok x => return some ⟨base, some x, s.edits, s.version⟩
    | .error _ => throw .nothingToSave

/-- The state after a version that moves the object forward was written under a base name. -/
def record (s : ObjectState α) (base : Name) (v : SavedVersion) : ObjectState α :=
  { s with
    base := some base, version := some v.version
    publisher := some v.publisher, locator := some v.locator
    payload := if v.gone then none else s.payload
    gone := v.gone
    dirty := !v.gone && s.edits != v.edits
    available := true }

/-- Record a save. A value that was edited since the save began stays dirty. A version that was
adopted meanwhile and is at least as late stays. -/
def commitSave (s : ObjectState α) (v : SavedVersion) : Bool × ObjectState α :=
  match s.base with
  | none => (false, s)
  | some base =>
    if s.isNewer base.base v.version then (true, s.record base.base v)
    else if !v.gone && s.edits == v.edits then (false, { s with dirty := false })
    else (false, s)

/-! ### Display -/

def describe (s : ObjectState α) : String :=
  match s.versioned? with
  | some name =>
    if s.gone then name.toUri ++ ": GONE"
    else if s.dirty then name.toUri ++ " (modified)"
    else name.toUri
  | none =>
    let base := (s.base.map Name.toUri).getD "<unnamed>"
    if s.payload.isSome then base ++ " (unsaved)" else base ++ " (unsaved, no data)"

end ObjectState

end NamedContent
