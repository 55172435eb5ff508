import NamedContent.Network.WritePath

/-!
# Object configuration

What an object is opened with: its name, the identity that it signs as, where its first value comes
from and how its saves reach the network.
-/

namespace NamedContent

/-- Whom an object signs its saves as. -/
structure Identity where
  /-- The publisher; the default of the key ring if absent. -/
  publisher : Option Publisher := none
  /-- The locator of saved fragments; the signing key if absent. -/
  locator : Option KeyLocator := none
  deriving DecidableEq

/-- Where the first value of an object comes from. -/
inductive InitialContent (α : Type) where
  | empty
  /-- It is given, and dirty until it is saved. -/
  | value (x : α)
  /-- It is read under the object's name, perhaps from one publisher only. -/
  | read (publisher : Option Publisher)
  /-- It is the version that a fragment belongs to. -/
  | fragment (f : Fragment)

/-- How the saves of an object reach the network. -/
inductive WriteMode where
  /-- That is chosen later. -/
  | deferred
  | raw
  | repository
  /-- They take a path that exists already. -/
  | explicit (path : WritePath)

namespace WriteMode

def saveMode? : WriteMode → Option SaveMode
  | .deferred => none
  | .raw => some .raw
  | .repository => some .repository
  | .explicit path => some path.mode

def path? : WriteMode → Option WritePath
  | .explicit path => some path
  | _ => none

def describe : WriteMode → String
  | .deferred => "Deferred"
  | .raw => "Raw"
  | .repository => "Repository"
  | .explicit path => "Explicit(" ++ path.mode.toText ++ ")"

end WriteMode

/-- What an object is opened with. -/
structure ObjectConfig (α : Type) where
  /-- The base name, or a versioned name to read. A fragment to begin with brings its own. -/
  name : Option Name := none
  identity : Identity := {}
  initial : InitialContent α := .empty
  writeMode : WriteMode := .deferred
  /-- How long to wait for first segments, in milliseconds. -/
  timeout : Nat := 4000

namespace ObjectConfig

variable {α : Type}

/-- An object to write under a name, with a value to begin with or none. -/
def forWrite (name : Name) (value : Option α) : ObjectConfig α :=
  { name := some name, initial := value.elim .empty .value, writeMode := .raw }

/-- An object to read: the version that the name carries, or else the latest one. -/
def read (name : Name) (publisher : Option Publisher := none) : ObjectConfig α :=
  { name := some name, initial := .read publisher }

def fromFirstFragment (f : Fragment) : ObjectConfig α := { initial := .fragment f }

end ObjectConfig

end NamedContent
