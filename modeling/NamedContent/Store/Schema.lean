import NamedContent.Store.Basic

/-!
# Schema versions

A database carries a schema version, and `migrate` brings it up to the current one. Each pending
step creates tables and indexes; one whose name is taken makes the whole migration fail and leaves
the database as it was. A schema of a later version is refused.
-/

namespace NamedContent

/-- The version and the named parts of a database. -/
structure Schema where
  version : Int := 0
  parts : List String := []
  deriving DecidableEq, Repr

namespace Schema

/-- What each step creates: step `i` leads from version `i` to version `i + 1`. -/
def steps : List (List String) :=
  [["fragments", "namespaces", "idx_fragments_publisher"]]

def current : Nat := steps.length

/-- A version number as it is stored: numbers that do not fit into 32 bits become zero. -/
def storedVersion (n : Int) : Int :=
  if -0x80000000 ≤ n ∧ n < 0x80000000 then n else 0

def setVersion (s : Schema) (n : Int) : Schema := { s with version := storedVersion n }

/-- Create a part. Names are compared without regard to case. -/
def create (parts : List String) (name : String) : Except StoreError (List String) :=
  if parts.any fun p => p.toLower == name.toLower then
    .error (.database ("there is already a part named " ++ name))
  else .ok (parts ++ [name])

/-- Bring a schema up to the current version. -/
def migrate (s : Schema) : Except StoreError Schema :=
  if s.version < 0 then .error (.database "negative schema version")
  else if (current : Int) < s.version then
    .error (.migration ("schema version " ++ toString s.version ++
      " is newer than supported version " ++ toString current))
  else do
    let parts ← (steps.drop s.version.toNat).flatten.foldlM create s.parts
    return ⟨current, parts⟩

def listing (s : Schema) : List String := s.parts.mergeSort (· ≤ ·)

end Schema

end NamedContent
