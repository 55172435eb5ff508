import NamedContent.Store.Basic
import NamedContent.Name.Map
import NamedContent.Interest.Basic

/-!
# The store in memory

Fragments are kept in a map by name, and the namespaces that the store serves in a set.
-/

namespace NamedContent

/-- A store without a file. -/
structure MemoryStore where
  fragments : NameMap Fragment := .empty
  namespaces : NameSet := .empty

namespace MemoryStore

def empty : MemoryStore := {}

def size (s : MemoryStore) : Nat := s.fragments.size

def get? (s : MemoryStore) (n : Name) : Option Fragment := s.fragments.get? n

def has (s : MemoryStore) (n : Name) : Bool := s.fragments.contains n

def under (s : MemoryStore) (p : Name) : List Fragment := s.fragments.under p

def addNamespace (s : MemoryStore) (p : Name) : MemoryStore :=
  { s with namespaces := s.namespaces.add p }

def serves (s : MemoryStore) (n : Name) : Bool := s.namespaces.covers n

variable [Suite]

def save (s : MemoryStore) (f : Fragment) : SaveOutcome × MemoryStore :=
  match s.fragments.get? f.name with
  | some g => (if g.digest = f.digest then .exists else .conflict g.digest, s)
  | none => (.inserted, { s with fragments := s.fragments.insertNew f.name f })

def find? (s : MemoryStore) (i : Interest) : Option Fragment := i.select (s.under i.name)

end MemoryStore

end NamedContent
