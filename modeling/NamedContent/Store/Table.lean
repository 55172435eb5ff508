import NamedContent.Store.Schema
import NamedContent.Interest.Basic

/-!
# The store in tables

Fragments are rows under a key that spells the name: each component is preceded by its length, so a
name is a prefix of another exactly when its key is a prefix of the other's key. Fragments are kept
encoded, next to the digest of the encoding. Namespaces are kept as URIs and read back when they
are listed.
-/

namespace NamedContent

/-- The key of a component: its length in four bytes, then its bytes. -/
def Component.key (c : Component) : Octets := Octets.ofNat 4 c.length ++ c.octets

def Name.key (n : Name) : Octets := n.components.flatMap Component.key

structure Row where
  key : Octets
  uri : String
  digest : Octets
  encoded : Octets
  deriving DecidableEq

def Row.fragment (r : Row) : Except StoreError Fragment :=
  (Fragment.decode r.encoded).mapError fun e => .codec e.toCore

/-- A store that keeps its content in tables; rows stand in the order in which they were added. -/
structure TableStore where
  schema : Schema
  rows : List Row := []
  /-- Keys and URIs of the served namespaces. -/
  namespaces : List (Octets × String) := []
  deriving DecidableEq

namespace TableStore

def create : Except StoreError TableStore := do
  return { schema := ← Schema.migrate {} }

/-- The store after it was closed and opened again. -/
def reopen (s : TableStore) : Except StoreError TableStore := do
  return { s with schema := ← s.schema.migrate }

def size (s : TableStore) : Nat := s.rows.length

def row? (s : TableStore) (n : Name) : Option Row := s.rows.find? fun r => r.key == n.key

def get? (s : TableStore) (n : Name) : Except StoreError (Option Fragment) :=
  match s.row? n with
  | some r => r.fragment.map some
  | none => .ok none

def has (s : TableStore) (n : Name) : Bool := (s.row? n).isSome

/-- The fragments under a name, in order of the names that they carry. -/
def under (s : TableStore) (p : Name) : Except StoreError (List Fragment) := do
  let fragments ← (s.rows.filter fun r => p.key.isPrefixOf r.key).mapM Row.fragment
  return fragments.mergeSort fun f g => (compare f.name g.name).isLE

def addNamespace (s : TableStore) (p : Name) : TableStore :=
  if s.namespaces.any fun e => e.1 == p.key then s
  else { s with namespaces := s.namespaces ++ [(p.key, p.toUri)] }

def listNamespaces (s : TableStore) : Except StoreError (List Name) := do
  let names ← s.namespaces.mapM fun e =>
    (Name.parse e.2).mapError fun fault => StoreError.codec (.ofUri fault)
  return Name.sort names

def serves (s : TableStore) (n : Name) : Except StoreError Bool := do
  return (← s.listNamespaces).any (·.isPrefixOf n)

inductive Column where
  | digest
  | encoded
  deriving DecidableEq, Repr

/-- Overwrite a column of the rows with a name's URI, and count them. -/
def overwrite (s : TableStore) (n : Name) (column : Column) (value : Octets) :
    Nat × TableStore :=
  let hit (r : Row) : Bool := r.uri == n.toUri
  let change (r : Row) : Row :=
    match column with
    | .digest => { r with digest := value }
    | .encoded => { r with encoded := value }
  ((s.rows.filter hit).length,
    { s with rows := s.rows.map fun r => if hit r then change r else r })

variable [Suite]

def save (s : TableStore) (f : Fragment) : Except StoreError (SaveOutcome × TableStore) :=
  match s.row? f.name with
  | some r =>
    match Block.ofOctets? 32 r.digest with
    | none => .error (.invalidData "digest is not 32 bytes")
    | some d => .ok (if d = f.digest.block then .exists else .conflict ⟨d⟩, s)
  | none =>
    let r : Row := ⟨f.name.key, f.name.toUri, f.digest.block.octets, f.encode⟩
    .ok (.inserted, { s with rows := s.rows ++ [r] })

def find? (s : TableStore) (i : Interest) : Except StoreError (Option Fragment) := do
  return i.select (← s.under i.name)

end TableStore

end NamedContent
