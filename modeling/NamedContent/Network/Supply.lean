import NamedContent.Network.Config
import NamedContent.Network.Error
import NamedContent.Store.Any

/-!
# What a network serves

The supply of a network is everything that an interest can find: fragments that were put on it
directly, and the content of attached stores. A lookup selects the best direct fragment and the
best one of every store, and then the best of those. The supply counts its changes; whoever waits
for content looks again only when the count has moved on.

Stores are known by number, because a participant can use a store that is not attached.
-/

namespace NamedContent

structure StoreId where
  index : Nat
  deriving DecidableEq, Repr

/-- The content of a network, its settings and its wall clock. -/
structure Supply where
  config : NetworkConfig := {}
  /-- The wall clock, in milliseconds since the epoch. -/
  clock : UInt64 := 0
  /-- Fragments put directly; the first one under a name stays. -/
  direct : NameMap Fragment := .empty
  stores : List Store := []
  /-- The stores whose content is served, in the order in which they were attached. -/
  attached : List StoreId := []
  /-- Names below which some writer answers interests. -/
  registered : NameSet := .empty
  /-- How often the served content has changed. -/
  changes : Nat := 0

namespace Supply

def announce (s : Supply) : Supply := { s with changes := s.changes + 1 }

def register (s : Supply) (n : Name) : Supply := { s with registered := s.registered.add n }

/-! ### Stores -/

/-- The store with a number; a number without a store stands for an empty one. -/
def store (s : Supply) (id : StoreId) : Store := s.stores.getD id.index (.memory .empty)

/-- Replace the store with a number. -/
def setStore (s : Supply) (id : StoreId) (store : Store) : Supply :=
  { s with stores := s.stores.set id.index store }

def addStore (s : Supply) (store : Store) : StoreId × Supply :=
  (⟨s.stores.length⟩, { s with stores := s.stores ++ [store] })

/-- Serve the content of a store. This counts as a change even if it is served already. -/
def attach (s : Supply) (id : StoreId) : Supply :=
  announce { s with attached := if s.attached.contains id then s.attached else s.attached ++ [id] }

/-! ### Direct content -/

/-- Add fragments in turn, each unless its name is taken, and count the added ones. -/
def addNew (content : NameMap Fragment) : List Fragment → Nat × NameMap Fragment
  | [] => (0, content)
  | f :: fs =>
    if content.contains f.name then addNew content fs
    else
      let (added, content) := addNew (content.insertNew f.name f) fs
      (added + 1, content)

/-- Put fragments on the network; a name that holds a fragment keeps it. The result is the number
of added fragments. -/
def publish (s : Supply) (fs : List Fragment) : Nat × Supply :=
  let (added, direct) := addNew s.direct fs
  (added, if added = 0 then s else announce { s with direct })

/-- The first of some fragments whose name holds a different one. -/
def clash? (s : Supply) (fs : List Fragment) : Option Fragment :=
  fs.find? fun f => (s.direct.get? f.name).any (· != f)

/-- Put the fragments of a writer on the network, all of them or, if a name holds a different
fragment, none. -/
def put (s : Supply) (fs : List Fragment) : Except NetworkError (Nat × Supply) :=
  match s.clash? fs with
  | some f => .error (.writeConflict f.name)
  | none => .ok (s.publish fs)

variable [Suite]

/-! ### Lookups -/

def find (s : Supply) (i : Interest) : Except StoreError (Option Fragment) := do
  let direct := i.select (s.direct.under i.name)
  let stored ← s.attached.mapM fun id => (s.store id).find? i
  return i.select (direct.toList ++ stored.filterMap id)

/-- The best answer to an interest; a failing store is a fault of the network. -/
def get (s : Supply) (i : Interest) : Except NetworkError (Option Fragment) :=
  (s.find i).mapError .store

/-- The number of fragments that a lookup may look at. -/
def size (s : Supply) : Nat :=
  s.attached.foldl (fun n id => n + (s.store id).size) s.direct.size

end Supply

end NamedContent
