import NamedContent.Store.Memory
import NamedContent.Store.Table

/-!
# Stores of either kind

A store is in memory or in tables; the network and its writers use both in the same way.
-/

namespace NamedContent

/-- A content store. -/
inductive Store where
  | memory (store : MemoryStore)
  | table (store : TableStore)

namespace Store

def size : Store → Nat
  | .memory s => s.size
  | .table s => s.size

def get? : Store → Name → Except StoreError (Option Fragment)
  | .memory s, n => .ok (s.get? n)
  | .table s, n => s.get? n

def has : Store → Name → Bool
  | .memory s, n => s.has n
  | .table s, n => s.has n

def under : Store → Name → Except StoreError (List Fragment)
  | .memory s, p => .ok (s.under p)
  | .table s, p => s.under p

/-- Serve a namespace from now on. -/
def addNamespace : Store → Name → Store
  | .memory s, p => .memory (s.addNamespace p)
  | .table s, p => .table (s.addNamespace p)

def listNamespaces : Store → Except StoreError (List Name)
  | .memory s => .ok s.namespaces.names
  | .table s => s.listNamespaces

def serves : Store → Name → Except StoreError Bool
  | .memory s, n => .ok (s.serves n)
  | .table s, n => s.serves n

variable [Suite]

/-- Save a fragment, unless its name holds one. -/
def save : Store → Fragment → Except StoreError (SaveOutcome × Store)
  | .memory s, f =>
    let (outcome, s) := s.save f
    .ok (outcome, .memory s)
  | .table s, f => do
    let (outcome, s) ← s.save f
    return (outcome, .table s)

def find? : Store → Interest → Except StoreError (Option Fragment)
  | .memory s, i => .ok (s.find? i)
  | .table s, i => s.find? i

end Store

end NamedContent
