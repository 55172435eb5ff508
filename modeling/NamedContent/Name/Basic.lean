import NamedContent.Name.Component

/-!
# Content names

A name is a sequence of components. Names are ordered component by component, so a name sorts
before every proper extension of it.
-/

namespace NamedContent

/-- A hierarchical content name. -/
@[ext] structure Name where
  components : List Component
  deriving DecidableEq

namespace Name

/-- The empty name, which is a prefix of every name. -/
def root : Name := ⟨[]⟩

instance : Inhabited Name := ⟨root⟩

/-- Lexicographic order over the components. -/
instance : Ord Name where
  compare a b := compare a.components b.components

instance : Std.TransOrd Name := inferInstanceAs (Std.TransCmp (compareOn Name.components))

instance : Std.LawfulEqOrd Name where
  eq_of_compare h := Name.ext (Std.LawfulEqOrd.eq_of_compare (α := List Component) h)

def length (n : Name) : Nat := n.components.length

def isRoot (n : Name) : Bool := n.components.isEmpty

def component? (n : Name) (i : Nat) : Option Component := n.components[i]?

def last? (n : Name) : Option Component := n.components.getLast?

def append (n : Name) (c : Component) : Name := ⟨n.components ++ [c]⟩

/-- The first `count` components, or the whole name if it is shorter. -/
def cut (n : Name) (count : Nat) : Name := ⟨n.components.take count⟩

/-- Whether `n` is a prefix of `m`; every name is a prefix of itself. -/
def isPrefixOf (n m : Name) : Bool := n.components.isPrefixOf m.components

/-- Sort names into ascending order; equal names stay next to each other. -/
def sort (names : List Name) : List Name := names.mergeSort fun a b => (compare a b).isLE

end Name

end NamedContent
