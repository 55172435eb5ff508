import NamedContent.Interest.Bloom

/-!
# Exclusion filters

An exclusion filter applies to the component that follows the name of an interest. It excludes
everything up to an inclusive bound and the components that were added. Up to a hundred added
components are kept as they are; one more, and all of them move into a Bloom filter.
-/

namespace NamedContent

/-- Components that an interest does not want. -/
structure Exclude where
  /-- Everything up to and including this component is excluded. -/
  bound : Option Component := none
  /-- Components added one by one, in canonical order. -/
  explicit : List Component := []
  /-- Components that were moved out of the list. -/
  bloom : Option Bloom := none
  deriving DecidableEq

namespace Exclude

def none : Exclude := {}

def through (bound : Component) : Exclude := { bound := some bound }

/-- How many added components are kept as they are. -/
def maxExplicit : Nat := 100

/-- Insert a component into a list in canonical order that does not hold it. -/
def insertSorted (c : Component) : List Component → List Component
  | [] => [c]
  | d :: ds => if compare c d = .lt then c :: d :: ds else d :: insertSorted c ds

def size (e : Exclude) : Nat := e.explicit.length + (e.bloom.map Bloom.count).getD 0

def isEmpty (e : Exclude) : Bool := e.bound.isNone && e.size == 0

def hasBloom (e : Exclude) : Bool := e.bloom.isSome

variable [Suite]

def excludes (e : Exclude) (c : Component) : Bool :=
  e.bound.any (fun bound => (compare c bound).isLE) || e.explicit.contains c ||
    e.bloom.any (·.contains c)

/-- Move the listed components into the Bloom filter. -/
def spill (e : Exclude) : Exclude :=
  { e with explicit := [], bloom := some (e.explicit.foldl Bloom.insert (e.bloom.getD .empty)) }

/-- Exclude one more component, if it is not excluded already. -/
def insert (e : Exclude) (c : Component) : Exclude :=
  if e.excludes c then e
  else
    let e := { e with explicit := insertSorted c e.explicit }
    if maxExplicit < e.explicit.length then e.spill else e

def add (e : Exclude) (c : Component) : Bool × Exclude := (!e.excludes c, e.insert c)

end Exclude

end NamedContent
