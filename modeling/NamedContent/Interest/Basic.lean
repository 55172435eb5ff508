import NamedContent.Interest.Exclude
import NamedContent.Fragment.Basic

/-!
# Interests

An interest asks for content under a name. A fragment satisfies it when its name extends the
interest's name by an admitted number of components, its publisher is the wanted one, and the
component after the interest's name is not excluded. When several fragments do, the selector picks
one: the smallest name, or the smallest name among those with the greatest next component.
-/

namespace NamedContent

/-- Which of several matching fragments is preferred. -/
inductive Selector where
  /-- The smallest next component. -/
  | leftmost
  /-- The greatest next component. -/
  | rightmost
  deriving DecidableEq, Repr

structure Interest where
  name : Name
  exclude : Exclude := .none
  publisher : Option Publisher := none
  selector : Selector := .leftmost
  /-- At least this many components after the name. -/
  minSuffix : Option Nat := none
  /-- At most this many components after the name. -/
  maxSuffix : Option Nat := none
  deriving DecidableEq

namespace Interest

def under (name : Name) : Interest := { name }

def exact (name : Name) (publisher : Option Publisher := none) : Interest :=
  { name, publisher, minSuffix := some 0, maxSuffix := some 0 }

/-! ### Order of preference -/

/-- Order in which an absent component comes before every component. -/
def compareOption : Option Component → Option Component → Ordering
  | none, none => .eq
  | none, some _ => .lt
  | some _, none => .gt
  | some a, some b => compare a b

/-- Whether a fragment is strictly preferred to another one. -/
def prefers (i : Interest) (f g : Fragment) : Bool :=
  match i.selector with
  | .leftmost => compare f.name g.name == .lt
  | .rightmost =>
    let depth := i.name.length
    (compareOption (g.name.component? depth) (f.name.component? depth)).then
      (compare f.name g.name) == .lt

/-- The most preferred fragment of a list, the first of equals. -/
def best (i : Interest) : List Fragment → Option Fragment
  | [] => none
  | f :: fs => some (fs.foldl (fun b g => if i.prefers g b then g else b) f)

variable [Suite]

/-! ### Matching -/

def admits (i : Interest) (name : Name) (publisher : Publisher) : Bool :=
  let suffix := name.length - i.name.length
  i.name.isPrefixOf name && i.publisher.all (· == publisher) &&
    i.minSuffix.all (· ≤ suffix) && i.maxSuffix.all (suffix ≤ ·) &&
    (name.component? i.name.length).all fun c => !i.exclude.excludes c

def accepts (i : Interest) (f : Fragment) : Bool := i.admits f.name f.publisher

/-- The fragment that the interest retrieves from a list. -/
def select (i : Interest) (fs : List Fragment) : Option Fragment :=
  i.best (fs.filter i.accepts)

def answeredBy (i : Interest) (fs : List Fragment) : Bool := fs.any i.accepts

def excluding (i : Interest) (c : Component) : Interest :=
  { i with exclude := i.exclude.insert c }

end Interest

end NamedContent
