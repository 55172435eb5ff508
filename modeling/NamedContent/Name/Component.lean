import NamedContent.Octets.Hex

/-!
# Name components

A component is an opaque byte string. Components are compared in *canonical order*: a shorter
component comes before a longer one, and components of one length compare byte by byte. Interest
selectors and exclusion bounds are defined over this order.
-/

namespace NamedContent

@[ext] structure Component where
  octets : Octets
  deriving DecidableEq

namespace Component

def ofText (s : String) : Component := ⟨Octets.ofText s⟩

def length (c : Component) : Nat := c.octets.length

def isEmpty (c : Component) : Bool := c.octets.isEmpty

/-- The first byte, which the naming profile uses to tell kinds of component apart. -/
def marker? (c : Component) : Option UInt8 := c.octets.head?

/-- Canonical order: shorter first, then bytewise. -/
instance : Ord Component where
  compare a b := (compare a.length b.length).then (compare a.octets b.octets)

instance : Std.TransOrd Component :=
  inferInstanceAs
    (Std.TransCmp (compareLex (compareOn Component.length) (compareOn Component.octets)))

instance : Std.LawfulEqOrd Component where
  eq_of_compare h := by
    have h' := Ordering.then_eq_eq.mp h
    exact Component.ext (Std.LawfulEqOrd.eq_of_compare h'.2)

/-! ### Escaped form -/

/-- Bytes that stand for themselves in the escaped form. -/
def isUnreserved (b : UInt8) : Bool :=
  (48 ≤ b && b ≤ 57) || (65 ≤ b && b ≤ 90) || (97 ≤ b && b ≤ 122) ||
    b == 45 || b == 46 || b == 95 || b == 126

/-- A byte in escaped form: itself, or a percent sign and two uppercase hexadecimal digits. -/
def escapeByte (b : UInt8) : List Char :=
  if isUnreserved b then [Char.ofNat b.toNat]
  else ['%', Octets.Hex.upperDigit (b.toNat / 16), Octets.Hex.upperDigit (b.toNat % 16)]

def escape (c : Component) : List Char := c.octets.flatMap escapeByte

def toText (c : Component) : String := String.ofList c.escape

instance : ToString Component := ⟨toText⟩

def describe (c : Component) : String := "NameComponent(" ++ c.toText ++ ")"

end Component

end NamedContent
