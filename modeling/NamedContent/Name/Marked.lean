import NamedContent.Name.Basic

/-!
# Marked numbers

Version and segment components share one shape: a marker byte followed by the shortest big-endian
form of a 64-bit number. Each number has exactly one such component, and because shorter
components sort first, canonical order of the components is numeric order of the numbers.
-/

namespace NamedContent

namespace Component

/-- The component that carries `n` behind `marker`. -/
def ofMarked (marker : UInt8) (n : UInt64) : Component := ⟨marker :: Octets.ofUInt64 n⟩

/-- The number that a component carries behind `marker`: at most eight digits, without a leading
zero. -/
def marked? (marker : UInt8) (c : Component) : Option UInt64 :=
  match c.octets with
  | [] => none
  | m :: digits =>
    if m = marker ∧ digits.length ≤ 8 ∧ digits.head? ≠ some 0 then
      some (UInt64.ofNat (Octets.toNat digits))
    else none

end Component

end NamedContent
