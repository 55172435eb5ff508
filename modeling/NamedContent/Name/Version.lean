import NamedContent.Name.Marked
import NamedContent.Error

/-!
# Versions

A version counts 1/4096ths of a second since the Unix epoch. In a name it is a marked number
behind `0xFD`. Versions of one base name are totally ordered by their tick counts; a version minted
after another one is later than it, except that counting stops at the greatest tick.
-/

namespace NamedContent

/-- A version of the content under one base name. -/
@[ext] structure Version where
  ticks : UInt64
  deriving DecidableEq, Repr

namespace Version

def marker : UInt8 := 0xFD

def ticksPerSecond : Nat := 4096

def maxTicks : Nat := UInt64.size - 1

instance : LT Version := ⟨fun a b => a.ticks < b.ticks⟩
instance : LE Version := ⟨fun a b => a.ticks ≤ b.ticks⟩
instance (a b : Version) : Decidable (a < b) := inferInstanceAs (Decidable (a.ticks < b.ticks))
instance (a b : Version) : Decidable (a ≤ b) := inferInstanceAs (Decidable (a.ticks ≤ b.ticks))

/-- The version of a time in milliseconds since the epoch; the product stops at the greatest
64-bit number before it is divided. -/
def ofMillis (millis : UInt64) : Version :=
  ⟨UInt64.ofNat (min (millis.toNat * ticksPerSecond) maxTicks / 1000)⟩

/-- The version one tick later, if there is a later one. -/
def succ (v : Version) : Version := ⟨UInt64.ofNat (min (v.ticks.toNat + 1) maxTicks)⟩

/-- A fresh version: the time of the clock, unless it has not passed the current version. -/
def nextAfter (clock : UInt64) : Option Version → Version
  | some current => if ofMillis clock ≤ current then current.succ else ofMillis clock
  | none => ofMillis clock

def toComponent (v : Version) : Component := Component.ofMarked marker v.ticks

def ofComponent? (c : Component) : Option Version := (c.marked? marker).map Version.mk

/-- The version that a component carries, or the fault of a component that carries none. -/
def ofComponent (c : Component) : Except CoreError Version :=
  match ofComponent? c with
  | some v => .ok v
  | none => .error (.notAVersion c.toText)

def isComponent (c : Component) : Bool := (ofComponent? c).isSome

def toText (v : Version) : String := v.toComponent.toText

instance : ToString Version := ⟨toText⟩

def describe (v : Version) : String := "VersionTag(" ++ toString v.ticks ++ ")"

end Version

end NamedContent
