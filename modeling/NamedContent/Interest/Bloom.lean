import NamedContent.Suite
import NamedContent.Name.Component

/-!
# Bloom filters

A filter of 1024 bits over components. Each component sets three bits, taken from its digest. A
component that was inserted is always found; one that was not may be found too.
-/

namespace NamedContent

structure Bloom where
  /-- Bit `i` of the filter is bit `i` of this number. -/
  bits : BitVec 1024
  count : Nat
  deriving DecidableEq

namespace Bloom

def empty : Bloom := ⟨0, 0⟩

def describe (b : Bloom) : String := "BloomFilter(" ++ toString b.count ++ " entries)"

variable [Suite]

/-- The bits of a component: the first three 16-bit words of its digest, modulo the size. -/
def positions (c : Component) : List Nat :=
  let digest := (Suite.digest c.octets).block.octets
  (List.range 3).map fun i => Octets.toNatLE ((digest.drop (2 * i)).take 2) % 1024

def insert (b : Bloom) (c : Component) : Bloom :=
  ⟨(positions c).foldl (fun bits i => bits ||| BitVec.twoPow 1024 i) b.bits, b.count + 1⟩

/-- Whether a component may have been inserted. -/
def contains (b : Bloom) (c : Component) : Bool := (positions c).all fun i => b.bits.getLsbD i

end Bloom

end NamedContent
