/-!
# Byte strings

Names, keys, digests and encoded fragments are all byte strings. `Octets` is a list of bytes, so
that everything built from it can be followed by induction, and `Block n` is a byte string of one
fixed length.

Numbers are written in both byte orders: the naming profile and the fragment codec are big-endian,
the hash and signature functions little-endian. Each order has a reader, a writer of a fixed width
and, for big-endian numbers, the shortest form.
-/

namespace NamedContent

abbrev Octets := List UInt8

structure Block (n : Nat) where
  octets : Octets
  length_eq : octets.length = n
  deriving DecidableEq

namespace Block

def ofOctets? (n : Nat) (b : Octets) : Option (Block n) :=
  if h : b.length = n then some ⟨b, h⟩ else none

def replicate (n : Nat) (x : UInt8) : Block n := ⟨List.replicate n x, List.length_replicate⟩

@[simp] theorem ofOctets?_octets {n : Nat} (b : Block n) : ofOctets? n b.octets = some b := by
  simp [ofOctets?, b.length_eq]

end Block

namespace Octets

/-! ### Big-endian numbers -/

/-- The number that a byte string spells in base 256, most significant byte first. -/
def toNat (b : Octets) : Nat := b.foldl (fun n x => n * 256 + x.toNat) 0

/-- The last `width` base-256 digits of `n`, most significant first. -/
def ofNat : (width n : Nat) → Octets
  | 0, _ => []
  | width + 1, n => ofNat width (n / 256) ++ [UInt8.ofNat n]

@[simp] theorem length_ofNat (width n : Nat) : (ofNat width n).length = width := by
  induction width generalizing n with
  | zero => rfl
  | succ w ih => simp [ofNat, ih]

theorem toNat_append_singleton (b : Octets) (x : UInt8) :
    toNat (b ++ [x]) = toNat b * 256 + x.toNat := by
  simp [toNat]

/-- Writing in `width` bytes and reading back keeps as many of the low bits as fit. -/
theorem toNat_ofNat (width n : Nat) : toNat (ofNat width n) = n % (1 <<< (8 * width)) := by
  induction width generalizing n with
  | zero => simp [ofNat, toNat, Nat.mod_one]
  | succ w ih =>
    have step : 1 <<< (8 * (w + 1)) = 256 * 1 <<< (8 * w) := by
      rw [Nat.one_shiftLeft, Nat.one_shiftLeft, Nat.mul_add, Nat.pow_add, Nat.mul_comm]
    have last : (UInt8.ofNat n).toNat = n % 256 := by simp
    rw [ofNat, toNat_append_singleton, ih, last, step, Nat.mod_mul, Nat.mul_comm, Nat.add_comm]

/-- The shortest big-endian form of a 64-bit number; zero is the empty string. -/
def ofUInt64 (n : UInt64) : Octets := (ofNat 8 n.toNat).dropWhile (· == 0)

/-! ### Little-endian numbers -/

/-- The number that a byte string spells in base 256, least significant byte first. -/
def toNatLE (b : Octets) : Nat := b.foldr (fun x n => x.toNat + 256 * n) 0

/-- The last `width` base-256 digits of `n`, least significant first. -/
def ofNatLE : (width n : Nat) → Octets
  | 0, _ => []
  | width + 1, n => UInt8.ofNat n :: ofNatLE width (n / 256)

@[simp] theorem length_ofNatLE (width n : Nat) : (ofNatLE width n).length = width := by
  induction width generalizing n with
  | zero => rfl
  | succ w ih => simp [ofNatLE, ih]

/-! ### Pieces and text -/

/-- Cut a list into consecutive pieces of `size` elements; only the last may be shorter.
The empty list has no pieces. -/
def pieces {α : Type} (size : Nat) (xs : List α) : List (List α) :=
  (List.range ((xs.length + size - 1) / size)).map fun i => (xs.drop (i * size)).take size

def ofChars (cs : List Char) : Octets := cs.flatMap String.utf8EncodeChar

def ofText (s : String) : Octets := ofChars s.toList

/-- The text that a byte string spells in UTF-8, if it is valid. -/
def toText? (b : Octets) : Option String := String.fromUTF8? ⟨b.toArray⟩

end Octets

end NamedContent
