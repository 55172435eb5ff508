import Mathlib.Algebra.Group.Nat.Defs
import NamedContent.Cbor.Head

/-!
# Reading back heads and strings

A head that was written is read back, whatever comes after it (`readHead_writeHead`), and so are
byte strings and counted items. Arguments are numbers of 64 bits.
-/

namespace NamedContent.Cbor

theorem take_append {n : Nat} {chunk : Octets} (h : chunk.length = n) (rest : Octets) :
    take n (chunk ++ rest) = some (chunk, rest) := by
  subst h
  simp [take]

/-! ### Heads -/

/-- The lead byte holds the major type and the low bits. -/
theorem toNat_lead {major minor : Nat} (hm : major < 7) (hn : minor < 32) :
    (UInt8.ofNat (major * 32 + minor)).toNat = major * 32 + minor := by
  rw [UInt8.toNat_ofNat']
  omega

/-- A lead byte is read as the argument that its low bits announce. -/
theorem readHead_lead {major minor : Nat} (hm : major < 7) (hn : minor < 32) {b rest : Octets}
    {arg : Option Nat} (harg : readArgument minor b = some (arg, rest)) :
    readHead (UInt8.ofNat (major * 32 + minor) :: b) =
      (Head.of? major arg).map fun h => (h, rest) := by
  have hmajor : (major * 32 + minor) / 32 = major := by omega
  have hminor : (major * 32 + minor) % 32 = minor := by omega
  unfold readHead
  simp only [toNat_lead hm hn, hmajor, hminor]
  rw [if_neg (by omega)]
  simp only [harg, bind, Option.bind, pure]
  cases Head.of? major arg <;> rfl

/-- A wide argument is written in as many bytes as its low bits announce. -/
theorem readArgument_wide {minor arg : Nat} (width : Nat) (hminor : (minor, width) ∈
      [(24, 1), (25, 2), (26, 4), (27, 8)]) (harg : arg < 1 <<< (8 * width)) (rest : Octets) :
    readArgument minor (Octets.ofNat width arg ++ rest) = some (some arg, rest) := by
  have hread : ((take width (Octets.ofNat width arg ++ rest)).bind fun p =>
      some (some (Octets.toNat p.1), p.2)) = some (some arg, rest) := by
    rw [take_append (Octets.length_ofNat width arg) rest]
    simp only [Option.bind, Octets.toNat_ofNat, Nat.mod_eq_of_lt harg]
  simp only [List.mem_cons, List.not_mem_nil, or_false, Prod.mk.injEq] at hminor
  rcases hminor with ⟨rfl, rfl⟩ | ⟨rfl, rfl⟩ | ⟨rfl, rfl⟩ | ⟨rfl, rfl⟩ <;> exact hread

/-- A head that was written is read back. -/
theorem readHead_writeHead (major : Nat) {arg : Nat} (hm : major < 7) (harg : arg < 2 ^ 64)
    (rest : Octets) :
    readHead (writeHead major arg ++ rest) =
      (Head.of? major (some arg)).map fun h => (h, rest) := by
  unfold writeHead
  dsimp only
  split
  · next h =>
    apply readHead_lead hm (by omega)
    simp [readArgument, h]
  · split
    · next h =>
      exact readHead_lead hm (by omega) (readArgument_wide 1 (by simp) h rest)
    · split
      · next h =>
        exact readHead_lead hm (by omega) (readArgument_wide 2 (by simp) h rest)
      · split
        · next h =>
          exact readHead_lead hm (by omega) (readArgument_wide 4 (by simp) h rest)
        · exact readHead_lead hm (by omega) (readArgument_wide 8 (by simp) harg rest)

/-! ### Strings and items -/

theorem readBytes_append {n : Nat} {b : Octets} (h : b.length = n) (rest : Octets) :
    readBytes (some n) (b ++ rest) = some (b, rest) := by
  unfold readBytes readString
  simp [take_append h rest, bind, Option.bind, pure]

/-- Items that are read back one by one are read back together. -/
theorem readCount_flatMap {α : Type} (item : Reader α) {write : α → Octets} {xs : List α}
    (h : ∀ x ∈ xs, ∀ rest, item (write x ++ rest) = some (x, rest)) (rest : Octets) :
    readCount item xs.length (xs.flatMap write ++ rest) = some (xs, rest) := by
  induction xs with
  | nil => rfl
  | cons x xs ih =>
    have hx := h x List.mem_cons_self (xs.flatMap write ++ rest)
    have hxs := ih fun y hy => h y (List.mem_cons_of_mem _ hy)
    rw [List.flatMap_cons, List.append_assoc, List.length_cons, readCount]
    simp only [hx, hxs, bind, Option.bind, pure]

end NamedContent.Cbor
