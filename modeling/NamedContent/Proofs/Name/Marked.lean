import Mathlib.Algebra.Group.Nat.Defs
import NamedContent.Name.Marked

/-!
# Marked numbers and their order

A marked component and the number in it determine each other: `marked?_ofMarked` reads back what was
written, and `eq_ofMarked_of_marked?` says that nothing else reads as a number. Canonical order of
marked components is numeric order (`compare_ofMarked`).

The last two rest on one fact about byte strings without a leading zero: shorter first and then
bytewise is the order of the numbers that they spell (`compare_length_then`).
-/

namespace NamedContent
namespace Octets

/-! ### The number that a byte string spells -/

theorem foldl_toNat (b : Octets) (n : Nat) :
    b.foldl (fun n x => n * 256 + x.toNat) n = n * 256 ^ b.length + toNat b := by
  induction b generalizing n with
  | nil => simp [toNat]
  | cons x b ih =>
    have h := ih (n := 0 * 256 + x.toNat)
    rw [toNat, List.foldl_cons, List.foldl_cons, ih, h, List.length_cons, Nat.pow_succ]
    rw [Nat.zero_mul, Nat.zero_add, Nat.add_mul, Nat.mul_assoc, Nat.mul_comm 256, Nat.add_assoc]

/-- The first byte is the most significant one. -/
theorem toNat_cons (x : UInt8) (b : Octets) :
    toNat (x :: b) = x.toNat * 256 ^ b.length + toNat b := by
  rw [toNat, List.foldl_cons, foldl_toNat, Nat.zero_mul, Nat.zero_add]

theorem toNat_lt (b : Octets) : toNat b < 256 ^ b.length := by
  induction b with
  | nil => simp [toNat]
  | cons x b ih =>
    have hx : x.toNat < 256 := x.toNat_lt
    rw [toNat_cons, List.length_cons, Nat.pow_succ, Nat.mul_comm _ 256]
    calc x.toNat * 256 ^ b.length + toNat b
        < x.toNat * 256 ^ b.length + 256 ^ b.length := Nat.add_lt_add_left ih _
      _ = (x.toNat + 1) * 256 ^ b.length := by rw [Nat.add_mul, Nat.one_mul]
      _ ≤ 256 * 256 ^ b.length := Nat.mul_le_mul_right _ hx

theorem toNat_dropWhile_zero (b : Octets) : toNat (b.dropWhile (· == 0)) = toNat b := by
  induction b with
  | nil => rfl
  | cons x b ih =>
    rw [List.dropWhile_cons]
    split
    · next h =>
      have hx : x = 0 := by simpa using h
      rw [ih, toNat_cons, hx]
      simp
    · rfl

/-! ### Order -/

theorem compare_cons (x y : UInt8) (a b : Octets) :
    compare (x :: a) (y :: b) = (compare x y).then (compare a b) := by
  show List.compareLex compare (x :: a) (y :: b) = _
  rw [List.compareLex_cons_cons]
  rfl

theorem compare_byte (x y : UInt8) : compare x y = compare x.toNat y.toNat := by
  show compareOfLessAndEq x y = compareOfLessAndEq x.toNat y.toNat
  unfold compareOfLessAndEq
  simp only [UInt8.lt_iff_toNat_lt, UInt8.toNat_inj]

/-- Strings of one length are ordered like the numbers that they spell. -/
theorem compare_of_length_eq {a b : Octets} (h : a.length = b.length) :
    compare a b = compare (toNat a) (toNat b) := by
  induction a generalizing b with
  | nil =>
    have hb : b = [] := List.length_eq_zero_iff.mp h.symm
    rw [hb]
    rfl
  | cons x a ih =>
    cases b with
    | nil => cases h
    | cons y b =>
      have hl : a.length = b.length := Nat.succ.inj h
      have ha := toNat_lt a
      have hb := toNat_lt b
      rw [compare_cons, ih hl, toNat_cons, toNat_cons, hl]
      rw [hl] at ha
      -- The first byte decides unless both strings start with the same one.
      rcases Nat.lt_trichotomy x.toNat y.toNat with hxy | hxy | hxy
      · have hc : compare x y = .lt := (compare_byte x y).trans (Nat.compare_eq_lt.mpr hxy)
        have hm : (x.toNat + 1) * 256 ^ b.length ≤ y.toNat * 256 ^ b.length :=
          Nat.mul_le_mul_right _ hxy
        rw [Nat.add_mul, Nat.one_mul] at hm
        rw [hc, Ordering.lt_then, eq_comm, Nat.compare_eq_lt]
        omega
      · have hx : x = y := UInt8.toNat_inj.mp hxy
        rw [hx, Std.ReflOrd.compare_self, Ordering.eq_then]
        rcases Nat.lt_trichotomy (toNat a) (toNat b) with h' | h' | h'
        · rw [Nat.compare_eq_lt.mpr h', eq_comm, Nat.compare_eq_lt]
          omega
        · rw [h', Std.ReflOrd.compare_self, Std.ReflOrd.compare_self]
        · rw [Nat.compare_eq_gt.mpr h', eq_comm, Nat.compare_eq_gt]
          omega
      · have hc : compare x y = .gt := (compare_byte x y).trans (Nat.compare_eq_gt.mpr hxy)
        have hm : (y.toNat + 1) * 256 ^ b.length ≤ x.toNat * 256 ^ b.length :=
          Nat.mul_le_mul_right _ hxy
        rw [Nat.add_mul, Nat.one_mul] at hm
        rw [hc, Ordering.gt_then, eq_comm, Nat.compare_eq_gt]
        omega

/-- A string without a leading zero spells at least the first number that needs its length. -/
theorem pow_le_toNat {b : Octets} (hb : b ≠ []) (h : b.head? ≠ some 0) :
    256 ^ (b.length - 1) ≤ toNat b := by
  cases b with
  | nil => exact absurd rfl hb
  | cons x b =>
    have hx : x.toNat ≠ 0 := by
      intro h0
      have hx : x = 0 := UInt8.toNat_inj.mp h0
      exact h (by rw [hx, List.head?_cons])
    rw [toNat_cons]
    have : 1 * 256 ^ b.length ≤ x.toNat * 256 ^ b.length :=
      Nat.mul_le_mul_right _ (Nat.one_le_iff_ne_zero.mpr hx)
    simp only [List.length_cons, Nat.add_sub_cancel]
    omega

theorem toNat_lt_of_length_lt {a b : Octets} (h : b.head? ≠ some 0) (hl : a.length < b.length) :
    toNat a < toNat b := by
  have hb : b ≠ [] := by
    intro hb
    rw [hb] at hl
    cases hl
  calc toNat a < 256 ^ a.length := toNat_lt a
    _ ≤ 256 ^ (b.length - 1) := Nat.pow_le_pow_right (by omega) (by omega)
    _ ≤ toNat b := pow_le_toNat hb h

/-- Without leading zeros, shorter first and then bytewise is the order of the spelled numbers. -/
theorem compare_length_then {a b : Octets} (ha : a.head? ≠ some 0) (hb : b.head? ≠ some 0) :
    (compare a.length b.length).then (compare a b) = compare (toNat a) (toNat b) := by
  rcases Nat.lt_trichotomy a.length b.length with h | h | h
  · rw [Nat.compare_eq_lt.mpr h, Ordering.lt_then, eq_comm, Nat.compare_eq_lt]
    exact toNat_lt_of_length_lt hb h
  · rw [h, Std.ReflOrd.compare_self, Ordering.eq_then]
    exact compare_of_length_eq h
  · rw [Nat.compare_eq_gt.mpr h, Ordering.gt_then, eq_comm, Nat.compare_eq_gt]
    exact toNat_lt_of_length_lt ha h

/-! ### The shortest form -/

@[simp] theorem toNat_ofUInt64 (n : UInt64) : toNat (ofUInt64 n) = n.toNat := by
  rw [ofUInt64, toNat_dropWhile_zero, toNat_ofNat]
  exact Nat.mod_eq_of_lt n.toNat_lt

theorem length_ofUInt64_le (n : UInt64) : (ofUInt64 n).length ≤ 8 := by
  have h := (List.dropWhile_suffix (l := ofNat 8 n.toNat) (· == 0)).length_le
  rw [length_ofNat] at h
  exact h

theorem head?_ofUInt64 (n : UInt64) : (ofUInt64 n).head? ≠ some 0 := by
  intro h
  have h' := List.head?_dropWhile_not (· == (0 : UInt8)) (ofNat 8 n.toNat)
  rw [ofUInt64] at h
  rw [h] at h'
  simp at h'

end Octets

namespace Component

/-! ### Marked components -/

@[simp] theorem marked?_ofMarked (marker : UInt8) (n : UInt64) :
    (ofMarked marker n).marked? marker = some n := by
  unfold marked? ofMarked
  dsimp only
  rw [if_pos ⟨rfl, Octets.length_ofUInt64_le n, Octets.head?_ofUInt64 n⟩, Octets.toNat_ofUInt64,
    UInt64.ofNat_toNat]

theorem marked?_ofMarked_of_ne {m m' : UInt8} (h : m ≠ m') (n : UInt64) :
    (ofMarked m n).marked? m' = none := by
  unfold marked? ofMarked
  dsimp only
  rw [if_neg]
  exact fun h' => h h'.1

theorem compare_word (a b : UInt64) : compare a b = compare a.toNat b.toNat := by
  show compareOfLessAndEq a b = compareOfLessAndEq a.toNat b.toNat
  unfold compareOfLessAndEq
  simp only [UInt64.lt_iff_toNat_lt, UInt64.toNat_inj]

@[simp] theorem compare_ofMarked (marker : UInt8) (a b : UInt64) :
    compare (ofMarked marker a) (ofMarked marker b) = compare a b := by
  have hl : ∀ n, (ofMarked marker n).length = (Octets.ofUInt64 n).length + 1 := fun _ => rfl
  show (compare (ofMarked marker a).length (ofMarked marker b).length).then
    (compare (marker :: Octets.ofUInt64 a) (marker :: Octets.ofUInt64 b)) = _
  rw [Octets.compare_cons, Std.ReflOrd.compare_self, Ordering.eq_then, hl, hl]
  have hs : ∀ m n : Nat, compare (m + 1) (n + 1) = compare m n := by
    intro m n
    simp [compare, compareOfLessAndEq]
  rw [hs, Octets.compare_length_then (Octets.head?_ofUInt64 a) (Octets.head?_ofUInt64 b),
    Octets.toNat_ofUInt64, Octets.toNat_ofUInt64, compare_word]

theorem eq_ofMarked_of_marked? {marker : UInt8} {c : Component} {n : UInt64}
    (h : c.marked? marker = some n) : c = ofMarked marker n := by
  unfold marked? at h
  split at h
  · cases h
  · next m digits hc =>
    split at h
    · next hcond =>
      obtain ⟨rfl, hlen, hhead⟩ := hcond
      have hlt : Octets.toNat digits < UInt64.size := by
        calc Octets.toNat digits < 256 ^ digits.length := Octets.toNat_lt digits
          _ ≤ 256 ^ 8 := Nat.pow_le_pow_right (by omega) hlen
      have hn : Octets.toNat (Octets.ofUInt64 n) = Octets.toNat digits := by
        rw [Octets.toNat_ofUInt64, ← Option.some.inj h, UInt64.toNat_ofNat', Nat.mod_eq_of_lt hlt]
      have hcmp := Octets.compare_length_then (Octets.head?_ofUInt64 n) hhead
      rw [hn, Std.ReflOrd.compare_self, Ordering.then_eq_eq] at hcmp
      have heq : Octets.ofUInt64 n = digits := Std.LawfulEqOrd.eq_of_compare hcmp.2
      rw [ofMarked, heq]
      exact Component.ext hc
    · cases h

theorem marked?_eq_some_iff {marker : UInt8} {c : Component} {n : UInt64} :
    c.marked? marker = some n ↔ c = ofMarked marker n := by
  constructor
  · exact eq_ofMarked_of_marked?
  · rintro rfl
    exact marked?_ofMarked marker n

end Component
end NamedContent
