import NamedContent.Proofs.Name.Profile

/-!
# Canonical components and names

Behind each marker a number has one component: the digits that shifting turns back into the number,
most significant first, without leading zeros (`carries_iff`). Nothing else is read as that number,
and canonical order of the components is the order of the numbers. Versions and segments are these
components behind two markers (`canonical_numbers`).

So names can be put together and taken apart without loss: what `splitVersion?` finds is a base, a
version behind it and perhaps a segment behind that, and such a name is split where it was put
together (`splitVersion?_undoes`).
-/

namespace NamedContent

/-! ### Shifting digits into a word -/

namespace Octets

/-- Shift one byte into a word from the right. -/
def shiftIn (w : UInt64) (x : UInt8) : UInt64 := w <<< 8 ||| x.toUInt64

/-- The word into which bytes are shifted one after the other. -/
def shifted (b : Octets) : UInt64 := b.foldl shiftIn 0

/-- To shift in a byte is to multiply by 256 and to add it, because the lowest eight bits are
free. -/
theorem shiftIn_ofNat (n : Nat) (x : UInt8) :
    shiftIn (UInt64.ofNat n) x = UInt64.ofNat (n * 256 + x.toNat) := by
  have hx : x.toNat < 2 ^ 8 := x.toNat_lt
  have hfree : ((n % 2 ^ 64) <<< 8) % 2 ^ 64 = (n % 2 ^ 56) <<< 8 := by
    simp only [Nat.shiftLeft_eq]
    omega
  apply UInt64.toNat_inj.mp
  unfold shiftIn
  rw [UInt64.toNat_or, UInt64.toNat_shiftLeft, UInt8.toNat_toUInt64, UInt64.toNat_ofNat',
    UInt64.toNat_ofNat']
  show ((n % 2 ^ 64) <<< 8) % 2 ^ 64 ||| x.toNat = _
  rw [hfree, ← Nat.shiftLeft_add_eq_or_of_lt hx, Nat.shiftLeft_eq]
  omega

/-- Shifting spells the number in base 256, modulo the size of the word. -/
theorem shifted_eq (b : Octets) : shifted b = UInt64.ofNat (toNat b) := by
  have hfold : ∀ n, b.foldl shiftIn (UInt64.ofNat n) =
      UInt64.ofNat (b.foldl (fun m x => m * 256 + x.toNat) n) := by
    induction b with
    | nil => exact fun _ => rfl
    | cons x b ih =>
      intro n
      rw [List.foldl_cons, shiftIn_ofNat, ih, List.foldl_cons]
  exact hfold 0

end Octets

/-! ### Components that carry numbers -/

namespace Component

/-- The component is a marker and behind it the digits of the number: at most eight, most
significant first, and none of them a leading zero. -/
def Carries (c : Component) (marker : UInt8) (n : UInt64) : Prop :=
  ∃ digits, c.octets = marker :: digits ∧ digits.length ≤ 8 ∧ digits.head? ≠ some 0 ∧
    Octets.shifted digits = n

variable {marker : UInt8} {c : Component} {n : UInt64}

theorem carries_of_marked? (h : c.marked? marker = some n) : c.Carries marker n := by
  unfold marked? at h
  split at h
  · cases h
  · next m digits hc =>
    split at h
    · next hdigits =>
      obtain ⟨rfl, hlength, hhead⟩ := hdigits
      refine ⟨digits, hc, hlength, hhead, ?_⟩
      rw [Octets.shifted_eq]
      exact Option.some.inj h
    · cases h

theorem marked?_of_carries (h : c.Carries marker n) : c.marked? marker = some n := by
  obtain ⟨digits, hc, hlength, hhead, hn⟩ := h
  rw [Octets.shifted_eq] at hn
  unfold marked?
  rw [hc]
  dsimp only
  rw [if_pos ⟨rfl, hlength, hhead⟩, hn]

/-- A number has exactly one component behind a marker. -/
theorem carries_iff : c.Carries marker n ↔ c = ofMarked marker n :=
  ⟨fun h => eq_ofMarked_of_marked? (marked?_of_carries h),
    fun h => carries_of_marked? (marked?_eq_some_iff.mpr h)⟩

end Component

theorem Version.ofComponent_eq_ok_iff {c : Component} {v : Version} :
    Version.ofComponent c = .ok v ↔ c = v.toComponent := by
  have hsome : Version.ofComponent? c = some v ↔ c = v.toComponent := by
    constructor
    · exact Version.eq_toComponent_of_ofComponent?
    · rintro rfl
      exact Version.ofComponent?_toComponent v
  rw [← hsome]
  unfold Version.ofComponent
  cases Version.ofComponent? c <;> simp

theorem Segment.ofComponent_eq_ok_iff {c : Component} {k : UInt64} :
    Segment.ofComponent c = .ok k ↔ c = Segment.toComponent k := by
  have hsome : Segment.ofComponent? c = some k ↔ c = Segment.toComponent k :=
    Component.marked?_eq_some_iff
  rw [← hsome]
  unfold Segment.ofComponent
  cases Segment.ofComponent? c <;> simp

/-- Versions and segments are ordered like their components. A component is read as a version or a
segment exactly if it is the component of that version or segment, and never as both. It is the
marker of its kind and the digits of the number. -/
theorem Component.canonical_numbers :
    (∀ v w : Version, compare v.toComponent w.toComponent = compare v.ticks w.ticks) ∧
    (∀ j k : UInt64, compare (Segment.toComponent j) (Segment.toComponent k) = compare j k) ∧
    (∀ c v, Version.ofComponent c = .ok v ↔ c = v.toComponent) ∧
    (∀ c k, Segment.ofComponent c = .ok k ↔ c = Segment.toComponent k) ∧
    (∀ c v k, ¬ (Version.ofComponent c = .ok v ∧ Segment.ofComponent c = .ok k)) ∧
    (∀ c (v : Version), c = v.toComponent ↔ c.Carries 0xFD v.ticks) ∧
    ∀ c k, c = Segment.toComponent k ↔ c.Carries 0x00 k := by
  refine ⟨Version.compare_toComponent, fun j k => compare_ofMarked .., fun c v =>
    Version.ofComponent_eq_ok_iff, fun c k => Segment.ofComponent_eq_ok_iff, ?_,
    fun c v => carries_iff.symm, fun c k => carries_iff.symm⟩
  rintro c v k ⟨hv, hk⟩
  have hversion := Version.ofComponent_eq_ok_iff.mp hv
  have hsegment := Segment.ofComponent?_toComponent k
  rw [← Segment.ofComponent_eq_ok_iff.mp hk, hversion, Segment.ofComponent?_version] at hsegment
  cases hsegment

/-! ### Names -/

namespace Name

/-- A version that is put behind the base of a name is found again, with or without a segment behind
it, and the segment belongs to the name with the version. Conversely, a base and a version are found
exactly in the base with the version behind it, and with a segment behind that, and both belong to
the base with the version. -/
theorem splitVersion?_undoes (n : Name) (v : Version) (k : UInt64) :
    (n.addVersion v).splitVersion? = some (n.base, v) ∧
    ((n.addVersion v).segmentName k).splitVersion? = some (n.base, v) ∧
    ((n.addVersion v).segmentName k).versioned? = some (n.addVersion v) ∧
    ∀ (m b : Name) (t : Version), m.splitVersion? = some (b, t) ↔
      (m = b.append t.toComponent ∨ ∃ j, m = (b.append t.toComponent).segmentName j) ∧
        m.versioned? = some (b.append t.toComponent) := by
  have hsegment := splitVersion?_segmentName n.base v k
  refine ⟨splitVersion?_append _ _, hsegment, versioned?_of_splitVersion? hsegment, ?_⟩
  intro m b t
  constructor
  · intro h
    exact ⟨splitVersion?_eq_some_iff.mp h, versioned?_of_splitVersion? h⟩
  · rintro ⟨hname, -⟩
    exact splitVersion?_eq_some_iff.mpr hname

end Name
end NamedContent
