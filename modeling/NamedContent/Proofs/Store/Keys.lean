import NamedContent.Proofs.Name.Marked
import NamedContent.Store.Table

/-!
# Keys of names

The key of a name spells its components with their lengths, so as long as lengths fit into four
bytes a name's key begins with another name's key exactly if the name begins with the other name
(`key_prefix_iff`); in particular different names have different keys (`key_injective`). What is
behind the key of a prefix is the key of the remaining components (`key_eq_append_iff`), so a key
never ends inside a component of another name, even where the bytes of the component look like
lengths.

Of a longer component the key counts some bytes only, and it begins with the key of those. So the
names whose keys tell of their prefixes are exactly the names of short components (`short_iff`).
-/

namespace NamedContent

/-- A number is written modulo what fits into the bytes. -/
theorem Octets.ofNat_mod (width n : Nat) : ofNat width (n % 256 ^ width) = ofNat width n := by
  induction width generalizing n with
  | zero => rfl
  | succ w ih =>
    have hhigh : n % 256 ^ (w + 1) / 256 = n / 256 % 256 ^ w := by
      rw [Nat.pow_succ', Nat.mod_mul_right_div_self]
    have hlow : UInt8.ofNat (n % 256 ^ (w + 1)) = UInt8.ofNat n := by
      apply UInt8.toNat_inj.mp
      rw [UInt8.toNat_ofNat', UInt8.toNat_ofNat']
      exact Nat.mod_mod_of_dvd n (Nat.dvd_mul_left _ _)
    rw [ofNat, ofNat, hhigh, hlow, ih]

namespace Component

/-- The length of the component fits into the four bytes that its key has for it. -/
def Short (c : Component) : Prop := c.octets.length < 2 ^ 32

instance (c : Component) : Decidable c.Short := inferInstanceAs (Decidable (_ < _))

theorem short_ofMarked (marker : UInt8) (n : UInt64) : (ofMarked marker n).Short := by
  have hdigits := Octets.length_ofUInt64_le n
  show (Octets.ofUInt64 n).length + 1 < 2 ^ 32
  omega

/-- A key at the front of a byte string can be told from what follows. -/
theorem key_append_inj {c d : Component} (hc : c.Short) (hd : d.Short) {t u : Octets}
    (h : c.key ++ t = d.key ++ u) : c = d ∧ t = u := by
  unfold key at h
  rw [List.append_assoc, List.append_assoc] at h
  have hlen : (Octets.ofNat 4 c.length).length = (Octets.ofNat 4 d.length).length := by
    rw [Octets.length_ofNat, Octets.length_ofNat]
  obtain ⟨hn, hrest⟩ := List.append_inj h hlen
  have hcd : c.octets.length = d.octets.length := by
    have hback := congrArg Octets.toNat hn
    rw [Octets.toNat_ofNat, Octets.toNat_ofNat] at hback
    exact ((Nat.mod_eq_of_lt hc).symm.trans hback).trans (Nat.mod_eq_of_lt hd)
  obtain ⟨ho, ht⟩ := List.append_inj hrest hcd
  exact ⟨Component.ext ho, ht⟩

theorem key_ne_nil (c : Component) : c.key ≠ [] := by
  intro h
  have hlen := congrArg List.length h
  rw [key, List.length_append, Octets.length_ofNat] at hlen
  simp at hlen

/-! ### Longer components -/

/-- The bytes that the length in the key counts. -/
def counted (c : Component) : Component := ⟨c.octets.take (c.length % 2 ^ 32)⟩

theorem length_counted (c : Component) : c.counted.length = c.length % 2 ^ 32 := by
  show (c.octets.take (c.length % 2 ^ 32)).length = _
  rw [List.length_take]
  exact Nat.min_eq_left (Nat.mod_le _ _)

theorem short_counted (c : Component) : c.counted.Short := by
  show c.counted.length < 2 ^ 32
  rw [length_counted]
  exact Nat.mod_lt _ (by decide)

/-- The key of a component begins with the key of the bytes that it counts. -/
theorem key_counted (c : Component) : c.counted.key <+: c.key := by
  have hlen : c.counted.length = c.length % 256 ^ 4 := length_counted c
  rw [key, key, hlen, Octets.ofNat_mod, List.prefix_append_right_inj]
  exact List.take_prefix _ _

end Component

namespace Name

/-- All components of the name are short. -/
def Short (n : Name) : Prop := ∀ c ∈ n.components, c.Short

instance (n : Name) : Decidable n.Short := inferInstanceAs (Decidable (∀ c ∈ n.components, c.Short))

@[simp] theorem short_cons {c : Component} {cs : List Component} :
    Short ⟨c :: cs⟩ ↔ c.Short ∧ Short ⟨cs⟩ := List.forall_mem_cons

theorem Short.append {n : Name} {c : Component} (hn : n.Short) (hc : c.Short) :
    (n.append c).Short := by
  intro d hd
  rcases List.mem_append.mp hd with hd | hd
  · exact hn d hd
  · rw [List.mem_singleton.mp hd]
    exact hc

theorem short_root : root.Short := fun _ hc => absurd hc List.not_mem_nil

/-! ### Prefixes -/

theorem key_cons (c : Component) (cs : List Component) : key ⟨c :: cs⟩ = c.key ++ key ⟨cs⟩ :=
  List.flatMap_cons

theorem key_append (cs ds : List Component) : key ⟨cs ++ ds⟩ = key ⟨cs⟩ ++ key ⟨ds⟩ :=
  List.flatMap_append

/-- Only the root has an empty key. -/
@[simp] theorem key_eq_nil_iff {n : Name} : n.key = [] ↔ n = root := by
  constructor
  · intro h
    obtain ⟨cs⟩ := n
    cases cs with
    | nil => rfl
    | cons c cs =>
      rw [key_cons, List.append_eq_nil_iff] at h
      exact absurd h.1 c.key_ne_nil
  · rintro rfl
    rfl

/-- The key of a name begins with the keys of its prefixes. -/
theorem key_isPrefixOf {p n : Name} (h : p.isPrefixOf n = true) :
    p.key.isPrefixOf n.key = true := by
  obtain ⟨t, ht⟩ := List.isPrefixOf_iff_prefix.mp h
  apply List.isPrefixOf_iff_prefix.mpr
  rw [key, key, ← ht, List.flatMap_append]
  exact List.prefix_append _ _

/-- A name begins with another one exactly if its key begins with the other one's key. -/
theorem key_prefix_iff {p n : Name} (hp : p.Short) (hn : n.Short) :
    p.key <+: n.key ↔ p.components <+: n.components := by
  obtain ⟨ps⟩ := p
  obtain ⟨ns⟩ := n
  show key ⟨ps⟩ <+: key ⟨ns⟩ ↔ ps <+: ns
  induction ps generalizing ns with
  | nil => exact ⟨fun _ => List.nil_prefix, fun _ => List.nil_prefix⟩
  | cons c ps ih =>
    cases ns with
    | nil =>
      constructor
      · intro h
        have hroot := key_eq_nil_iff.mp (List.prefix_nil.mp h)
        exact absurd (congrArg components hroot) (List.cons_ne_nil c ps)
      · intro h
        cases List.prefix_nil.mp h
    | cons d ns =>
      obtain ⟨hc, hps⟩ := short_cons.mp hp
      obtain ⟨hd, hns⟩ := short_cons.mp hn
      rw [key_cons, key_cons, List.cons_prefix_cons, ← ih hps ns hns]
      constructor
      · rintro ⟨t, ht⟩
        rw [List.append_assoc] at ht
        obtain ⟨hcd, hrest⟩ := Component.key_append_inj hc hd ht
        exact ⟨hcd, t, hrest⟩
      · rintro ⟨rfl, hrest⟩
        exact (List.prefix_append_right_inj _).mpr hrest

theorem key_injective {p n : Name} (hp : p.Short) (hn : n.Short) (h : p.key = n.key) : p = n := by
  have hpn : p.components <+: n.components := (key_prefix_iff hp hn).mp (h ▸ List.prefix_refl _)
  have hnp : n.components <+: p.components := (key_prefix_iff hn hp).mp (h ▸ List.prefix_refl _)
  exact Name.ext (hpn.eq_of_length (Nat.le_antisymm hpn.length_le hnp.length_le))

/-- What is behind the key of a prefix is the key of the remaining components. -/
theorem key_eq_append_iff {p n : Name} (hp : p.Short) (hn : n.Short) {rest : Octets} :
    n.key = p.key ++ rest ↔
      ∃ r : Name, r.key = rest ∧ n.components = p.components ++ r.components := by
  constructor
  · intro h
    obtain ⟨rs, hrs⟩ := (key_prefix_iff hp hn).mp ⟨rest, h.symm⟩
    have hkey : n.key = p.key ++ key ⟨rs⟩ := by
      rw [← key_append, hrs]
    exact ⟨⟨rs⟩, List.append_cancel_left (hkey.symm.trans h), hrs.symm⟩
  · rintro ⟨r, rfl, hr⟩
    rw [← key_append, ← hr]

/-- The key of a name tells of its prefixes exactly if all components are short: a longer one makes
the key begin with the key of a name that is no prefix. -/
theorem short_iff {n : Name} :
    n.Short ↔ ∀ p : Name, p.Short → p.key <+: n.key → p.components <+: n.components := by
  constructor
  · exact fun hn p hp h => (key_prefix_iff hp hn).mp h
  · obtain ⟨cs⟩ := n
    induction cs with
    | nil => exact fun _ => short_root
    | cons c cs ih =>
      intro htells
      have hc : c.Short := by
        have hcounted : key ⟨[c.counted]⟩ <+: key ⟨c :: cs⟩ := by
          rw [key_cons, key_cons]
          show c.counted.key ++ [] <+: _
          rw [List.append_nil]
          exact c.key_counted.trans (List.prefix_append _ _)
        have hcs := htells ⟨[c.counted]⟩ (short_cons.mpr ⟨c.short_counted, short_root⟩) hcounted
        rw [← (List.cons_prefix_cons.mp hcs).1]
        exact c.short_counted
      refine short_cons.mpr ⟨hc, ih fun p hp h => ?_⟩
      -- In front of both names the component changes nothing.
      have hcons : key ⟨c :: p.components⟩ <+: key ⟨c :: cs⟩ := by
        rw [key_cons, key_cons, List.prefix_append_right_inj]
        exact h
      have hcs := htells ⟨c :: p.components⟩ (short_cons.mpr ⟨hc, hp⟩) hcons
      exact (List.cons_prefix_cons.mp hcs).2

/-- Keys reflect prefixes. A key begins with another key exactly if the name begins with the other
name, and what is behind is then the key of the components that the other name lacks. Different
names have different keys, and only the root has an empty one. -/
theorem key_reflects_prefixes {a b : Name} (ha : a.Short) (hb : b.Short) :
    (a.key <+: b.key ↔ a.components <+: b.components) ∧
    (∀ rest, b.key = a.key ++ rest ↔
      ∃ r : Name, r.key = rest ∧ b.components = a.components ++ r.components) ∧
    (a.key = b.key ↔ a = b) ∧
    (a.key = [] ↔ a = root) := by
  refine ⟨key_prefix_iff ha hb, fun rest => key_eq_append_iff ha hb, ?_, key_eq_nil_iff⟩
  exact ⟨key_injective ha hb, congrArg key⟩

/-- Its bytes are those that a key has for the length of `[7]`. -/
def header : Component := ⟨[0, 0, 0, 1]⟩

/-- The bytes behind the header make another component or a longer one, and keys tell which. -/
theorem key_reflects_prefixes_header :
    Short ⟨[header]⟩ ∧ Short ⟨[header, ⟨[7]⟩]⟩ ∧ Short ⟨[⟨header.octets ++ [7]⟩]⟩ ∧
      key ⟨[header]⟩ <+: key ⟨[header, ⟨[7]⟩]⟩ ∧
      ¬ key ⟨[header]⟩ <+: key ⟨[⟨header.octets ++ [7]⟩]⟩ := by
  have hparent : Short ⟨[header]⟩ := by decide
  have hchild : Short ⟨[header, ⟨[7]⟩]⟩ := by decide
  have hlonger : Short ⟨[⟨header.octets ++ [7]⟩]⟩ := by decide
  have hpre := (key_reflects_prefixes hparent hchild).1
  have hnot := (key_reflects_prefixes hparent hlonger).1
  exact ⟨hparent, hchild, hlonger, hpre.mpr (by decide), mt hnot.mp (by decide)⟩

end Name
end NamedContent
