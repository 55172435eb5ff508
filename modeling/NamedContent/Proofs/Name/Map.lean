import NamedContent.Name.Map

/-!
# What a map keyed by names holds

A map is its entries: a name has a value exactly if the two are an entry (`get?_eq_some_iff`), and a
name keeps the first value that it is given (`get?_insertNew`). A prefix scan finds all entries
whose names extend the prefix and no others (`scan_eq_filter`), because nothing between two
extensions of a name is anything but an extension of it (`prefix_of_between`).
-/

namespace NamedContent

/-! ### Prefixes and the order of names -/

/-- A name does not come before its prefixes. -/
theorem compare_append_ne_lt (p t : List Component) : compare (p ++ t) p ≠ .lt := by
  induction p with
  | nil =>
    intro h
    cases t <;> cases h
  | cons c p ih =>
    intro h
    rw [List.cons_append, List.compare_cons_cons, Std.ReflOrd.compare_self, Ordering.eq_then] at h
    exact ih h

/-- What lies between a name and one of its extensions is an extension too. -/
theorem prefix_of_between {p a b : List Component} (hpa : compare a p ≠ .lt)
    (hab : compare a b = .lt) (hpb : p <+: b) : p <+: a := by
  induction p generalizing a b with
  | nil => exact List.nil_prefix
  | cons c p ih =>
    obtain ⟨t, rfl⟩ := hpb
    cases a with
    | nil => exact absurd rfl hpa
    | cons d a =>
      rw [List.compare_cons_cons] at hpa
      rw [List.cons_append, List.compare_cons_cons] at hab
      cases hdc : compare d c with
      | lt => rw [hdc] at hpa; exact absurd rfl hpa
      | gt => rw [hdc] at hab; cases hab
      | eq =>
        rw [hdc, Ordering.eq_then] at hpa hab
        have hd : d = c := Std.LawfulEqOrd.eq_of_compare hdc
        rw [hd, List.cons_prefix_cons]
        exact ⟨rfl, ih hpa hab (List.prefix_append p t)⟩

namespace Name

theorem isLE_total (a b : Name) : ((compare a b).isLE || (compare b a).isLE) = true := by
  have hswap : compare b a = (compare a b).swap := Std.OrientedCmp.eq_swap
  rw [hswap]
  cases compare a b <;> rfl

theorem compare_ne_lt_of_prefix {p n : Name} (h : p.isPrefixOf n = true) : compare n p ≠ .lt := by
  obtain ⟨t, ht⟩ := List.isPrefixOf_iff_prefix.mp h
  show compare n.components p.components ≠ .lt
  rw [← ht]
  exact compare_append_ne_lt _ _

theorem isLE_of_prefix {p n : Name} (h : p.isPrefixOf n = true) : (compare p n).isLE = true := by
  rw [← Std.OrientedCmp.isGE_iff_isLE, Ordering.isGE_iff_ne_lt]
  exact compare_ne_lt_of_prefix h

theorem isPrefixOf_of_between {p a b : Name} (hpa : compare a p ≠ .lt) (hab : compare a b = .lt)
    (hpb : p.isPrefixOf b = true) : p.isPrefixOf a = true :=
  List.isPrefixOf_iff_prefix.mpr (prefix_of_between hpa hab (List.isPrefixOf_iff_prefix.mp hpb))

end Name

namespace NameMap

variable {α : Type}

/-! ### Entries -/

/-- Two entries of one name are the same. -/
theorem value_unique {es : List (Name × α)} (h : Ascending es) {n : Name} {v w : α}
    (hv : (n, v) ∈ es) (hw : (n, w) ∈ es) : v = w := by
  induction es with
  | nil => cases hv
  | cons e es ih =>
    have he := List.pairwise_cons.mp h
    have hne : ∀ u : α, (n, u) ∈ es → e.1 ≠ n := by
      rintro u hu rfl
      have := he.1 _ hu
      rw [Std.ReflOrd.compare_self] at this
      cases this
    rcases List.mem_cons.mp hv with rfl | hv'
    · rcases List.mem_cons.mp hw with hw' | hw'
      · exact (congrArg Prod.snd hw').symm
      · exact absurd rfl (hne w hw')
    · rcases List.mem_cons.mp hw with rfl | hw'
      · exact absurd rfl (hne v hv')
      · exact ih he.2 hv' hw'

theorem get?_eq_some_iff {m : NameMap α} {n : Name} {v : α} :
    m.get? n = some v ↔ (n, v) ∈ m.entries := by
  constructor
  · intro h
    obtain ⟨e, he, rfl⟩ := Option.map_eq_some_iff.mp h
    have hn : e.1 = n := by simpa using List.find?_some he
    rw [← hn]
    exact List.mem_of_find?_eq_some he
  · intro h
    cases hf : m.entries.find? fun e => e.1 == n with
    | none => exact absurd (List.find?_eq_none.mp hf _ h) (by simp)
    | some e =>
      have hn : e.1 = n := by simpa using List.find?_some hf
      have hmem : (n, e.2) ∈ m.entries := by
        rw [← hn]
        exact List.mem_of_find?_eq_some hf
      rw [get?, hf, value_unique m.ascending h hmem]
      rfl

theorem get?_eq_none_iff {m : NameMap α} {n : Name} :
    m.get? n = none ↔ ∀ v, (n, v) ∉ m.entries := by
  rw [Option.eq_none_iff_forall_ne_some]
  simp only [ne_eq, get?_eq_some_iff]

/-! ### Insertion -/

/-- A name that comes before all entries is the name of none. -/
theorem not_mem_of_lt {n : Name} {e : Name × α} {es : List (Name × α)} (h : Ascending (e :: es))
    (hlt : compare n e.1 = .lt) (w : α) : (n, w) ∉ e :: es := by
  have hself : compare n n ≠ .lt := by
    rw [Std.ReflOrd.compare_self]
    exact nofun
  intro hw
  rcases List.mem_cons.mp hw with rfl | hw
  · exact hself hlt
  · exact hself (Std.TransCmp.lt_trans hlt ((List.pairwise_cons.mp h).1 _ hw))

theorem mem_insertEntry_iff {n : Name} {v : α} {es : List (Name × α)} (h : Ascending es)
    {x : Name × α} :
    x ∈ insertEntry n v es ↔ x ∈ es ∨ x = (n, v) ∧ ∀ w, (n, w) ∉ es := by
  induction es with
  | nil => simp [insertEntry]
  | cons e es ih =>
    rw [insertEntry]
    split
    · next hlt => rw [List.mem_cons, and_iff_left (not_mem_of_lt h hlt), or_comm]
    · next heq =>
      have hn : n = e.1 := Std.LawfulEqOrd.eq_of_compare heq
      refine (or_iff_left ?_).symm
      rintro ⟨_, hnone⟩
      exact hnone e.2 (List.mem_cons.mpr (.inl (by rw [hn])))
    · next hgt =>
      have hne : ∀ w, (n, w) ≠ e := by
        rintro w rfl
        rw [Std.ReflOrd.compare_self] at hgt
        cases hgt
      have hnone : (∀ w, (n, w) ∉ e :: es) ↔ ∀ w, (n, w) ∉ es :=
        forall_congr' fun w => by rw [List.mem_cons, or_iff_right (hne w)]
      rw [List.mem_cons, List.mem_cons, ih (List.pairwise_cons.mp h).2, hnone, or_assoc]

@[simp] theorem get?_insertNew_self (m : NameMap α) (n : Name) (v : α) :
    (m.insertNew n v).get? n = some ((m.get? n).getD v) := by
  rw [get?_eq_some_iff]
  refine (mem_insertEntry_iff m.ascending).mpr ?_
  cases h : m.get? n with
  | some w => exact .inl (get?_eq_some_iff.mp h)
  | none => exact .inr ⟨rfl, get?_eq_none_iff.mp h⟩

theorem get?_insertNew_of_ne (m : NameMap α) {n k : Name} (h : k ≠ n) (v : α) :
    (m.insertNew n v).get? k = m.get? k := by
  apply Option.ext
  intro w
  rw [get?_eq_some_iff, get?_eq_some_iff]
  refine (mem_insertEntry_iff m.ascending).trans ?_
  constructor
  · rintro (hw | ⟨hw, _⟩)
    · exact hw
    · exact absurd (congrArg Prod.fst hw) h
  · exact .inl

/-! ### Prefix scans -/

/-- Past the names before the prefix, the extensions come first. -/
theorem takeWhile_eq_filter {es : List (Name × α)} (h : Ascending es) {p : Name}
    (hp : ∀ e ∈ es, compare e.1 p ≠ .lt) :
    es.takeWhile (fun e => p.isPrefixOf e.1) = es.filter fun e => p.isPrefixOf e.1 := by
  induction es with
  | nil => rfl
  | cons e es ih =>
    have he := List.pairwise_cons.mp h
    rw [List.takeWhile_cons, List.filter_cons]
    split
    · rw [ih he.2 fun x hx => hp x (List.mem_cons_of_mem _ hx)]
    · next hpe =>
      rw [eq_comm, List.filter_eq_nil_iff]
      intro x hx hpx
      exact hpe (Name.isPrefixOf_of_between (hp e List.mem_cons_self) (he.1 x hx) hpx)

/-- To drop the names before a name is to keep the ones from it upward. -/
theorem dropWhile_eq_filter {es : List (Name × α)} (h : Ascending es) (p : Name) :
    (es.dropWhile fun e => compare e.1 p == .lt) = es.filter fun e => (compare p e.1).isLE := by
  induction es with
  | nil => rfl
  | cons e es ih =>
    have he := List.pairwise_cons.mp h
    rw [List.dropWhile_cons]
    split
    · next hlt =>
      have hbefore : compare e.1 p = .lt := by simpa using hlt
      rw [ih he.2, List.filter_cons, if_neg (Std.OrientedCmp.not_isLE_of_lt hbefore)]
    · next hge =>
      -- The first name that is not before `p` has only later ones behind it.
      have hpe : (compare p e.1).isLE = true := by
        rw [← Std.OrientedCmp.isGE_iff_isLE, Ordering.isGE_iff_ne_lt]
        simpa using hge
      rw [eq_comm, List.filter_eq_self, List.forall_mem_cons]
      refine ⟨hpe, fun x hx => ?_⟩
      exact Std.TransCmp.isLE_trans hpe (Ordering.isLE_of_eq_lt (he.1 x hx))

theorem scan_eq_takeWhile (m : NameMap α) (p : Name) :
    m.scan p = (m.entries.filter fun e => (compare p e.1).isLE).takeWhile
      fun e => p.isPrefixOf e.1 := by
  rw [scan, dropWhile_eq_filter m.ascending]

/-- A scan finds the extensions of the prefix and nothing else, in order. -/
theorem scan_eq_filter (m : NameMap α) (p : Name) :
    m.scan p = m.entries.filter fun e => p.isPrefixOf e.1 := by
  have hge : ∀ e ∈ m.entries.filter fun e => (compare p e.1).isLE, compare e.1 p ≠ .lt :=
    fun e he => Std.OrientedCmp.not_lt_of_isLE (List.mem_filter.mp he).2
  rw [scan_eq_takeWhile, takeWhile_eq_filter (m.ascending.filter _) hge, List.filter_filter]
  apply List.filter_congr
  intro e _
  cases hp : p.isPrefixOf e.1 with
  | false => rfl
  | true => exact Name.isLE_of_prefix hp

theorem mem_under {m : NameMap α} {p : Name} {v : α} :
    v ∈ m.under p ↔ ∃ n, (n, v) ∈ m.entries ∧ p.isPrefixOf n = true := by
  rw [under, scan_eq_filter, List.mem_map]
  constructor
  · rintro ⟨e, he, rfl⟩
    obtain ⟨hmem, hp⟩ := List.mem_filter.mp he
    exact ⟨e.1, hmem, hp⟩
  · rintro ⟨n, hmem, hp⟩
    exact ⟨(n, v), List.mem_filter.mpr ⟨hmem, hp⟩, rfl⟩

/-- A scan takes the names from the prefix upward as long as they extend it. What it takes is the
entries whose names extend the prefix, all of them and in order: no extension comes before the
prefix, and nothing lies between two extensions but extensions. -/
theorem scan_complete (m : NameMap α) (p : Name) :
    m.scan p = (m.entries.filter fun e => (compare p e.1).isLE).takeWhile
      (fun e => p.isPrefixOf e.1) ∧
    (∀ n v, (n, v) ∈ m.scan p ↔ m.get? n = some v ∧ p.components <+: n.components) ∧
    Ascending (m.scan p) ∧
    (∀ n : Name, p.components <+: n.components → (compare p n).isLE = true) ∧
    ∀ a b n : Name, p.components <+: a.components → p.components <+: b.components →
      (compare a n).isLE = true → (compare n b).isLE = true → p.components <+: n.components := by
  refine ⟨scan_eq_takeWhile m p, fun n v => ?_, ?_, fun n hn => ?_, fun a b n ha hb han hnb => ?_⟩
  · rw [scan_eq_filter, List.mem_filter, get?_eq_some_iff]
    exact and_congr_right fun _ => List.isPrefixOf_iff_prefix
  · rw [scan_eq_filter]
    exact m.ascending.filter _
  · exact Name.isLE_of_prefix (List.isPrefixOf_iff_prefix.mpr hn)
  · have hpn : (compare p n).isLE = true :=
      Std.TransCmp.isLE_trans (Name.isLE_of_prefix (List.isPrefixOf_iff_prefix.mpr ha)) han
    -- The name is the upper extension itself, or comes before it.
    rcases Ordering.isLE_iff_eq_lt_or_eq_eq.mp hnb with hlt | heq
    · exact prefix_of_between (Std.OrientedCmp.not_lt_of_isLE hpn) hlt hb
    · rw [Std.LawfulEqOrd.eq_of_compare heq]
      exact hb

end NameMap
end NamedContent
