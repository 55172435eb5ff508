import NamedContent.Name.Profile
import NamedContent.Proofs.Name.Marked

/-!
# Putting names together and taking them apart

`splitVersion?` reads back the base and the version that were put together, with or without a
segment behind them, and nothing else has a version (`splitVersion?_eq_some_iff`). So two versioned
names are equal only if their bases and versions are.
-/

namespace NamedContent

/-! ### Components that carry numbers -/

namespace Version

@[simp] theorem ofComponent?_toComponent (v : Version) : ofComponent? v.toComponent = some v := by
  rw [ofComponent?, toComponent, Component.marked?_ofMarked]
  rfl

theorem eq_toComponent_of_ofComponent? {c : Component} {v : Version}
    (h : ofComponent? c = some v) : c = v.toComponent := by
  obtain ⟨n, hn, rfl⟩ := Option.map_eq_some_iff.mp h
  exact Component.eq_ofMarked_of_marked? hn

theorem toComponent_injective {v w : Version} (h : v.toComponent = w.toComponent) : v = w := by
  have hv := ofComponent?_toComponent v
  rw [h, ofComponent?_toComponent] at hv
  exact (Option.some.inj hv).symm

theorem lt_iff_toNat_lt {v w : Version} : v < w ↔ v.ticks.toNat < w.ticks.toNat :=
  UInt64.lt_iff_toNat_lt

theorem eq_or_lt_of_le {v w : Version} (h : v ≤ w) : v = w ∨ v < w := by
  rcases UInt64.lt_or_eq_of_le h with hlt | heq
  · exact .inr hlt
  · exact .inl (Version.ext heq)

/-- The greatest version, at which counting stops. -/
def last : Version := ⟨UInt64.ofNat maxTicks⟩

theorem ne_last_iff {v : Version} : v ≠ last ↔ v.ticks.toNat < 2 ^ 64 - 1 := by
  have hlast : last.ticks.toNat = 2 ^ 64 - 1 := rfl
  have hv := v.ticks.toNat_lt
  constructor
  · intro hne
    have htoNat : v.ticks.toNat ≠ 2 ^ 64 - 1 := fun he =>
      hne (Version.ext (UInt64.toNat_inj.mp (he.trans hlast.symm)))
    omega
  · rintro hlt rfl
    omega

theorem toNat_succ (v : Version) : v.succ.ticks.toNat = min (v.ticks.toNat + 1) (2 ^ 64 - 1) := by
  have hmax : maxTicks = 2 ^ 64 - 1 := rfl
  rw [succ, hmax, UInt64.toNat_ofNat', Nat.mod_eq_of_lt (by omega)]

theorem lt_succ_iff {v : Version} : v < v.succ ↔ v ≠ last := by
  rw [lt_iff_toNat_lt, ne_last_iff, toNat_succ]
  omega

@[simp] theorem succ_last : last.succ = last := rfl

/-- The time of a clock is never the greatest version: the product stops before it is divided. -/
theorem ofMillis_ne_last (clock : UInt64) : ofMillis clock ≠ last := by
  have hmax : maxTicks = 2 ^ 64 - 1 := rfl
  rw [ne_last_iff, ofMillis, hmax, UInt64.toNat_ofNat', Nat.mod_eq_of_lt (by omega)]
  omega

/-- A version minted after another one is later, unless there is none. -/
theorem lt_nextAfter_iff (clock : UInt64) {v : Version} :
    v < nextAfter clock (some v) ↔ v ≠ last := by
  unfold nextAfter
  dsimp only
  split
  · exact lt_succ_iff
  · next hle =>
    have hlt : v < ofMillis clock := UInt64.not_le.mp hle
    refine ⟨fun _ => ne_last_iff.mpr ?_, fun _ => hlt⟩
    have hclock := (ofMillis clock).ticks.toNat_lt
    rw [lt_iff_toNat_lt] at hlt
    omega

@[simp] theorem nextAfter_last (clock : UInt64) : nextAfter clock (some last) = last := by
  have hle : ofMillis clock ≤ last := by
    have hclock := ne_last_iff.mp (ofMillis_ne_last clock)
    exact UInt64.le_iff_toNat_le.mpr (Nat.le_of_lt hclock)
  unfold nextAfter
  dsimp only
  rw [if_pos hle, succ_last]

/-- A version minted after another one is not earlier. -/
theorem not_nextAfter_lt (clock : UInt64) (v : Version) : ¬ nextAfter clock (some v) < v := by
  by_cases hv : v = last
  · rw [hv, nextAfter_last]
    exact UInt64.lt_irrefl _
  · exact UInt64.lt_asymm ((lt_nextAfter_iff clock).mpr hv)

/-- A version minted after one that was minted from the clock is later. -/
theorem lt_nextAfter_nextAfter (clock later : UInt64) :
    nextAfter clock none < nextAfter later (some (nextAfter clock none)) :=
  (lt_nextAfter_iff later).mpr (ofMillis_ne_last clock)

theorem compare_toComponent (v w : Version) :
    compare v.toComponent w.toComponent = compare v.ticks w.ticks :=
  Component.compare_ofMarked ..

theorem compare_toComponent_eq_lt_iff {v w : Version} :
    compare v.toComponent w.toComponent = .lt ↔ v < w := by
  rw [compare_toComponent, Component.compare_word, Nat.compare_eq_lt]
  exact UInt64.lt_iff_toNat_lt.symm

theorem compare_toComponent_eq_gt_iff {v w : Version} :
    compare v.toComponent w.toComponent = .gt ↔ w < v :=
  Std.OrientedCmp.gt_iff_lt.trans compare_toComponent_eq_lt_iff

end Version

namespace Segment

@[simp] theorem ofComponent?_toComponent (k : UInt64) : ofComponent? (toComponent k) = some k :=
  Component.marked?_ofMarked ..

/-- A version component carries no segment number. -/
@[simp] theorem ofComponent?_version (v : Version) : ofComponent? v.toComponent = none :=
  Component.marked?_ofMarked_of_ne (by decide) _

theorem eq_toComponent_of_ofComponent? {c : Component} {k : UInt64}
    (h : ofComponent? c = some k) : c = toComponent k :=
  Component.eq_ofMarked_of_marked? h

theorem toComponent_injective {j k : UInt64} (h : toComponent j = toComponent k) : j = k := by
  have hj := ofComponent?_toComponent j
  rw [h, ofComponent?_toComponent] at hj
  exact (Option.some.inj hj).symm

end Segment

namespace Name

/-! ### One more component -/

@[simp] theorem last?_append (n : Name) (c : Component) : (n.append c).last? = some c :=
  List.getLast?_concat

@[simp] theorem length_append (n : Name) (c : Component) : (n.append c).length = n.length + 1 := by
  simp [length, append]

@[simp] theorem component?_append_self (n : Name) (c : Component) :
    (n.append c).component? n.length = some c := by
  simp [component?, append, length]

theorem component?_append_of_lt {n : Name} {i : Nat} (h : i < n.length) (c : Component) :
    (n.append c).component? i = n.component? i := by
  rw [component?, component?, append, List.getElem?_append_left h]

/-- What follows a name that was extended by two components. -/
theorem component?_of_eq {n m : Name} {c d : Component} (h : n = (m.append c).append d) :
    n.component? m.length = some c := by
  have hlt : m.length < (m.append c).length := by simp
  rw [h, component?_append_of_lt hlt, component?_append_self]

theorem isPrefixOf_of_eq {n m : Name} {c d : Component} (h : n = (m.append c).append d) :
    m.isPrefixOf n = true := by
  rw [h]
  apply List.isPrefixOf_iff_prefix.mpr
  exact (List.prefix_append m.components [c]).trans (List.prefix_append _ [d])

/-- The names that extend a name by two components. -/
theorem exists_append_append_iff {b n : Name} :
    (∃ c d, n = (b.append c).append d) ↔ b.isPrefixOf n = true ∧ n.length = b.length + 2 := by
  constructor
  · rintro ⟨c, d, h⟩
    exact ⟨isPrefixOf_of_eq h, by simp [h]⟩
  · rintro ⟨hpre, hlen⟩
    obtain ⟨t, ht⟩ := List.isPrefixOf_iff_prefix.mp hpre
    have htwo : t.length = 2 := by
      have hsum : b.components.length + t.length = b.components.length + 2 := by
        rw [← List.length_append, ht]
        exact hlen
      omega
    match t, htwo with
    | [c, d], _ =>
      refine ⟨c, d, Name.ext ?_⟩
      simp [append, ← ht]

theorem cut_append_of_le {n : Name} {i : Nat} (h : i ≤ n.length) (c : Component) :
    (n.append c).cut i = n.cut i := by
  rw [cut, cut, append, List.take_append_of_le_length h]

@[simp] theorem cut_length (n : Name) : n.cut n.length = n := by
  simp [cut, length]

theorem append_inj {n m : Name} {c d : Component} (h : n.append c = m.append d) :
    n = m ∧ c = d := by
  have hc : n.components ++ [c] = m.components ++ [d] := congrArg Name.components h
  obtain ⟨hn, hcd⟩ := List.append_inj' hc rfl
  exact ⟨Name.ext hn, by simpa using hcd⟩

/-- The components of a name up to the last one, and the last one. -/
theorem eq_cut_append {n : Name} {i : Nat} {c : Component} (h : n.component? i = some c)
    (hl : n.length = i + 1) : n = (n.cut i).append c := by
  obtain ⟨hi, hc⟩ := List.getElem?_eq_some_iff.mp h
  apply Name.ext
  show n.components = n.components.take i ++ [c]
  rw [← hc, List.take_append_getElem, List.take_of_length_le]
  exact Nat.le_of_eq hl

/-! ### Versions -/

@[simp] theorem segment?_append (n : Name) (c : Component) :
    (n.append c).segment? = Segment.ofComponent? c := by
  simp [segment?]

@[simp] theorem segment?_segmentName (n : Name) (k : UInt64) :
    (n.segmentName k).segment? = some k := by
  simp [segmentName]

@[simp] theorem splitVersion?_append (n : Name) (v : Version) :
    (n.append v.toComponent).splitVersion? = some (n, v) := by
  simp [splitVersion?, cut_append_of_le]

@[simp] theorem splitVersion?_segmentName (n : Name) (v : Version) (k : UInt64) :
    ((n.append v.toComponent).segmentName k).splitVersion? = some (n, v) := by
  have hl : n.length < (n.append v.toComponent).length := by simp
  simp [splitVersion?, segmentName, component?_append_of_lt hl,
    cut_append_of_le (Nat.le_of_lt hl), cut_append_of_le]

@[simp] theorem version?_append (n : Name) (v : Version) :
    (n.append v.toComponent).version? = some v := by
  simp [version?]

@[simp] theorem version?_segmentName (n : Name) (v : Version) (k : UInt64) :
    ((n.append v.toComponent).segmentName k).version? = some v := by
  simp [version?]

@[simp] theorem hasVersion_segmentName (n : Name) (v : Version) (k : UInt64) :
    ((n.append v.toComponent).segmentName k).hasVersion = true := by
  simp [hasVersion]

@[simp] theorem versioned?_segmentName (n : Name) (v : Version) (k : UInt64) :
    ((n.append v.toComponent).segmentName k).versioned? = some (n.append v.toComponent) := by
  simp [versioned?]

@[simp] theorem base_append (n : Name) (v : Version) : (n.append v.toComponent).base = n := by
  simp [base]

@[simp] theorem base_segmentName (n : Name) (v : Version) (k : UInt64) :
    ((n.append v.toComponent).segmentName k).base = n := by
  simp [base]

/-- A name that ends in a segment is a name with the segment behind it. -/
theorem eq_segmentName_of_segment? {n : Name} {k : UInt64} (h : n.segment? = some k) :
    ∃ m : Name, n = m.segmentName k := by
  obtain ⟨d, hd, hk⟩ := Option.bind_eq_some_iff.mp h
  rw [last?, List.getLast?_eq_some_iff] at hd
  obtain ⟨cs, hcs⟩ := hd
  rw [Segment.eq_toComponent_of_ofComponent? hk] at hcs
  exact ⟨⟨cs⟩, Name.ext hcs⟩

/-- A name carries a version exactly if it is a base with that version behind it, and perhaps with
a segment behind that. -/
theorem splitVersion?_eq_some_iff {n b : Name} {v : Version} :
    n.splitVersion? = some (b, v) ↔
      n = b.append v.toComponent ∨ ∃ k, n = (b.append v.toComponent).segmentName k := by
  constructor
  · intro h
    unfold splitVersion? at h
    dsimp only at h
    split at h
    · cases h
    · next i hi =>
      obtain ⟨c, hc, w, hw, h⟩ : ∃ c, n.component? i = some c ∧ ∃ w,
          Version.ofComponent? c = some w ∧ (n.cut i, w) = (b, v) := by
        simpa [Option.bind_eq_some_iff] using h
      cases h
      obtain rfl := Version.eq_toComponent_of_ofComponent? hw
      cases hs : n.segment? with
      | none =>
        rw [hs] at hi
        exact .inl (eq_cut_append hc hi)
      | some k =>
        -- Without the segment behind it the name ends in the version.
        obtain ⟨m, rfl⟩ := eq_segmentName_of_segment? hs
        rw [hs, segmentName, length_append] at hi
        have hl : m.length = i + 1 := hi
        rw [segmentName, component?_append_of_lt (by omega)] at hc
        refine .inr ⟨k, ?_⟩
        rw [segmentName, segmentName, cut_append_of_le (by omega), ← eq_cut_append hc hl]
  · rintro (rfl | ⟨k, rfl⟩)
    · exact splitVersion?_append b v
    · exact splitVersion?_segmentName b v k

/-- The first segment of a version is named by a base, the version and the first number. -/
theorem eq_of_isVersionedFirstSegment {n : Name} (h : n.isVersionedFirstSegment = true) :
    ∃ (b : Name) (v : Version), n = (b.append v.toComponent).firstSegmentName := by
  rw [isVersionedFirstSegment, Bool.and_eq_true, beq_iff_eq, hasVersion] at h
  obtain ⟨hs, hv⟩ := h
  obtain ⟨⟨b, v⟩, hbv⟩ := Option.isSome_iff_exists.mp hv
  refine ⟨b, v, ?_⟩
  rcases splitVersion?_eq_some_iff.mp hbv with rfl | ⟨k, rfl⟩
  · simp at hs
  · rw [segment?_segmentName] at hs
    rw [firstSegmentName, Option.some.inj hs]

/-- A name with a segment behind it carries a version only if it does without. -/
theorem eq_append_of_splitVersion?_segmentName {n b : Name} {v : Version} {k : UInt64}
    (h : (n.segmentName k).splitVersion? = some (b, v)) : n = b.append v.toComponent := by
  rcases splitVersion?_eq_some_iff.mp h with hn | ⟨j, hn⟩
  · obtain ⟨-, hcomponent⟩ := append_inj hn
    have hsegment := Segment.ofComponent?_toComponent k
    rw [hcomponent, Segment.ofComponent?_version] at hsegment
    cases hsegment
  · exact (append_inj hn).1

theorem versioned?_of_splitVersion? {n b : Name} {v : Version}
    (h : n.splitVersion? = some (b, v)) : n.versioned? = some (b.append v.toComponent) := by
  rw [versioned?, h]
  rfl

/-- The name of a segment belongs to the versioned name that it extends. -/
theorem versioned?_of_segment {b n : Name} {v : Version} {d : Component}
    (h : n = (b.append v.toComponent).append d) (hn : n.segment?.isSome = true) :
    n.versioned? = some (b.append v.toComponent) := by
  obtain ⟨k, hk⟩ := Option.isSome_iff_exists.mp hn
  rw [h, segment?_append] at hk
  have hd := Segment.eq_toComponent_of_ofComponent? hk
  rw [h, hd]
  exact versioned?_segmentName b v k

/-- A name without a version is its own base. -/
theorem base_of_splitVersion?_eq_none {n : Name} (h : n.splitVersion? = none) : n.base = n := by
  rw [base, h]

theorem eq_root_of_isRoot {n : Name} (h : n.isRoot = true) : n = root :=
  Name.ext (List.isEmpty_iff.mp h)

theorem isRoot_of_isRoot_base {n : Name} (h : n.base.isRoot = false) : n.isRoot = false := by
  cases hn : n.isRoot with
  | false => rfl
  | true =>
    rw [eq_root_of_isRoot hn] at h
    cases h

/-- To a name without a version a version is appended. -/
theorem addVersion_of_splitVersion?_eq_none {n : Name} (h : n.splitVersion? = none) (v : Version) :
    n.addVersion v = n.append v.toComponent := by
  rw [addVersion, base_of_splitVersion?_eq_none h]

theorem base_of_splitVersion? {n b : Name} {v : Version} (h : n.splitVersion? = some (b, v)) :
    n.base = b := by
  rw [base, h]

theorem hasVersion_eq_false_iff {n : Name} : n.hasVersion = false ↔ n.splitVersion? = none := by
  rw [hasVersion, Option.isSome_eq_false_iff, Option.isNone_iff_eq_none]

/-- The base of a name is shorter if the name carries a version. -/
theorem length_of_splitVersion? {n b : Name} {v : Version} (h : n.splitVersion? = some (b, v)) :
    b.length < n.length := by
  rcases splitVersion?_eq_some_iff.mp h with rfl | ⟨k, rfl⟩
  · simp
  · rw [segmentName, length_append, length_append]
    omega

theorem length_base_le (n : Name) : n.base.length ≤ n.length := by
  cases h : n.splitVersion? with
  | none => exact Nat.le_of_eq (congrArg length (base_of_splitVersion?_eq_none h))
  | some split =>
    rw [base_of_splitVersion? h]
    exact Nat.le_of_lt (length_of_splitVersion? h)

/-- Only names without a version are their own bases. -/
theorem base_eq_self_iff {n : Name} : n.base = n ↔ n.hasVersion = false := by
  rw [hasVersion_eq_false_iff]
  constructor
  · intro hbase
    cases h : n.splitVersion? with
    | none => rfl
    | some split =>
      have hlength := length_of_splitVersion? h
      rw [← base_of_splitVersion? h, hbase] at hlength
      omega
  · exact base_of_splitVersion?_eq_none

/-- That remains so however often versions are stripped. -/
theorem base_base_eq_self_iff {n : Name} : n.base.base = n ↔ n.hasVersion = false := by
  constructor
  · intro hbase
    rw [hasVersion_eq_false_iff]
    cases h : n.splitVersion? with
    | none => rfl
    | some split =>
      have hlength := length_of_splitVersion? h
      have hle := length_base_le n.base
      rw [hbase, base_of_splitVersion? h] at hle
      omega
  · intro h
    rw [base_eq_self_iff.mpr h, base_eq_self_iff.mpr h]

/-! ### Later versions -/

theorem bind_ofComponent?_eq_some_iff {c : Option Component} {v : Version} :
    c.bind Version.ofComponent? = some v ↔ c = some v.toComponent := by
  constructor
  · intro h
    obtain ⟨d, rfl, hd⟩ := Option.bind_eq_some_iff.mp h
    rw [Version.eq_toComponent_of_ofComponent? hd]
  · rintro rfl
    exact Version.ofComponent?_toComponent v

/-- What is later than a known name has a version behind the known name's base, and a later one than
the known name's. -/
theorem startsWithLaterVersionOf_iff {n known : Name} :
    n.startsWithLaterVersionOf known = true ↔ known.base.isPrefixOf n = true ∧
      ∃ v : Version, n.component? known.base.length = some v.toComponent ∧
        ∀ k, known.version? = some k → k < v := by
  simp only [← bind_ofComponent?_eq_some_iff]
  unfold startsWithLaterVersionOf
  cases hs : known.splitVersion? with
  | none =>
    rw [base_of_splitVersion?_eq_none hs, version?, hs, Bool.and_eq_true]
    cases (n.component? known.length).bind Version.ofComponent? <;> simp
  | some split =>
    obtain ⟨b, k⟩ := split
    rw [base_of_splitVersion? hs, version?, hs, Bool.and_eq_true]
    cases (n.component? b.length).bind Version.ofComponent? <;> simp

theorem component?_of_startsWithLaterVersionOf {n known : Name}
    (h : n.startsWithLaterVersionOf known = true) :
    ∃ v : Version, n.component? known.base.length = some v.toComponent := by
  obtain ⟨-, v, hv, -⟩ := startsWithLaterVersionOf_iff.mp h
  exact ⟨v, hv⟩

end Name
end NamedContent
