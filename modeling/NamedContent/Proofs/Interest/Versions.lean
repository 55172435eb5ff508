import Mathlib.Data.List.Basic
import NamedContent.Interest.Versions
import NamedContent.Proofs.Interest.Exclusion
import NamedContent.Proofs.Interest.Selection
import NamedContent.Proofs.Name.Profile

/-!
# What answers a query for versions

The query for later versions asks below the base of the known name, and goes on doing so while it
excludes more and more components (`Seeks`). An answer with a version behind that base is of a later
version than the known name's (`Seeks.startsWithLaterVersionOf_iff`).
-/

namespace NamedContent

namespace Interest

/-! ### The query for later versions -/

theorem nextVersion_eq_of_split {n b : Name} {v : Version} (h : n.splitVersion? = some (b, v))
    (p : Option Publisher) :
    nextVersion n p =
      { name := b, exclude := .through v.toComponent, publisher := p, selector := .leftmost
        minSuffix := some versionSuffix, maxSuffix := some versionSuffix } := by
  rw [nextVersion, h]

theorem nextVersion_eq_of_unversioned {n : Name} (h : n.splitVersion? = none)
    (p : Option Publisher) :
    nextVersion n p =
      { name := n, exclude := .none, publisher := p, selector := .leftmost
        minSuffix := some versionSuffix, maxSuffix := some versionSuffix } := by
  rw [nextVersion, h]

@[simp] theorem name_nextVersion (n : Name) (p : Option Publisher) :
    (nextVersion n p).name = n.base := by
  cases h : n.splitVersion? with
  | none => rw [nextVersion_eq_of_unversioned h, Name.base_of_splitVersion?_eq_none h]
  | some split => rw [nextVersion_eq_of_split h, Name.base_of_splitVersion? h]

/-- The interest wants two more components than its name. -/
structure Deep (i : Interest) : Prop where
  min_eq : i.minSuffix = some versionSuffix
  max_eq : i.maxSuffix = some versionSuffix

theorem deep_nextVersion (n : Name) (p : Option Publisher) : (nextVersion n p).Deep := ⟨rfl, rfl⟩

theorem deep_latestVersion (n : Name) (p : Option Publisher) : (latestVersion n p).Deep :=
  ⟨rfl, rfl⟩

/-- An answer that carries a version behind the name that is asked for. -/
theorem versionedNameOf?_eq {i : Interest} {v : Version} {d : Component} {n : Name}
    (h : n = (i.name.append v.toComponent).append d) :
    i.versionedNameOf? n = some (i.name.append v.toComponent) := by
  have hcut : ((i.name.append v.toComponent).append d).cut i.cutPoint =
      i.name.append v.toComponent := by
    have hpoint : i.cutPoint = (i.name.append v.toComponent).length :=
      (Name.length_append i.name v.toComponent).symm
    rw [hpoint, Name.cut_append_of_le (Nat.le_refl _), Name.cut_length]
  unfold versionedNameOf?
  rw [Name.component?_of_eq h]
  simp [Version.isComponent, h, hcut]

variable [Suite]

/-- As it is armed, the query excludes the versions that are not later than the known one. -/
theorem excludes_nextVersion_eq_false_iff {known : Name} {p : Option Publisher} {v : Version} :
    (nextVersion known p).exclude.excludes v.toComponent = false ↔
      ∀ k, known.version? = some k → k < v := by
  rw [Name.version?]
  cases h : known.splitVersion? with
  | none =>
    rw [nextVersion_eq_of_unversioned h]
    simp [Exclude.excludes, Exclude.none]
  | some split =>
    rw [nextVersion_eq_of_split h]
    simp [Exclude.excludes, Exclude.through, Version.compare_toComponent_eq_gt_iff]

/-- The component after the name that is asked for is not excluded. -/
theorem not_excludes_of_accepts {i : Interest} {f : Fragment} (h : i.accepts f = true)
    {c : Component} (hc : f.name.component? i.name.length = some c) :
    i.exclude.excludes c = false := by
  simp only [accepts, admits, Bool.and_eq_true, hc, Option.all_some, Bool.not_eq_true'] at h
  exact h.2

/-- What answers an interest that requires more components than its name has them. -/
theorem exists_component_of_accepts {i : Interest} (hi : 0 < i.minSuffix.getD 0) {f : Fragment}
    (h : i.accepts f = true) : ∃ c, f.name.component? i.name.length = some c := by
  obtain ⟨least, hleast⟩ : ∃ least, i.minSuffix = some least :=
    Option.ne_none_iff_exists'.mp fun hnone => by
      rw [hnone] at hi
      exact Nat.lt_irrefl 0 hi
  rw [hleast, Option.getD_some] at hi
  simp only [accepts, admits, hleast, Option.all_some, Bool.and_eq_true, decide_eq_true_eq] at h
  have hlt : i.name.length < f.name.components.length := by
    have hsuffix : least ≤ f.name.components.length - i.name.length := h.1.1.2
    omega
  exact ⟨_, List.getElem?_eq_getElem hlt⟩

omit [Suite] in
theorem Deep.requires {i : Interest} (h : i.Deep) : 0 < i.minSuffix.getD 0 := by
  rw [h.min_eq]
  decide

/-- A query for two more components matches what has them, if it is of the wanted publisher and the
first of the two is not excluded. -/
theorem Deep.admits_iff {i : Interest} (h : i.Deep) {n : Name} {p : Publisher} :
    i.admits n p = true ↔ ∃ c d, n = (i.name.append c).append d ∧
      i.publisher.all (· == p) = true ∧ i.exclude.excludes c = false := by
  constructor
  · intro ha
    simp only [admits, h.min_eq, h.max_eq, versionSuffix, Option.all_some, Bool.and_eq_true,
      decide_eq_true_eq, and_assoc] at ha
    obtain ⟨hpre, hp, hlow, hhigh, hnext⟩ := ha
    have hlen : n.length = i.name.length + 2 := by omega
    obtain ⟨c, d, hn⟩ := Name.exists_append_append_iff.mpr ⟨hpre, hlen⟩
    rw [Name.component?_of_eq hn] at hnext
    exact ⟨c, d, hn, hp, by simpa using hnext⟩
  · rintro ⟨c, d, hn, hp, hc⟩
    obtain ⟨hpre, hlen⟩ := Name.exists_append_append_iff.mp ⟨c, d, hn⟩
    have hdepth : n.length - i.name.length = 2 := by omega
    simp [admits, h.min_eq, h.max_eq, versionSuffix, hpre, hp, hdepth, Name.component?_of_eq hn, hc]

/-- The two components of an answer behind the name that is asked for. -/
theorem Deep.name_eq {i : Interest} (h : i.Deep) {f : Fragment}
    (hf : i.accepts f = true) :
    ∃ c d, f.name = (i.name.append c).append d ∧ f.name.component? i.name.length = some c := by
  obtain ⟨c, d, hname, -, -⟩ := h.admits_iff.mp hf
  exact ⟨c, d, hname, Name.component?_of_eq hname⟩

/-- The first segments that answer a query for two more components are of versions right below the
name that is asked for. -/
theorem Deep.eq_of_firstSegment {i : Interest} (h : i.Deep) {f : Fragment}
    (ha : i.accepts f = true) (hf : f.name.isVersionedFirstSegment = true) :
    ∃ v : Version, f.name = (i.name.append v.toComponent).firstSegmentName := by
  obtain ⟨b, v, hb⟩ := Name.eq_of_isVersionedFirstSegment hf
  obtain ⟨c, d, hname, -⟩ := h.name_eq ha
  obtain ⟨hversion, -⟩ := Name.append_inj (hname.symm.trans hb)
  obtain ⟨hbase, -⟩ := Name.append_inj hversion
  exact ⟨v, by rw [hbase]; exact hb⟩

/-- Whatever has two more components is an answer if it is of the wanted publisher, and the first of
the two is not excluded. -/
theorem Deep.accepts_iff {i : Interest} (h : i.Deep) {f : Fragment} {c d : Component}
    (hname : f.name = (i.name.append c).append d) :
    i.accepts f = true ↔
      i.publisher.all (· == f.publisher) = true ∧ i.exclude.excludes c = false := by
  refine h.admits_iff.trans ⟨?_, fun hcond => ⟨c, d, hname, hcond⟩⟩
  rintro ⟨c', d', hname', hcond⟩
  obtain ⟨hversion, -⟩ := Name.append_inj (hname'.symm.trans hname)
  obtain ⟨-, rfl⟩ := Name.append_inj hversion
  exact hcond

theorem Deep.accepts_of_name {i : Interest} (h : i.Deep) (hp : i.publisher = none) {f : Fragment}
    {c d : Component} (hname : f.name = (i.name.append c).append d)
    (hc : i.exclude.excludes c = false) : i.accepts f = true :=
  (h.accepts_iff hname).mpr ⟨by rw [hp, Option.all_none], hc⟩

/-! ### Queries that exclude more and more -/

omit [Suite] in
/-- The query for the versions after a name, perhaps with more components excluded. -/
structure Seeks (i : Interest) (known : Name) : Prop where
  eq_nextVersion : i = { nextVersion known with exclude := i.exclude }
  bound_eq : i.exclude.bound = (nextVersion known).exclude.bound

omit [Suite] in
theorem seeks_nextVersion (known : Name) : (nextVersion known).Seeks known := ⟨rfl, rfl⟩

namespace Seeks

variable {i : Interest} {known : Name} {f : Fragment}

omit [Suite] in
theorem name_eq (h : i.Seeks known) : i.name = known.base := by
  rw [h.eq_nextVersion]
  exact name_nextVersion known none

omit [Suite] in
theorem deep (h : i.Seeks known) : i.Deep := by
  rw [h.eq_nextVersion]
  exact ⟨rfl, rfl⟩

theorem excluding (h : i.Seeks known) (c : Component) : (i.excluding c).Seeks known where
  eq_nextVersion := by
    show { i with exclude := i.exclude.insert c } = _
    rw [h.eq_nextVersion]
    rfl
  bound_eq := by
    show (i.exclude.insert c).bound = _
    rw [Exclude.bound_insert, h.bound_eq]

theorem excludingAll (h : i.Seeks known) (cs : List Component) :
    (i.excludingAll cs).Seeks known := by
  induction cs generalizing i with
  | nil => exact h
  | cons c cs ih => exact ih (h.excluding c)

/-- A version that is not excluded is later than the known name's. -/
theorem lt_of_not_excludes (h : i.Seeks known) {v k : Version}
    (hv : i.exclude.excludes v.toComponent = false) (hk : known.version? = some k) : k < v := by
  obtain ⟨⟨b, k'⟩, hsplit, rfl⟩ := Option.map_eq_some_iff.mp hk
  have hbound : i.exclude.bound = some k'.toComponent := by
    rw [h.bound_eq, nextVersion_eq_of_split hsplit]
    rfl
  rw [Exclude.excludes, Bool.or_eq_false_iff, Bool.or_eq_false_iff, hbound] at hv
  simpa [Version.compare_toComponent_eq_gt_iff] using hv.1.1

/-- An answer is of a later version if there is any version behind the base of the known name. -/
theorem startsWithLaterVersionOf_iff (h : i.Seeks known) (hf : i.accepts f = true) :
    f.name.startsWithLaterVersionOf known = true ↔
      ∃ v : Version, f.name.component? i.name.length = some v.toComponent := by
  rw [Name.startsWithLaterVersionOf_iff, ← h.name_eq]
  constructor
  · rintro ⟨-, v, hv, -⟩
    exact ⟨v, hv⟩
  · rintro ⟨v, hv⟩
    have hex := not_excludes_of_accepts hf hv
    exact ⟨prefix_of_accepts hf, v, hv, fun k hk => h.lt_of_not_excludes hex hk⟩

end Seeks

/-- A first segment that answers the query for the versions after a name is of a later version. -/
theorem startsWithLaterVersionOf_of_accepts {n : Name} {f : Fragment}
    (h : (nextVersion n).accepts f = true) (hf : f.name.isVersionedFirstSegment = true) :
    f.name.startsWithLaterVersionOf n = true := by
  obtain ⟨v, hv⟩ := (deep_nextVersion n none).eq_of_firstSegment h hf
  refine ((seeks_nextVersion n).startsWithLaterVersionOf_iff h).mpr ⟨v, ?_⟩
  exact Name.component?_of_eq hv

end Interest
end NamedContent
