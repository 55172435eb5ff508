import NamedContent.Proofs.Interest.Versions

/-!
# Asking for later versions and recognising them

The names of later versions can be told in two ways. The query for the versions after a known name
compares components, in canonical order, with the bound that it excludes; `startsWithLaterVersionOf`
reads the versions and compares those. On names that have a version behind the base of the known
name, the two agree as far as the names have exactly two more components than that base, because
both then mean the same names (`LaterVersion`). The query cuts out the versioned name that a segment
belongs to (`nextVersion_recognises`).
-/

namespace NamedContent

namespace Name

/-- The name has two more components than the base of a known one, and the first of the two is the
version `v`, which is later than the known one's. -/
def LaterVersion (n known : Name) (v : Version) : Prop :=
  (∃ d, n = (known.base.append v.toComponent).append d) ∧ ∀ k, known.version? = some k → k < v

/-- The classifier, on names of the right length. -/
theorem exists_laterVersion_iff {n known : Name} :
    (∃ v, n.LaterVersion known v) ↔
      n.startsWithLaterVersionOf known = true ∧ n.length = known.base.length + 2 := by
  rw [startsWithLaterVersionOf_iff]
  constructor
  · rintro ⟨v, ⟨d, hn⟩, hlater⟩
    obtain ⟨hpre, hlen⟩ := exists_append_append_iff.mp ⟨_, _, hn⟩
    exact ⟨⟨hpre, v, component?_of_eq hn, hlater⟩, hlen⟩
  · rintro ⟨⟨hpre, v, hv, hlater⟩, hlen⟩
    obtain ⟨c, d, hn⟩ := exists_append_append_iff.mpr ⟨hpre, hlen⟩
    rw [component?_of_eq hn, Option.some_inj] at hv
    rw [hv] at hn
    exact ⟨v, ⟨d, hn⟩, hlater⟩

end Name

namespace Interest

variable [Suite]

/-- The query, on names with a version behind the base. -/
theorem exists_laterVersion_iff_admits {known n : Name} {p : Publisher} :
    (∃ v, n.LaterVersion known v) ↔ (nextVersion known).admits n p = true ∧
      (n.component? known.base.length).any Version.isComponent = true := by
  have hname := name_nextVersion known none
  rw [(deep_nextVersion known none).admits_iff, hname]
  constructor
  · rintro ⟨v, ⟨d, hn⟩, hlater⟩
    refine ⟨⟨_, d, hn, rfl, excludes_nextVersion_eq_false_iff.mpr hlater⟩, ?_⟩
    simp [Name.component?_of_eq hn, Version.isComponent]
  · rintro ⟨⟨c, d, hn, -, hc⟩, hversion⟩
    rw [Name.component?_of_eq hn, Option.any_some] at hversion
    obtain ⟨v, hv⟩ := Option.isSome_iff_exists.mp hversion
    rw [Version.eq_toComponent_of_ofComponent? hv] at hn hc
    exact ⟨v, ⟨d, hn⟩, excludes_nextVersion_eq_false_iff.mp hc⟩

/-- The query for the versions after a known name matches a name with a version behind the base of
the known name exactly if the name starts with a later version and has two more components than the
base. Then the query cuts out the base with that version behind it; if the name ends in a segment,
that is the versioned name which the segment belongs to. -/
theorem nextVersion_recognises (known n : Name) (p : Publisher) :
    ((nextVersion known).admits n p = true ∧
        (n.component? known.base.length).any Version.isComponent = true ↔
      n.startsWithLaterVersionOf known = true ∧ n.length = known.base.length + 2) ∧
    (n.startsWithLaterVersionOf known = true ∧ n.length = known.base.length + 2 →
      ∃ v, (n.component? known.base.length).bind Version.ofComponent? = some v ∧
        (nextVersion known).versionedNameOf? n = some (known.base.append v.toComponent) ∧
        (n.segment?.isSome = true →
          (nextVersion known).versionedNameOf? n = n.versioned?)) := by
  refine ⟨exists_laterVersion_iff_admits.symm.trans Name.exists_laterVersion_iff, fun h => ?_⟩
  obtain ⟨v, ⟨d, hn⟩, -⟩ := Name.exists_laterVersion_iff.mpr h
  have hcut : (nextVersion known).versionedNameOf? n = some (known.base.append v.toComponent) := by
    rw [← name_nextVersion known none] at hn ⊢
    exact versionedNameOf?_eq hn
  refine ⟨v, Name.bind_ofComponent?_eq_some_iff.mpr (Name.component?_of_eq hn), hcut, ?_⟩
  intro hsegment
  rw [hcut, Name.versioned?_of_segment hn hsegment]

end Interest
end NamedContent
