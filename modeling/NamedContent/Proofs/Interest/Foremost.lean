import NamedContent.Proofs.Interest.Preference
import NamedContent.Proofs.Interest.Versions
import NamedContent.Suite.Standard

/-!
# The foremost version

Interests compare components byte by byte, and the names of segments carry numbers. On segments of
versions below one base the two queries for versions nevertheless go by number (`select_foremost`):
the one for the next version selects the lowest segment of the earliest version that is later than a
known one, and the one for the latest version the lowest segment of the latest version.
-/

namespace NamedContent

/-- The fragment is named as segment `k` of version `v` below a base. -/
def Fragment.IsSegment (f : Fragment) (b : Name) (v : Version) (k : UInt64) : Prop :=
  f.name = (b.append v.toComponent).segmentName k

/-- A segment is of a later version than a known name exactly if the known name has no version or an
earlier one. -/
theorem Name.isLaterVersion_segmentName_iff {b known : Name} {v : Version} {k : UInt64} :
    ((b.append v.toComponent).segmentName k).isLaterVersion known = true ↔
      ∀ u, known.version? = some u → u < v := by
  have hv := version?_segmentName b v k
  unfold isLaterVersion
  rw [hv]
  cases known.version? <;> simp

namespace Interest

/-- What is found in a list of segments, where `before` says which versions come first: the first
fragment in the list that is named as the lowest segment there of the foremost version there. -/
structure Foremost (before : Version → Version → Prop) (b : Name) (fs : List Fragment)
    (found : Option Fragment) : Prop where
  eq_none_iff : found = none ↔ fs = []
  lowest : ∀ f, found = some f → ∃ v k, f.IsSegment b v k ∧
    ∀ g ∈ fs, ∀ w j, g.IsSegment b w j → before v w ∨ v = w ∧ k ≤ j
  first : ∀ f, found = some f → fs.find? (fun g => g.name == f.name) = some f

section

/-! ### The best segment -/

variable {i : Interest} {b known : Name} {fs : List Fragment} {f : Fragment} {v : Version}
  {k : UInt64}

theorem foremost_best {before : Version → Version → Prop}
    (hfs : ∀ f ∈ fs, ∃ v k, f.IsSegment b v k)
    (hbefore : ∀ {f g : Fragment} {v w : Version} {c d : Component},
      f.name = (b.append v.toComponent).append c → g.name = (b.append w.toComponent).append d →
      i.prefers g f = false → before v w ∨ v = w ∧ (compare c d).isLE = true) :
    Foremost before b fs (i.best fs) where
  eq_none_iff := best_eq_none_iff
  lowest f hf := by
    obtain ⟨v, k, hname⟩ := hfs f (mem_of_best hf)
    refine ⟨v, k, hname, fun g hg w j hgname => ?_⟩
    rcases hbefore hname hgname (prefers_best_eq_false hf hg) with hlt | ⟨heq, hle⟩
    · exact .inl hlt
    · exact .inr ⟨heq, Segment.isLE_compare_toComponent_iff.mp hle⟩
  first f hf := find?_of_best hf

theorem foremost_of_leftmost (hleft : i.selector = .leftmost)
    (hfs : ∀ f ∈ fs, ∃ v k, f.IsSegment b v k) : Foremost (· < ·) b fs (i.best fs) :=
  foremost_best hfs fun hf hg h => leftmost_cases hleft hf hg h

theorem foremost_of_rightmost (hright : i.selector = .rightmost) (hname : i.name = b)
    (hfs : ∀ f ∈ fs, ∃ v k, f.IsSegment b v k) : Foremost (· > ·) b fs (i.best fs) := by
  subst hname
  refine foremost_best hfs fun hf hg h => ?_
  exact (rightmost_cases hright hf hg h).imp_right fun ⟨heq, hle⟩ => ⟨heq.symm, hle⟩

/-! ### What the queries accept -/

variable [Suite]

/-- Of segments below its base the query for the next version accepts the later ones, of the wanted
publisher. -/
theorem accepts_nextVersion_eq (hknown : known.base = b) (p : Option Publisher)
    (hf : f.IsSegment b v k) : (nextVersion known p).accepts f =
      (p.all (· == f.publisher) && f.name.isLaterVersion known) := by
  have hname : f.name = ((nextVersion known p).name.append v.toComponent).append
      (Segment.toComponent k) := by
    rw [name_nextVersion, hknown]
    exact hf
  have hlater : f.name.isLaterVersion known = true ↔
      (nextVersion known p).exclude.excludes v.toComponent = false := by
    rw [hf, Name.isLaterVersion_segmentName_iff, excludes_nextVersion_eq_false_iff]
  have hpublisher : (nextVersion known p).publisher = p := by
    unfold nextVersion
    rfl
  rw [Bool.eq_iff_iff, (deep_nextVersion known p).accepts_iff hname, Bool.and_eq_true, hlater,
    hpublisher]

/-- The query for the latest version accepts all segments below its base, of the wanted
publisher. -/
theorem accepts_latestVersion_eq (hknown : known.base = b) (p : Option Publisher)
    (hf : f.IsSegment b v k) :
    (latestVersion known p).accepts f = p.all (· == f.publisher) := by
  have hname : f.name = ((latestVersion known p).name.append v.toComponent).append
      (Segment.toComponent k) := by
    show f.name = (known.base.append v.toComponent).append (Segment.toComponent k)
    rw [hknown]
    exact hf
  rw [Bool.eq_iff_iff, (deep_latestVersion known p).accepts_iff hname]
  exact and_iff_left rfl

/-- The two queries for versions go by number. For a name that is a base without a version, or names
a version of the base, they select from segments of versions of that base, of the wanted publisher:
the first finds the lowest segment present of the earliest version later than the known one, and
nothing if there is none; the second the lowest segment present of the latest version. -/
theorem select_foremost (hknown : known.base = b) (p : Option Publisher)
    (hfs : ∀ f ∈ fs, ∃ v k, f.IsSegment b v k) :
    Foremost (· < ·) b
      (fs.filter fun f => p.all (· == f.publisher) && f.name.isLaterVersion known)
      ((nextVersion known p).select fs) ∧
    Foremost (· > ·) b (fs.filter fun f => p.all (· == f.publisher))
      ((latestVersion known p).select fs) := by
  constructor
  · have hfilter : fs.filter (nextVersion known p).accepts =
        fs.filter fun f => p.all (· == f.publisher) && f.name.isLaterVersion known := by
      refine List.filter_congr fun f hf => ?_
      obtain ⟨v, k, hname⟩ := hfs f hf
      exact accepts_nextVersion_eq hknown p hname
    rw [select, hfilter]
    exact foremost_of_leftmost rfl fun f hf => hfs f (List.mem_of_mem_filter hf)
  · have hfilter : fs.filter (latestVersion known p).accepts =
        fs.filter fun f => p.all (· == f.publisher) := by
      refine List.filter_congr fun f hf => ?_
      obtain ⟨v, k, hname⟩ := hfs f hf
      exact accepts_latestVersion_eq hknown p hname
    rw [select, hfilter]
    exact foremost_of_rightmost rfl hknown fun f hf => hfs f (List.mem_of_mem_filter hf)

end

/-! ### Numbers of different lengths -/

/-- A fragment that is named as a segment, of a publisher given by one byte. -/
def numbered (ticks segment : UInt64) (publisher : UInt8) : Fragment where
  name := ((Name.append ⟨[.ofText "n"]⟩ (Version.toComponent ⟨ticks⟩)).segmentName segment)
  info := ⟨⟨.replicate 32 publisher⟩, 0, .data, none, .key ⟨.replicate 32 0⟩, none⟩
  content := []
  signature := ⟨.replicate 64 0⟩

/-- Segments of two publishers whose numbers have one, two and three bytes. -/
def shuffled : List Fragment :=
  [numbered 65536 256 1, numbered 256 256 1, numbered 65536 255 1, numbered 255 0 1,
    numbered 256 255 2, numbered 65536 255 2]

theorem select_foremost_shuffled :
    (Name.append ⟨[.ofText "n"]⟩ (Version.toComponent ⟨255⟩)).base = ⟨[.ofText "n"]⟩ ∧
      (∀ f ∈ shuffled, ∃ v k, f.IsSegment ⟨[.ofText "n"]⟩ v k) ∧
      Foremost (· < ·) ⟨[.ofText "n"]⟩
        [numbered 65536 256 1, numbered 256 256 1, numbered 65536 255 1]
        (some (numbered 256 256 1)) ∧
      Foremost (· > ·) ⟨[.ofText "n"]⟩ shuffled (some (numbered 65536 255 1)) := by
  have hknown : (Name.append ⟨[.ofText "n"]⟩ (Version.toComponent ⟨255⟩)).base =
      ⟨[.ofText "n"]⟩ := by decide
  have hsegments : ∀ f ∈ shuffled, ∃ v k, f.IsSegment ⟨[.ofText "n"]⟩ v k := by
    simp only [shuffled, List.forall_mem_cons]
    exact ⟨⟨_, _, rfl⟩, ⟨_, _, rfl⟩, ⟨_, _, rfl⟩, ⟨_, _, rfl⟩, ⟨_, _, rfl⟩, ⟨_, _, rfl⟩, nofun⟩
  have hnext := (select_foremost hknown (some ⟨.replicate 32 1⟩) hsegments).1
  have hlatest := (select_foremost hknown none hsegments).2
  exact ⟨hknown, hsegments, hnext, hlatest⟩

end Interest

end NamedContent
