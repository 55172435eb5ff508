import NamedContent.Network.Reader
import NamedContent.Proofs.Interest.Selection
import NamedContent.Proofs.Outcome

/-!
# What a lookup returns

Whatever a supply finds for an interest satisfies it. The search for a version only ever asks with
more exclusions, so what it returns satisfies the interest that it started from in everything else;
in particular a publisher that was asked for is the publisher of what is found. The segments of a
version are looked up one after the other, and each one is verified (`Collection.readNext_cases`).
-/

namespace NamedContent
namespace Supply

variable [Suite]

theorem accepts_of_find {s : Supply} {i : Interest} {f : Fragment} (h : s.find i = .ok (some f)) :
    i.accepts f = true := by
  obtain ⟨stored, _, h⟩ := ok_of_bind h
  exact (Interest.select_eq_some (Except.ok.inj h)).2

theorem find_of_get {s : Supply} {i : Interest} {found : Option Fragment}
    (h : s.get i = .ok found) : s.find i = .ok found := by
  unfold get at h
  cases hf : s.find i with
  | error e => rw [hf] at h; cases h
  | ok g => rw [hf] at h; cases h; rfl

theorem get_of_find {s : Supply} {i : Interest} {found : Option Fragment}
    (h : s.find i = .ok found) : s.get i = .ok found := by
  rw [get, h]
  rfl

theorem accepts_of_get {s : Supply} {i : Interest} {f : Fragment} (h : s.get i = .ok (some f)) :
    i.accepts f = true :=
  accepts_of_find (find_of_get h)

/-! ### Searching for a version -/

/-- What one question of a search leads to. -/
theorem findVersionIn_succ {s : Supply} {fuel : Nat} {i : Interest} {f : Fragment}
    (h : s.findVersionIn (fuel + 1) i = .ok (some f)) :
    s.get i = .ok (some f) ∧ (i.versionedNameOf? f.name).isSome = true ∨
    ∃ c, s.findVersionIn fuel (i.excluding c) = .ok (some f) := by
  obtain ⟨found, hget, h⟩ := ok_of_bind h
  cases found with
  | none => cases h
  | some g =>
    dsimp only at h
    split at h
    · next hv =>
      cases h
      exact .inl ⟨hget, hv⟩
    · split at h
      · cases h
      · next c _ =>
        split at h
        · cases h
        · exact .inr ⟨c, h⟩

/-- A search returns the answer to a question that differs from the first one by exclusions only. -/
theorem get_of_findVersionIn {s : Supply} {fuel : Nat} {i : Interest} {f : Fragment}
    (h : s.findVersionIn fuel i = .ok (some f)) :
    ∃ e, s.get { i with exclude := e } = .ok (some f) ∧
      ({ i with exclude := e }.versionedNameOf? f.name).isSome = true := by
  induction fuel generalizing i with
  | zero => cases h
  | succ fuel ih =>
    rcases findVersionIn_succ h with ⟨hget, hv⟩ | ⟨c, hc⟩
    · exact ⟨i.exclude, hget, hv⟩
    · obtain ⟨e, he⟩ := ih hc
      exact ⟨e, he⟩

/-- How often a supply has changed plays no part in what is found. -/
theorem findVersion_of_changes (s : Supply) (changes : Nat) (i : Interest) :
    { s with changes }.findVersion i = s.findVersion i := by
  unfold findVersion
  show findVersionIn { s with changes } (s.size + 1) i = _
  generalize s.size + 1 = fuel
  induction fuel generalizing i with
  | zero => rfl
  | succ fuel ih =>
    unfold findVersionIn
    simp only [ih]
    rfl

theorem openVersioned?_of_changes (s : Supply) (changes : Nat) (n : Name)
    (p : Option Publisher) : { s with changes }.openVersioned? n p = s.openVersioned? n p := by
  unfold openVersioned?
  rw [findVersion_of_changes]
  rfl

/-! ### Opening names -/

/-- A name that carries a version is opened by the first segment of the version. -/
theorem openVersioned?_of_versioned {s : Supply} {n versioned : Name} {p : Option Publisher}
    (hn : n.versioned? = some versioned) :
    s.openVersioned? n p = s.get (.firstSegment versioned p) := by
  have hsplit : n.hasVersion = true := by
    obtain ⟨split, hsplit, _⟩ := Option.map_eq_some_iff.mp hn
    rw [Name.hasVersion, hsplit]
    rfl
  rw [openVersioned?, if_pos hsplit, opening, hn]

/-- Any other name is opened by a search for its latest version. -/
theorem openVersioned?_of_unversioned {s : Supply} {n : Name} {p : Option Publisher}
    (hn : n.versioned? = none) : s.openVersioned? n p = s.findVersion (.latestVersion n p) := by
  have hsplit : n.hasVersion = false := by
    rw [Name.hasVersion, Option.map_eq_none_iff.mp hn]
    rfl
  rw [openVersioned?, hsplit, opening, hn]
  rfl

/-- The publisher that a name is opened for is the publisher of what is found. -/
theorem publisher_of_openVersioned? {s : Supply} {n : Name} {p : Publisher} {f : Fragment}
    (h : s.openVersioned? n (some p) = .ok (some f)) : f.publisher = p := by
  cases hn : n.versioned? with
  | some versioned =>
    rw [openVersioned?_of_versioned hn] at h
    exact Interest.publisher_of_accepts (accepts_of_get h) rfl
  | none =>
    rw [openVersioned?_of_unversioned hn] at h
    obtain ⟨e, hget, _⟩ := get_of_findVersionIn h
    exact Interest.publisher_of_accepts (accepts_of_get hget) rfl

end Supply

/-! ### Collecting segments -/

namespace Collection

variable [Suite] {s : Supply} {keys : KeyRing} {count : Nat} {c d : Collection} {f : Fragment}

/-- Reading stops at a segment that is not there, or goes on behind one that is found and
verified. -/
theorem readNext_cases (h : readNext s keys (count + 1) c = .ok d) :
    d = c ∧ s.get c.interest = .ok none ∨
      ∃ f, s.get c.interest = .ok (some f) ∧ s.verify keys f = .ok () ∧
        readNext s keys count (c.add f) = .ok d := by
  obtain ⟨found, hget, h⟩ := ok_of_bind h
  cases found with
  | none =>
    cases h
    exact .inl ⟨rfl, hget⟩
  | some f =>
    obtain ⟨_, hverified, h⟩ := ok_of_bind h
    exact .inr ⟨f, hget, hverified, h⟩

/-- A collection starts with a first segment that is verified. It is complete at once, or the
version has further segments. -/
theorem start_cases (h : start s keys f = .ok c) :
    s.verify keys f = .ok () ∧ f.segment? = some Segment.first ∧
      ((f.isGone = true ∨ f.info.final.getD Segment.first = Segment.first) ∧
          c = { first := f, versioned := f.name, final := 0 } ∨
        f.isGone = false ∧ ∃ versioned, f.name.versioned? = some versioned ∧
          c = { first := f, versioned, final := (f.info.final.getD Segment.first).toNat }) := by
  obtain ⟨_, hverified, h⟩ := ok_of_bind h
  simp only [bind, Except.bind] at h
  split at h
  · cases h
  · next hsegment =>
    refine ⟨hverified, by simpa using hsegment, ?_⟩
    split at h
    · next hone =>
      cases h
      exact .inl ⟨hone, rfl⟩
    · next hmore =>
      split at h
      · cases h
      · next versioned hversioned =>
        cases h
        exact .inr ⟨Bool.eq_false_iff.mpr fun hg => hmore (.inl hg), versioned, hversioned, rfl⟩

end Collection

end NamedContent
