import Mathlib.Data.Finset.Card
import NamedContent.Proofs.Network.Searching
import NamedContent.Suite.Standard

/-!
# The questions of a search

A search that may ask any number of questions goes on from turn to turn (`Asks`): it could end with
a version, without an answer, with an answer that has no component behind the name that is asked
for, or with one whose component is excluded already. Over content that does not change, a search
for more components than its name has ends in one of the first two ways, after at most one question
more than there are components behind the name, and what it finds is what was asked for
(`findVersion_completes`).
-/

namespace NamedContent
namespace Supply

section

variable [Suite] {s : Supply} {i j : Interest} {cs : List Component} {found : Option Fragment}
  {c : Component}

/-! ### What a search excludes -/

/-- A search never excludes a component twice. -/
theorem Search.nodup (h : s.Search i cs found) (hs : s.Sound) : cs.Nodup := by
  induction h with
  | found _ _ => exact List.nodup_nil
  | exhausted _ => exact List.nodup_nil
  | @sibling i _ c _ _ _ _ _ hrest ih =>
    refine List.nodup_cons.mpr ⟨fun hmem => ?_, ih⟩
    -- What is excluded later answers the next question, which excludes `c`.
    obtain ⟨g, -, haccepts, hgc⟩ := hrest.accepted_of_mem hs c hmem
    have hnot := Interest.excluding_accepts_eq_false (i := i) hgc
    cases haccepts.symm.trans hnot

/-- The components that the fragments that answer an interest have behind its name. -/
def following (s : Supply) (i : Interest) : Finset Component :=
  ((s.contents.filter i.accepts).filterMap fun f => f.name.component? i.name.length).toFinset

theorem mem_following_iff (hs : s.Sound) : c ∈ s.following i ↔
    ∃ f, s.Serves f ∧ i.accepts f = true ∧ f.name.component? i.name.length = some c := by
  simp only [following, List.mem_toFinset, List.mem_filterMap, List.mem_filter,
    mem_contents_iff hs, and_assoc]

theorem card_following_le (hs : s.Sound) (i : Interest) : (s.following i).card ≤ s.size :=
  calc (s.following i).card
      ≤ ((s.contents.filter i.accepts).filterMap fun f =>
          f.name.component? i.name.length).length := List.toFinset_card_le _
    _ ≤ (s.contents.filter i.accepts).length := List.length_filterMap_le ..
    _ ≤ s.contents.length := List.length_filter_le ..
    _ = s.size := length_contents hs

theorem Search.length_le (h : s.Search i cs found) (hs : s.Sound) :
    cs.length ≤ (s.following i).card := by
  rw [← List.toFinset_card_of_nodup (h.nodup hs)]
  refine Finset.card_le_card fun c hc => ?_
  exact (mem_following_iff hs).mpr (h.accepted_of_mem hs c (List.mem_toFinset.mp hc))

/-! ### What a search asks -/

theorem requires_excludingAll (hi : 0 < i.minSuffix.getD 0) (cs : List Component) :
    0 < (i.excludingAll cs).minSuffix.getD 0 := by
  rw [Interest.eq_excludingAll]
  exact hi

/-- Each question differs from the first by exclusions. -/
theorem eq_excludingAll_of_mem_scanl (hj : j ∈ cs.scanl Interest.excluding i) :
    ∃ past, j = i.excludingAll past := by
  induction cs generalizing i with
  | nil => exact ⟨[], List.mem_singleton.mp hj⟩
  | cons c cs ih =>
    rw [List.scanl_cons] at hj
    rcases List.mem_cons.mp hj with rfl | hj
    · exact ⟨[], rfl⟩
    · obtain ⟨past, rfl⟩ := ih hj
      exact ⟨c :: past, rfl⟩

/-- The component of an answer is excluded from all further questions, so none of them has an answer
with it. -/
theorem Search.excluded (h : s.Search i cs found) (n : Nat) (hn : i.name.length = n) :
    (cs.scanl Interest.excluding i).Pairwise fun j k => ∀ f, s.get j = .ok (some f) →
      ∃ c, f.name.component? n = some c ∧ k.exclude.excludes c = true ∧
        ∀ g, s.get k = .ok (some g) → g.name.component? n ≠ some c := by
  induction h with
  | found _ _ => exact List.pairwise_singleton ..
  | exhausted _ => exact List.pairwise_singleton ..
  | @sibling i f c cs _ hget hc _ _ ih =>
    rw [List.scanl_cons]
    refine List.pairwise_cons.mpr ⟨fun k hk f' hf' => ?_, ih hn⟩
    obtain rfl : f = f' := Option.some.inj (Except.ok.inj (hget.symm.trans hf'))
    -- Whatever a later question excluded besides, it never readmits the component of this answer.
    obtain ⟨past, rfl⟩ := eq_excludingAll_of_mem_scanl hk
    have hmem : c ∈ c :: past := List.mem_cons_self
    refine ⟨c, hn ▸ hc, Interest.excludes_excludingAll_of_mem hmem i, fun g hg hgc => ?_⟩
    have hnot := Interest.excludingAll_accepts_eq_false (f := g) (i := i) (hn ▸ hgc) hmem
    cases (accepts_of_get hg).symm.trans hnot

/-- A search over content that does not change. -/
structure Completes (s : Supply) (i : Interest) (js : List Interest) (found : Option Fragment) :
    Prop where
  asks : s.Asks i js found
  /-- There is no other way to go on. -/
  unique : ∀ js' found', s.Asks i js' found' → js' = js ∧ found' = found
  length_le : js.length ≤ (s.following i).card + 1
  /-- Each answer has a component behind the name that is asked for, which is not excluded yet. -/
  added : ∀ j ∈ js, ∀ f, s.get j = .ok (some f) →
    ∃ c, f.name.component? j.name.length = some c ∧ (j.exclude.add c).1 = true
  /-- The component of an answer is excluded from then on, and never comes back. -/
  excluded : js.Pairwise fun j k => ∀ f, s.get j = .ok (some f) →
    ∃ c, f.name.component? i.name.length = some c ∧ k.exclude.excludes c = true ∧
      ∀ g, s.get k = .ok (some g) → g.name.component? i.name.length ≠ some c
  /-- The search ends with the answer to its last question, or because there is none. -/
  last : ∃ j, js.getLast? = some j ∧ s.get j = .ok found
  accepts_found : ∀ f, found = some f → i.accepts f = true
  version_found : ∀ f, found = some f →
    ∃ v : Version, f.name.component? i.name.length = some v.toComponent

theorem Search.completes (h : s.Search i cs found) (hs : s.Sound) (hi : 0 < i.minSuffix.getD 0) :
    s.Completes i (cs.scanl Interest.excluding i) found where
  asks := h.asks
  unique _ _ h' := h.asks.unique h'
  length_le := by
    rw [List.length_scanl]
    exact Nat.succ_le_succ (h.length_le hs)
  added j hj f hget := by
    obtain ⟨past, rfl⟩ := eq_excludingAll_of_mem_scanl hj
    have haccepts := accepts_of_get hget
    obtain ⟨c, hc⟩ := Interest.exists_component_of_accepts (requires_excludingAll hi past) haccepts
    refine ⟨c, hc, ?_⟩
    show (!(i.excludingAll past).exclude.excludes c) = true
    rw [Interest.not_excludes_of_accepts haccepts hc]
    rfl
  excluded := h.excluded _ rfl
  last := ⟨i.excludingAll cs, List.getLast?_scanl, h.get_excludingAll⟩
  accepts_found f hf := by
    subst hf
    exact Interest.accepts_of_excludingAll (accepts_of_get h.get_excludingAll)
  version_found f hf := by
    subst hf
    exact h.version_of_found

/-- A search for more components than its name has comes to an end if the content does not change.
It asks at most one question more than there are components behind the name among the fragments that
answer; what was excluded never comes back, so there is always something to exclude; and what is
found is a version and an answer to the first question. -/
theorem findVersion_completes (hs : s.Sound) (hi : 0 < i.minSuffix.getD 0) :
    ∃ js found, s.Completes i js found ∧ s.findVersion i = .ok found ∧
      ∀ fuel, js.length ≤ fuel → s.findVersionIn fuel i = .ok found := by
  obtain ⟨cs, found, hsearch, -⟩ := exists_search_of_requires hs hi
  have hcompletes := hsearch.completes hs hi
  -- The bound on questions counts fragments, and there are no more components than these.
  have hfuel : (cs.scanl Interest.excluding i).length ≤ s.size + 1 :=
    hcompletes.length_le.trans (Nat.succ_le_succ (card_following_le hs i))
  exact ⟨_, found, hcompletes, hcompletes.asks.findVersionIn_eq hfuel,
    fun fuel => hcompletes.asks.findVersionIn_eq⟩

end

/-! ### Several fragments behind one component -/

/-- A fragment with a name of some components. -/
def named (components : List Component) : Fragment where
  name := ⟨components⟩
  info := ⟨⟨.replicate 32 0⟩, 0, .data, none, .key ⟨.replicate 32 0⟩, none⟩
  content := []
  signature := ⟨.replicate 64 0⟩

/-- Five fragments below the root, with three components right behind it, of which the last is a
version. -/
def crowd : Supply :=
  (Supply.publish {} [named [.ofText "a", .ofText "x"], named [.ofText "a", .ofText "y"],
    named [.ofText "b"], named [Version.toComponent ⟨3⟩, .ofText "x"],
    named [Version.toComponent ⟨3⟩, .ofText "y"]]).2

theorem sound_crowd : crowd.Sound := (publish_grows (sound_new {}) _).1

theorem findVersion_completes_crowd :
    crowd.Sound ∧ 0 < (some 1).getD 0 ∧
    ∃ js, crowd.Completes { name := .root, minSuffix := some 1 } js
        (some (named [Version.toComponent ⟨3⟩, .ofText "x"])) ∧ js.length ≤ 4 := by
  let i : Interest := { name := .root, minSuffix := some 1 }
  have hi : 0 < i.minSuffix.getD 0 := by decide
  have hfound : crowd.findVersion i =
        .ok (some (named [Version.toComponent ⟨3⟩, .ofText "x"])) := by
    decide +kernel
  have hcard : (crowd.following i).card = 3 := by decide +kernel
  obtain ⟨js, found, hcompletes, hfind, -⟩ := findVersion_completes sound_crowd hi
  obtain rfl := Except.ok.inj (hfound.symm.trans hfind)
  have hlength := hcompletes.length_le
  rw [hcard] at hlength
  exact ⟨sound_crowd, hi, js, hcompletes, hlength⟩

end Supply
end NamedContent
