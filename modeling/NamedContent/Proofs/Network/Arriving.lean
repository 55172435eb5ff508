import Mathlib.Data.List.Count
import NamedContent.Proofs.Network.Latest

/-!
# Fragments that arrive one by one

What a supply serves can be listed (`mem_contents_iff`), in as many entries as the supply counts
(`length_contents`). So only so many fragments match an interest, and fewer match a narrower one
(`matching_lt`). A fragment that is published is served besides what was served before, unless its
name holds a different one (`serves_publish_iff`).
-/

namespace NamedContent

variable [Suite] {f g : Fragment}

/-! ### The fragments of a store -/

namespace Store

theorem Keeps.length_eq {s : Store} {fs : List Fragment} (h : s.Keeps fs) : fs.length = s.size := by
  cases h with
  | memory _ => exact List.length_map ..
  | @table t _ rows_eq _ _ =>
    show fs.length = t.rows.length
    rw [rows_eq, List.length_map]

theorem Sound.length_fragments {s : Store} (h : s.Sound) : s.fragments.length = s.size := by
  obtain ⟨fs, hk⟩ := h
  rw [hk.fragments_eq, hk.length_eq]

end Store

namespace Supply

variable {s s' : Supply} {i j : Interest}

/-! ### How much is served -/

theorem length_contents (h : s.Sound) : s.contents.length = s.size := by
  unfold contents size
  rw [List.length_append, List.length_flatMap]
  have hdirect : s.direct.values.length = s.direct.size := List.length_map ..
  rw [hdirect]
  generalize s.direct.size = n
  induction s.attached generalizing n with
  | nil => rfl
  | cons id ids ih =>
    rw [List.map_cons, List.sum_cons, (h.store id).length_fragments, List.foldl_cons, ← ih]
    omega

/-! ### How much matches an interest -/

/-- How many of the served fragments satisfy an interest. -/
def matching (s : Supply) (i : Interest) : Nat := s.contents.countP i.accepts

theorem matching_le (h : s.Sound) (i : Interest) : s.matching i ≤ s.size := by
  rw [← length_contents h]
  exact List.countP_le_length

/-- An interest that misses some of what another one matches, and matches nothing else, matches
less. -/
theorem matching_lt (h : s.Sound)
    (hsub : ∀ g, s.Serves g → j.accepts g = true → i.accepts g = true) (hf : s.Serves f)
    (hi : i.accepts f = true) (hj : j.accepts f = false) : s.matching j < s.matching i := by
  have hnarrow : s.matching j = (s.contents.filter i.accepts).countP j.accepts := by
    rw [List.countP_filter]
    refine List.countP_congr fun g hg => ?_
    have hboth := hsub g ((mem_contents_iff h).mp hg)
    simp only [Bool.and_eq_true, iff_self_and]
    exact hboth
  unfold matching at hnarrow ⊢
  rw [hnarrow, List.countP_eq_length_filter (p := i.accepts), List.countP_lt_length_iff]
  exact ⟨f, List.mem_filter.mpr ⟨(mem_contents_iff h).mpr hf, hi⟩, hj⟩

/-! ### Publishing -/

omit [Suite] in
/-- Publishing what is there already changes nothing, and anything else counts as a change. -/
theorem publish_cases (s : Supply) (fs : List Fragment) :
    (s.publish fs).2 = s ∨ (s.publish fs).2.changes = s.changes + 1 := by
  unfold publish
  dsimp only
  split
  · exact .inl rfl
  · exact .inr rfl

/-- A fragment that is published is served, and so is what was served before. -/
theorem serves_publish_iff (h : s.Sound)
    (hagree : ∀ g, s.Serves g → g.name = f.name → g = f) :
    (s.publish [f]).2.Serves g ↔ s.Serves g ∨ g = f := by
  obtain ⟨hsound, hgrows, hdirect⟩ := publish_grows h [f]
  constructor
  · rintro ⟨src, hsrc, hg⟩
    obtain ⟨c, hc⟩ := s.publish_eq [f]
    rw [hc] at hsrc
    rcases List.mem_cons.mp hsrc with rfl | hstore
    · rw [hdirect] at hg
      rcases Option.or_eq_some_iff.mp hg with hold | ⟨_, hnew⟩
      · exact .inl ⟨.direct, List.mem_cons_self, hold⟩
      · exact .inr (List.mem_singleton.mp (List.mem_of_find?_eq_some hnew))
    · obtain ⟨id, hid, rfl⟩ := List.mem_map.mp hstore
      rw [hc] at hg
      exact .inl ⟨.store id, List.mem_cons_of_mem _ (List.mem_map_of_mem hid), hg⟩
  · rintro (⟨src, hsrc, hg⟩ | rfl)
    · exact ⟨src, hgrows.sources src hsrc, hgrows.holds src _ g hg⟩
    · refine ⟨.direct, List.mem_cons_self, ?_⟩
      rw [hdirect]
      cases hold : s.holds? .direct g.name with
      | none => simp
      | some other =>
        have hname := h.name_of_holds? hold
        rw [← hname] at hold
        rw [hagree other ⟨.direct, List.mem_cons_self, hold⟩ hname]
        rfl

end Supply
end NamedContent
