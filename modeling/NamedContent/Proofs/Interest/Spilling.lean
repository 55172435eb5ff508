import Mathlib.Data.Finset.Card
import NamedContent.Proofs.Interest.Versions

/-!
# What an exclusion filter hides besides what was added

The components that are added to a filter are excluded from then on. Once more than a hundred of
them were added they are in a Bloom filter, and a component that was never added may be found there
too: the filter suspects it. That is all that is hidden by mistake (`excludes_excludingAll_iff`),
and there is no Bloom filter while not more than a hundred different components were added
(`bloom_excludingAll_eq_none`).
-/

namespace NamedContent

variable [Suite]

/-- A component of which all bits are set by components that are found is found too. -/
theorem Bloom.contains_of_covered {b : Bloom} {d : Component}
    (h : ∀ i ∈ positions d, ∃ c, b.contains c = true ∧ i ∈ positions c) : b.contains d = true := by
  rw [contains, List.all_eq_true]
  intro i hi
  obtain ⟨c, hc, hic⟩ := h i hi
  rw [contains, List.all_eq_true] at hc
  exact hc i hic

namespace Exclude

variable {e : Exclude} {c d : Component} {cs : List Component}

/-- Whether the Bloom filter finds a component, which need not have been added. -/
def suspects (e : Exclude) (c : Component) : Bool := e.bloom.any (·.contains c)

omit [Suite] in
theorem suspects_of_bloom [Suite] (h : e.bloom = .none) (c : Component) : e.suspects c = false := by
  rw [suspects, h]
  rfl

theorem excludes_of_suspects (h : e.suspects c = true) : e.excludes c = true := by
  rw [excludes]
  exact Bool.or_eq_true_iff.mpr (.inr h)

theorem suspects_insert (h : e.suspects d = true) (c : Component) :
    (e.insert c).suspects d = true := by
  rcases insert_cases e c with ⟨-, hinsert⟩ | ⟨listed, rfl, hinsert | hinsert⟩
  · rw [hinsert]
    exact h
  · rw [hinsert]
    exact h
  · obtain ⟨b, hb, hd⟩ := (Option.any_eq_true _ _).mp h
    rw [hinsert]
    show Bloom.contains (List.foldl Bloom.insert (e.bloom.getD .empty) _) d = true
    rw [hb]
    exact Bloom.contains_foldl_insert hd _

/-- Adding a component excludes another one only by way of the Bloom filter. -/
theorem excludes_insert_iff (hd : d ≠ c) :
    (e.insert c).excludes d = true ↔ e.excludes d = true ∨ (e.insert c).suspects d = true := by
  refine ⟨fun h => ?_, fun h => h.elim (fun h => excludes_insert h c) excludes_of_suspects⟩
  rcases excludes_iff.mp h with ⟨b, hb, hle⟩ | hlisted | hbloom
  · rw [bound_insert] at hb
    exact .inl (excludes_iff.mpr (.inl ⟨b, hb, hle⟩))
  · rcases insert_cases e c with ⟨-, hinsert⟩ | ⟨listed, rfl, hinsert | hinsert⟩
    · rw [hinsert] at hlisted
      exact .inl (excludes_iff.mpr (.inr (.inl hlisted)))
    · rw [hinsert] at hlisted
      rcases mem_insertSorted_iff.mp hlisted with hdc | hlisted
      · exact absurd hdc hd
      · exact .inl (excludes_iff.mpr (.inr (.inl hlisted)))
    · rw [hinsert] at hlisted
      cases hlisted
  · exact .inr ((Option.any_eq_true _ _).mpr hbloom)

omit [Suite] in
@[simp] theorem length_insertSorted (c : Component) (cs : List Component) :
    (insertSorted c cs).length = cs.length + 1 := by
  induction cs with
  | nil => rfl
  | cons d cs ih =>
    unfold insertSorted
    split
    · rfl
    · rw [List.length_cons, ih, List.length_cons]

/-- How many components are listed once some were added, if all of them are kept as they are. -/
def load (e : Exclude) (cs : List Component) : Nat :=
  e.explicit.length + (cs.toFinset \ e.explicit.toFinset).card

omit [Suite] in
theorem load_le (e : Exclude) (cs : List Component) :
    e.load cs ≤ e.explicit.length + cs.length := by
  have hcard : (cs.toFinset \ e.explicit.toFinset).card ≤ cs.length :=
    (Finset.card_le_card Finset.sdiff_subset).trans (List.toFinset_card_le cs)
  unfold load
  omega

omit [Suite] in
theorem load_tail_le (e : Exclude) (c : Component) (cs : List Component) :
    e.load cs ≤ e.load (c :: cs) := by
  have hsub : cs.toFinset ⊆ (c :: cs).toFinset := by
    rw [List.toFinset_cons]
    exact Finset.subset_insert c _
  exact Nat.add_le_add_left (Finset.card_le_card (Finset.sdiff_subset_sdiff hsub subset_rfl)) _

omit [Suite] in
/-- Listing a new component counts it. -/
theorem load_listed (hc : c ∉ e.explicit) (cs : List Component) :
    { e with explicit := insertSorted c e.explicit }.load cs = e.load (c :: cs) := by
  have hset : (insertSorted c e.explicit).toFinset = Insert.insert c e.explicit.toFinset := by
    ext d
    rw [List.mem_toFinset, mem_insertSorted_iff, Finset.mem_insert, List.mem_toFinset]
  have hnew : c ∈ (c :: cs).toFinset \ e.explicit.toFinset := by
    rw [Finset.mem_sdiff, List.mem_toFinset, List.mem_toFinset]
    exact ⟨List.mem_cons_self, hc⟩
  have herase : ((c :: cs).toFinset \ e.explicit.toFinset).erase c =
      cs.toFinset \ Insert.insert c e.explicit.toFinset := by
    rw [List.toFinset_cons]
    grind
  have hcard := Finset.card_erase_add_one hnew
  rw [herase] at hcard
  unfold load
  rw [length_insertSorted, hset]
  omega

/-- While not more than a hundred components are listed, a component that is added is listed. -/
theorem bloom_insert_eq_none (hbloom : e.bloom = .none) (hload : e.load (c :: cs) ≤ maxExplicit) :
    (e.insert c).bloom = .none ∧ (e.insert c).load cs ≤ maxExplicit := by
  unfold insert
  split
  · exact ⟨hbloom, (e.load_tail_le c cs).trans hload⟩
  · next hc =>
    have hnew : c ∉ e.explicit := fun hmem => hc (excludes_iff.mpr (.inr (.inl hmem)))
    rw [← load_listed hnew cs] at hload
    have hroom : (insertSorted c e.explicit).length ≤ maxExplicit := by
      refine le_trans ?_ hload
      exact Nat.le_add_right _ _
    dsimp only
    rw [if_neg (Nat.not_lt.mpr hroom)]
    exact ⟨hbloom, hload⟩

end Exclude

namespace Interest

variable {i : Interest} {c d : Component} {cs : List Component}

theorem suspects_excludingAll (h : i.exclude.suspects d = true) (cs : List Component) :
    (i.excludingAll cs).exclude.suspects d = true := by
  induction cs generalizing i with
  | nil => exact h
  | cons c cs ih => exact ih (i := i.excluding c) (Exclude.suspects_insert h c)

/-- Excluding components hides another one only by way of the Bloom filter. -/
theorem excludes_excludingAll_iff (hd : d ∉ cs) :
    (i.excludingAll cs).exclude.excludes d = true ↔
      i.exclude.excludes d = true ∨ (i.excludingAll cs).exclude.suspects d = true := by
  induction cs generalizing i with
  | nil => exact ⟨.inl, fun h => h.elim id Exclude.excludes_of_suspects⟩
  | cons c cs ih =>
    obtain ⟨hdc, hds⟩ := not_or.mp (mt List.mem_cons.mpr hd)
    have hrest := ih (i := i.excluding c) hds
    have hone : (i.excluding c).exclude.excludes d = true ↔
        i.exclude.excludes d = true ∨ (i.excluding c).exclude.suspects d = true :=
      Exclude.excludes_insert_iff hdc
    change ((i.excluding c).excludingAll cs).exclude.excludes d = true ↔
      i.exclude.excludes d = true ∨ ((i.excluding c).excludingAll cs).exclude.suspects d = true
    rw [hrest, hone, or_assoc]
    exact or_congr_right (or_iff_right_of_imp fun h => suspects_excludingAll h cs)

@[simp] theorem bound_excludingAll (i : Interest) (cs : List Component) :
    (i.excludingAll cs).exclude.bound = i.exclude.bound := by
  induction cs generalizing i with
  | nil => rfl
  | cons c cs ih => exact (ih (i.excluding c)).trans (Exclude.bound_insert i.exclude c)

/-- Up to a hundred components are kept as they are. -/
theorem bloom_excludingAll_eq_none (hbloom : i.exclude.bloom = none)
    (hload : i.exclude.load cs ≤ Exclude.maxExplicit) :
    (i.excludingAll cs).exclude.bloom = none := by
  induction cs generalizing i with
  | nil => exact hbloom
  | cons c cs ih =>
    obtain ⟨hone, hrest⟩ := Exclude.bloom_insert_eq_none hbloom hload
    exact ih (i := i.excluding c) hone hrest

/-- One more than a hundred different components, and all of them are in the Bloom filter. -/
theorem explicit_excludingAll_eq_nil (hbloom : i.exclude.bloom = none)
    (hnew : ∀ d ∈ cs, i.exclude.excludes d = false) (hcs : (cs ++ [c]).Nodup)
    (hc : i.exclude.excludes c = false) (hlength : cs.length = Exclude.maxExplicit)
    (hlisted : i.exclude.explicit = []) : (i.excludingAll (cs ++ [c])).exclude.explicit = [] := by
  have hload : i.exclude.load cs ≤ Exclude.maxExplicit := by
    have h := i.exclude.load_le cs
    rw [hlisted] at h
    simpa [hlength] using h
  have hroom := bloom_excludingAll_eq_none hbloom hload
  have hbound : (i.excludingAll cs).exclude.bound = i.exclude.bound := bound_excludingAll i cs
  obtain ⟨hnodup, hfresh⟩ : cs.Nodup ∧ c ∉ cs := by
    rw [List.nodup_append] at hcs
    exact ⟨hcs.1, fun hmem => hcs.2.2 c hmem c (List.mem_singleton_self c) rfl⟩
  -- All hundred are listed, because nothing else excludes them.
  have hfull : cs ⊆ (i.excludingAll cs).exclude.explicit := by
    intro d hd
    rcases Exclude.excludes_iff.mp (excludes_excludingAll_of_mem hd i) with
      ⟨b, hb, hle⟩ | hmem | ⟨b, hb, -⟩
    · rw [hbound] at hb
      have hex := hnew d hd
      rw [Exclude.excludes_iff.mpr (.inl ⟨b, hb, hle⟩)] at hex
      cases hex
    · exact hmem
    · rw [hroom] at hb
      cases hb
  have hmany := (hnodup.subperm hfull).length_le
  have hnot : ¬ (i.excludingAll cs).exclude.excludes c = true := by
    rw [excludes_excludingAll_iff hfresh, hc, Exclude.suspects_of_bloom hroom c]
    simp
  rw [excludingAll, List.foldl_append]
  show ((i.excludingAll cs).exclude.insert c).explicit = []
  unfold Exclude.insert
  rw [if_neg hnot]
  dsimp only
  rw [if_pos (by rw [Exclude.length_insertSorted]; omega)]
  rfl

/-- A component is suspected then if all its bits are those of excluded ones. -/
theorem suspects_of_covered (hbound : i.exclude.bound = none)
    (hspilled : (i.excludingAll cs).exclude.explicit = [])
    (hd : ∀ p ∈ Bloom.positions d, ∃ c ∈ cs, p ∈ Bloom.positions c) :
    (i.excludingAll cs).exclude.suspects d = true := by
  have hin : ∀ c ∈ cs, ∃ b, (i.excludingAll cs).exclude.bloom = some b ∧ b.contains c = true := by
    intro c hc
    rcases Exclude.excludes_iff.mp (excludes_excludingAll_of_mem hc i) with
      ⟨b, hb, -⟩ | hmem | hbloom
    · rw [bound_excludingAll, hbound] at hb
      cases hb
    · rw [hspilled] at hmem
      cases hmem
    · exact hbloom
  have hpositions : 0 < (Bloom.positions d).length := by
    rw [Bloom.positions, List.length_map, List.length_range]
    omega
  obtain ⟨p, hp⟩ := List.exists_mem_of_length_pos hpositions
  obtain ⟨c, hc, -⟩ := hd p hp
  obtain ⟨b, hb, -⟩ := hin c hc
  rw [Exclude.suspects, hb]
  refine Bloom.contains_of_covered fun p hp => ?_
  obtain ⟨c, hc, hpc⟩ := hd p hp
  obtain ⟨b', hb', hc'⟩ := hin c hc
  rw [hb] at hb'
  cases hb'
  exact ⟨c, hc', hpc⟩

/-- An interest that excludes one more component matches nothing else. -/
theorem accepts_of_excluding {f : Fragment} (h : (i.excluding c).accepts f = true) :
    i.accepts f = true := by
  simp only [accepts, admits, Bool.and_eq_true, excluding] at h ⊢
  refine ⟨h.1, ?_⟩
  cases hd : f.name.component? i.name.length with
  | none => rfl
  | some d =>
    have hnew := h.2
    rw [hd, Option.all_some, Bool.not_eq_true'] at hnew
    rw [Option.all_some, Bool.not_eq_true', Bool.eq_false_iff]
    intro hex
    rw [Exclude.excludes_insert hex c] at hnew
    cases hnew

theorem accepts_of_excludingAll {f : Fragment} (h : (i.excludingAll cs).accepts f = true) :
    i.accepts f = true := by
  induction cs generalizing i with
  | nil => exact h
  | cons c cs ih => exact accepts_of_excluding (ih (i := i.excluding c) h)

theorem excluding_accepts_eq_false {f : Fragment} (hc : f.name.component? i.name.length = some c) :
    (i.excluding c).accepts f = false := by
  rw [Bool.eq_false_iff]
  intro h
  have hex := not_excludes_of_accepts h hc
  rw [show (i.excluding c).exclude = i.exclude.insert c from rfl,
    Exclude.excludes_insert_self] at hex
  cases hex

/-- Nothing is matched of which the component behind the name was excluded. -/
theorem excludingAll_accepts_eq_false {f : Fragment}
    (hc : f.name.component? i.name.length = some c) (hcs : c ∈ cs) :
    (i.excludingAll cs).accepts f = false := by
  rw [Bool.eq_false_iff]
  intro h
  have hname : (i.excludingAll cs).name = i.name := by rw [i.eq_excludingAll cs]
  have hnot := not_excludes_of_accepts h (by rw [hname]; exact hc)
  rw [excludes_excludingAll_of_mem hcs] at hnot
  cases hnot

/-- An interest without the component of an answer is another one. -/
theorem excluding_ne_of_accepts {f : Fragment} (h : i.accepts f = true)
    (hc : f.name.component? i.name.length = some c) : i.excluding c ≠ i := by
  intro heq
  rw [← heq, excluding_accepts_eq_false hc] at h
  cases h

/-- What an interest still asks for after components were excluded: what it asked for, unless the
component behind its name was excluded or is suspected. -/
theorem accepts_excludingAll_iff {f : Fragment} (hd : f.name.component? i.name.length = some d)
    (hcs : d ∉ cs) : (i.excludingAll cs).accepts f = true ↔
      i.accepts f = true ∧ (i.excludingAll cs).exclude.suspects d = false := by
  have hex := excludes_excludingAll_iff (i := i) hcs
  rw [i.eq_excludingAll cs]
  simp only [accepts, admits, hd, Option.all_some, Bool.and_eq_true, Bool.not_eq_true', and_assoc]
  rw [← Bool.not_eq_true (Exclude.excludes _ d), hex, not_or, Bool.not_eq_true, Bool.not_eq_true]

end Interest
end NamedContent
