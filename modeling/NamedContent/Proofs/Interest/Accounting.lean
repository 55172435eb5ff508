import NamedContent.Proofs.Interest.Spilling

/-!
# What an exclusion filter accounts for

Components are added one after the other to a filter that has at most a bound at first. Those that
were new to it are what it accounts for: it lists them, or they are in the Bloom filter, into which
the list is emptied as soon as it is longer than a hundred (`Accounts`). So the size of the filter
is the number of new components, no listed one is found in the Bloom filter, and without a Bloom
filter nothing is excluded but what the bound excludes and what was added (`accounted_addAll`).
-/

namespace NamedContent

variable [Suite]

namespace Bloom

theorem count_foldl_insert (cs : List Component) (b : Bloom) :
    (cs.foldl insert b).count = b.count + cs.length := by
  induction cs generalizing b with
  | nil => rfl
  | cons c cs ih =>
    rw [List.foldl_cons, ih, List.length_cons]
    show b.count + 1 + cs.length = _
    omega

end Bloom

namespace Exclude

variable {e : Exclude} {bound : Option Component} {c d : Component} {cs new : List Component}

/-! ### Adding -/

/-- A filter to which nothing was added, with or without a bound. -/
def ofBound : Option Component → Exclude
  | some b => .through b
  | Option.none => .none

/-- Add components one after the other. The answers say which of them were new. -/
def addAll (e : Exclude) : List Component → List Bool × Exclude
  | [] => ([], e)
  | c :: cs => ((e.add c).1 :: (addAll (e.add c).2 cs).1, (addAll (e.add c).2 cs).2)

theorem add_of_excludes (h : e.excludes c = true) : e.add c = (false, e) := by
  rw [add, h, insert_of_excludes h]
  rfl

theorem add_of_not_excludes (h : e.excludes c = false) : e.add c = (true, e.insert c) := by
  rw [add, h]
  rfl

theorem addAll_append (e : Exclude) (cs ds : List Component) :
    (e.addAll (cs ++ ds)).2 = ((e.addAll cs).2.addAll ds).2 := by
  induction cs generalizing e with
  | nil => rfl
  | cons c cs ih => exact ih (e.add c).2

/-- It is the filter of an interest that excludes these components. -/
theorem exclude_excludingAll (i : Interest) (cs : List Component) :
    (i.excludingAll cs).exclude = (i.exclude.addAll cs).2 := by
  induction cs generalizing i with
  | nil => rfl
  | cons c cs ih => exact ih (i.excluding c)

theorem excludes_addAll (h : e.excludes d = true) (cs : List Component) :
    (e.addAll cs).2.excludes d = true := by
  let i : Interest := { name := .root, exclude := e }
  have hkept := Interest.excludes_excludingAll (i := i) h cs
  rw [exclude_excludingAll] at hkept
  exact hkept

theorem excludes_addAll_of_mem (h : d ∈ cs) (e : Exclude) : (e.addAll cs).2.excludes d = true := by
  have hin := Interest.excludes_excludingAll_of_mem h { name := .root, exclude := e }
  rw [exclude_excludingAll] at hin
  exact hin

/-! ### Accounting -/

omit [Suite] in
/-- A component that is inserted into a list in canonical order is put in its place. -/
theorem pairwise_insertSorted (h : cs.Pairwise fun a b => compare a b = .lt) (hc : c ∉ cs) :
    (insertSorted c cs).Pairwise fun a b => compare a b = .lt := by
  induction cs with
  | nil => exact List.pairwise_singleton _ _
  | cons b cs ih =>
    obtain ⟨hb, hcs⟩ := List.pairwise_cons.mp h
    obtain ⟨hcb, hccs⟩ := not_or.mp (mt List.mem_cons.mpr hc)
    unfold insertSorted
    split
    · next hlt =>
      refine List.pairwise_cons.mpr ⟨fun x hx => ?_, h⟩
      rcases List.mem_cons.mp hx with rfl | hx
      · exact hlt
      · exact Std.TransCmp.lt_trans hlt (hb x hx)
    · next hnot =>
      have hbc : compare b c = .lt := by
        cases hcompare : compare c b with
        | lt => exact absurd hcompare hnot
        | eq => exact absurd (Std.LawfulEqOrd.eq_of_compare hcompare) hcb
        | gt => exact Std.OrientedCmp.lt_of_gt hcompare
      refine List.pairwise_cons.mpr ⟨fun x hx => ?_, ih hcs hccs⟩
      rcases mem_insertSorted_iff.mp hx with rfl | hx
      · exact hbc
      · exact hb x hx

omit [Suite] in
theorem perm_insertSorted (c : Component) (cs : List Component) :
    (insertSorted c cs).Perm (c :: cs) := by
  induction cs with
  | nil => exact .refl _
  | cons b cs ih =>
    unfold insertSorted
    split
    · exact .refl _
    · exact (ih.cons b).trans (.swap c b cs)

/-- A filter with a bound that accounts for components, each of which was new when it was added:
some were moved into the Bloom filter, and the others are listed. -/
structure Accounts (e : Exclude) (bound : Option Component) (new : List Component) : Prop where
  bound_eq : e.bound = bound
  exists_moved : ∃ moved, (moved ++ e.explicit).Perm new ∧
    e.bloom = if moved = [] then .none else some (moved.foldl Bloom.insert .empty)
  ascending : e.explicit.Pairwise fun a b => compare a b = .lt
  length_le : e.explicit.length ≤ maxExplicit
  suspects_eq_false : ∀ c ∈ e.explicit, e.suspects c = false

theorem accounts_ofBound (bound : Option Component) : (ofBound bound).Accounts bound [] := by
  cases bound <;> exact ⟨rfl, ⟨[], .refl _, rfl⟩, .nil, Nat.zero_le _, nofun⟩

namespace Accounts

/-- A new component is listed, or the list is emptied into the Bloom filter with it. -/
theorem insert (h : e.Accounts bound new) (hc : e.excludes c = false) :
    (e.insert c).Accounts bound (new ++ [c]) := by
  obtain ⟨moved, hperm, hbloom⟩ := h.exists_moved
  obtain ⟨hlisted, hsuspects⟩ : c ∉ e.explicit ∧ e.suspects c = false := by
    constructor
    · intro hmem
      rw [excludes_iff.mpr (.inr (.inl hmem))] at hc
      cases hc
    · exact Bool.eq_false_iff.mpr fun hs => Bool.eq_false_iff.mp hc (excludes_of_suspects hs)
  -- The new component is listed first, whether or not the list is emptied into the Bloom filter.
  have hperm' : (moved ++ insertSorted c e.explicit).Perm (new ++ [c]) := by
    refine ((perm_insertSorted c e.explicit).append_left moved).trans ?_
    exact List.perm_middle.trans ((hperm.cons c).trans (List.perm_append_singleton c new).symm)
  have hascending := pairwise_insertSorted h.ascending hlisted
  unfold Exclude.insert
  rw [if_neg (Bool.eq_false_iff.mp hc)]
  dsimp only
  split
  · refine ⟨h.bound_eq, ⟨moved ++ insertSorted c e.explicit, ?_, ?_⟩, .nil, Nat.zero_le _, nofun⟩
    · rw [show (spill { e with explicit := insertSorted c e.explicit }).explicit = [] from rfl,
        List.append_nil]
      exact hperm'
    · -- The components that are moved now join those that were moved before.
      have hmany : moved ++ insertSorted c e.explicit ≠ [] := fun hnil => by
        have hlength := hperm'.length_eq
        rw [hnil] at hlength
        simp at hlength
      have hfold : e.bloom.getD .empty = moved.foldl Bloom.insert .empty := by
        rw [hbloom]
        split
        · next hnil =>
          rw [hnil]
          rfl
        · rfl
      rw [if_neg hmany, List.foldl_append, ← hfold]
      rfl
  · next hroom =>
    refine ⟨h.bound_eq, ⟨moved, hperm', hbloom⟩, hascending, Nat.le_of_not_lt hroom, fun d hd => ?_⟩
    rcases mem_insertSorted_iff.mp hd with rfl | hd
    · exact hsuspects
    · exact h.suspects_eq_false d hd

/-- Adding accounts for the components that were new. -/
theorem addAll (h : e.Accounts bound new) (cs : List Component) :
    ∃ more, more.length = (e.addAll cs).1.count true ∧ more ⊆ cs ∧
      (e.addAll cs).2.Accounts bound (new ++ more) := by
  induction cs generalizing e new with
  | nil =>
    refine ⟨[], rfl, List.nil_subset _, ?_⟩
    rw [List.append_nil]
    exact h
  | cons c cs ih =>
    rw [Exclude.addAll]
    cases hc : e.excludes c with
    | true =>
      rw [add_of_excludes hc]
      obtain ⟨more, hlength, hsub, haccounts⟩ := ih h
      exact ⟨more, by simpa using hlength, List.subset_cons_of_subset c hsub, haccounts⟩
    | false =>
      rw [add_of_not_excludes hc]
      obtain ⟨more, hlength, hsub, haccounts⟩ := ih (h.insert hc)
      refine ⟨c :: more, by simpa using hlength, List.cons_subset_cons c hsub, ?_⟩
      rw [List.append_assoc, List.singleton_append] at haccounts
      exact haccounts

theorem size_eq (h : e.Accounts bound new) : e.size = new.length := by
  obtain ⟨moved, hperm, hbloom⟩ := h.exists_moved
  have hcount : (e.bloom.map Bloom.count).getD 0 = moved.length := by
    rw [hbloom]
    split
    · next hnil =>
      rw [hnil]
      rfl
    · show (moved.foldl Bloom.insert .empty).count = moved.length
      rw [Bloom.count_foldl_insert]
      exact Nat.zero_add _
  rw [size, hcount, ← hperm.length_eq, List.length_append]
  omega

/-- Without a Bloom filter all that was new is listed. -/
theorem excludes_iff_of_bloom (h : e.Accounts bound new) (hbloom : e.bloom = .none) :
    e.excludes c = true ↔ (∃ b, bound = some b ∧ (compare c b).isLE = true) ∨ c ∈ new := by
  obtain ⟨moved, hperm, hmoved⟩ := h.exists_moved
  have hnil : moved = [] := by
    by_contra hne
    rw [hbloom, if_neg hne] at hmoved
    cases hmoved
  rw [hnil, List.nil_append] at hperm
  have hno : ¬ ∃ b, e.bloom = some b ∧ b.contains c = true := by
    rintro ⟨b, hb, -⟩
    rw [hbloom] at hb
    cases hb
  rw [excludes_iff, h.bound_eq, hperm.mem_iff, or_iff_left hno]

end Accounts

/-! ### The laws of adding -/

/-- Components were added, one after the other, to a filter with at most a bound. Adding one more
answers that it is not new exactly if it is excluded already, and then changes nothing. What was
added is excluded, and so is what was excluded at any point. The size is the number of answers that
a component was new. At most a hundred components are listed, in canonical order, and none that the
Bloom filter finds. While there is none, excluded is exactly what does not come after the bound, or
was added. -/
theorem accounted_addAll (bound : Option Component) (cs : List Component) :
    let e := ((ofBound bound).addAll cs).2
    (∀ c, ((e.add c).1 = false ↔ e.excludes c = true) ∧ ((e.add c).1 = false → (e.add c).2 = e)) ∧
    (∀ c ∈ cs, e.excludes c = true) ∧
    (∀ k c, ((ofBound bound).addAll (cs.take k)).2.excludes c = true → e.excludes c = true) ∧
    e.size = ((ofBound bound).addAll cs).1.count true ∧
    e.explicit.length ≤ maxExplicit ∧ e.explicit.Pairwise (fun a b => compare a b = .lt) ∧
    (∀ c ∈ e.explicit, ∀ b, e.bloom = some b → b.contains c = false) ∧
    (e.bloom = .none → ∀ c, e.excludes c = true ↔
      (∃ b, bound = some b ∧ (compare c b).isLE = true) ∨ c ∈ cs) := by
  intro e
  obtain ⟨new, hlength, hsub, haccounts⟩ := (accounts_ofBound bound).addAll cs
  rw [List.nil_append] at haccounts
  refine ⟨fun c => ?_, fun c hc => excludes_addAll_of_mem hc _, fun k c hc => ?_,
    haccounts.size_eq.trans hlength, haccounts.length_le, haccounts.ascending,
    fun c hc b hb => ?_, fun hbloom c => ?_⟩
  · cases hc : e.excludes c with
    | true => simp [add_of_excludes hc]
    | false => simp [add_of_not_excludes hc]
  · have hlater := excludes_addAll hc (cs.drop k)
    rw [← addAll_append, List.take_append_drop] at hlater
    exact hlater
  · have hnot := haccounts.suspects_eq_false c hc
    rw [suspects, hb] at hnot
    exact hnot
  · refine ⟨fun h => ?_, fun h => ?_⟩
    · exact ((haccounts.excludes_iff_of_bloom hbloom).mp h).imp_right fun hc => hsub hc
    · rcases h with hle | hc
      · exact (haccounts.excludes_iff_of_bloom hbloom).mpr (.inl hle)
      · exact excludes_addAll_of_mem hc _

end Exclude
end NamedContent
