import NamedContent.Interest.Basic

/-!
# What an exclusion filter keeps excluded

A filter never forgets. A component that was added stays excluded (`excludes_insert_self`), and so
does whatever else was excluded before (`excludes_insert`), also when the added components move into
a Bloom filter. An interest that excludes more components asks for the same otherwise.
-/

namespace NamedContent

variable [Suite]

namespace Bloom

omit [Suite] in
theorem getLsbD_foldl_twoPow (ps : List Nat) (bits : BitVec 1024) (j : Nat) :
    (ps.foldl (fun bits i => bits ||| BitVec.twoPow 1024 i) bits).getLsbD j =
      (bits.getLsbD j || decide (j < 1024 ∧ j ∈ ps)) := by
  induction ps generalizing bits with
  | nil => simp
  | cons i ps ih =>
    rw [List.foldl_cons, ih, BitVec.getLsbD_or, BitVec.getLsbD_twoPow, Bool.or_assoc]
    congr 1
    rw [Bool.eq_iff_iff]
    simp only [Bool.or_eq_true, Bool.and_eq_true, decide_eq_true_eq, List.mem_cons]
    grind

theorem lt_of_mem_positions {c : Component} {i : Nat} (h : i ∈ positions c) : i < 1024 := by
  obtain ⟨_, -, rfl⟩ := List.mem_map.mp h
  exact Nat.mod_lt _ (by decide)

@[simp] theorem contains_insert_self (b : Bloom) (c : Component) :
    (b.insert c).contains c = true := by
  rw [contains, List.all_eq_true]
  intro i hi
  show (BitVec.getLsbD (List.foldl _ b.bits (positions c)) i) = true
  rw [getLsbD_foldl_twoPow, Bool.or_eq_true, decide_eq_true_eq]
  exact .inr ⟨lt_of_mem_positions hi, hi⟩

theorem contains_insert {b : Bloom} {d : Component} (h : b.contains d = true) (c : Component) :
    (b.insert c).contains d = true := by
  rw [contains, List.all_eq_true] at h ⊢
  intro i hi
  show (BitVec.getLsbD (List.foldl _ b.bits (positions c)) i) = true
  rw [getLsbD_foldl_twoPow, h i hi, Bool.true_or]

theorem contains_foldl_insert {b : Bloom} {d : Component} (h : b.contains d = true)
    (cs : List Component) : (cs.foldl insert b).contains d = true := by
  induction cs generalizing b with
  | nil => exact h
  | cons c cs ih => exact ih (contains_insert h c)

theorem contains_foldl_insert_of_mem {cs : List Component} {d : Component} (h : d ∈ cs)
    (b : Bloom) : (cs.foldl insert b).contains d = true := by
  obtain ⟨front, back, rfl⟩ := List.append_of_mem h
  rw [List.foldl_append, List.foldl_cons]
  exact contains_foldl_insert (contains_insert_self _ d) back

end Bloom

namespace Exclude

variable {e : Exclude} {c d : Component}

omit [Suite] in
@[simp] theorem mem_insertSorted_iff {cs : List Component} :
    d ∈ insertSorted c cs ↔ d = c ∨ d ∈ cs := by
  induction cs with
  | nil => simp [insertSorted]
  | cons b cs ih =>
    unfold insertSorted
    split
    · exact List.mem_cons
    · rw [List.mem_cons, ih, List.mem_cons, or_left_comm]

theorem excludes_iff : e.excludes d = true ↔
    (∃ b, e.bound = some b ∧ (compare d b).isLE = true) ∨ d ∈ e.explicit ∨
      ∃ b, e.bloom = some b ∧ b.contains d = true := by
  simp only [excludes, Bool.or_eq_true, Option.any_eq_true, List.contains_iff_mem, or_assoc]

/-- The Bloom filter takes up all that was listed. -/
theorem excludes_spill (h : e.excludes d = true) : e.spill.excludes d = true := by
  rw [excludes_iff] at h ⊢
  rcases h with hbound | hlisted | ⟨b, hb, hd⟩
  · exact .inl hbound
  · exact .inr (.inr ⟨_, rfl, Bloom.contains_foldl_insert_of_mem hlisted _⟩)
  · refine .inr (.inr ⟨_, rfl, Bloom.contains_foldl_insert ?_ e.explicit⟩)
    rw [hb]
    exact hd

/-- Adding a component keeps the filter as it is, lists the component, or moves what is then listed
into the Bloom filter. -/
theorem insert_cases (e : Exclude) (c : Component) :
    (e.excludes c = true ∧ e.insert c = e) ∨
    ∃ listed, listed = { e with explicit := insertSorted c e.explicit } ∧
      (e.insert c = listed ∨ e.insert c = listed.spill) := by
  unfold insert
  split
  · next h => exact .inl ⟨h, rfl⟩
  · dsimp only
    split
    · exact .inr ⟨_, rfl, .inr rfl⟩
    · exact .inr ⟨_, rfl, .inl rfl⟩

/-- A component that is excluded already need not be added. -/
theorem insert_of_excludes (h : e.excludes c = true) : e.insert c = e := if_pos h

theorem excludes_insert_of_or (h : e.excludes d = true ∨ d = c) :
    (e.insert c).excludes d = true := by
  rcases insert_cases e c with ⟨hc, hinsert⟩ | ⟨listed, hlisted, hinsert⟩
  · rw [hinsert]
    rcases h with hd | rfl
    · exact hd
    · exact hc
  · have hd : listed.excludes d = true := by
      rw [hlisted, excludes_iff]
      rcases h with hd | rfl
      · exact (excludes_iff.mp hd).imp_right
          (.imp_left fun hd => mem_insertSorted_iff.mpr (.inr hd))
      · exact .inr (.inl (mem_insertSorted_iff.mpr (.inl rfl)))
    rcases hinsert with hinsert | hinsert
    · rw [hinsert]
      exact hd
    · rw [hinsert]
      exact excludes_spill hd

@[simp] theorem excludes_insert_self (e : Exclude) (c : Component) :
    (e.insert c).excludes c = true :=
  excludes_insert_of_or (.inr rfl)

theorem excludes_insert (h : e.excludes d = true) (c : Component) :
    (e.insert c).excludes d = true :=
  excludes_insert_of_or (.inl h)

@[simp] theorem bound_insert (e : Exclude) (c : Component) : (e.insert c).bound = e.bound := by
  rcases insert_cases e c with ⟨-, hinsert⟩ | ⟨listed, hlisted, hinsert | hinsert⟩
  · rw [hinsert]
  · rw [hinsert, hlisted]
  · rw [hinsert, hlisted]
    rfl

end Exclude

namespace Interest

variable {i : Interest} {c : Component}

/-- An interest that goes on to exclude components. -/
def excludingAll (i : Interest) (cs : List Component) : Interest := cs.foldl excluding i

/-- Only the excluded components change. -/
theorem eq_excludingAll (i : Interest) (cs : List Component) :
    i.excludingAll cs = { i with exclude := (i.excludingAll cs).exclude } := by
  induction cs generalizing i with
  | nil => rfl
  | cons c cs ih => exact ih (i.excluding c)

theorem excluding_of_excludes (h : i.exclude.excludes c = true) : i.excluding c = i := by
  rw [excluding, Exclude.insert_of_excludes h]

theorem excludes_excludingAll (h : i.exclude.excludes c = true) (cs : List Component) :
    (i.excludingAll cs).exclude.excludes c = true := by
  induction cs generalizing i with
  | nil => exact h
  | cons d cs ih => exact ih (i := i.excluding d) (Exclude.excludes_insert h d)

theorem excludes_excludingAll_of_mem {cs : List Component} (h : c ∈ cs) (i : Interest) :
    (i.excludingAll cs).exclude.excludes c = true := by
  obtain ⟨front, back, rfl⟩ := List.append_of_mem h
  rw [excludingAll, List.foldl_append, List.foldl_cons]
  exact excludes_excludingAll (i := (front.foldl excluding i).excluding c)
    (Exclude.excludes_insert_self _ c) back

end Interest
end NamedContent
