import NamedContent.Interest.Basic

/-!
# What an interest selects

`select` finds an answer exactly if there is one, and the answer is one of the listed fragments that
the interest accepts. Fragments of one name are all equally preferred, so of several the first is
selected; an exact interest accepts fragments of one name only, whence `select_exact`.
-/

namespace NamedContent
namespace Interest

/-! ### The best of a list -/

theorem mem_of_foldl_prefers (i : Interest) (fs : List Fragment) (b : Fragment) :
    fs.foldl (fun b g => if i.prefers g b then g else b) b ∈ b :: fs := by
  induction fs generalizing b with
  | nil => exact List.mem_singleton_self b
  | cons f fs ih =>
    rw [List.foldl_cons]
    rcases List.mem_cons.mp (ih (if i.prefers f b then f else b)) with h | h
    · rw [h]
      split
      · exact List.mem_cons_of_mem _ List.mem_cons_self
      · exact List.mem_cons_self
    · exact List.mem_cons_of_mem _ (List.mem_cons_of_mem _ h)

theorem mem_of_best {i : Interest} {fs : List Fragment} {f : Fragment} (h : i.best fs = some f) :
    f ∈ fs := by
  cases fs with
  | nil => cases h
  | cons g gs =>
    have h' := Option.some.inj h
    rw [← h']
    exact mem_of_foldl_prefers i gs g

@[simp] theorem best_eq_none_iff {i : Interest} {fs : List Fragment} :
    i.best fs = none ↔ fs = [] := by
  cases fs <;> simp [best]

/-- Neither of two fragments of one name is preferred to the other. -/
theorem prefers_of_name_eq (i : Interest) {f g : Fragment} (h : f.name = g.name) :
    i.prefers f g = false := by
  have hopt : ∀ c : Option Component, compareOption c c = .eq := by
    intro c
    cases c with
    | none => rfl
    | some c =>
      show compare c c = .eq
      exact Std.ReflOrd.compare_self
  unfold prefers
  rw [h]
  cases i.selector with
  | leftmost => simp
  | rightmost => simp [hopt]

/-- Of fragments of one name the first is the best. -/
theorem best_of_same_name (i : Interest) {fs : List Fragment} {n : Name}
    (h : ∀ f ∈ fs, f.name = n) : i.best fs = fs.head? := by
  cases fs with
  | nil => rfl
  | cons f fs =>
    show some (fs.foldl _ f) = some f
    congr 1
    induction fs with
    | nil => rfl
    | cons g gs ih =>
      have hg : g.name = n := h g (by simp)
      have hf : f.name = n := h f (by simp)
      rw [List.foldl_cons, prefers_of_name_eq i (hg.trans hf.symm), if_neg (by simp)]
      apply ih
      intro x hx
      apply h x
      rcases List.mem_cons.mp hx with rfl | hx
      · exact List.mem_cons_self
      · exact List.mem_cons_of_mem _ (List.mem_cons_of_mem _ hx)

/-! ### Selecting -/

variable [Suite]

theorem select_eq_some {i : Interest} {fs : List Fragment} {f : Fragment}
    (h : i.select fs = some f) : f ∈ fs ∧ i.accepts f = true :=
  List.mem_filter.mp (mem_of_best h)

theorem select_eq_none_iff {i : Interest} {fs : List Fragment} :
    i.select fs = none ↔ ∀ f ∈ fs, i.accepts f = false := by
  rw [select, best_eq_none_iff, List.filter_eq_nil_iff]
  simp

theorem prefix_of_accepts {i : Interest} {f : Fragment} (h : i.accepts f = true) :
    i.name.isPrefixOf f.name = true := by
  simp only [accepts, admits, Bool.and_eq_true] at h
  exact h.1.1.1.1

theorem publisher_of_accepts {i : Interest} {f : Fragment} (h : i.accepts f = true) {p : Publisher}
    (hp : i.publisher = some p) : f.publisher = p := by
  simp only [accepts, admits, Bool.and_eq_true, hp, Option.all_some, beq_iff_eq] at h
  exact h.1.1.1.2.symm

/-! ### Exact interests -/

theorem accepts_exact_iff {n : Name} {p : Option Publisher} {f : Fragment} :
    (exact n p).accepts f = true ↔ f.name = n ∧ ∀ q, p = some q → f.publisher = q := by
  constructor
  · intro h
    refine ⟨?_, fun q hq => publisher_of_accepts h hq⟩
    have hpre := prefix_of_accepts h
    simp only [accepts, admits, exact, Bool.and_eq_true, Option.all_some] at h
    obtain ⟨t, ht⟩ := List.isPrefixOf_iff_prefix.mp hpre
    have hlen : f.name.components.length ≤ n.components.length := by
      have hmax : f.name.components.length - n.components.length ≤ 0 := of_decide_eq_true h.1.2
      omega
    have ht' : n.components ++ t = f.name.components := ht
    have htl : t.length = 0 := by
      have := congrArg List.length ht'
      rw [List.length_append] at this
      omega
    rw [List.length_eq_zero_iff.mp htl, List.append_nil] at ht'
    exact Name.ext ht'.symm
  · rintro ⟨rfl, hp⟩
    have hpre : f.name.isPrefixOf f.name = true :=
      List.isPrefixOf_iff_prefix.mpr (List.prefix_refl _)
    have hnone : f.name.component? f.name.length = none := by
      simp [Name.component?, Name.length]
    have hpub : p.all (· == f.publisher) = true := by
      cases p with
      | none => rfl
      | some q => simp [hp q rfl]
    simp [accepts, admits, exact, hpre, hnone, hpub]

/-- An exact interest selects the first fragment of its name, and of its publisher if it has one. -/
theorem select_exact (n : Name) (p : Option Publisher) (fs : List Fragment) :
    (exact n p).select fs = fs.find? (exact n p).accepts := by
  rw [select, best_of_same_name (n := n)]
  · exact List.head?_filter ..
  · intro f hf
    exact (accepts_exact_iff.mp (List.mem_filter.mp hf).2).1

end Interest
end NamedContent
