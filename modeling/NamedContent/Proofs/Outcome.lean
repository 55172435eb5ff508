import Mathlib.Data.List.Forall2

/-!
# Computations that can fail

A computation succeeds only if each of its steps does.
-/

namespace NamedContent

variable {ε ε' β γ : Type}

theorem ok_of_bind {x : Except ε β} {f : β → Except ε γ} {z : γ} (h : x >>= f = .ok z) :
    ∃ y, x = .ok y ∧ f y = .ok z := by
  cases x with
  | error e => cases h
  | ok y => exact ⟨y, rfl, h⟩

@[simp] theorem mapError_ok (wrap : ε → ε') (x : β) :
    (Except.ok x : Except ε β).mapError wrap = .ok x := rfl

theorem ok_of_mapError {x : Except ε β} {wrap : ε → ε'} {y : β} (h : x.mapError wrap = .ok y) :
    x = .ok y := by
  cases x with
  | error e => cases h
  | ok y' =>
    cases h
    rfl

theorem map_eq_ok_iff {x : Except ε β} {f : β → γ} {z : γ} :
    x.map f = .ok z ↔ ∃ y, x = .ok y ∧ f y = z := by
  cases x <;> simp [Except.map]

/-- A list is worked through exactly if each element is, and then to the list of what they give. -/
theorem mapM_eq_ok_iff {f : β → Except ε γ} {xs : List β} {ys : List γ} :
    xs.mapM f = .ok ys ↔ List.Forall₂ (fun x y => f x = .ok y) xs ys := by
  induction xs generalizing ys with
  | nil =>
    rw [List.mapM_nil, List.forall₂_nil_left_iff]
    exact ⟨fun h => (Except.ok.inj h).symm, fun h => h ▸ rfl⟩
  | cons x xs ih =>
    rw [List.mapM_cons, List.forall₂_cons_left_iff]
    constructor
    · intro h
      obtain ⟨y, hy, h⟩ := ok_of_bind h
      obtain ⟨zs, hzs, h⟩ := ok_of_bind h
      exact ⟨y, zs, hy, ih.mp hzs, (Except.ok.inj h).symm⟩
    · rintro ⟨y, zs, hy, hzs, rfl⟩
      rw [hy, ih.mpr hzs]
      rfl

end NamedContent
