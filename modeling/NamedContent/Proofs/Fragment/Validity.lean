import NamedContent.Fragment.Validation
import NamedContent.Proofs.Outcome

/-!
# What valid fragments are like

A fragment that is valid under a key is of the key's publisher, and well formed. So a valid
tombstone is empty, the last segment, and of some version (`checkGone_eq_ok_iff`).
-/

namespace NamedContent
namespace Fragment

variable {f : Fragment}

theorem checkGone_eq_ok_iff :
    f.checkGone = .ok () ↔ f.content = [] ∧ f.isFinal = true ∧ f.name.hasVersion = true := by
  unfold checkGone
  rw [← List.length_eq_zero_iff]
  split
  · next hcontent => exact ⟨nofun, fun h => absurd h.1 hcontent⟩
  · next hcontent =>
    split
    · next hfinal => exact ⟨nofun, fun h => by simp [h.2.1] at hfinal⟩
    · next hfinal =>
      split
      · next hversion => exact ⟨nofun, fun h => by simp [h.2.2] at hversion⟩
      · next hversion =>
        refine ⟨fun _ => ⟨Decidable.not_not.mp hcontent, ?_, ?_⟩, fun _ => rfl⟩
        · simpa using hfinal
        · simpa using hversion

theorem checkGone_of_validateStructure (h : f.validateStructure = .ok ()) (hg : f.isGone = true) :
    f.checkGone = .ok () := by
  obtain ⟨_, _, h⟩ := ok_of_bind h
  rw [if_pos hg] at h
  exact h

section

variable [Suite] {key : PublicKey}

theorem validateStructure_of_validateWith (h : f.validateWith key = .ok ()) :
    f.validateStructure = .ok () ∧ key.publisher = f.publisher := by
  obtain ⟨_, hstructure, h⟩ := ok_of_bind h
  refine ⟨hstructure, ?_⟩
  by_cases hpublisher : key.publisher = f.publisher
  · exact hpublisher
  · simp only [bind, Except.bind, ne_eq, hpublisher, not_false_eq_true, ↓reduceIte] at h
    cases h

/-- A tombstone that is valid is the last segment. -/
theorem isFinal_of_validate (h : f.validate.isOk = true) (hg : f.isGone = true) :
    f.isFinal = true := by
  have hvalid : f.validate = .ok () := by
    cases hv : f.validate with
    | error e =>
      rw [hv] at h
      cases h
    | ok u => rfl
  unfold validate at hvalid
  split at hvalid
  · have hstructure := (validateStructure_of_validateWith hvalid).1
    exact (checkGone_eq_ok_iff.mp (checkGone_of_validateStructure hstructure hg)).2.1
  · cases hvalid

end

end Fragment
end NamedContent
