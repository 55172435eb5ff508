import NamedContent.Proofs.Interest.Preference
import NamedContent.Proofs.Network.Holding

/-!
# Which of the served fragments a lookup returns

On a supply whose sources keep what was put in them a lookup does not fail, and it returns a pick
from everything that the sources hold (`find_picks`), whether that was put directly or is in a store
of either kind. So a lookup returns a served fragment that satisfies the interest if all others that
do are less preferred (`get_eq_some`), and nothing if none does (`get_eq_none`). In particular a
fragment is found under its name if its publisher has no other there (`finds_of_serves`).
-/

namespace NamedContent

variable [Suite] {i : Interest} {f : Fragment}

/-! ### Supplies -/

namespace Supply

variable {s : Supply}

/-- A lookup returns a pick from all that is served. -/
theorem find_picks (h : s.Sound) (i : Interest) :
    ∃ found, s.find i = .ok found ∧ i.Picks s.Serves found :=
  ⟨_, find_eq_select h i, (i.picks_select s.contents).of_iff fun _ _ => mem_contents_iff h⟩

theorem get_picks (h : s.Sound) (i : Interest) :
    ∃ found, s.get i = .ok found ∧ i.Picks s.Serves found := by
  obtain ⟨found, hfound, hpicks⟩ := find_picks h i
  exact ⟨found, get_of_find hfound, hpicks⟩

theorem picks_of_get (h : s.Sound) {found : Option Fragment} (hget : s.get i = .ok found) :
    i.Picks s.Serves found := by
  obtain ⟨answer, hanswer, hpicks⟩ := get_picks h i
  rw [← Except.ok.inj (hanswer.symm.trans hget)]
  exact hpicks

theorem get_eq_none (h : s.Sound) (hno : ∀ g, s.Serves g → i.accepts g = false) :
    s.get i = .ok none := by
  obtain ⟨found, hfound, hpicks⟩ := get_picks h i
  cases found with
  | none => exact hfound
  | some g =>
    have hg := hno g (hpicks.served_found g rfl)
    rw [hpicks.accepts_found g rfl] at hg
    cases hg

/-- A lookup returns the fragment that is preferred to all others. -/
theorem get_eq_some (h : s.Sound) (hf : s.Serves f) (ha : i.accepts f = true)
    (hbest : ∀ g, s.Serves g → i.accepts g = true → g = f ∨ i.prefers f g = true) :
    s.get i = .ok (some f) := by
  obtain ⟨found, hfound, hpicks⟩ := get_picks h i
  cases found with
  | none =>
    have hno := hpicks.not_accepts rfl f hf
    rw [ha] at hno
    cases hno
  | some g =>
    rcases hbest g (hpicks.served_found g rfl) (hpicks.accepts_found g rfl) with rfl | hpref
    · exact hfound
    · have hno := hpicks.not_prefers g rfl f hf ha
      rw [hpref] at hno
      cases hno

/-- Whoever asks for the name of the fragment, from its publisher, gets it. -/
def Finds (s : Supply) (f : Fragment) : Prop :=
  s.get (.exact f.name (some f.publisher)) = .ok (some f)

/-- A fragment is found if nothing else of its publisher is served under its name. -/
theorem finds_of_serves (h : s.Sound) (hf : s.Serves f)
    (honly : ∀ g, s.Serves g → g.name = f.name → g.publisher = f.publisher → g = f) :
    s.Finds f := by
  refine get_eq_some h hf ?_ fun g hg ha => .inl ?_
  · exact Interest.accepts_exact_iff.mpr ⟨rfl, fun q hq => Option.some.inj hq⟩
  · obtain ⟨hname, hpublisher⟩ := Interest.accepts_exact_iff.mp ha
    exact honly g hg hname (hpublisher _ rfl)

end Supply
end NamedContent
