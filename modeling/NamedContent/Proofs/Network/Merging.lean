import NamedContent.Proofs.Network.Acknowledged
import NamedContent.Proofs.Network.Picking

/-!
# One selection over all sources

A lookup selects from every source on its own and then from what was selected. That is one selection
from everything that is served, source by source in the order of lookups. So what is found is what
the first source holds that holds anything acceptable under the name (`source_of_find`), and it does
not depend on which source serves what as long as no two fragments have one name
(`find_of_serves_iff`).
-/

namespace NamedContent

section

variable [Suite] {i : Interest} {f g : Fragment}

/-- Whoever publishes a fragment plays no part if nobody in particular is wanted. -/
theorem Interest.accepts_of_name_eq (hany : i.publisher = none) (hname : f.name = g.name) :
    i.accepts f = i.accepts g := by
  unfold accepts admits
  rw [hany, hname]
  rfl

namespace Supply

variable {s t : Supply}

/-- What is found is held by a source before which no source holds an acceptable fragment of the
name. -/
theorem source_of_find (h : s.Sound) (hf : s.find i = .ok (some f)) :
    ∃ before src after, s.sources = before ++ src :: after ∧ s.holds? src f.name = some f ∧
      ∀ b ∈ before, ∀ g, s.holds? b f.name = some g → i.accepts g = false := by
  rw [find_eq_select h] at hf
  have hfirst := Interest.find?_of_select (Except.ok.inj hf)
  rw [find?_contents h] at hfirst
  obtain ⟨before, src, after, hsources, hsrc, hbefore⟩ := List.findSome?_eq_some_iff.mp hfirst
  refine ⟨before, src, after, hsources, (Option.filter_eq_some_iff.mp hsrc).1, ?_⟩
  intro b hb g hg
  have hno := Option.filter_eq_none_iff.mp (hbefore b hb) g hg
  rwa [Bool.not_eq_true] at hno

/-- How the content is split between the sources plays no part if names are distinct. -/
theorem find_of_serves_iff (h : s.Sound) (ht : t.Sound) (hsame : ∀ f, t.Serves f ↔ s.Serves f)
    (hnames : ∀ f g, s.Serves f → s.Serves g → f.name = g.name → f = g) (i : Interest) :
    t.find i = s.find i := by
  obtain ⟨found, hfind, hpicks⟩ := find_picks h i
  obtain ⟨found', hfind', hpicks'⟩ := find_picks ht i
  rw [hfind, hfind', (hpicks'.of_iff fun g _ => hsame g).unique hpicks hnames]

/-- A lookup selects once from the direct content and then all that the stores hold, in the order in
which they were attached. Of several sources that hold a name the first one counts, and otherwise it
plays no part which source holds what. -/
theorem find_selects (h : s.Sound) (i : Interest) :
    s.find i = .ok (i.select
      (s.direct.values ++ s.attached.flatMap fun id => (s.store id).fragments)) ∧
    (∀ f, s.find i = .ok (some f) →
      ∃ before src after, s.sources = before ++ src :: after ∧ s.holds? src f.name = some f ∧
        (∀ b ∈ before, ∀ g, s.holds? b f.name = some g → i.accepts g = false) ∧
        (i.publisher = none → ∀ b ∈ before, s.holds? b f.name = none)) ∧
    ∀ t : Supply, t.Sound → (∀ f, t.Serves f ↔ s.Serves f) →
      (∀ f g, s.Serves f → s.Serves g → f.name = g.name → f = g) → t.find i = s.find i := by
  refine ⟨find_eq_select h i, fun f hf => ?_, fun t ht hsame hnames => ?_⟩
  · obtain ⟨before, src, after, hsources, hsrc, hbefore⟩ := source_of_find h hf
    refine ⟨before, src, after, hsources, hsrc, hbefore, fun hany b hb => ?_⟩
    cases hheld : s.holds? b f.name with
    | none => rfl
    | some g =>
      have hno := hbefore b hb g hheld
      rw [Interest.accepts_of_name_eq hany (h.name_of_holds? hheld),
        accepts_of_find hf] at hno
      cases hno
  · exact find_of_serves_iff h ht hsame hnames i

end Supply

end

namespace Supply

/-- What is served after writer 0 with a store and writer 1 without one have put fragments of one
name. -/
def afterWrites (writes : List (Nat × UInt8)) : Supply :=
  ((World.empty {}).run (twoWriters ⟨⟨.replicate 32 1⟩, [], []⟩ ++
    writes.map fun (k, b) => .write k (.fragment (oneByte b) none))).supply

theorem sound_afterWrites (writes : List (Nat × UInt8)) : (afterWrites writes).Sound := by
  refine (World.run_grows (World.sound_empty {}) fun op hop => ?_).1.supply
  rcases List.mem_append.mp hop with hop | hop
  · exact admissible_twoWriters _ op hop
  · obtain ⟨⟨_, b⟩, _, rfl⟩ := List.mem_map.mp hop
    exact storable_oneByte b

/-- Where both sources hold the name, lookups return the direct content; a fragment that is put once
is found in the same way wherever it is put. -/
theorem find_selects_afterWrites :
    (afterWrites [(0, 2), (1, 1)]).Sound ∧
    (afterWrites [(0, 2), (1, 1)]).contents = [oneByte 1, oneByte 2] ∧
    (afterWrites [(0, 2), (1, 1)]).find (.exact (oneByte 2).name) = .ok (some (oneByte 1)) ∧
    ∀ i, (afterWrites [(0, 1)]).find i = (afterWrites [(1, 1)]).find i := by
  have hboth := sound_afterWrites [(0, 2), (1, 1)]
  have hserves {k : Nat} (hk : (afterWrites [(k, 1)]).contents = [oneByte 1]) (f : Fragment) :
      (afterWrites [(k, 1)]).Serves f ↔ f = oneByte 1 := by
    rw [← mem_contents_iff (sound_afterWrites _), hk, List.mem_singleton]
  have hstored := hserves (k := 0) rfl
  have hdirect := hserves (k := 1) rfl
  have hcontents : (afterWrites [(0, 2), (1, 1)]).contents = [oneByte 1, oneByte 2] := rfl
  have hfind : (afterWrites [(0, 2), (1, 1)]).find (.exact (oneByte 2).name) =
      .ok ((Interest.exact (oneByte 2).name).select (afterWrites [(0, 2), (1, 1)]).contents) :=
    (find_selects hboth _).1
  rw [hcontents] at hfind
  refine ⟨hboth, hcontents, hfind, fun i => ?_⟩
  refine (find_selects (sound_afterWrites _) i).2.2 _ (sound_afterWrites _) (fun f => ?_)
    fun f g hf hg _ => ?_
  · exact (hstored f).trans (hdirect f).symm
  · rw [(hdirect f).mp hf, (hdirect g).mp hg]

end Supply
end NamedContent
