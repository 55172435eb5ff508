import NamedContent.Proofs.Interest.Spilling
import NamedContent.Proofs.Network.Arriving
import NamedContent.Proofs.Network.Lookup

/-!
# How a search for a version goes

A search asks again and again, each time without the component of the answer before, until an answer
is a version or there is none (`Search`). Turn by turn (`turn`) this is all that happens when the
interest requires more components than its name has. Each question matches less than the one before,
so on a sound supply the bound on the number of questions is never reached (`exists_search`).
-/

namespace NamedContent
namespace Supply

variable [Suite] {s : Supply} {i j : Interest} {js ks : List Interest} {f : Fragment}
  {found other : Option Fragment} {fuel : Nat} {c : Component}

/-- A search that starts with an interest excludes some components, one after the other, and ends
with an answer or without one. -/
inductive Search (s : Supply) : Interest → List Component → Option Fragment → Prop
  | found {i : Interest} {f : Fragment} {v : Version} (get_eq : s.get i = .ok (some f))
      (component_eq : f.name.component? i.name.length = some v.toComponent) : Search s i [] (some f)
  | exhausted {i : Interest} (get_eq : s.get i = .ok none) : Search s i [] none
  | sibling {i : Interest} {f : Fragment} {c : Component} {cs : List Component}
      {found : Option Fragment} (get_eq : s.get i = .ok (some f))
      (component_eq : f.name.component? i.name.length = some c)
      (no_version : Version.ofComponent? c = none) (rest : Search s (i.excluding c) cs found) :
      Search s i (c :: cs) found

namespace Search

variable {cs : List Component}

/-- What a search excludes are no versions. -/
theorem no_version_of_mem (h : s.Search i cs found) : ∀ c ∈ cs, Version.ofComponent? c = none := by
  induction h with
  | found _ _ => exact nofun
  | exhausted _ => exact nofun
  | sibling _ _ hc _ ih => exact List.forall_mem_cons.mpr ⟨hc, ih⟩

/-- The answer to the last question is the result. -/
theorem get_excludingAll (h : s.Search i cs found) : s.get (i.excludingAll cs) = .ok found := by
  induction h with
  | found hget _ => exact hget
  | exhausted hget => exact hget
  | sibling _ _ _ _ ih => exact ih

/-- What a search excludes is that of answers to the first question. -/
theorem accepted_of_mem (h : s.Search i cs found) (hs : s.Sound) : ∀ c ∈ cs, ∃ f, s.Serves f ∧
    i.accepts f = true ∧ f.name.component? i.name.length = some c := by
  induction h with
  | found _ _ => exact nofun
  | exhausted _ => exact nofun
  | sibling hget hc _ _ ih =>
    have hpicks := picks_of_get hs hget
    refine List.forall_mem_cons.mpr
      ⟨⟨_, hpicks.served_found _ rfl, hpicks.accepts_found _ rfl, hc⟩, fun c hmem => ?_⟩
    obtain ⟨f, hf, ha, hfc⟩ := ih c hmem
    exact ⟨f, hf, Interest.accepts_of_excluding ha, hfc⟩

/-- What a search excludes is served beside the versions. -/
theorem served_of_mem (h : s.Search i cs found) (hs : s.Sound) : ∀ c ∈ cs, ∃ f, s.Serves f ∧
    i.name.isPrefixOf f.name = true ∧ f.name.component? i.name.length = some c := by
  intro c hc
  obtain ⟨f, hf, ha, hfc⟩ := h.accepted_of_mem hs c hc
  exact ⟨f, hf, Interest.prefix_of_accepts ha, hfc⟩

/-- What a search finds is of a version. -/
theorem version_of_found (h : s.Search i cs (some f)) :
    ∃ v : Version, f.name.component? i.name.length = some v.toComponent := by
  generalize hfound : some f = found at h
  induction h with
  | found _ hc =>
    cases hfound
    exact ⟨_, hc⟩
  | exhausted _ => cases hfound
  | sibling _ _ _ _ ih => exact ih hfound

end Search

/-! ### Turns -/

/-- What comes after a question. -/
inductive Turn where
  | ends (found : Option Fragment)
  | asks (next : Interest)

/-- Ask one question. An answer that is no version is excluded, unless there is nothing to exclude,
or it is excluded already. -/
def turn (s : Supply) (i : Interest) : Except NetworkError Turn := do
  match ← s.get i with
  | none => return .ends none
  | some f =>
    if (i.versionedNameOf? f.name).isSome then return .ends (some f)
    else
      match f.name.component? i.name.length with
      | none => return .ends none
      | some c =>
        match i.exclude.add c with
        | (true, exclude) => return .asks { i with exclude }
        | (false, _) => return .ends none

/-- A search takes turns. -/
theorem findVersionIn_succ_eq (s : Supply) (fuel : Nat) (i : Interest) :
    s.findVersionIn (fuel + 1) i = (do
      match ← s.turn i with
      | .ends found => return found
      | .asks next => s.findVersionIn fuel next) := by
  rw [findVersionIn, turn]
  cases s.get i with
  | error e => rfl
  | ok answer =>
    cases answer with
    | none => rfl
    | some f =>
      simp only [bind, Except.bind, pure, Except.pure, Exclude.add]
      by_cases hv : (i.versionedNameOf? f.name).isSome = true
      · simp only [if_pos hv]
      · simp only [if_neg hv]
        cases f.name.component? i.name.length with
        | none => rfl
        | some c => cases hc : i.exclude.excludes c <;> simp [hc, Interest.excluding]

omit [Suite] in
theorem isSome_versionedNameOf?_iff {n : Name} (hc : n.component? i.name.length = some c) :
    (i.versionedNameOf? n).isSome = true ↔ ∃ v : Version, c = v.toComponent := by
  unfold Interest.versionedNameOf? Version.isComponent
  simp only [hc]
  cases hv : Version.ofComponent? c with
  | none =>
    refine ⟨nofun, ?_⟩
    rintro ⟨v, rfl⟩
    rw [Version.ofComponent?_toComponent] at hv
    cases hv
  | some v => exact ⟨fun _ => ⟨v, Version.eq_toComponent_of_ofComponent? hv⟩, fun _ => rfl⟩

theorem turn_of_none (hget : s.get i = .ok none) : s.turn i = .ok (.ends none) := by
  rw [turn, hget]
  rfl

theorem turn_of_version {v : Version} (hget : s.get i = .ok (some f))
    (hc : f.name.component? i.name.length = some v.toComponent) :
    s.turn i = .ok (.ends (some f)) := by
  rw [turn, hget]
  simp only [bind, Except.bind, pure, Except.pure]
  rw [if_pos ((isSome_versionedNameOf?_iff hc).mpr ⟨v, rfl⟩)]

theorem turn_of_sibling (hget : s.get i = .ok (some f))
    (hc : f.name.component? i.name.length = some c) (hv : Version.ofComponent? c = none) :
    s.turn i = .ok (.asks (i.excluding c)) := by
  have hno : ¬ (i.versionedNameOf? f.name).isSome = true := by
    rw [isSome_versionedNameOf?_iff hc]
    rintro ⟨v, rfl⟩
    rw [Version.ofComponent?_toComponent] at hv
    cases hv
  have hnew := Interest.not_excludes_of_accepts (accepts_of_get hget) hc
  rw [turn, hget]
  simp only [bind, Except.bind, pure, Except.pure, hc, if_neg hno, Exclude.add, hnew]
  rfl

/-- The answer to a question is a version, or a sibling that the next question excludes. -/
theorem answer_cases (hi : 0 < i.minSuffix.getD 0) (hget : s.get i = .ok (some f)) :
    (∃ v : Version, f.name.component? i.name.length = some v.toComponent) ∨
    ∃ c, f.name.component? i.name.length = some c ∧ Version.ofComponent? c = none := by
  obtain ⟨c, hc⟩ := Interest.exists_component_of_accepts hi (accepts_of_get hget)
  cases hv : Version.ofComponent? c with
  | none => exact .inr ⟨c, hc, hv⟩
  | some v => exact .inl ⟨v, by rw [hc, Version.eq_toComponent_of_ofComponent? hv]⟩

theorem deep_excluding (hi : i.Deep) (c : Component) : (i.excluding c).Deep :=
  ⟨hi.min_eq, hi.max_eq⟩

/-! ### All the questions -/

/-- The questions that a search asks one after the other, however many, and what it ends with. -/
inductive Asks (s : Supply) : Interest → List Interest → Option Fragment → Prop
  | ends {i : Interest} {found : Option Fragment} (turn_eq : s.turn i = .ok (.ends found)) :
      Asks s i [i] found
  | asks {i j : Interest} {js : List Interest} {found : Option Fragment}
      (turn_eq : s.turn i = .ok (.asks j)) (rest : Asks s j js found) : Asks s i (i :: js) found

namespace Asks

/-- A search has no choice. -/
theorem unique (h : s.Asks i js found) (h' : s.Asks i ks other) : ks = js ∧ other = found := by
  induction h generalizing ks other with
  | ends hturn =>
    cases h' with
    | ends hturn' =>
      cases hturn.symm.trans hturn'
      exact ⟨rfl, rfl⟩
    | asks hturn' _ => cases hturn.symm.trans hturn'
  | asks hturn _ ih =>
    cases h' with
    | ends hturn' => cases hturn.symm.trans hturn'
    | asks hturn' hrest =>
      cases hturn.symm.trans hturn'
      obtain ⟨rfl, rfl⟩ := ih hrest
      exact ⟨rfl, rfl⟩

/-- A bound on the questions plays no part if it allows for all of them. -/
theorem findVersionIn_eq (h : s.Asks i js found) (hfuel : js.length ≤ fuel) :
    s.findVersionIn fuel i = .ok found := by
  induction h generalizing fuel with
  | ends hturn =>
    obtain ⟨fuel, rfl⟩ := Nat.exists_eq_add_of_le' hfuel
    rw [List.length_singleton, findVersionIn_succ_eq, hturn]
    rfl
  | asks hturn _ ih =>
    rw [List.length_cons] at hfuel
    obtain ⟨fuel, rfl⟩ := Nat.exists_eq_add_one_of_ne_zero (Nat.ne_of_gt (Nat.zero_lt_of_lt hfuel))
    rw [findVersionIn_succ_eq, hturn]
    exact ih (Nat.le_of_succ_le_succ hfuel)

end Asks

/-- The questions of a search: the first, and one after each component that it excludes. -/
theorem Search.asks {cs : List Component} (h : s.Search i cs found) :
    s.Asks i (cs.scanl Interest.excluding i) found := by
  induction h with
  | found hget hc => exact .ends (turn_of_version hget hc)
  | exhausted hget => exact .ends (turn_of_none hget)
  | sibling hget hc hv _ ih =>
    rw [List.scanl_cons]
    exact .asks (turn_of_sibling hget hc hv) ih

/-- A search ends with the same result however many questions it may ask, if they are enough. -/
theorem Search.findVersionIn_eq {cs : List Component} (h : s.Search i cs found)
    (hfuel : cs.length < fuel) : s.findVersionIn fuel i = .ok found :=
  h.asks.findVersionIn_eq (by rw [List.length_scanl]; exact hfuel)

/-! ### Searches -/

/-- What was found within a number of questions was found by a search of fewer exclusions. -/
theorem search_of_findVersionIn (hi : i.Deep) (h : s.findVersionIn fuel i = .ok (some f)) :
    ∃ cs, s.Search i cs (some f) ∧ cs.length < fuel := by
  induction fuel generalizing i with
  | zero => cases h
  | succ fuel ih =>
    cases hget : s.get i with
    | error e =>
      rw [findVersionIn, hget] at h
      cases h
    | ok answer =>
      rw [findVersionIn_succ_eq] at h
      cases answer with
      | none =>
        rw [turn_of_none hget] at h
        cases h
      | some g =>
        rcases answer_cases hi.requires hget with ⟨v, hc⟩ | ⟨c, hc, hv⟩
        · rw [turn_of_version hget hc] at h
          cases h
          exact ⟨[], .found hget hc, Nat.succ_pos fuel⟩
        · rw [turn_of_sibling hget hc hv] at h
          obtain ⟨cs, hcs, hlength⟩ := ih (deep_excluding hi c) h
          exact ⟨c :: cs, .sibling hget hc hv hcs, Nat.succ_lt_succ hlength⟩

/-- A question without the component of an answer matches less. -/
theorem matching_excluding_lt (hs : s.Sound) (hget : s.get i = .ok (some f))
    (hc : f.name.component? i.name.length = some c) :
    s.matching (i.excluding c) < s.matching i := by
  have hpicks := picks_of_get hs hget
  exact matching_lt hs (fun g _ hg => Interest.accepts_of_excluding hg) (hpicks.served_found f rfl)
    (hpicks.accepts_found f rfl) (Interest.excluding_accepts_eq_false hc)

/-- On a sound supply an interest that requires more components than its name starts a search. -/
theorem exists_search_of_requires (hs : s.Sound) (hi : 0 < i.minSuffix.getD 0) :
    ∃ cs found, s.Search i cs found ∧ cs.length ≤ s.matching i := by
  -- Each question matches less than the one before.
  induction hn : s.matching i using Nat.strong_induction_on generalizing i with
  | _ n ih =>
    subst hn
    obtain ⟨answer, hget, -⟩ := get_picks hs i
    cases answer with
    | none => exact ⟨[], none, .exhausted hget, Nat.zero_le _⟩
    | some g =>
      rcases answer_cases hi hget with ⟨v, hc⟩ | ⟨c, hc, hv⟩
      · exact ⟨[], some g, .found hget hc, Nat.zero_le _⟩
      · have hless := matching_excluding_lt hs hget hc
        obtain ⟨cs, found, hsearch, hlength⟩ := ih _ hless (i := i.excluding c) hi rfl
        exact ⟨c :: cs, found, .sibling hget hc hv hsearch, by rw [List.length_cons]; omega⟩

/-- On a sound supply, whatever a search finds is found before the questions run out. -/
theorem exists_search (hs : s.Sound) (hi : i.Deep) (hfuel : s.matching i < fuel) :
    ∃ cs found, s.findVersionIn fuel i = .ok found ∧ s.Search i cs found := by
  obtain ⟨cs, found, hsearch, hlength⟩ := exists_search_of_requires hs hi.requires
  exact ⟨cs, found, hsearch.findVersionIn_eq (Nat.lt_of_le_of_lt hlength hfuel), hsearch⟩

end Supply
end NamedContent
