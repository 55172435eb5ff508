import NamedContent.Proofs.Object.Siblings

/-!
# Asking again after a batch

A batch that confirms nothing leaves the query without the components of its fragments. If it is
delivered once more there is nothing left to exclude, so the watch answers the same and stays as it
is (`handleBatch_of_settled`), however often that happens. And the query has changed if the
fragments were answers to it: none of them answers what is asked then. A network that looks again at
an interest only if another one came back, or the supply has changed, thus goes on after the first
delivery and would be stalled by a second one (`settled_of_reissue`).
-/

namespace NamedContent

/-! ### Fragments that were looked at -/

namespace ActiveQuery

variable [Suite] {q : ActiveQuery} {f : Fragment} {fs : List Fragment}

/-- Looking at the fragment changes nothing: it tells no later version, and if its component is to
be excluded it is excluded. -/
structure Settled (q : ActiveQuery) (f : Fragment) : Prop where
  no_candidate : q.candidate? f = none
  excluded : ∀ c, q.unwanted? f = some c → q.interest.exclude.excludes c = true

/-- Fragments that tell no later version are settled once they were looked at. -/
theorem settled_sifted (hf : f ∈ fs) (hno : q.candidate? f = none) : (q.sifted fs).Settled f := by
  have hname : (q.sifted fs).interest.name = q.interest.name := (Watch.narrows_sifted q fs).name_eq
  constructor
  · unfold candidate? Watch.candidate? Interest.versionedNameOf? Interest.cutPoint at hno ⊢
    rw [hname]
    exact hno
  · intro c hc
    unfold unwanted? at hc
    rw [hname] at hc
    exact Interest.excludes_excludingAll_of_mem (List.mem_filterMap.mpr ⟨f, hf, hc⟩) _

end ActiveQuery

/-! ### Interests that come back -/

namespace Network

variable {ℓ : Type} {n : Network ℓ} {p : Pending ℓ} {i : Interest}

/-- An interest that comes back as it was is stalled, and another one is ready to be looked at. -/
theorem mem_resolve_reissue (hp : p ∈ n.pending) (seen : Nat) (i : Interest) :
    { p with interest := i, standing := if i = p.interest then .stalled seen else .ready } ∈
      (n.resolve p.id seen (.reissue i)).pending :=
  List.mem_map.mpr ⟨p, hp, if_pos rfl⟩

theorem accepts_of_answer? [Suite] {f : Fragment} (h : n.answer? p = some f) :
    p.interest.accepts f = true := by
  unfold answer? at h
  split at h
  · next found hfound =>
    rw [h] at hfound
    exact Supply.accepts_of_find hfound
  · cases h

end Network

namespace Watch

section

variable [Suite] {w w' : Watch} {q : ActiveQuery} {g : Nat} {fs : List Fragment} {f : Fragment}
  {i : Interest}

/-! ### Delivering a batch again -/

theorem examine_of_settled (h : q.Settled f) (exclusions : List Component)
    (best : Option Confirmed) : examine q exclusions best f = (q, exclusions, best) := by
  obtain ⟨hno, hexcluded⟩ := h
  unfold ActiveQuery.candidate? at hno
  unfold ActiveQuery.unwanted? at hexcluded
  unfold examine
  by_cases hlater : f.name.startsWithLaterVersionOf q.known = true
  · rw [if_pos hlater] at hno ⊢
    rw [hno]
  · rw [if_neg hlater] at hexcluded ⊢
    cases hc : f.name.component? q.interest.name.length with
    | none => rfl
    | some c =>
      have hex := hexcluded c hc
      dsimp only [exclude]
      rw [Interest.excluding_of_excludes hex, if_pos hex]

theorem examineAll_of_settled (h : ∀ f ∈ fs, q.Settled f) (exclusions : List Component)
    (best : Option Confirmed) : examineAll q exclusions best fs = (q, exclusions, best) := by
  induction fs with
  | nil => rfl
  | cons f fs ih =>
    obtain ⟨hf, hfs⟩ := List.forall_mem_cons.mp h
    rw [examineAll, examine_of_settled hf]
    exact ih hfs

/-- A batch of settled fragments leaves the watch as it is, and the query is issued again. -/
theorem handleBatch_of_settled (hq : w.query? g = some q) (h : ∀ f ∈ fs, q.Settled f) :
    w.handleBatch g fs = (.reissue q.interest, w) := by
  obtain ⟨hactive, -⟩ := query?_eq_some_iff.mp hq
  unfold handleBatch
  simp only [hq, examineAll_of_settled h]
  rw [← hactive]

omit [Suite] in
theorem foldl_better_eq_none_iff {ts : List Confirmed} : ts.foldl better none = none ↔ ts = [] := by
  have hsome : ∀ (ts : List Confirmed) (best : Confirmed),
      (ts.foldl better (some best)).isSome = true := by
    intro ts
    induction ts with
    | nil => exact fun _ => rfl
    | cons t ts ih =>
      intro best
      rw [List.foldl_cons]
      unfold better
      split
      · exact ih t
      · exact ih best
  cases ts with
  | nil => exact iff_of_true rfl rfl
  | cons t ts =>
    refine iff_of_false (fun h => ?_) (List.cons_ne_nil t ts)
    have ht := hsome ts t
    rw [show ts.foldl better (some t) = none from h] at ht
    cases ht

/-- What a batch that confirms nothing does: the query goes on without the components of what was in
the way, and all of the batch is settled. -/
theorem reissue_cases (h : w.handleBatch g fs = (.reissue i, w')) :
    ∃ q, w.query? g = some q ∧ w'.query? g = some (q.sifted fs) ∧ i = (q.sifted fs).interest ∧
      ∀ f ∈ fs, q.candidate? f = none := by
  cases hq : w.query? g with
  | none =>
    rw [handleBatch_of_stale hq] at h
    cases h
  | some q =>
    obtain ⟨hactive, rfl⟩ := query?_eq_some_iff.mp hq
    rcases handleBatch_eq hactive fs with ⟨t, -, hbatch⟩ | ⟨hnone, exclusions, hbatch⟩
    · rw [hbatch] at h
      cases h
    · rw [hbatch] at h
      cases h
      refine ⟨q, rfl, query?_of_active (q := q.sifted fs) rfl, rfl, ?_⟩
      exact List.filterMap_eq_nil_iff.mp (foldl_better_eq_none_iff.mp hnone)

/-- A batch that confirmed nothing is answered in the same way when it is delivered again, and
nothing changes any more. -/
theorem handleBatch_again (h : w.handleBatch g fs = (.reissue i, w')) :
    w'.handleBatch g fs = (.reissue i, w') := by
  obtain ⟨q, -, hq', rfl, hno⟩ := reissue_cases h
  exact handleBatch_of_settled hq' fun f hf => ActiveQuery.settled_sifted hf (hno f hf)

theorem fed_again (h : w.handleBatch g fs = (.reissue i, w')) (n : Nat) :
    w'.fed g (List.replicate n fs) = w' := by
  induction n with
  | zero => rfl
  | succ n ih =>
    have hone : w'.after (.batch g fs) = w' := congrArg Prod.snd (handleBatch_again h)
    rw [List.replicate_succ, fed, List.foldl_cons, hone]
    exact ih

/-! ### Answers that were excluded -/

/-- None of the answers to a query that confirmed nothing is an answer to what is asked then. -/
theorem accepts_reissue_eq_false (h : w.handleBatch g fs = (.reissue i, w')) (hw : w.Reachable)
    (hq : w.query? g = some q) (hfs : ∀ f ∈ fs, q.interest.accepts f = true) :
    ∀ f ∈ fs, i.accepts f = false := by
  obtain ⟨q', hq', -, rfl, hno⟩ := reissue_cases h
  obtain rfl : q' = q := Option.some.inj (hq'.symm.trans hq)
  have hseeks := hw.seeks (query?_eq_some_iff.mp hq).1
  intro f hf
  -- A version would have been a candidate, so the fragment is a sibling, and those are excluded.
  cases hoffer : q'.offer? f with
  | some v =>
    obtain ⟨-, t, ht, -⟩ := ActiveQuery.exists_candidate? hseeks (hfs f hf) hoffer
    rw [hno f hf] at ht
    cases ht
  | none =>
    obtain ⟨-, c, hc, hunwanted⟩ := ActiveQuery.exists_unwanted? hseeks (hfs f hf) hoffer
    exact Interest.excludingAll_accepts_eq_false hc (List.mem_filterMap.mpr ⟨f, hf, hunwanted⟩)

/-- What a watch makes of a batch that confirms nothing. Delivered again any number of times, the
batch is answered with the same interest, and the watch stays as it is. If the batch consists of
answers to the armed query, the interest is another one and accepts none of them. So the network
looks at it at once; whatever is served by then, it delivers none of the batch; and if the interest
comes back because the batch is delivered nevertheless, it is stalled. -/
theorem settled_of_reissue (h : w.handleBatch g fs = (.reissue i, w')) :
    (∀ n, (w'.fed g (List.replicate n fs)).handleBatch g fs = (.reissue i, w')) ∧
    ∀ q, w.Reachable → w.query? g = some q → fs ≠ [] →
      (∀ f ∈ fs, q.interest.accepts f = true) →
      i ≠ q.interest ∧ (∀ f ∈ fs, i.accepts f = false) ∧
      ∀ {ℓ : Type} (n : Network ℓ) (p : Pending ℓ) (seen : Nat),
        p ∈ n.pending → p.interest = q.interest → ∃ p',
          p' ∈ (n.resolve p.id seen (.reissue i)).pending ∧ p'.id = p.id ∧ p'.interest = i ∧
          p'.standing = .ready ∧
          (∀ supply f, { n with supply }.answer? p' = some f → f ∉ fs) ∧
          ∀ again, { p' with standing := .stalled again } ∈
            ((n.resolve p.id seen (.reissue i)).resolve p.id again (.reissue i)).pending := by
  constructor
  · intro n
    rw [fed_again h]
    exact handleBatch_again h
  intro q hw hq hne hfs
  have hnone := accepts_reissue_eq_false h hw hq hfs
  have hother : i ≠ q.interest := by
    -- The two interests differ in what they make of any fragment of the batch.
    rintro rfl
    obtain ⟨f, hf⟩ := List.exists_mem_of_ne_nil fs hne
    have haccepts := hfs f hf
    rw [hnone f hf] at haccepts
    cases haccepts
  refine ⟨hother, hnone, fun n p seen hp hinterest => ?_⟩
  have hready := Network.mem_resolve_reissue hp seen i
  rw [if_neg fun heq => hother (heq.trans hinterest)] at hready
  refine ⟨_, hready, rfl, rfl, rfl, fun supply f hanswer hf => ?_, fun again => ?_⟩
  · have haccepts := Network.accepts_of_answer? hanswer
    rw [hnone f hf] at haccepts
    cases haccepts
  · have hstalled := Network.mem_resolve_reissue hready again i
    rw [if_pos rfl] at hstalled
    exact hstalled

end

/-- A hundred and one siblings arrive, each of them twice; they do not all fit into the list of the
exclusion filter. -/
theorem settled_of_reissue_spilling :
    (idle.after (.arm .root false)).Reachable ∧
    ∃ q i w', (idle.after (.arm .root false)).query? 1 = some q ∧
      (idle.after (.arm .root false)).handleBatch 1 ((oneOctet ++ oneOctet).map sibling) =
        (.reissue i, w') ∧
      (∀ f ∈ (oneOctet ++ oneOctet).map sibling, q.interest.accepts f = true) ∧
      (w'.fed 1 (List.replicate 3 ((oneOctet ++ oneOctet).map sibling))).handleBatch 1
        ((oneOctet ++ oneOctet).map sibling) = (.reissue i, w') ∧
      i ≠ q.interest ∧ ∀ f ∈ (oneOctet ++ oneOctet).map sibling, i.accepts f = false := by
  let q : ActiveQuery := ⟨1, .root, .nextVersion .root, none⟩
  have hreach : (idle.after (.arm .root false)).Reachable := ⟨[.arm .root false], rfl⟩
  have hactive : (idle.after (.arm .root false)).active = some q := rfl
  have hseeks : q.interest.Seeks q.known := Interest.seeks_nextVersion .root
  have hsiblings : ∀ f ∈ (oneOctet ++ oneOctet).map sibling,
      q.interest.accepts f = true ∧ q.offer? f = none := by
    intro f hf
    obtain ⟨c, hc, rfl⟩ := List.mem_map.mp hf
    have hnone : ∀ c ∈ oneOctet, Version.ofComponent? c = none := by decide
    exact ⟨hseeks.deep.accepts_of_name rfl rfl rfl,
      hnone c ((List.mem_append.mp hc).elim id id)⟩
  obtain ⟨⟨exclusions, hbatch⟩, -⟩ := handleBatch_of_siblings hactive hseeks hsiblings
  have haccepts := fun f hf => (hsiblings f hf).1
  obtain ⟨hagain, hprogress⟩ := settled_of_reissue hbatch
  obtain ⟨hother, hnone, -⟩ := hprogress q hreach (query?_of_active hactive)
    (List.cons_ne_nil _ _) haccepts
  exact ⟨hreach, q, _, _, query?_of_active hactive, hbatch, haccepts, hagain 3, hother, hnone⟩

end Watch

end NamedContent
