import NamedContent.Proofs.Object.Calls

/-!
# Generations fence off earlier armings

Whatever calls a watch gets, it stays consistent (`Consistent.after`): while it is idle nothing is
noted and it is not continuous; while it is armed its query asks for the versions after its known
name, and excludes every component that is noted. Every arming gets a later generation than all
before it, and a generation that was replaced or cancelled is never armed again (`Retired.after`).
So a call for it does nothing and is refused (`refused_of_stale`); this is `fenced_of_calls`.
-/

namespace NamedContent

namespace Watch

/-! ### Answers to calls -/

/-- What a call is answered. -/
inductive Answer where
  | armed (query : ActiveQuery) (withdrawn : Option InterestId)
  /-- Whether the number was noted. -/
  | noted (done : Bool)
  | cancelled (withdrawn : Option InterestId)
  /-- The interest to issue, if there is one. -/
  | next (interest : Option Interest)
  | batch (outcome : BatchOutcome)

namespace Answer

/-- The answer says that there was nothing to do. -/
def refuses : Answer → Bool
  | .noted done => !done
  | .next interest => interest.isNone
  | .batch outcome => decide (outcome = .stale)
  | _ => false

/-- The generation that the call was given out. -/
def generation? : Answer → Option Nat
  | .armed query _ => some query.generation
  | _ => none

end Answer

namespace Call

/-- The generation that a call is for. -/
def generation? : Call → Option Nat
  | .registered g _ => some g
  | .confirmed g _ => some g
  | .reject g _ => some g
  | .retry g => some g
  | .batch g _ => some g
  | _ => none

/-- The call ends the arming before it. -/
def replaces : Call → Bool
  | .arm _ _ => true
  | .cancel => true
  | _ => false

end Call

variable [Suite] {w : Watch} {q : ActiveQuery} {c : Call} {g : Nat}

def answer (w : Watch) : Call → Answer
  | .arm known continuous =>
    let (query, withdrawn, _) := w.arm known continuous
    .armed query withdrawn
  | .registered g id => .noted (w.registered g id).1
  | .cancel => .cancelled w.cancel.1
  | .confirmed g known => .next (w.confirmed g known).1
  | .reject g token => .next (w.reject g token).1
  | .retry g => .next (w.retry g)
  | .batch g fs => .batch (w.handleBatch g fs).1

/-- The watch after some calls. -/
def run (w : Watch) (calls : List Call) : Watch := calls.foldl after w

/-- The generations that calls in a row are given out. -/
def handedOut (w : Watch) : List Call → List Nat
  | [] => []
  | c :: calls => (w.answer c).generation?.toList ++ (w.after c).handedOut calls

theorem run_append (w : Watch) (past later : List Call) :
    w.run (past ++ later) = (w.run past).run later :=
  List.foldl_append ..

/-- A call for a generation that is not armed does nothing and is refused. -/
theorem refused_of_stale (hc : c.generation? = some g) (hg : w.query? g = none) :
    w.after c = w ∧ (w.answer c).refuses = true := by
  cases c with
  | arm known continuous => cases hc
  | cancel => cases hc
  | registered g' id =>
    obtain rfl : g' = g := Option.some.inj hc
    simp [after, answer, registered, hg, Answer.refuses]
  | confirmed g' known =>
    obtain rfl : g' = g := Option.some.inj hc
    simp [after, answer, confirmed, hg, Answer.refuses]
  | reject g' token =>
    obtain rfl : g' = g := Option.some.inj hc
    simp [after, answer, reject, hg, Answer.refuses]
  | retry g' =>
    obtain rfl : g' = g := Option.some.inj hc
    simp [after, answer, retry, hg, Answer.refuses]
  | batch g' fs =>
    obtain rfl : g' = g := Option.some.inj hc
    simp [after, answer, handleBatch_of_stale hg, Answer.refuses]

/-! ### What is noted -/

/-- The query excludes each of some components. -/
def Covers (q : ActiveQuery) (cs : List Component) : Prop :=
  ∀ c ∈ cs, q.interest.exclude.excludes c = true

omit [Suite] in
theorem mem_insertNew {d e : Component} {cs : List Component} (h : d ∈ insertNew e cs) :
    d = e ∨ d ∈ cs := by
  unfold insertNew at h
  split at h
  · exact .inr h
  · exact Exclude.mem_insertSorted_iff.mp h

/-- A component that is noted is excluded from then on. -/
theorem covers_exclude {cs : List Component} (h : Covers q cs) (e : Component) :
    Covers (exclude q cs e).1 (exclude q cs e).2 := by
  intro d hd
  have hcases : d = e ∨ d ∈ cs := by
    simp only [exclude] at hd
    split at hd
    · exact .inr hd
    · exact mem_insertNew hd
  rcases hcases with rfl | hd
  · exact Exclude.excludes_insert_self _ _
  · exact Exclude.excludes_insert (h d hd) _

theorem covers_examineAll {cs : List Component} (h : Covers q cs) (best : Option Confirmed)
    (fs : List Fragment) :
    Covers (examineAll q cs best fs).1 (examineAll q cs best fs).2.1 := by
  induction fs generalizing q cs best with
  | nil => exact h
  | cons f fs ih =>
    rw [examineAll, examine]
    by_cases hlater : f.name.startsWithLaterVersionOf q.known = true
    · rw [if_pos hlater]
      cases candidate? q.interest f with
      | some t => exact ih h _
      | none => exact ih h _
    · rw [if_neg hlater]
      cases f.name.component? q.interest.name.length with
      | some c => exact ih (covers_exclude h c) _
      | none => exact ih h _

/-! ### What a call can do -/

/-- The ways in which a call changes a watch: it leaves it as it is, disarms it, arms it anew, or
changes the armed query, which stays of its generation and covers what is noted. -/
inductive Step (w : Watch) : Watch → Prop where
  | same : Step w w
  | disarmed : Step w w.cancel.2
  | armed (known : Name) (continuous : Bool) : Step w (w.arm known continuous).2.2
  | turned (q q' : ActiveQuery) (exclusions : List Component) (active_eq : w.active = some q)
      (generation_eq : q'.generation = q.generation)
      (covers : Covers q w.exclusions → Covers q' exclusions) :
      Step w { w with active := some q', exclusions }

theorem step_batch (g : Nat) (fs : List Fragment) : w.Step (w.handleBatch g fs).2 := by
  cases hq : w.query? g with
  | none =>
    rw [handleBatch_of_stale hq]
    exact .same
  | some q =>
    obtain ⟨hactive, rfl⟩ := query?_eq_some_iff.mp hq
    obtain ⟨exclusions, hall⟩ := examineAll_eq q w.exclusions none fs
    have hcovers : Covers q w.exclusions → Covers (q.sifted fs) exclusions := by
      intro h
      have := covers_examineAll h none fs
      rwa [hall] at this
    unfold handleBatch
    simp only [hq, hall]
    cases (fs.filterMap q.candidate?).foldl better none with
    | some t => exact .turned q _ _ hactive rfl fun _ => nofun
    | none => exact .turned q _ _ hactive rfl hcovers

theorem step_after (w : Watch) (c : Call) : w.Step (w.after c) := by
  cases c with
  | arm known continuous => exact .armed known continuous
  | cancel => exact .disarmed
  | retry g => exact .same
  | batch g fs => exact step_batch g fs
  | registered g id =>
    show w.Step (w.registered g id).2
    unfold registered
    split
    · next q hq => exact .turned q _ _ (query?_eq_some_iff.mp hq).1 rfl fun h => h
    · exact .same
  | reject g token =>
    show w.Step (w.reject g token).2
    unfold reject
    split
    · exact .same
    · next q hq =>
      exact .turned q _ _ (query?_eq_some_iff.mp hq).1 rfl fun h => covers_exclude h token
  | confirmed g known =>
    show w.Step (w.confirmed g known).2
    unfold confirmed
    split
    · exact .same
    · next q hq =>
      split
      · exact .turned q _ _ (query?_eq_some_iff.mp hq).1 rfl fun _ => nofun
      · next hshot =>
        -- A watch that is not continuous is as it would be after a cancel.
        have hcancel : { w with active := none, exclusions := [] } = w.cancel.2 := by
          simp [cancel, Bool.eq_false_iff.mpr hshot]
        rw [hcancel]
        exact .disarmed

/-! ### Consistent watches -/

/-- What holds of a watch whatever calls it got. -/
structure Consistent (w : Watch) : Prop where
  idle : w.active = none → w.exclusions = [] ∧ w.continuous = false
  seeks : ∀ q, w.active = some q → q.interest.Seeks q.known
  covers : ∀ q, w.active = some q → Covers q w.exclusions
  generation_le : ∀ q, w.active = some q → q.generation ≤ w.generation

theorem consistent_idle : idle.Consistent where
  idle _ := ⟨rfl, rfl⟩
  seeks _ hq := nomatch hq
  covers _ hq := nomatch hq
  generation_le _ hq := nomatch hq

theorem Consistent.after (h : w.Consistent) (c : Call) : (w.after c).Consistent := by
  have hseeks : (w.after c).Seeking := Seeking.after h.seeks c
  have hstep : w.Step (w.after c) := step_after w c
  generalize w.after c = w' at hseeks hstep
  cases hstep with
  | same => exact h
  | disarmed =>
    exact ⟨fun _ => ⟨rfl, rfl⟩, hseeks, fun _ hq => (nomatch hq), fun _ hq => (nomatch hq)⟩
  | armed known continuous =>
    refine ⟨fun hq => (nomatch hq), hseeks, fun _ _ _ hd => (nomatch hd), fun q hq => ?_⟩
    rw [← Option.some.inj hq]
    exact Nat.le_refl _
  | turned q q' exclusions hactive hgeneration hcovers =>
    refine ⟨fun hq => (nomatch hq), hseeks, fun r hr => ?_, fun r hr => ?_⟩
    · rw [← Option.some.inj hr]
      exact hcovers (h.covers q hactive)
    · rw [← Option.some.inj hr, hgeneration]
      exact h.generation_le q hactive

theorem Consistent.run (h : w.Consistent) (calls : List Call) : (w.run calls).Consistent := by
  induction calls generalizing w with
  | nil => exact h
  | cons c calls ih => exact ih (h.after c)

/-! ### Generations -/

/-- Only arming hands out a generation, which is the next one. -/
theorem generation_after (w : Watch) (c : Call) :
    (w.answer c).generation? = none ∧ (w.after c).generation = w.generation ∨
      (w.answer c).generation? = some (w.generation + 1) ∧
        (w.after c).generation = w.generation + 1 := by
  cases c with
  | arm known continuous => exact .inr ⟨rfl, rfl⟩
  | cancel => exact .inl ⟨rfl, rfl⟩
  | retry g => exact .inl ⟨rfl, rfl⟩
  | registered g id =>
    refine .inl ⟨rfl, ?_⟩
    show (w.registered g id).2.generation = w.generation
    unfold registered
    split <;> rfl
  | confirmed g known =>
    refine .inl ⟨rfl, ?_⟩
    show (w.confirmed g known).2.generation = w.generation
    unfold confirmed
    split
    · rfl
    · split <;> rfl
  | reject g token =>
    refine .inl ⟨rfl, ?_⟩
    show (w.reject g token).2.generation = w.generation
    unfold reject
    split <;> rfl
  | batch g fs =>
    refine .inl ⟨rfl, ?_⟩
    show (w.handleBatch g fs).2.generation = w.generation
    cases hq : w.query? g with
    | none => rw [handleBatch_of_stale hq]
    | some q =>
      obtain ⟨hactive, rfl⟩ := query?_eq_some_iff.mp hq
      obtain ⟨exclusions, hbatch⟩ := snd_handleBatch hactive fs
      rw [hbatch]

/-- The generations that are handed out increase, from that of the watch on. -/
theorem handedOut_increasing (w : Watch) (calls : List Call) :
    (w.handedOut calls).Pairwise (· < ·) ∧
      (∀ g ∈ w.handedOut calls, w.generation < g ∧ g ≤ (w.run calls).generation) ∧
      w.generation ≤ (w.run calls).generation := by
  induction calls generalizing w with
  | nil => exact ⟨.nil, nofun, Nat.le_refl _⟩
  | cons c calls ih =>
    obtain ⟨hpairwise, hbetween, hle⟩ := ih (w.after c)
    have hrun : w.run (c :: calls) = (w.after c).run calls := rfl
    rw [hrun, handedOut]
    rcases generation_after w c with ⟨hanswer, hafter⟩ | ⟨hanswer, hafter⟩
    · rw [hanswer, ← hafter]
      exact ⟨hpairwise, hbetween, hle⟩
    · rw [hanswer]
      rw [hafter] at hle hbetween
      refine ⟨List.pairwise_cons.mpr ⟨fun g hg => (hbetween g hg).1, hpairwise⟩, ?_, by omega⟩
      intro g hg
      rcases List.mem_cons.mp hg with rfl | hg
      · exact ⟨by omega, hle⟩
      · have := hbetween g hg
        omega

/-- A generation that was handed out and is not armed any more. -/
def Retired (w : Watch) (g : Nat) : Prop := g ≤ w.generation ∧ w.query? g = none

/-- It is never armed again. -/
theorem Retired.after (h : w.Retired g) (c : Call) : (w.after c).Retired g := by
  obtain ⟨hle, hnone⟩ := h
  have hgeneration : g ≤ (w.after c).generation := by
    rcases generation_after w c with ⟨-, hafter⟩ | ⟨-, hafter⟩ <;> omega
  refine ⟨hgeneration, ?_⟩
  have hstep : w.Step (w.after c) := step_after w c
  generalize w.after c = w' at hstep
  cases hstep with
  | same => exact hnone
  | disarmed => rfl
  | armed known continuous =>
    exact query?_of_generation_ne rfl (Nat.ne_of_gt (Nat.lt_succ_of_le hle))
  | turned q q' exclusions hactive hsame hcovers =>
    refine query?_of_generation_ne rfl fun hg => ?_
    rw [query?_eq_some_iff.mpr ⟨hactive, hsame.symm.trans hg⟩] at hnone
    cases hnone

theorem Retired.run (h : w.Retired g) (calls : List Call) : (w.run calls).Retired g := by
  induction calls generalizing w with
  | nil => exact h
  | cons c calls ih => exact ih (h.after c)

/-- Arming and cancelling retire every generation that there was before. -/
theorem retired_of_replaces (hc : c.replaces = true) (hg : g ≤ w.generation) :
    (w.after c).Retired g := by
  cases c with
  | arm known continuous =>
    have hlt : g < w.generation + 1 := Nat.lt_succ_of_le hg
    exact ⟨Nat.le_of_lt hlt, query?_of_generation_ne rfl (Nat.ne_of_gt hlt)⟩
  | cancel => exact ⟨hg, rfl⟩
  | _ => cases hc

/-! ### Fencing -/

omit [Suite] in
theorem query?_eq_none_of_ne (h : ∀ q, w.active = some q → q.generation ≠ g) :
    w.query? g = none := by
  cases hq : w.query? g with
  | none => rfl
  | some q =>
    obtain ⟨hactive, hgeneration⟩ := query?_eq_some_iff.mp hq
    exact absurd hgeneration (h q hactive)

/-- What holds of a watch after any calls in any order. It is consistent. The generations that it
has handed out increase. Whatever is called for a generation that is not the armed one does nothing
and is refused; and no generation is the armed one again after an arming or a cancel has replaced
it. To cancel once more does nothing. -/
theorem fenced_of_calls (calls : List Call) :
    (idle.run calls).Consistent ∧
      (idle.handedOut calls).Pairwise (· < ·) ∧
      (∀ c g, c.generation? = some g →
        (∀ q, (idle.run calls).active = some q → q.generation ≠ g) →
          (idle.run calls).after c = idle.run calls ∧
            ((idle.run calls).answer c).refuses = true) ∧
      (∀ past c later g, calls = past ++ c :: later → c.replaces = true →
        g ∈ idle.handedOut past →
          ∀ q, (idle.run calls).active = some q → q.generation ≠ g) ∧
      (idle.run calls).cancel.2.cancel = (none, (idle.run calls).cancel.2) := by
  refine ⟨consistent_idle.run calls, (handedOut_increasing idle calls).1, ?_, ?_, rfl⟩
  · intro c g hc hother
    exact refused_of_stale hc (query?_eq_none_of_ne hother)
  · intro past c later g hcalls hc hg q hq hgeneration
    have hle : g ≤ (idle.run past).generation := ((handedOut_increasing idle past).2.1 g hg).2
    have hretired : (idle.run calls).Retired g := by
      rw [hcalls, run_append]
      exact (retired_of_replaces hc hle).run later
    have hnone : (idle.run calls).query? g = none := hretired.2
    rw [query?_eq_some_iff.mpr ⟨hq, hgeneration⟩] at hnone
    cases hnone

end Watch

end NamedContent
