import Mathlib.Logic.Relation
import NamedContent.Proofs.Object.Answering

/-!
# A session that is left to itself

Without its callers a session goes on in small steps (`Passes`): others change what the network
serves, an interest is looked at, time passes, a wait is given up. Whatever a session does while
time passes is a sequence of them, and none of them changes what is served (`goes_elapseUntil`).

An arming of a watch is at work while an interest of it is pending or it waits for what is lacking
(`AtWork`). Each small step spares an object or is a turn of one of its armings at work
(`InStep.passes_cases`). So an object of which nothing is at work is spared, however much time
passes (`InStep.spares_elapse`). And an object with an armed watch stays as it is while nothing that
is served answers its interest (`Undisturbed.object?_elapse`).
-/

namespace NamedContent
namespace Session

variable {α : Type} {s s' : Session α} {id : ObjectId} {o : VersionedObject α} {k : InterestId}
  {x y : Watcher}

/-! ### Armings at work -/

/-- An interest of an arming is pending, or the arming waits for what is lacking of a version. -/
inductive AtWork (s : Session α) (x : Watcher) : Prop where
  | pending (p : Pending Watcher) (mem : p ∈ s.network.pending) (listener_eq : p.listener = x)
  | waiting (w : Waiting) (mem : w ∈ s.waiting) (watcher_eq : w.watcher = x)

theorem Spares.atWork (h : Spares id s s') (hx : x.object = id) (hwork : s'.AtWork x) :
    s.AtWork x := by
  cases hwork with
  | pending p hp hl => exact .pending p ((h.pending_iff p (hl ▸ hx)).mp hp) hl
  | waiting w hw hl => exact .waiting w ((h.waiting_iff w (hl ▸ hx)).mp hw) hl

theorem AtWork.congr (h : s'.AtWork x) (hpending : s'.network.pending = s.network.pending)
    (hwaiting : s'.waiting = s.waiting) : s.AtWork x := by
  cases h with
  | pending p hp hl => exact .pending p (hpending ▸ hp) hl
  | waiting w hw hl => exact .waiting w (hwaiting ▸ hw) hl

theorem AtWork.of_waiting_sublist {ws : List Waiting} (hws : ws.Sublist s.waiting)
    (h : { s with waiting := ws }.AtWork x) : s.AtWork x := by
  cases h with
  | pending p hp hl => exact .pending p hp hl
  | waiting w hw hl => exact .waiting w (hws.subset hw) hl

/-- A change of interests puts nothing to work. -/
theorem AtWork.of_modify {change : Pending Watcher → Pending Watcher}
    (h : { s with network := s.network.modify k change }.AtWork x)
    (hchange : ∀ p, (change p).listener = p.listener) : s.AtWork x := by
  cases h with
  | waiting w hw hl => exact .waiting w hw hl
  | pending p hp hl =>
    obtain ⟨p₀, hp₀, rfl⟩ := List.mem_map.mp hp
    refine .pending p₀ hp₀ ?_
    split at hl
    · rwa [hchange] at hl
    · exact hl

/-- A reply puts nothing to work. -/
theorem AtWork.of_reply {seen : Nat} {r : Reply} (h : (s.reply k seen r).AtWork x) :
    s.AtWork x := by
  cases r with
  | reissue i => exact AtWork.of_modify h fun _ => rfl
  | later => exact AtWork.of_modify h fun _ => rfl
  | retire =>
    cases h with
    | waiting w hw hl => exact .waiting w hw hl
    | pending p hp hl => exact .pending p (List.mem_filter.mp hp).1 hl

/-- Arming an object ends the armings that only have an interest, and puts one to work. -/
theorem InStep.atWork_arm (h : s.InStep) (ho : s.object? id = some o) {known : Name}
    {continuous : Bool} (hx : x.object = id) (hwork : (s.arm id known continuous).AtWork x) :
    x = ⟨id, o.watch.generation + 1⟩ ∨ ∃ w ∈ s.waiting, w.watcher = x := by
  cases hwork with
  | waiting w hw hl =>
    rw [waiting_arm] at hw
    exact .inr ⟨w, hw, hl⟩
  | pending p hp hl =>
    rw [pending_arm ho, List.mem_append, List.mem_singleton] at hp
    rcases hp with hp | rfl
    · have hnone := (h.cancelWatch id).inStep.not_pending_of_idle (object?_cancelWatch ho) rfl p hp
      exact absurd (hl ▸ hx) hnone
    · exact .inl hl.symm

/-! ### Others are armed -/

theorem spares_withdraw (hk : ∀ p ∈ s.network.pending, p.id = k → p.listener.object ≠ id) :
    Spares id s (s.withdraw (some k)) where
  object?_eq := by
    unfold object?
    rw [(objects_withdraw s (some k)).1]
  pending_iff p hp := by
    rw [pending_withdraw, List.mem_filter, bne_iff_ne]
    exact and_iff_left_of_imp fun hmem hid => hk p hmem hid hp
  waiting_iff w _ := by rw [(objects_withdraw s (some k)).2.2.2]

theorem InStep.spares_cancelWatch (h : s.InStep) {i : ObjectId} (hi : i ≠ id) :
    Spares id s (s.cancelWatch i) := by
  unfold Session.cancelWatch
  cases ho : s.object? i with
  | none => exact .of_objects rfl rfl rfl
  | some o =>
    have hset : Spares id s (s.setWatch i o.watch.cancel.2) :=
      spares_modifyObject (x := ⟨i, 0⟩) hi _
    dsimp only [Watch.cancel]
    cases hw : o.watch.active with
    | none => exact hset
    | some q =>
      have hq : s.query? ⟨i, q.generation⟩ = some q := query?_eq_some_iff.mpr ⟨o, ho, hw, rfl⟩
      obtain ⟨k, hk⟩ := Option.isSome_iff_exists.mp (h.query _ q hq).1.id_isSome
      rw [Option.bind_some, hk]
      refine hset.trans (spares_withdraw fun p hp hid => ?_)
      rw [(h.owns k _ (.query q hq hk)).listener_eq hp hid]
      exact hi

theorem InStep.spares_arm (h : s.InStep) {i : ObjectId} (hi : i ≠ id) (known : Name)
    (continuous : Bool) : Spares id s (s.arm i known continuous) := by
  cases ho : s.object? i with
  | none =>
    rw [arm_of_object?_eq_none ho]
    exact .of_objects rfl rfl rfl
  | some o =>
    refine (h.spares_cancelWatch hi).trans ⟨?_, fun p hp => ?_, fun w _ => ?_⟩
    · rw [arm_eq ho]
      exact (spares_modifyObject (x := ⟨i, 0⟩) (s := { s.cancelWatch i with network := _ }) hi
        _).object?_eq
    · rw [pending_arm ho, List.mem_append, List.mem_singleton]
      refine or_iff_left ?_
      rintro rfl
      exact hi hp
    · rw [(arm_same ho known continuous).2]

theorem InStep.spares_watchAgain (h : s.InStep) {i : ObjectId} (hi : i ≠ id) (fallback : Name) :
    Spares id s (s.watchAgain i fallback) := by
  obtain ⟨known, continuous, hagain⟩ := s.watchAgain_eq_arm i fallback
  rw [hagain]
  exact h.spares_arm hi known continuous

variable [Suite]

theorem InStep.spares_giveUp (h : s.InStep) {w : Waiting} (hk : s.Owns w.id w.watcher)
    (hid : w.watcher.object ≠ id) : Spares id s (s.giveUp w) := by
  have hagain := h.watchAgain w.watcher.object w.lack.fallback
  refine (h.spares_watchAgain hid w.lack.fallback).trans
    (spares_conclude hid (fun p hp hpk => ?_) _ _ _)
  rw [(hagain.owns _ _ hk).listener_eq hp hpk]
  exact hid

variable [Payload α]

/-! ### Small steps -/

/-- One thing that can happen in a session that is left to itself. -/
inductive Passes : Session α → Session α → Prop where
  /-- Others change what the network serves. -/
  | publish (s : Session α) (supply : Supply) : Passes s (s.withSupply supply)
  | serve {s s' : Session α} (step : s.step? = some s') : Passes s s'
  | time (s : Session α) (t : Nat) : Passes s { s with now := t }
  | giveUp {s : Session α} {w : Waiting} {pre post : List Waiting}
      (waiting_eq : s.waiting = pre ++ w :: post) (due : w.deadline ≤ s.now) :
      Passes s ({ s with waiting := pre ++ post }.giveUp w)

theorem InStep.passes (h : s.InStep) (hp : s.Passes s') : s'.InStep := by
  cases hp with
  | publish supply => exact h.withSupply supply
  | serve step => exact h.step step
  | time t => exact h.at_time t
  | giveUp hw due =>
    obtain ⟨h₁, hk, _⟩ := h.alone_of_waiting hw
    exact (h₁.giveUp hk).inStep

/-- A small step spares an object, or an interest of the object is looked at, or it is looked again
for what the object waits for, or that is given up. -/
theorem InStep.passes_cases (h : s.InStep) (hp : s.Passes s') (id : ObjectId) :
    Spares id s s' ∨
      (∃ p ∈ s.network.pending, p.listener.object = id ∧ p.standing ≠ .busy ∧ s' = s.deliver p) ∨
      ∃ w pre post, s.waiting = pre ++ w :: post ∧ w.watcher.object = id ∧
        (s' = { s with waiting := pre ++ post }.resume w ∨
          s' = { s with waiting := pre ++ post }.giveUp w) := by
  cases hp with
  | publish supply => exact .inl (.of_objects rfl rfl rfl)
  | time t => exact .inl (.of_objects rfl rfl rfl)
  | serve step =>
    rcases h.step_cases id step with hspares | ⟨p, hp, hl, hready, rfl⟩ |
      ⟨w, pre, post, hw, hl, _, rfl⟩
    · exact .inl hspares
    · exact .inr (.inl ⟨p, hp, hl, Network.ne_busy_of_isReady hready, rfl⟩)
    · exact .inr (.inr ⟨w, pre, post, hw, hl, .inl rfl⟩)
  | @giveUp w pre post hw due =>
    by_cases hid : w.watcher.object = id
    · exact .inr (.inr ⟨w, pre, post, hw, hid, .inr rfl⟩)
    · obtain ⟨h₁, hk, hsub, _⟩ := h.alone_of_waiting hw
      have hothers : Spares id s { s with waiting := pre ++ post } := by
        refine spares_with_waiting fun v hv => ⟨fun hmem => hsub.subset hmem, fun hmem => ?_⟩
        rw [hw, List.mem_append, List.mem_cons] at hmem
        rcases hmem with hmem | rfl | hmem
        · exact List.mem_append_left _ hmem
        · exact absurd hv hid
        · exact List.mem_append_right _ hmem
      exact .inl (hothers.trans (h₁.spares_giveUp hk hid))

/-! ### Time passes in small steps -/

/-- What a session that is left to itself can become. -/
abbrev PassesTo : Session α → Session α → Prop := Relation.ReflTransGen Passes

/-- A small step that leaves what is served as it is, and at most counts as a change of it. -/
def Goes (s s' : Session α) : Prop :=
  s.Passes s' ∧ ∃ c, s.supply.changes ≤ c ∧ s'.supply = { s.supply with changes := c }

/-- What a session that is left to itself can become while nothing is published. -/
abbrev GoesTo : Session α → Session α → Prop := Relation.ReflTransGen Goes

theorem GoesTo.passesTo (h : s.GoesTo s') : s.PassesTo s' :=
  Relation.ReflTransGen.mono (fun _ _ hstep => hstep.1) _ _ h

theorem goes_serve (h : s.step? = some s') : s.Goes s' :=
  ⟨.serve h, s.supply.changes, Nat.le_refl _, supply_step? h⟩

theorem goes_settleIn (s : Session α) (fuel : Nat) : GoesTo s (s.settleIn fuel) :=
  settleIn_induction (P := GoesTo s) (fun _ _ h hs => h.tail (goes_serve hs)) fuel .refl

theorem goes_settle (s : Session α) : GoesTo s s.settle := goes_settleIn s s.settleFuel

omit [Payload α] in
/-- Giving up does not depend on who else waits. -/
theorem giveUp_with_waiting (s : Session α) (ws : List Waiting) (w : Waiting) :
    { s with waiting := ws }.giveUp w = { s.giveUp w with waiting := ws } := by
  have hwithdraw : ∀ number, { s with waiting := ws }.withdraw number =
      { s.withdraw number with waiting := ws } := fun number => by cases number <;> rfl
  have hagain : { s with waiting := ws }.watchAgain w.watcher.object w.lack.fallback =
      { s.watchAgain w.watcher.object w.lack.fallback with waiting := ws } := by
    unfold watchAgain
    rw [show ({ s with waiting := ws } : Session α).object? w.watcher.object =
      s.object? w.watcher.object from rfl]
    cases ho : s.object? w.watcher.object with
    | none => rfl
    | some o =>
      dsimp only
      rw [arm_of_object? ho, arm_of_object? (s := { s with waiting := ws }) ho, Watch.arm]
      simp only [hwithdraw]
      rfl
  unfold giveUp
  rw [hagain]
  generalize s.watchAgain w.watcher.object w.lack.fallback = t
  unfold conclude
  rw [show ({ t with waiting := ws } : Session α).object? w.watcher.object =
    t.object? w.watcher.object from rfl]
  cases t.object? w.watcher.object <;> rfl

omit [Suite] [Payload α] in
/-- Withdrawing an interest counts as a change of what is served, if it was pending. -/
theorem changes_withdraw (s : Session α) (number : Option InterestId) :
    s.supply.changes ≤ (s.withdraw number).supply.changes := by
  unfold withdraw Network.cancel
  cases number with
  | none => exact Nat.le_refl _
  | some k =>
    dsimp only
    split
    · exact Nat.le_succ _
    · exact Nat.le_refl _

omit [Payload α] in
/-- So does giving up. -/
theorem changes_giveUp (s : Session α) (w : Waiting) :
    ∃ c, s.supply.changes ≤ c ∧ (s.giveUp w).supply = { s.supply with changes := c } := by
  obtain ⟨c, hc⟩ := supply_giveUp s w
  refine ⟨c, ?_, hc⟩
  rw [show c = (s.giveUp w).supply.changes by rw [hc]]
  obtain ⟨known, continuous, hagain⟩ := s.watchAgain_eq_arm w.watcher.object w.lack.fallback
  unfold giveUp
  rw [supply_conclude, hagain]
  cases ho : s.object? w.watcher.object with
  | none => rw [arm_of_object?_eq_none ho]
  | some o =>
    rw [arm_of_object? ho]
    exact changes_withdraw s _

omit [Suite] [Payload α] in
@[simp] theorem now_arm (s : Session α) (id : ObjectId) (known : Name) (continuous : Bool) :
    (s.arm id known continuous).now = s.now := by
  have hwithdraw : ∀ number, (s.withdraw number).now = s.now := fun number => by
    cases number <;> rfl
  cases ho : s.object? id with
  | none => rw [arm_of_object?_eq_none ho]
  | some o =>
    rw [arm_of_object? ho]
    exact hwithdraw _

omit [Payload α] in
theorem same_giveUp (s : Session α) (w : Waiting) :
    (s.giveUp w).waiting = s.waiting ∧ (s.giveUp w).now = s.now := by
  have hagain : (s.watchAgain w.watcher.object w.lack.fallback).waiting = s.waiting ∧
      (s.watchAgain w.watcher.object w.lack.fallback).now = s.now := by
    obtain ⟨known, continuous, hagain⟩ := s.watchAgain_eq_arm w.watcher.object w.lack.fallback
    simp [hagain]
  unfold giveUp
  refine ⟨(waiting_conclude _ _ _ _ _ _).trans hagain.1, ?_⟩
  unfold conclude
  split <;> exact hagain.2

/-- The waits of which the deadline has come are given up one after the other. -/
theorem goes_giveUpAll (s : Session α) (pre ws : List Waiting)
    (hw : s.waiting = pre ++ ws) :
    GoesTo s ((ws.filter fun w => w.deadline ≤ s.now).foldl giveUp
      { s with waiting := pre ++ ws.filter fun w => !decide (w.deadline ≤ s.now) }) := by
  induction ws generalizing s pre with
  | nil =>
    rw [List.filter_nil, List.filter_nil, ← hw]
    exact .refl
  | cons w ws ih =>
    by_cases hdue : w.deadline ≤ s.now
    · simp only [List.filter_cons, hdue, decide_true, Bool.not_true, Bool.false_eq_true, if_true,
        if_false, List.foldl_cons]
      obtain ⟨hwaiting, hnow⟩ := same_giveUp { s with waiting := pre ++ ws } w
      have hrest := ih ({ s with waiting := pre ++ ws }.giveUp w) pre hwaiting
      rw [giveUp_with_waiting { s with waiting := pre ++ ws }]
      simp only [hnow] at hrest ⊢
      exact .head ⟨.giveUp hw hdue, changes_giveUp { s with waiting := pre ++ ws } w⟩ hrest
    · simp only [List.filter_cons, hdue, decide_false, Bool.not_false, Bool.false_eq_true, if_true,
        if_false]
      rw [List.append_cons]
      exact ih s (pre ++ [w]) (by rw [hw, List.append_cons])

theorem goes_expire (s : Session α) : GoesTo s s.expire := by
  unfold expire
  rw [List.partition_eq_filter_filter]
  exact (goes_giveUpAll s [] s.waiting rfl).trans (goes_settle _)

theorem goes_elapseUntil (stop : Session α → Bool) (s : Session α) (ms : Nat) :
    GoesTo s (s.elapseUntil stop ms).2 :=
  elapseUntil_induction (P := GoesTo s) stop
    (fun s' t h => (h.tail ⟨.time s' t, s'.supply.changes, Nat.le_refl _, rfl⟩).trans
      (goes_expire _)) ms .refl

theorem goes_elapse (s : Session α) (ms : Nat) : GoesTo s (s.elapse ms) :=
  (goes_settle s).trans (goes_elapseUntil _ _ ms)

theorem InStep.passesTo (h : s.InStep) (hp : s.PassesTo s') : s'.InStep := by
  induction hp with
  | refl => exact h
  | tail _ hstep ih => exact ih.passes hstep

/-! ### Nothing at work -/

/-- An object of which nothing is at work is spared, whatever goes on. -/
theorem InStep.spares_passesTo (h : s.InStep) (hrest : ∀ x : Watcher, x.object = id → ¬ s.AtWork x)
    (hp : s.PassesTo s') : Spares id s s' := by
  induction hp with
  | refl => exact .of_objects rfl rfl rfl
  | tail hreach hstep ih =>
    rcases (h.passesTo hreach).passes_cases hstep id with
      hspares | ⟨p, hp, hl, _⟩ | ⟨w, pre, post, hw, hl, _⟩
    · exact ih.trans hspares
    · exact absurd (ih.atWork hl (.pending p hp rfl)) (hrest _ hl)
    · exact absurd (ih.atWork hl (.waiting w (by simp [hw]) rfl)) (hrest _ hl)

/-- Nobody else comes to be at work. -/
theorem InStep.alone_passesTo (h : s.InStep) (halone : ∀ x, s.AtWork x → x.object = id)
    (hp : s.PassesTo s') : ∀ x, s'.AtWork x → x.object = id := by
  intro x hx
  by_contra hne
  have hrest : ∀ y : Watcher, y.object = x.object → ¬ s.AtWork y := fun y hy hwork =>
    hne (hy.symm.trans (halone y hwork))
  exact hrest x rfl ((h.spares_passesTo hrest hp).atWork rfl hx)

theorem InStep.spares_elapse (h : s.InStep) (hrest : ∀ x : Watcher, x.object = id → ¬ s.AtWork x)
    (ms : Nat) : Spares id s (s.elapse ms) :=
  h.spares_passesTo hrest (goes_elapse s ms).passesTo

/-! ### Nothing to come -/

/-- Nothing comes to an object: it does not wait for what is lacking, and nothing that is served
answers an interest of it. Its watch may be armed. -/
structure Undisturbed (s : Session α) (id : ObjectId) : Prop where
  no_wait : ∀ w ∈ s.waiting, w.watcher.object ≠ id
  no_answer : ∀ p ∈ s.network.pending, p.listener.object = id → s.network.answer? p = none

omit [Payload α] in
/-- An answer is to an interest, from what is served. -/
theorem answer?_congr {n n' : Network Watcher} {p p' : Pending Watcher} {c : Nat}
    (hsupply : n'.supply = { n.supply with changes := c }) (hinterest : p'.interest = p.interest) :
    n'.answer? p' = n.answer? p := by
  unfold Network.answer?
  rw [hsupply, hinterest]
  rfl

theorem Undisturbed.goes (hu : s.Undisturbed id) (h : s.InStep) (hgoes : s.Goes s') :
    s'.Undisturbed id ∧ s'.object? id = s.object? id := by
  obtain ⟨hpasses, c, -, hc⟩ := hgoes
  rcases h.passes_cases hpasses id with hspares | ⟨p, hp, hl, _, rfl⟩ | ⟨w, pre, post, hw, hl, _⟩
  · refine ⟨⟨fun w hw hl => ?_, fun p hp hl => ?_⟩, hspares.object?_eq⟩
    · exact hu.no_wait w ((hspares.waiting_iff w hl).mp hw) hl
    · rw [answer?_congr hc rfl]
      exact hu.no_answer p ((hspares.pending_iff p hl).mp hp) hl
  · -- The look at the interest is in vain.
    have hdeliver : s.deliver p = { s with network := s.network.stall p.id s.supply.changes } := by
      rw [deliver, hu.no_answer p hp hl]
    rw [hdeliver] at hc ⊢
    refine ⟨⟨hu.no_wait, fun p' hp' hl' => ?_⟩, rfl⟩
    obtain ⟨p₀, hp₀, hsame⟩ := List.mem_map.mp hp'
    have hkept : p'.interest = p₀.interest ∧ p'.listener = p₀.listener := by
      rw [← hsame]
      split <;> exact ⟨rfl, rfl⟩
    rw [answer?_congr hc hkept.1]
    exact hu.no_answer p₀ hp₀ (hkept.2 ▸ hl')
  · exact absurd hl (hu.no_wait w (by simp [hw]))

theorem Undisturbed.object?_elapse (hu : s.Undisturbed id) (h : s.InStep) (ms : Nat) :
    (s.elapse ms).object? id = s.object? id := by
  suffices hall : ∀ t, s.GoesTo t → t.Undisturbed id ∧ t.object? id = s.object? id from
    (hall _ (goes_elapse s ms)).2
  intro t hto
  induction hto with
  | refl => exact ⟨hu, rfl⟩
  | tail hreach hstep ih =>
    obtain ⟨hu', hobj⟩ := ih.1.goes (h.passesTo (GoesTo.passesTo hreach)) hstep
    exact ⟨hu', hobj.trans ih.2⟩

end Session
end NamedContent
