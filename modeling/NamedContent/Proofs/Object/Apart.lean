import NamedContent.Proofs.Object.Rearming

/-!
# Objects are served apart from each other

A step of serving looks at one pending interest, or at one thing that is waited for. It acts on the
object that is listening, and spares all others: their values and watches, their interests and what
they wait for stay as they are (`Spares`). So a step spares an object, or it looks at an interest of
the object, or it looks again for what the object waits for (`InStep.step_cases`). A measure that no
step increases, and that each look at an interest of the object decreases, bounds how often the
object is handed an answer (`callsIn_le`).

While all else rests (`Sole`), every step looks at an interest of one object. Then serving comes to
rest if each look leaves less to do (`settleIn_of_decreasing`).
-/

namespace NamedContent
namespace Session

variable {α : Type} {s s' s'' : Session α} {id : ObjectId} {o : VersionedObject α} {x : Watcher}
  {k : InterestId}

/-- An object, its interests and what it waits for are as they were. -/
structure Spares (id : ObjectId) (s s' : Session α) : Prop where
  object?_eq : s'.object? id = s.object? id
  pending_iff : ∀ p : Pending Watcher, p.listener.object = id →
    (p ∈ s'.network.pending ↔ p ∈ s.network.pending)
  waiting_iff : ∀ w : Waiting, w.watcher.object = id → (w ∈ s'.waiting ↔ w ∈ s.waiting)

namespace Spares

theorem trans (h : Spares id s s') (h' : Spares id s' s'') : Spares id s s'' where
  object?_eq := h'.object?_eq.trans h.object?_eq
  pending_iff p hp := (h'.pending_iff p hp).trans (h.pending_iff p hp)
  waiting_iff w hw := (h'.waiting_iff w hw).trans (h.waiting_iff w hw)

theorem of_objects (hobj : s'.object? id = s.object? id)
    (hpending : s'.network.pending = s.network.pending) (hwaiting : s'.waiting = s.waiting) :
    Spares id s s' where
  object?_eq := hobj
  pending_iff p _ := by rw [hpending]
  waiting_iff w _ := by rw [hwaiting]

end Spares

/-! ### Parts of a step -/

theorem spares_modifyObject (hx : x.object ≠ id)
    (change : VersionedObject α → VersionedObject α) :
    Spares id s (s.modifyObject x.object change) := by
  refine .of_objects ?_ rfl rfl
  simp [hx.symm]

theorem spares_adopt (hx : x.object ≠ id) (a : Adoption α) :
    Spares id s (s.adopt x.object a).2 := by
  cases ho : s.object? x.object with
  | none =>
    rw [adopt_of_object?_eq_none ho]
    exact .of_objects rfl rfl rfl
  | some o =>
    rw [adopt_eq ho]
    exact spares_modifyObject hx _

/-- A change of interests that are not of the object. -/
theorem spares_modify (hk : ∀ p ∈ s.network.pending, p.id = k → p.listener.object ≠ id)
    (change : Pending Watcher → Pending Watcher) (hchange : ∀ p, (change p).listener = p.listener) :
    Spares id s { s with network := s.network.modify k change } where
  object?_eq := rfl
  pending_iff p hp := by
    constructor
    · intro hmem
      obtain ⟨p₀, hp₀, rfl⟩ := List.mem_map.mp hmem
      split at hp
      · next hid =>
        rw [hchange] at hp
        exact absurd hp (hk p₀ hp₀ hid)
      · next hid =>
        rw [if_neg hid]
        exact hp₀
    · intro hmem
      exact List.mem_map.mpr ⟨p, hmem, if_neg fun hid => hk p hmem hid hp⟩
  waiting_iff _ _ := Iff.rfl

/-- A reply for an interest that is not of the object. -/
theorem spares_reply (hk : ∀ p ∈ s.network.pending, p.id = k → p.listener.object ≠ id) (seen : Nat)
    (r : Reply) : Spares id s (s.reply k seen r) := by
  cases r with
  | reissue i => exact spares_modify hk _ fun _ => rfl
  | later => exact spares_modify hk _ fun _ => rfl
  | retire =>
    refine ⟨rfl, fun p hp => ?_, fun _ _ => Iff.rfl⟩
    rw [show (s.reply k seen .retire).network.pending = s.network.pending.filter _ from rfl,
      List.mem_filter, bne_iff_ne]
    exact and_iff_left_of_imp fun hmem hid => hk p hmem hid hp

/-- Others begin to wait, or end to. -/
theorem spares_with_waiting {ws : List Waiting}
    (hws : ∀ w : Waiting, w.watcher.object = id → (w ∈ ws ↔ w ∈ s.waiting)) :
    Spares id s { s with waiting := ws } :=
  ⟨rfl, fun _ _ => Iff.rfl, hws⟩

theorem spares_wait {w : Waiting} (hw : w.watcher.object ≠ id) :
    Spares id s { s with waiting := s.waiting ++ [w] } := by
  refine spares_with_waiting fun v hv => ?_
  rw [List.mem_append, List.mem_singleton]
  refine ⟨fun hmem => hmem.resolve_right ?_, .inl⟩
  rintro rfl
  exact hw hv

variable [Suite]

theorem spares_conclude (hx : x.object ≠ id)
    (hk : ∀ p ∈ s.network.pending, p.id = k → p.listener.object ≠ id) (seen : Nat)
    (token : Option Component) (outcome : Except ObjectError Unit) :
    Spares id s (s.conclude x k seen token outcome) := by
  unfold conclude
  split
  · exact spares_reply hk seen .retire
  · next o _ =>
    obtain ⟨next, watch⟩ := nextInterest o x.generation token outcome
    have hwatch := spares_modifyObject (s := s) hx fun o => { o with watch }
    exact hwatch.trans (spares_reply (s := s.setWatch x.object watch) hk seen _)

theorem spares_proceed (hx : x.object ≠ id)
    (hk : ∀ p ∈ s.network.pending, p.id = k → p.listener.object ≠ id) (seen : Nat)
    (token : Option Component) (reading : Except ObjectError (Reading α)) :
    Spares id s (s.proceed x k seen token reading) := by
  unfold proceed
  split
  · exact spares_conclude hx hk seen token _
  · next a =>
    refine (spares_adopt hx a).trans (spares_conclude hx ?_ seen token _)
    rw [network_adopt]
    exact hk
  · next lack =>
    split
    · exact spares_reply hk seen .retire
    · next o _ =>
      let w : Waiting :=
        { watcher := x, id := k, seen, token, lack, checked := s.supply.changes
          deadline := s.now + max (s.patience o lack) 1 }
      have hwait : Spares id s { s with waiting := s.waiting ++ [w] } := spares_wait hx
      exact hwait.trans
        (spares_reply (s := { s with waiting := s.waiting ++ [w] }) hk seen .later)

variable [Payload α]

theorem spares_resume {w : Waiting} (hx : w.watcher.object ≠ id)
    (hk : ∀ p ∈ s.network.pending, p.id = w.id → p.listener.object ≠ id) :
    Spares id s (s.resume w) := by
  cases ho : s.object? w.watcher.object with
  | none =>
    unfold resume
    rw [ho]
    exact spares_reply hk w.seen .retire
  | some o =>
    rcases resume_cases ho with hres | hres
    · rw [hres]
      exact spares_wait (by exact hx)
    · rw [hres]
      exact spares_proceed hx hk w.seen w.token _

theorem spares_hand {p : Pending Watcher} (hx : p.listener.object ≠ id)
    (hk : ∀ p' ∈ s.network.pending, p'.id = p.id → p'.listener.object ≠ id) (f : Fragment) :
    Spares id s (s.hand p f) := by
  unfold hand
  split
  · exact spares_reply hk _ .retire
  · next o _ =>
    obtain ⟨outcome, watch⟩ := o.watch.handleBatch p.listener.generation [f]
    have hwatch : Spares id s (s.setWatch p.listener.object watch) := spares_modifyObject hx _
    have hk' : ∀ p' ∈ (s.setWatch p.listener.object watch).network.pending, p'.id = p.id →
        p'.listener.object ≠ id := hk
    cases outcome with
    | stale => exact hwatch.trans (spares_reply hk' _ .retire)
    | reissue i => exact hwatch.trans (spares_reply hk' _ (.reissue i))
    | confirmed t => exact hwatch.trans (spares_proceed hx hk' _ _ _)

theorem spares_deliver {p : Pending Watcher} (hx : p.listener.object ≠ id)
    (hk : ∀ p' ∈ s.network.pending, p'.id = p.id → p'.listener.object ≠ id) :
    Spares id s (s.deliver p) := by
  unfold deliver
  split
  · exact spares_modify hk _ fun _ => rfl
  · exact spares_hand hx hk _

theorem InStep.spares_deliver (h : s.InStep) {p : Pending Watcher} (hp : p ∈ s.network.pending)
    (hid : p.listener.object ≠ id) : Spares id s (s.deliver p) := by
  have howns := h.owns p.id p.listener (.pending p hp rfl rfl)
  refine Session.spares_deliver hid fun p' hp' hpid => ?_
  rw [howns.listener_eq hp' hpid]
  exact hid

/-! ### Steps -/

omit [Suite] [Payload α] in
/-- What is waited for does not have to be looked for again exactly if it was since the last
change. -/
theorem takeChanged_eq_none_iff {changes : Nat} {ws : List Waiting} :
    takeChanged changes ws = none ↔ ∀ w ∈ ws, w.checked = changes := by
  induction ws with
  | nil => exact ⟨nofun, fun _ => rfl⟩
  | cons w ws ih =>
    rw [takeChanged, List.forall_mem_cons, ← ih]
    by_cases hw : w.checked = changes
    · rw [if_neg (not_not_intro hw)]
      simp [hw]
    · rw [if_pos hw]
      simp [hw]

/-- Nothing can be served exactly if nothing that is waited for has to be looked for again, and no
interest can be looked at. -/
theorem step?_eq_none_iff : s.step? = none ↔
    (∀ w ∈ s.waiting, w.checked = s.supply.changes) ∧
      ∀ p ∈ s.network.pending, s.network.isReady p = false := by
  rw [← takeChanged_eq_none_iff]
  unfold step? Network.next?
  cases takeChanged s.supply.changes s.waiting with
  | some found => simp
  | none => simp

/-- A step spares an object, or it is a step of serving the object. -/
theorem InStep.step_cases (h : s.InStep) (id : ObjectId) (hs : s.step? = some s') :
    Spares id s s' ∨
      (∃ p ∈ s.network.pending, p.listener.object = id ∧ s.network.isReady p = true ∧
        s' = s.deliver p) ∨
      ∃ w pre post, s.waiting = pre ++ w :: post ∧ w.watcher.object = id ∧
        w.checked ≠ s.supply.changes ∧ s' = { s with waiting := pre ++ post }.resume w := by
  rcases step?_cases hs with ⟨w, pre, post, hw, hchanged, rfl⟩ | ⟨p, hmem, hready, rfl⟩
  · have hmem : w ∈ s.waiting := by simp [hw]
    by_cases hid : w.watcher.object = id
    · exact .inr (.inr ⟨w, pre, post, hw, hid, hchanged, rfl⟩)
    · left
      have howns := h.owns w.id w.watcher (.waiting w hmem rfl rfl)
      have hk : ∀ p ∈ s.network.pending, p.id = w.id → p.listener.object ≠ id := by
        intro p hp hpid
        rw [howns.listener_eq hp hpid]
        exact hid
      refine .trans (spares_with_waiting fun v hv => ?_)
        (spares_resume (s := { s with waiting := pre ++ post }) hid hk)
      have hne : v ≠ w := by
        rintro rfl
        exact hid hv
      rw [hw]
      simp [hne]
  · by_cases hid : p.listener.object = id
    · exact .inr (.inl ⟨p, hmem, hid, hready, rfl⟩)
    · exact .inl (h.spares_deliver hmem hid)

/-! ### Calls of a listener -/

/-- The next step of serving hands an answer to the watch of an object. -/
def calls (s : Session α) (id : ObjectId) : Bool :=
  (takeChanged s.supply.changes s.waiting).isNone &&
    s.network.next?.any fun p => p.listener.object == id && (s.network.answer? p).isSome

/-- How often the watch of an object is handed an answer in so many steps of serving. -/
def callsIn (id : ObjectId) : (steps : Nat) → Session α → Nat
  | 0, _ => 0
  | steps + 1, s =>
    match s.step? with
    | some s' => (s.calls id).toNat + callsIn id steps s'
    | none => 0

theorem step?_of_calls (h : s.calls id = true) : ∃ p ∈ s.network.pending,
    p.listener.object = id ∧ s.network.isReady p = true ∧ s.step? = some (s.deliver p) := by
  obtain ⟨htake, hcalled⟩ := Bool.and_eq_true_iff.mp h
  rw [Option.isNone_iff_eq_none] at htake
  cases hnext : s.network.next? with
  | none =>
    rw [hnext] at hcalled
    cases hcalled
  | some p =>
    rw [hnext, Option.any_some] at hcalled
    refine ⟨p, List.mem_of_find?_eq_some hnext, beq_iff_eq.mp (Bool.and_eq_true_iff.mp hcalled).1,
      List.find?_some hnext, ?_⟩
    unfold step?
    rw [htake, hnext]
    rfl

/-- A measure that no step increases and each look decreases bounds the calls. -/
theorem callsIn_le {P : Session α → Nat → Prop}
    (hstep : ∀ s s' left, P s left → s.step? = some s' → ∃ less, less ≤ left ∧ P s' less)
    (hlook : ∀ s left, P s left → ∀ p ∈ s.network.pending, p.listener.object = id →
      s.network.isReady p = true → ∃ less, less < left ∧ P (s.deliver p) less)
    {left : Nat} (h : P s left) (steps : Nat) : callsIn id steps s ≤ left := by
  induction steps generalizing s left with
  | zero => exact Nat.zero_le left
  | succ steps ih =>
    unfold callsIn
    split
    · next s' hs =>
      cases hc : s.calls id with
      | false =>
        obtain ⟨less, hless, hP⟩ := hstep s s' left h hs
        have hrest := ih hP
        rw [Bool.toNat_false]
        omega
      | true =>
        obtain ⟨p, hp, hl, hready, hdeliver⟩ := step?_of_calls hc
        obtain rfl : s.deliver p = s' := Option.some.inj (hdeliver.symm.trans hs)
        obtain ⟨less, hless, hP⟩ := hlook s left h p hp hl hready
        have hrest := ih hP
        rw [Bool.toNat_true]
        omega
    · exact Nat.zero_le left

/-! ### While all else rests -/

/-- Nothing that an object waits for has to be looked for again. -/
def Quiet (s : Session α) (id : ObjectId) : Prop :=
  ∀ w ∈ s.waiting, w.watcher.object = id → w.checked = s.supply.changes

/-- Whatever an object waits for, a look for it finds the same lacking. -/
def Lacks (s : Session α) (id : ObjectId) (keys : KeyRing) : Prop :=
  ∀ w ∈ s.waiting, w.watcher.object = id →
    (Reading.pursue s.supply keys w.lack : Except ObjectError (Reading α)) = .ok (.lacking w.lack)

/-- Then it goes on waiting. -/
theorem resume_of_lacking {w : Waiting} (ho : s.object? w.watcher.object = some o)
    (h : (Reading.pursue s.supply o.keys w.lack : Except ObjectError (Reading α)) =
      .ok (.lacking w.lack)) :
    s.resume w = { s with waiting := s.waiting ++ [{ w with checked := s.supply.changes }] } := by
  unfold resume
  simp only [ho, h, decide_true, if_true]

/-- Nothing can be served but interests of one object. -/
structure Sole (s : Session α) (id : ObjectId) : Prop where
  waits : ∀ w ∈ s.waiting, w.checked = s.supply.changes
  others : ∀ p ∈ s.network.pending, p.listener.object ≠ id → s.network.isReady p = false

/-- A look at an interest of the object leaves the others at rest. -/
theorem Sole.deliver (h : s.Sole id) (hstep : s.InStep) {p : Pending Watcher}
    (hp : p ∈ s.network.pending) (hl : p.listener.object = id) (hquiet : (s.deliver p).Quiet id) :
    (s.deliver p).Sole id := by
  have hsupply := supply_deliver s p
  constructor
  case waits =>
    intro w hw
    by_cases hid : w.watcher.object = id
    · exact hquiet w hw hid
    · have hspares : Spares w.watcher.object s (s.deliver p) :=
        hstep.spares_deliver hp (hl ▸ Ne.symm hid)
      rw [hsupply]
      exact h.waits w ((hspares.waiting_iff w rfl).mp hw)
  case others =>
    intro p' hp' hid
    have hspares : Spares p'.listener.object s (s.deliver p) :=
      hstep.spares_deliver hp (hl ▸ Ne.symm hid)
    have hrest := h.others p' ((hspares.pending_iff p' rfl).mp hp') hid
    unfold Network.isReady at hrest ⊢
    rw [show (s.deliver p).network.supply = s.network.supply from hsupply]
    exact hrest

/-- Serving comes to rest if all else rests and each look at an interest of the object leaves less
to do. -/
theorem settleIn_of_decreasing {P : Session α → Nat → Prop}
    (hsteps : ∀ s left, P s left → s.InStep ∧ s.Quiet id)
    (hlook : ∀ s left, P s left → ∀ p ∈ s.network.pending, p.listener.object = id →
      s.network.isReady p = true → ∃ less, less < left ∧ P (s.deliver p) less)
    {left fuel : Nat} (h : P s left) (hsole : s.Sole id) (hfuel : left < fuel) :
    (s.settleIn fuel).step? = none := by
  induction fuel generalizing s left with
  | zero => exact absurd hfuel (Nat.not_lt_zero _)
  | succ fuel ih =>
    cases hs : s.step? with
    | none =>
      rw [settleIn_of_step?_eq_none hs]
      exact hs
    | some s' =>
      rw [settleIn_succ_of_step hs]
      rcases step?_cases hs with ⟨w, pre, post, hw, hchanged, -⟩ | ⟨p, hp, hready, rfl⟩
      · exact absurd (hsole.waits w (by simp [hw])) hchanged
      · have hl : p.listener.object = id := by
          by_contra hne
          rw [hsole.others p hp hne] at hready
          cases hready
        obtain ⟨less, hless, hP⟩ := hlook s left h p hp hl hready
        exact ih hP (hsole.deliver (hsteps s left h).1 hp hl (hsteps _ _ hP).2) (by omega)

end Session
end NamedContent
