import NamedContent.Proofs.Object.Apart

/-!
# What a watch makes of an answer

An answer that is handed to a watch confirms nothing, and the watch replies with its next interest
(`hand_of_reissue`); or it confirms a version, which is read. A version that was read completely is
adopted before the watch replies (`proceed_of_complete`), one that could not be read is not
(`proceed_of_error`).

What is pending for an armed watch is the interest of its query (`InStep.own`). It is looked at
again when the watch has replied with another one (`InStep.ready_of_reissue`), and rests when it was
looked at in vain (`InStep.stalled_of_stall`). Arming expresses it (`pending_arm`).
-/

namespace NamedContent
namespace Session

variable {α : Type} {s s' : Session α} {id : ObjectId} {o : VersionedObject α} {q : ActiveQuery}
  {k : InterestId} {p p' : Pending Watcher} {f : Fragment}

/-! ### Answers -/

section

variable [Suite] [Payload α]

theorem deliver_of_answer (hget : s.supply.get p.interest = .ok (some f)) :
    s.deliver p = s.hand p f := by
  have hanswer : s.network.answer? p = some f := by
    unfold Network.answer?
    rw [show s.network.supply.find p.interest = .ok (some f) from Supply.find_of_get hget]
  rw [deliver, hanswer]

theorem deliver_of_nothing (hget : s.supply.get p.interest = .ok none) :
    s.deliver p = { s with network := s.network.stall p.id s.supply.changes } := by
  have hanswer : s.network.answer? p = none := by
    unfold Network.answer?
    rw [show s.network.supply.find p.interest = .ok none from Supply.find_of_get hget]
  rw [deliver, hanswer]

/-- An answer that confirms nothing: the watch replies with the next interest. -/
theorem hand_of_reissue (ho : s.object? id = some o) (hl : p.listener = ⟨id, q.generation⟩)
    {i : Interest} {w : Watch} (hbatch : o.watch.handleBatch q.generation [f] = (.reissue i, w)) :
    s.hand p f = (s.setWatch id w).reply p.id s.supply.changes (.reissue i) := by
  unfold hand
  simp only [hl, ho, hbatch]

/-- An answer that confirms a version: it is read. -/
theorem hand_of_confirmed (ho : s.object? id = some o) (hl : p.listener = ⟨id, q.generation⟩)
    {t : Confirmed} {w : Watch}
    (hbatch : o.watch.handleBatch q.generation [f] = (.confirmed t, w)) :
    s.hand p f = (s.setWatch id w).proceed ⟨id, q.generation⟩ p.id s.supply.changes
      (t.version?.map Version.toComponent) (Reading.ofConfirmed s.supply o.keys t) := by
  unfold hand
  simp only [hl, ho, hbatch]
  rfl

omit [Payload α] in
/-- A version that was read completely is adopted, and then the watch goes on or becomes idle. -/
theorem proceed_of_complete (ho : s.object? id = some o) (g : Nat) (k : InterestId) (seen : Nat)
    (token : Option Component) (a : Adoption α) {next : Option Interest} {w : Watch}
    (hnext : nextInterest { o with state := (o.state.adopt a).2 } g token (.ok ()) = (next, w)) :
    s.proceed ⟨id, g⟩ k seen token (.ok (.complete a)) =
      ((s.modifyState id fun _ => (o.state.adopt a).2).setWatch id w).reply k seen
        (replyOf next) := by
  have hobj : (s.modifyState id fun _ => (o.state.adopt a).2).object? id =
      some { o with state := (o.state.adopt a).2 } := object?_modifyObject ho _
  unfold proceed conclude
  simp only [adopt_eq ho, hobj, hnext]

omit [Payload α] in
/-- A version that could not be read is rejected or asked for again. -/
theorem proceed_of_error (ho : s.object? id = some o) (g : Nat) (k : InterestId) (seen : Nat)
    (token : Option Component) (e : ObjectError) {next : Option Interest} {w : Watch}
    (hnext : nextInterest o g token (.error e) = (next, w)) :
    s.proceed ⟨id, g⟩ k seen token (.error e : Except ObjectError (Reading α)) =
      (s.setWatch id w).reply k seen (replyOf next) := by
  unfold proceed conclude
  simp only [ho, hnext]

omit [Payload α] in
/-- After a version was adopted, a continuous watch asks for the versions after it. -/
theorem nextInterest_of_adopted (hw : o.watch.active = some q)
    (hcontinuous : o.watch.continuous = true) {known : Name}
    (hknown : o.state.knownName = .ok known)
    (token : Option Component) :
    nextInterest o q.generation token (.ok ()) = (some (.nextVersion known),
      { o.watch with
        active := some { q with known, interest := .nextVersion known }, exclusions := [] }) := by
  unfold nextInterest
  simp only [hknown, Watch.confirmed, Watch.query?_of_active hw, if_pos hcontinuous]

omit [Payload α] in
/-- After a version turned out to be unreadable, a watch asks again without it. -/
theorem nextInterest_of_unreadable (hw : o.watch.active = some q) {e : ObjectError}
    (he : e.isUnreadable = true) (c : Component) :
    ∃ exclusions, nextInterest o q.generation (some c) (.error e) =
      (some (q.interest.excluding c),
        { o.watch with
          active := some { q with interest := q.interest.excluding c }, exclusions }) := by
  refine ⟨(Watch.exclude q o.watch.exclusions c).2, ?_⟩
  unfold nextInterest
  simp only [he, Watch.reject, Watch.query?_of_active hw]
  rfl

end

/-! ### The interest of a watch -/

/-- Nothing is pending for an object whose watch is idle. -/
theorem InStep.not_pending_of_idle (h : s.InStep) (ho : s.object? id = some o)
    (hidle : o.watch.active = none) : ∀ p ∈ s.network.pending, p.listener.object ≠ id := by
  intro p hp hl
  obtain ⟨q, hq, -⟩ := h.asked p hp
  rw [(active_of_query? (hl ▸ ho) hq).1] at hidle
  cases hidle

/-- What is pending for an object is the interest of its armed query. -/
theorem InStep.own (h : s.InStep) (ho : s.object? id = some o) (hw : o.watch.active = some q)
    (hp : p ∈ s.network.pending) (hl : p.listener.object = id) :
    p.listener = ⟨id, q.generation⟩ ∧ p.interest = q.interest := by
  obtain ⟨q', hq', hinterest⟩ := h.asked p hp
  obtain ⟨hw', hg⟩ := active_of_query? (hl ▸ ho) hq'
  obtain rfl : q = q' := Option.some.inj (hw.symm.trans hw')
  refine ⟨?_, hinterest⟩
  rw [← hl, hg]

/-- There is no more than one. -/
theorem InStep.id_eq_of_own (h : s.InStep) (ho : s.object? id = some o)
    (hw : o.watch.active = some q) (hp : p ∈ s.network.pending) (hl : p.listener.object = id)
    (hp' : p' ∈ s.network.pending) (hl' : p'.listener.object = id) : p'.id = p.id := by
  have howns := h.owns p.id p.listener (.pending p hp rfl rfl)
  refine howns.id_eq hp' ?_
  rw [(h.own ho hw hp hl).1, (h.own ho hw hp' hl').1]

/-- So a change of it is a change of all that is pending for the object. -/
theorem InStep.eq_of_modify (h : s.InStep) (ho : s.object? id = some o)
    (hw : o.watch.active = some q) (hp : p ∈ s.network.pending) (hl : p.listener.object = id)
    (change : Pending Watcher → Pending Watcher) (hchange : ∀ p, (change p).listener = p.listener) :
    ∀ p' ∈ (s.network.modify p.id change).pending, p'.listener.object = id →
      ∃ p₀ ∈ s.network.pending, p₀.listener.object = id ∧ p' = change p₀ := by
  intro p' hp' hl'
  obtain ⟨p₀, hp₀, rfl⟩ := List.mem_map.mp hp'
  have hl₀ : p₀.listener.object = id := by
    split at hl'
    · rwa [hchange] at hl'
    · exact hl'
  exact ⟨p₀, hp₀, hl₀, if_pos (h.id_eq_of_own ho hw hp hl hp₀ hl₀)⟩

/-- After a reply with another interest it can be looked at. -/
theorem InStep.ready_of_reissue (h : s.InStep) (s' : Session α) (ho : s.object? id = some o)
    (hw : o.watch.active = some q) (hp : p ∈ s.network.pending) (hl : p.listener.object = id)
    (hnetwork : s'.network = s.network) {i : Interest} (hne : i ≠ q.interest) (seen : Nat) :
    ∀ p' ∈ (s'.reply p.id seen (.reissue i)).network.pending, p'.listener.object = id →
      p'.standing = .ready := by
  intro p' hp' hl'
  unfold reply at hp'
  rw [hnetwork] at hp'
  obtain ⟨p₀, hp₀, hl₀, rfl⟩ := h.eq_of_modify ho hw hp hl
    (fun p =>
      { p with interest := i, standing := if i = p.interest then .stalled seen else .ready })
    (fun _ => rfl) p' hp' hl'
  refine if_neg ?_
  rw [(h.own ho hw hp₀ hl₀).2]
  exact hne

/-- After a look in vain it is stalled. -/
theorem InStep.stalled_of_stall (h : s.InStep) (ho : s.object? id = some o)
    (hw : o.watch.active = some q) (hp : p ∈ s.network.pending) (hl : p.listener.object = id)
    (seen : Nat) : ∀ p' ∈ (s.network.stall p.id seen).pending, p'.listener.object = id →
      p'.standing = .stalled seen := by
  intro p' hp' hl'
  obtain ⟨p₀, _, _, rfl⟩ := h.eq_of_modify ho hw hp hl
    (fun p => { p with standing := .stalled seen }) (fun _ => rfl) p' hp' hl'
  rfl

/-- While a watch waits for something its interest is busy. -/
theorem InStep.busy_of_later (h : s.InStep) (ho : s.object? id = some o)
    (hw : o.watch.active = some q) (hp : p ∈ s.network.pending) (hl : p.listener.object = id)
    (seen : Nat) : ∀ p' ∈ (s.reply p.id seen .later).network.pending, p'.listener.object = id →
      p'.standing = .busy := by
  intro p' hp' hl'
  obtain ⟨p₀, _, _, rfl⟩ := h.eq_of_modify ho hw hp hl (fun p => { p with standing := .busy })
    (fun _ => rfl) p' hp' hl'
  rfl

/-! ### Arming -/

/-- An object that is armed: its interest gets the next number. -/
@[simp] theorem object?_arm (ho : s.object? id = some o) (known : Name) (continuous : Bool) :
    (s.arm id known continuous).object? id = some
      { o with
        watch := armedWatch o.watch.cancel.2 known continuous
          ⟨(s.cancelWatch id).network.expressed + 1⟩ } := by
  rw [arm_eq ho]
  exact object?_modifyObject (s := { s.cancelWatch id with network :=
    ((s.cancelWatch id).network.express (.nextVersion known) ⟨id, o.watch.generation + 1⟩).2 })
    (object?_cancelWatch ho) _

theorem pending_arm (ho : s.object? id = some o) (known : Name) (continuous : Bool) :
    (s.arm id known continuous).network.pending = (s.cancelWatch id).network.pending ++
      [⟨⟨(s.cancelWatch id).network.expressed + 1⟩, .nextVersion known,
        ⟨id, o.watch.generation + 1⟩, .ready⟩] := by
  rw [arm_eq ho]
  rfl

/-- After arming, what is pending for the object can be looked at. -/
theorem InStep.ready_of_arm (h : s.InStep) (ho : s.object? id = some o) (known : Name)
    (continuous : Bool) : ∀ p ∈ (s.arm id known continuous).network.pending,
      p.listener.object = id → p.standing = .ready := by
  intro p hp hl
  rw [pending_arm ho, List.mem_append, List.mem_singleton] at hp
  rcases hp with hp | rfl
  · have hcancel := (h.cancelWatch id).inStep
    exact absurd hl (hcancel.not_pending_of_idle (object?_cancelWatch ho) rfl p hp)
  · rfl

/-- Arming leaves what serves the network, and what is waited for, as cancelling does. -/
theorem arm_same (ho : s.object? id = some o) (known : Name) (continuous : Bool) :
    (s.arm id known continuous).supply = (s.cancelWatch id).supply ∧
      (s.arm id known continuous).waiting = (s.cancelWatch id).waiting := by
  rw [arm_eq ho]
  exact ⟨rfl, rfl⟩

@[simp] theorem waiting_arm (s : Session α) (id : ObjectId) (known : Name) (continuous : Bool) :
    (s.arm id known continuous).waiting = s.waiting := by
  cases ho : s.object? id with
  | none => rw [arm_of_object?_eq_none ho]
  | some o =>
    obtain ⟨c, pending, h⟩ := s.withdraw_eq (o.watch.active.bind ActiveQuery.id)
    simp only [arm_of_object? ho, Watch.arm, Watch.cancel, h]
    rfl

variable [Suite] [Payload α]

/-- Arming leaves all else at rest. -/
theorem sole_arm (ho : s.object? id = some o) (hrest : (s.cancelWatch id).step? = none)
    (known : Name) (continuous : Bool) : (s.arm id known continuous).Sole id := by
  obtain ⟨hwaits, hothers⟩ := step?_eq_none_iff.mp hrest
  obtain ⟨hsupply, hwaiting⟩ := arm_same ho known continuous
  constructor
  case waits =>
    rw [hwaiting, hsupply]
    exact hwaits
  case others =>
    intro p hp hl
    rw [pending_arm ho, List.mem_append, List.mem_singleton] at hp
    rcases hp with hp | rfl
    · have hno := hothers p hp
      unfold Network.isReady at hno ⊢
      rw [show (s.arm id known continuous).network.supply = (s.cancelWatch id).network.supply from
        hsupply]
      exact hno
    · exact absurd rfl hl

omit [Suite] [Payload α] in
/-- Settling has fuel for the square of the number of fragments that are served. -/
theorem fuel_le (hp : p ∈ s.network.pending) :
    (s.supply.size + 2) * (s.supply.size + 2) ≤ s.settleFuel := by
  have hpending := List.length_pos_of_mem hp
  unfold settleFuel
  dsimp only
  rw [Nat.mul_assoc]
  exact Nat.le_mul_of_pos_left _ (by omega)

end Session
end NamedContent
