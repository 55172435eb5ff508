import Mathlib.Logic.Basic
import NamedContent.Object.Update
import NamedContent.Proofs.Object.Reading
import NamedContent.Proofs.Object.State

/-!
# Serving watches and letting time pass

What a step of serving keeps is kept by settling (`settleIn_induction`), and what waiting and the
giving up of waits keep is kept by letting time pass (`elapseUntil_induction`).

A session is *at rest* when no watch waits and no interest can be looked at. Settling then does
nothing, and time passes without any other change (`AtRest.elapseUntil_eq`).
-/

namespace NamedContent
namespace Session

variable {α : Type} [Suite] [Payload α]

/-! ### Waiting on and adopting -/

/-- A watch that waits goes on waiting, or acts on how far its version can be read now. -/
theorem resume_cases {s : Session α} {o : VersionedObject α} {w : Waiting}
    (h : s.object? w.watcher.object = some o) :
    s.resume w =
        { s with waiting := s.waiting ++ [{ w with checked := s.supply.changes }] } ∨
      s.resume w = s.proceed w.watcher w.id w.seen w.token
        (Reading.pursue s.supply o.keys w.lack) := by
  unfold resume
  simp only [h]
  exact ite_eq_or_eq _ _ _

omit [Suite] [Payload α] in
/-- Adopting a version changes the state of the object only. -/
theorem adopt_eq {s : Session α} {id : ObjectId} {o : VersionedObject α}
    (h : s.object? id = some o) (a : Adoption α) :
    (s.adopt id a).2 = s.modifyState id fun _ => (o.state.adopt a).2 := by
  unfold adopt
  rw [h]

omit [Suite] [Payload α] in
theorem adopt_of_object?_eq_none {s : Session α} {id : ObjectId} (h : s.object? id = none)
    (a : Adoption α) : s.adopt id a = (false, s) := by
  unfold adopt
  rw [h]

omit [Suite] [Payload α] in
@[simp] theorem network_adopt (s : Session α) (id : ObjectId) (a : Adoption α) :
    (s.adopt id a).2.network = s.network := by
  unfold adopt
  split <;> rfl

omit [Suite] [Payload α] in
@[simp] theorem waiting_adopt (s : Session α) (id : ObjectId) (a : Adoption α) :
    (s.adopt id a).2.waiting = s.waiting := by
  unfold adopt
  split <;> rfl

omit [Suite] [Payload α] in
theorem adopt_of_version_eq_none {s : Session α} {id : ObjectId} {o : VersionedObject α}
    (ho : s.object? id = some o) (hnone : o.state.version = none) (a : Adoption α) :
    s.adopt id a = (true, s.modifyState id fun _ => o.state.take a) := by
  unfold adopt
  rw [ho]
  dsimp only
  rw [ObjectState.adopt_of_version_eq_none hnone]

/-! ### The supply

Serving does not change the supply. Giving up a wait counts as a change of it, but leaves its
content as it is. -/

omit [Suite] [Payload α] in
@[simp] theorem supply_modifyObject (s : Session α) (id : ObjectId)
    (change : VersionedObject α → VersionedObject α) :
    (s.modifyObject id change).supply = s.supply :=
  rfl

omit [Suite] [Payload α] in
@[simp] theorem supply_setWatch (s : Session α) (id : ObjectId) (watch : Watch) :
    (s.setWatch id watch).supply = s.supply :=
  rfl

omit [Suite] [Payload α] in
@[simp] theorem supply_reply (s : Session α) (id : InterestId) (seen : Nat) (r : Reply) :
    (s.reply id seen r).supply = s.supply := by
  cases r <;> rfl

omit [Suite] [Payload α] in
@[simp] theorem supply_adopt (s : Session α) (id : ObjectId) (a : Adoption α) :
    (s.adopt id a).2.supply = s.supply := by
  unfold adopt
  split <;> rfl

omit [Payload α] in
@[simp] theorem waiting_conclude (s : Session α) (watcher : Watcher) (id : InterestId) (seen : Nat)
    (token : Option Component) (outcome : Except ObjectError Unit) :
    (s.conclude watcher id seen token outcome).waiting = s.waiting := by
  unfold conclude
  split <;> rfl

omit [Payload α] in
@[simp] theorem supply_conclude (s : Session α) (watcher : Watcher) (id : InterestId) (seen : Nat)
    (token : Option Component) (outcome : Except ObjectError Unit) :
    (s.conclude watcher id seen token outcome).supply = s.supply := by
  unfold conclude
  split <;> simp

omit [Payload α] in
@[simp] theorem supply_proceed (s : Session α) (watcher : Watcher) (id : InterestId) (seen : Nat)
    (token : Option Component) (reading : Except ObjectError (Reading α)) :
    (s.proceed watcher id seen token reading).supply = s.supply := by
  unfold proceed
  split
  · simp
  · simp
  · split
    · simp
    · rfl

@[simp] theorem supply_resume (s : Session α) (w : Waiting) : (s.resume w).supply = s.supply := by
  cases ho : s.object? w.watcher.object with
  | none =>
    unfold resume
    simp [ho]
  | some o =>
    rcases resume_cases ho with h | h
    · rw [h]
      rfl
    · simp [h]

@[simp] theorem supply_hand (s : Session α) (p : Pending Watcher) (f : Fragment) :
    (s.hand p f).supply = s.supply := by
  unfold hand
  dsimp only
  split
  · simp
  · split <;> simp

@[simp] theorem supply_deliver (s : Session α) (p : Pending Watcher) :
    (s.deliver p).supply = s.supply := by
  unfold deliver
  split
  · rfl
  · simp

theorem supply_step? {s s' : Session α} (h : s.step? = some s') : s'.supply = s.supply := by
  unfold step? at h
  split at h
  · cases h
    exact supply_resume ..
  · obtain ⟨p, _, rfl⟩ := Option.map_eq_some_iff.mp h
    exact supply_deliver s p

/-! ### What serving keeps -/

theorem settleIn_induction {P : Session α → Prop}
    (hstep : ∀ s s', P s → s.step? = some s' → P s') (fuel : Nat) {s : Session α} (h : P s) :
    P (s.settleIn fuel) := by
  induction fuel generalizing s with
  | zero => exact h
  | succ fuel ih =>
    rw [settleIn]
    split
    · next s' hs => exact ih (hstep s s' h hs)
    · exact h

/-- Settling with fuel is one step, if there is one, and settling on. -/
theorem settleIn_succ_of_step {s s' : Session α} (h : s.step? = some s') (fuel : Nat) :
    s.settleIn (fuel + 1) = s'.settleIn fuel := by
  rw [settleIn, h]

theorem settleIn_of_step?_eq_none {s : Session α} (h : s.step? = none) (fuel : Nat) :
    s.settleIn fuel = s := by
  cases fuel with
  | zero => rfl
  | succ fuel => rw [settleIn, h]

theorem elapseUntil_induction {P : Session α → Prop} (stop : Session α → Bool)
    (htick : ∀ s t, P s → P { s with now := t }.expire) (ms : Nat) {s : Session α} (h : P s) :
    P (s.elapseUntil stop ms).2 := by
  induction ms using Nat.strongRecOn generalizing s with
  | _ ms ih =>
    unfold elapseUntil
    split
    · exact h
    · split
      · exact h
      · next ms =>
        apply ih _ (by omega)
        exact htick s _ h

/-! ### Time and the supply -/

omit [Suite] [Payload α] in
/-- Withdrawing an interest touches the network only, and not what it serves. -/
theorem withdraw_eq (s : Session α) (number : Option InterestId) :
    ∃ c pending, s.withdraw number =
      { s with
        network := { s.network with supply := { s.supply with changes := c }, pending } } := by
  unfold withdraw Network.cancel
  cases number with
  | none => exact ⟨s.supply.changes, s.network.pending, rfl⟩
  | some k =>
    dsimp only
    split
    · exact ⟨_, _, rfl⟩
    · exact ⟨s.supply.changes, s.network.pending, rfl⟩

omit [Suite] [Payload α] in
/-- Where something is running, arming succeeds. -/
@[simp] theorem armWhen_true (s : Session α) (id : ObjectId) (known : Name) (continuous : Bool) :
    s.armWhen true id known continuous = (.ok (), s.arm id known continuous) := by
  unfold arm armWhen
  cases s.object? id <;> rfl

omit [Suite] [Payload α] in
theorem arm_of_object?_eq_none {s : Session α} {id : ObjectId} (h : s.object? id = none)
    (known : Name) (continuous : Bool) : s.arm id known continuous = s := by
  unfold arm armWhen
  rw [h]

omit [Suite] [Payload α] in
theorem arm_of_object? {s : Session α} {id : ObjectId} {o : VersionedObject α}
    (h : s.object? id = some o) (known : Name) (continuous : Bool) :
    s.arm id known continuous =
      let (query, withdrawn, watch) := o.watch.arm known continuous
      let s := s.withdraw withdrawn
      let (interestId, network) := s.network.express query.interest ⟨id, query.generation⟩
      let (_, watch) := watch.registered query.generation interestId
      { s with network }.setWatch id watch := by
  unfold arm armWhen
  rw [h]
  rfl

omit [Suite] [Payload α] in
theorem supply_arm (s : Session α) (id : ObjectId) (known : Name) (continuous : Bool) :
    ∃ c, (s.arm id known continuous).supply = { s.supply with changes := c } := by
  cases ho : s.object? id with
  | none => exact ⟨s.supply.changes, by rw [arm_of_object?_eq_none ho]⟩
  | some o =>
    obtain ⟨c, pending, h⟩ := s.withdraw_eq (o.watch.active.bind ActiveQuery.id)
    refine ⟨c, ?_⟩
    simp only [arm_of_object? ho, Watch.arm, Watch.cancel, h]
    rfl

omit [Suite] [Payload α] in
/-- A watch is armed again for the versions after the object's own name, or else after what is left
of a fallback. -/
theorem watchAgain_eq {s : Session α} {id : ObjectId} {o : VersionedObject α}
    (ho : s.object? id = some o) (fallback : Name) :
    ∃ known, s.watchAgain id fallback = s.arm id known o.watch.continuous ∧
      (o.state.knownName = .ok known ∨
        (∃ e, o.state.knownName = .error e) ∧ known = fallback.base) := by
  unfold watchAgain
  simp only [ho]
  cases hname : o.state.knownName with
  | ok n => exact ⟨n, rfl, .inl rfl⟩
  | error e => exact ⟨fallback.base, rfl, .inr ⟨⟨e, rfl⟩, rfl⟩⟩

omit [Suite] [Payload α] in
/-- Whatever it is armed for, what holds of every arming holds of arming again. -/
theorem watchAgain_eq_arm (s : Session α) (id : ObjectId) (fallback : Name) :
    ∃ known continuous, s.watchAgain id fallback = s.arm id known continuous := by
  cases ho : s.object? id with
  | none => exact ⟨fallback, false, by rw [watchAgain, ho, arm_of_object?_eq_none ho]⟩
  | some o =>
    obtain ⟨known, hagain, _⟩ := watchAgain_eq ho fallback
    exact ⟨known, o.watch.continuous, hagain⟩

omit [Suite] [Payload α] in
theorem supply_watchAgain (s : Session α) (id : ObjectId) (fallback : Name) :
    ∃ c, (s.watchAgain id fallback).supply = { s.supply with changes := c } := by
  obtain ⟨known, continuous, hagain⟩ := s.watchAgain_eq_arm id fallback
  rw [hagain]
  exact supply_arm ..

omit [Payload α] in
theorem supply_giveUp (s : Session α) (w : Waiting) :
    ∃ c, (s.giveUp w).supply = { s.supply with changes := c } := by
  unfold giveUp
  rw [supply_conclude]
  exact supply_watchAgain ..

@[simp] theorem supply_settleIn (s : Session α) (fuel : Nat) :
    (s.settleIn fuel).supply = s.supply := by
  apply settleIn_induction (P := fun s' => s'.supply = s.supply)
  · intro s₁ s₂ h hstep
    rw [supply_step? hstep, h]
  · rfl

@[simp] theorem supply_settle (s : Session α) : s.settle.supply = s.supply :=
  supply_settleIn s s.settleFuel

/-- Waits that are given up are counted as changes of the supply, and nothing else is. -/
theorem supply_expire (s : Session α) :
    ∃ c, s.expire.supply = { s.supply with changes := c } := by
  have hgive : ∀ (ws : List Waiting) (s : Session α),
      ∃ c, (ws.foldl giveUp s).supply = { s.supply with changes := c } := by
    intro ws
    induction ws with
    | nil => exact fun s => ⟨s.supply.changes, rfl⟩
    | cons w ws ih =>
      intro s
      obtain ⟨c, hc⟩ := supply_giveUp s w
      obtain ⟨d, hd⟩ := ih (s.giveUp w)
      exact ⟨d, by rw [List.foldl_cons, hd, hc]⟩
  unfold expire
  dsimp only
  rw [supply_settle]
  exact hgive _ _

theorem supply_elapseUntil (s : Session α) (stop : Session α → Bool) (ms : Nat) :
    ∃ c, (s.elapseUntil stop ms).2.supply = { s.supply with changes := c } := by
  apply elapseUntil_induction stop
    (P := fun s' => ∃ c, s'.supply = { s.supply with changes := c })
  · rintro s' t ⟨c, hc⟩
    obtain ⟨d, hd⟩ := supply_expire { s' with now := t }
    refine ⟨d, ?_⟩
    rw [hd]
    show { s'.supply with changes := d } = _
    rw [hc]
  · exact ⟨s.supply.changes, rfl⟩

theorem supply_elapse (s : Session α) (ms : Nat) :
    ∃ c, (s.elapse ms).supply = { s.supply with changes := c } := by
  obtain ⟨c, hc⟩ := supply_elapseUntil s.settle (fun _ => false) ms
  exact ⟨c, by rw [elapse, hc, supply_settle]⟩

/-- Waiting and then arming leaves the content of the supply as it is. -/
theorem supply_watchAgain_elapse (s : Session α) (ms : Nat) (id : ObjectId) (fallback : Name) :
    ∃ c, ((s.elapse ms).watchAgain id fallback).supply = { s.supply with changes := c } := by
  obtain ⟨c, hc⟩ := supply_watchAgain (s.elapse ms) id fallback
  obtain ⟨d, hd⟩ := supply_elapse s ms
  exact ⟨c, by rw [hc, hd]⟩

/-! ### Updates

Where nothing happens while a call waits, it finds nothing when the wait is over. -/

/-- Finish reading where nothing happens beside the call. -/
def finish (s : Session α) (id : ObjectId) (o : VersionedObject α)
    (reading : Except ObjectError (Reading α)) : Except ObjectError Bool × Session α :=
  match reading with
  | .error e => (.error e, s)
  | .ok (.complete version) =>
    let (moved, s) := s.adopt id version
    (.ok moved, s)
  | .ok (.lacking lack) =>
    (.ok false, (s.elapse (s.patience o lack)).watchAgain id lack.fallback)

theorem finishWith_alone {s : Session α} {id : ObjectId} {o : VersionedObject α}
    {reading : Except ObjectError (Reading α)}
    (hagain : ∀ lack, reading = .ok (.lacking lack) →
      (Reading.pursue s.supply o.keys lack : Except ObjectError (Reading α)) =
        .ok (.lacking lack)) :
    s.finishWith .alone id o reading = s.finish id o reading := by
  unfold finishWith finish Waits.alone
  rcases reading with e | a | lack
  · rfl
  · rfl
  · obtain ⟨c, hc⟩ := supply_elapse s (s.patience o lack)
    dsimp only
    rw [hc, Reading.pursue_of_changes, hagain lack rfl]

omit [Suite] [Payload α] in
/-- What is looked for is looked for at once, or when the wait is over. -/
theorem await_cases (waits : Waits α) (s : Session α) (timeout : Nat)
    (find : Supply → Except NetworkError (Option Fragment)) :
    ∃ t, s.await waits timeout find = (find t.supply, t) ∧
      (t = s ∨ t = waits.looking timeout s) := by
  unfold await
  split
  · exact ⟨_, rfl, .inr rfl⟩
  · exact ⟨s, rfl, .inl rfl⟩

theorem await_alone {s : Session α} {timeout : Nat}
    {find : Supply → Except NetworkError (Option Fragment)}
    (hfind : ∀ changes, find { s.supply with changes } = find s.supply) :
    s.await .alone timeout find =
      match find s.supply with
      | .ok none => (.ok none, s.elapse timeout)
      | found => (found, s) := by
  unfold await Waits.alone
  cases hfound : find s.supply with
  | error e => rfl
  | ok found =>
    cases found with
    | some f => rfl
    | none =>
      obtain ⟨c, hc⟩ := supply_elapse s timeout
      dsimp only
      rw [hc, hfind, hfound]

theorem update_eq (s : Session α) (id : ObjectId) (timeout : Nat) :
    s.update id timeout = s.onObject id false fun o =>
      match o.state.knownName with
      | .error e => (.error e, s)
      | .ok known =>
        match s.supply.findVersion (.nextVersion known) with
        | .error e => (.error (.network e), s)
        | .ok none => (.ok false, s.elapse timeout)
        | .ok (some f) =>
          s.finish id o (Reading.ofConfirmed s.supply o.keys (target f (.nextVersion known))) := by
  unfold update updateWith
  congr 1
  funext o
  cases o.state.knownName with
  | error e => rfl
  | ok known =>
    dsimp only
    rw [await_alone fun _ => Supply.findVersion_of_changes ..]
    cases s.supply.findVersion (.nextVersion known) with
    | error e => rfl
    | ok found =>
      cases found with
      | none => rfl
      | some f => exact finishWith_alone fun _ => Reading.ofConfirmed_again

theorem updateName_eq (s : Session α) (id : ObjectId) (name : Name)
    (publisher : Option Publisher) :
    s.updateName id name publisher = s.onObject id false fun o =>
      match s.supply.openVersioned? name publisher with
      | .error e => (.error (.network e), s)
      | .ok (some first) => s.finish id o (Reading.ofFirst s.supply o.keys first)
      | .ok none => (.ok false, (s.elapse o.timeout).watchAgain id name) := by
  unfold updateName updateNameWith
  congr 1
  funext o
  rw [await_alone fun _ => Supply.openVersioned?_of_changes ..]
  cases s.supply.openVersioned? name publisher with
  | error e => rfl
  | ok found =>
    cases found with
    | none => rfl
    | some first => exact finishWith_alone fun _ => Reading.ofFirst_again

theorem updateFragment_eq (s : Session α) (id : ObjectId) (f : Fragment) :
    s.updateFragment id f = s.onObject id false fun o =>
      if f.name.isVersionedFirstSegment then s.finish id o (Reading.ofFirst s.supply o.keys f)
      else
        match f.name.versioned? with
        | none => (.error (.unversioned f.name), s)
        | some versioned =>
          s.finish id o
            (Reading.pursue s.supply o.keys (.firstSegment versioned f.publisher)) := by
  unfold updateFragment updateFragmentWith
  congr 1
  funext o
  split
  · exact finishWith_alone fun _ => Reading.ofFirst_again
  · cases f.name.versioned? with
    | none => rfl
    | some versioned => exact finishWith_alone fun _ => Reading.pursue_again

omit [Payload α] [Suite] in
/-- Updating in the background is arming for the versions after the name that is given, or else
after the one that the object knows. -/
theorem updateInBackground_of_known {s : Session α} {id : ObjectId} {o : VersionedObject α}
    (ho : s.object? id = some o) (known : Option Name) {name : Name}
    (hknown : (known.map .ok).getD o.state.knownName = .ok name) (continuous : Bool) :
    s.updateInBackground id known continuous = (.ok (), s.arm id name continuous) := by
  unfold updateInBackground updateInBackgroundWhen onObject
  rw [ho]
  dsimp only
  rw [hknown]
  exact armWhen_true s id name continuous

theorem giveFirstValue_eq (s : Session α) (id : ObjectId) (c : ObjectConfig α) :
    s.giveFirstValue id c =
      match c.initial with
      | .empty => (.ok (), s)
      | .value x => (.ok (), s.setPayload id x)
      | .read publisher =>
        match c.name with
        | none => (.error .missingName, s)
        | some name =>
          let (outcome, s) := s.updateName id name publisher
          (outcome.map fun _ => (), s)
      | .fragment f =>
        let (outcome, s) := s.updateFragment id f
        (outcome.map fun _ => (), s) := rfl

/-- What an update comes to: nothing, or a version was read and is adopted if it moves the object
forward, or time passes, and then perhaps the watch is armed. -/
inductive Updates (s : Session α) (id : ObjectId) : Except ObjectError Bool → Session α → Prop where
  | stays {outcome : Except ObjectError Bool} (vain : outcome ≠ .ok true) : s.Updates id outcome s
  | adopts (a : Adoption α) : s.Updates id (.ok (s.adopt id a).1) (s.adopt id a).2
  | waits (ms : Nat) : s.Updates id (.ok false) (s.elapse ms)
  | leaves (ms : Nat) (fallback : Name) :
      s.Updates id (.ok false) ((s.elapse ms).watchAgain id fallback)

theorem updates_finish (s : Session α) (id : ObjectId) (o : VersionedObject α)
    (reading : Except ObjectError (Reading α)) :
    s.Updates id (s.finish id o reading).1 (s.finish id o reading).2 := by
  rcases reading with e | a | lack
  · exact .stays nofun
  · exact .adopts a
  · exact .leaves _ _

theorem updates_update (s : Session α) (id : ObjectId) (timeout : Nat) :
    s.Updates id (s.update id timeout).1 (s.update id timeout).2 := by
  rw [update_eq, onObject]
  split
  · split
    · exact .stays nofun
    · split
      · exact .stays nofun
      · exact .waits timeout
      · exact updates_finish ..
  · exact .stays nofun

theorem updates_updateName (s : Session α) (id : ObjectId) (name : Name)
    (publisher : Option Publisher) :
    s.Updates id (s.updateName id name publisher).1 (s.updateName id name publisher).2 := by
  rw [updateName_eq, onObject]
  split
  · split
    · exact .stays nofun
    · exact updates_finish ..
    · exact .leaves _ _
  · exact .stays nofun

theorem updates_updateFragment (s : Session α) (id : ObjectId) (f : Fragment) :
    s.Updates id (s.updateFragment id f).1 (s.updateFragment id f).2 := by
  rw [updateFragment_eq, onObject]
  split
  · split
    · exact updates_finish ..
    · split
      · exact .stays nofun
      · exact updates_finish ..
  · exact .stays nofun

/-- Updating reads only. -/
theorem Updates.supply_eq {s s' : Session α} {id : ObjectId} {outcome : Except ObjectError Bool}
    (h : s.Updates id outcome s') : ∃ c, s'.supply = { s.supply with changes := c } := by
  cases h with
  | stays => exact ⟨s.supply.changes, rfl⟩
  | adopts a => exact ⟨s.supply.changes, supply_adopt s id a⟩
  | waits ms => exact supply_elapse s ms
  | leaves ms fallback => exact supply_watchAgain_elapse s ms id fallback

/-! ### Expiry -/

theorem expire_of_waiting_nil {s : Session α} (h : s.waiting = []) : s.expire = s.settle := by
  obtain ⟨network, objects, opened, waiting, now⟩ := s
  have hw : waiting = [] := h
  subst hw
  rfl

/-- A single wait is given up, or nothing happens before settling. -/
theorem expire_of_waiting_singleton {s : Session α} {w : Waiting} (h : s.waiting = [w]) :
    s.expire = (giveUp { s with waiting := [] } w).settle ∨ s.expire = s.settle := by
  obtain ⟨network, objects, opened, waiting, now⟩ := s
  have hw : waiting = [w] := h
  subst hw
  by_cases hd : w.deadline ≤ now
  · left
    simp [expire, List.partition_eq_filter_filter, hd]
  · right
    simp [expire, List.partition_eq_filter_filter, hd]

/-! ### Sessions at rest -/

/-- Nothing can be served: no watch waits, and no interest can be looked at. -/
structure AtRest (s : Session α) : Prop where
  waiting_eq : s.waiting = []
  next?_eq : s.network.next? = none

namespace AtRest

variable {s : Session α}

theorem step?_eq (h : s.AtRest) : s.step? = none := by
  rw [step?, h.waiting_eq, takeChanged, h.next?_eq]
  rfl

theorem settleIn_eq (h : s.AtRest) (fuel : Nat) : s.settleIn fuel = s :=
  settleIn_of_step?_eq_none h.step?_eq fuel

theorem settle_eq (h : s.AtRest) : s.settle = s := h.settleIn_eq _

omit [Suite] [Payload α] in
theorem at_time (h : s.AtRest) (t : Nat) : { s with now := t }.AtRest := ⟨h.waiting_eq, h.next?_eq⟩

theorem expire_eq (h : s.AtRest) : s.expire = s := by
  rw [expire_of_waiting_nil h.waiting_eq, h.settle_eq]

/-- At rest time passes without any other change. -/
theorem elapseUntil_eq (h : s.AtRest) (stop : Session α → Bool) (ms : Nat) :
    ∃ t, (s.elapseUntil stop ms).2 = { s with now := t } := by
  suffices hs : ∃ t, (s.elapseUntil stop ms).2 = { s with now := t } ∧ s.AtRest from
    hs.imp fun _ ht => ht.1
  apply elapseUntil_induction stop (P := fun s' => ∃ t, s' = { s with now := t } ∧ s.AtRest)
  · rintro _ t ⟨_, rfl, hr⟩
    exact ⟨t, (hr.at_time t).expire_eq, hr⟩
  · exact ⟨s.now, rfl, h⟩

theorem elapse_eq (h : s.AtRest) (ms : Nat) : ∃ t, s.elapse ms = { s with now := t } := by
  rw [elapse, h.settle_eq]
  exact h.elapseUntil_eq _ ms

end AtRest

omit [Suite] [Payload α] in
/-- A session without pending interests and waits is at rest. -/
theorem atRest_of_nothing_pending {s : Session α} (hp : s.network.pending = [])
    (hw : s.waiting = []) : s.AtRest := by
  refine ⟨hw, ?_⟩
  rw [Network.next?, hp]
  rfl

end Session
end NamedContent
