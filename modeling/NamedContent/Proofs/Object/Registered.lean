import NamedContent.Proofs.Object.FirstAnswer
import NamedContent.Proofs.Object.Rearming
import NamedContent.Proofs.Object.Stages

/-!
# Every armed watch is registered

Watches and network stay in step whatever is done with the objects, whatever is published and
however time passes, also while a call waits or a save is in flight (`InStep.happen`). So in every
state of every run an armed watch has its interest pending, and no other interest is pending
(`registered_of_run`).

Dropping an object is not among the things that are done. An object that is dropped while its
listener waits lives on until the wait is over, and the wait may then leave an interest behind that
belongs to nobody.

Below the root that is not so (`not_always_registered`): an object that has adopted a version of the
root name has no name to go on from, its listener retires without a word to the watch, and the watch
stays armed for ever without an interest.
-/

namespace NamedContent
namespace Session

section

variable [Suite] {α : Type} [Payload α] {s s' : Session α} {id : ObjectId} {o : VersionedObject α}

/-! ### Objects come and go -/

omit [Suite] [Payload α] in
theorem object?_adding_eq (h : s.Numbered) (fresh : VersionedObject α) (i : ObjectId) :
    (s.adding fresh).object? i = if i = ⟨s.opened⟩ then some fresh else s.object? i := by
  split
  · next hi =>
    rw [hi]
    exact object?_adding h fresh
  · next hi =>
    show List.lookup i (s.objects ++ [_]) = List.lookup i s.objects
    generalize s.objects = objects
    induction objects with
    | nil => rw [List.nil_append, List.lookup_cons, beq_eq_false_iff_ne.mpr hi]
    | cons e es ih => rw [List.cons_append, List.lookup_cons, List.lookup_cons, ih]

omit [Suite] [Payload α] in
/-- A new object with an idle watch. -/
theorem InStep.adding (h : s.InStep) (hidle : o.watch.active = none) : (s.adding o).InStep := by
  refine h.of_same
    { numbered := fun e he => ?_, opened_le := Nat.le_succ _, expressed_le := Nat.le_refl _
      query_eq := fun x => ?_, ages := fun i hi o' ho' => ⟨o', ?_, Nat.le_refl _⟩
      keeps := keeps_of_eq rfl, waiting := .refl _ }
  · rcases List.mem_append.mp he with he | he
    · exact Nat.lt_succ_of_lt (h.numbered e he)
    · rw [List.mem_singleton.mp he]
      exact Nat.lt_succ_self _
  · unfold query?
    rw [object?_adding_eq h.numbered]
    split
    · next hx =>
      have hnone : s.object? x.object = none := by
        cases ho : s.object? x.object with
        | none => rfl
        | some o' =>
          have hlt := h.numbered.lt_opened ho
          rw [hx] at hlt
          exact absurd hlt (Nat.lt_irrefl _)
      rw [hnone, Option.bind_some, Watch.query?, hidle]
      rfl
    · rfl
  · rw [object?_adding_eq h.numbered, if_neg fun hi' => ?_] at ho'
    · exact ho'
    · rw [hi'] at hi
      exact Nat.lt_irrefl _ hi

omit [Suite] [Payload α] in
theorem object?_remove (s : Session α) (id i : ObjectId) :
    (s.remove id).object? i = if i = id then none else s.object? i := by
  show List.lookup i (s.objects.filter fun e => e.1 != id) =
    if i = id then none else List.lookup i s.objects
  generalize s.objects = objects
  induction objects with
  | nil => split <;> rfl
  | cons e es ih =>
    by_cases he : e.1 = id
    · rw [List.filter_cons_of_neg (by simp [he]), ih]
      split
      · rfl
      · next hi =>
        rw [List.lookup_cons, he, beq_eq_false_iff_ne.mpr hi]
    · rw [List.filter_cons_of_pos (by simp [he]), List.lookup_cons, ih, List.lookup_cons]
      cases hi : i == e.1 with
      | true =>
        dsimp only
        rw [if_neg fun h => he ((beq_iff_eq.mp hi).symm.trans h)]
      | false => rfl

omit [Suite] [Payload α] in
/-- An object that is not armed leaves nothing behind in the network. -/
theorem InStep.remove (h : s.InStep) (hidle : ∀ x : Watcher, x.object = id → s.query? x = none) :
    (s.remove id).InStep := by
  refine h.of_same
    { numbered := fun e he => h.numbered e (List.mem_filter.mp he).1
      opened_le := Nat.le_refl _, expressed_le := Nat.le_refl _
      query_eq := fun x => ?_, ages := fun i _ o' ho' => ⟨o', ?_, Nat.le_refl _⟩
      keeps := keeps_of_eq rfl, waiting := .refl _ }
  · by_cases hx : x.object = id
    · rw [hidle x hx]
      exact query?_of_object?_eq_none ((object?_remove s _ _).trans (if_pos hx))
    · unfold query?
      rw [object?_remove, if_neg hx]
  · rw [object?_remove] at ho'
    split at ho'
    · cases ho'
    · exact ho'

omit [Suite] [Payload α] in
theorem InStep.drop (h : s.InStep) (id : ObjectId) : (s.drop id).InStep := by
  have hcancel := (h.cancelWatch id).inStep
  unfold Session.drop
  dsimp only
  split
  · exact hcancel
  · refine hcancel.remove fun x hx => ?_
    rw [← hx, query?_cancelWatch]

/-! ### Updates -/

/-- Whatever happens while a call waits, it keeps watches and network in step. -/
structure Waits.InStep (waits : Waits α) : Prop where
  looking : ∀ ms (s : Session α), s.InStep → (waits.looking ms s).InStep
  fetching : ∀ ms (s : Session α), s.InStep → (waits.fetching ms s).InStep

variable {waits : Waits α}

theorem inStep_alone : (Waits.alone : Waits α).InStep :=
  ⟨fun ms _ h => h.elapse ms, fun ms _ h => h.elapse ms⟩

omit [Suite] [Payload α] in
theorem InStep.await (h : s.InStep) (hwaits : waits.InStep) (timeout : Nat)
    (find : Supply → Except NetworkError (Option Fragment)) :
    (s.await waits timeout find).2.InStep := by
  unfold Session.await
  split
  · exact hwaits.looking timeout s h
  · exact h

theorem InStep.finishWith (h : s.InStep) (hwaits : waits.InStep)
    (reading : Except ObjectError (Reading α)) : (s.finishWith waits id o reading).2.InStep := by
  unfold Session.finishWith
  split
  · exact h
  · exact h.of_same (h.same_adopt id _)
  · next lack =>
    have hfetched := hwaits.fetching (s.patience o lack) s h
    dsimp only
    split
    · exact hfetched
    · exact hfetched.of_same (hfetched.same_adopt id _)
    · exact (hfetched.watchAgain id _).inStep

theorem InStep.updateWith (h : s.InStep) (hwaits : waits.InStep) (id : ObjectId) (timeout : Nat) :
    (s.updateWith waits id timeout).2.InStep := by
  unfold Session.updateWith onObject
  split
  · next o _ =>
    dsimp only
    split
    · exact h
    · next known _ =>
      have hawait := h.await hwaits timeout (·.findVersion (.nextVersion known))
      split
      · next heq =>
        rw [heq] at hawait
        exact hawait
      · next heq =>
        rw [heq] at hawait
        exact hawait
      · next heq =>
        rw [heq] at hawait
        exact hawait.finishWith hwaits _
  · exact h

theorem InStep.updateNameWith (h : s.InStep) (hwaits : waits.InStep) (id : ObjectId) (name : Name)
    (publisher : Option Publisher) : (s.updateNameWith waits id name publisher).2.InStep := by
  unfold Session.updateNameWith onObject
  split
  · next o _ =>
    have hawait := h.await hwaits o.timeout (·.openVersioned? name publisher)
    dsimp only
    split
    · next heq =>
      rw [heq] at hawait
      exact hawait
    · next heq =>
      rw [heq] at hawait
      exact hawait.finishWith hwaits _
    · next heq =>
      rw [heq] at hawait
      exact (hawait.watchAgain id name).inStep
  · exact h

theorem InStep.updateFragmentWith (h : s.InStep) (hwaits : waits.InStep) (id : ObjectId)
    (f : Fragment) : (s.updateFragmentWith waits id f).2.InStep := by
  unfold Session.updateFragmentWith onObject
  split
  · dsimp only
    split
    · exact h.finishWith hwaits _
    · split
      · exact h
      · exact h.finishWith hwaits _
  · exact h

omit [Suite] [Payload α] in
theorem InStep.updateInBackgroundWhen (h : s.InStep) (running : Bool) (id : ObjectId)
    (known : Option Name) (continuous : Bool) :
    (s.updateInBackgroundWhen running id known continuous).2.InStep := by
  unfold Session.updateInBackgroundWhen onObject
  split
  · dsimp only
    split
    · exact h.armWhen running id _ continuous
    · exact h
  · exact h

omit [Suite] [Payload α] in
theorem InStep.updateInBackground (h : s.InStep) (id : ObjectId) (known : Option Name)
    (continuous : Bool) : (s.updateInBackground id known continuous).2.InStep :=
  h.updateInBackgroundWhen true id known continuous

omit [Suite] [Payload α] in
theorem InStep.modifyState (h : s.InStep) (id : ObjectId)
    (change : ObjectState α → ObjectState α) : (s.modifyState id change).InStep :=
  h.of_same (InStep.modifyObject h id fun _ => rfl)

omit [Suite] [Payload α] in
theorem InStep.setPayload (h : s.InStep) (id : ObjectId) (y : α) : (s.setPayload id y).InStep :=
  h.modifyState id _

theorem InStep.giveFirstValueWith (h : s.InStep) (hwaits : waits.InStep) (id : ObjectId)
    (c : ObjectConfig α) : (s.giveFirstValueWith waits id c).2.InStep := by
  unfold Session.giveFirstValueWith
  split
  · exact h
  · exact h.setPayload id _
  · split
    · exact h
    · exact h.updateNameWith hwaits id _ _
  · exact h.updateFragmentWith hwaits id _

omit [Suite] [Payload α] in
theorem InStep.attaching (h : s.InStep) (repository : Option StoreId) :
    (s.attaching repository).InStep := by
  cases repository with
  | none => exact h
  | some store => exact h.withSupply _

theorem InStep.openObjectWith (h : s.InStep) (hwaits : waits.InStep) (keys : KeyRing)
    (repository : Option StoreId) (c : ObjectConfig α) :
    (s.openObjectWith waits keys repository c).2.InStep := by
  have hgive := ((h.attaching repository).adding (o := prepare keys repository c) rfl)
    |>.giveFirstValueWith hwaits ⟨s.opened⟩ c
  rw [openObjectWith_eq]
  split
  · next heq =>
    rw [heq] at hgive
    exact hgive
  · next heq =>
    rw [heq] at hgive
    exact hgive.drop _

theorem InStep.openObject (h : s.InStep) (keys : KeyRing) (repository : Option StoreId)
    (c : ObjectConfig α) : (s.openObject keys repository c).2.InStep :=
  h.openObjectWith inStep_alone keys repository c

/-! ### Saving -/

omit [Payload α] in
theorem InStep.writePath (h : s.InStep) {path : WritePath}
    (hpath : s.writePath id o = .ok (path, s')) : s'.InStep := by
  rcases writePath_cases hpath with ⟨_, rfl⟩ | ⟨_, supply, _, _, _, rfl⟩
  · exact h
  · exact (h.withSupply supply).of_same ((h.withSupply supply).modifyObject id fun _ => rfl)

omit [Suite] [Payload α] in
theorem InStep.registerBase (h : s.InStep) {path : WritePath} {name : Name}
    (hregister : s.registerBase path name = .ok s') : s'.InStep := by
  obtain ⟨supply, _, rfl⟩ := registerBase_eq_ok_iff.mp hregister
  exact h.withSupply supply

omit [Payload α] in
theorem InStep.ready (h : s.InStep) {b : Name} {path : WritePath}
    (hready : s.Ready id o b path s') : s'.InStep := by
  obtain ⟨opened, hpath, hregister⟩ := hready
  exact (h.writePath hpath).registerBase hregister

omit [Payload α] in
/-- No stage of a save touches a watch. -/
theorem InStep.saves (h : s.InStep) {run : SaveRun α}
    (hbefore : ∀ s : Session α, s.InStep → (run.before s).InStep)
    (hafter : ∀ s : Session α, s.InStep → (run.after s).InStep) {gone : Bool}
    {version : Option Version} {outstanding : Option Interest} {outcome : Except ObjectError Bool}
    (hs : s.Saves run id gone version outstanding outcome s') : s'.InStep := by
  cases hs with
  | vain => exact h
  | unregistered o save path s₁ e ho hpath => exact h.writePath hpath
  | unencoded o save path t e hbegun => exact h.ready hbegun.ready
  | writes o save path t payload hbegun hencode hwrites =>
    have hready := h.ready hbegun.ready
    cases hwrites with
    | unready => exact hready
    | fails w e supply => exact (hbefore _ hready).withSupply supply
    | records w ack supply =>
      exact (hafter _ ((hbefore _ hready).withSupply supply)).modifyState id _

omit [Suite] [Payload α] in
theorem InStep.setSaveMode (h : s.InStep) (id : ObjectId) (mode : SaveMode) :
    (s.setSaveMode id mode).2.InStep := by
  have hchosen : (s.modifyObject id fun o => { o with saveMode := some mode }).InStep :=
    h.of_same (h.modifyObject id fun _ => rfl)
  unfold Session.setSaveMode onObject
  split
  · dsimp only
    split
    · exact hchosen
    · split
      · exact hchosen
      · exact h
  · exact h

omit [Payload α] in
theorem InStep.openWritePath (h : s.InStep) (id : ObjectId) : (s.openWritePath id).2.InStep := by
  unfold Session.openWritePath onObject
  split
  · next o _ =>
    dsimp only
    split
    · exact h
    · next path s₁ hpath =>
      have hopened := h.writePath hpath
      split
      · exact hopened
      · next s₂ hregister =>
        cases hb : o.state.requireBase with
        | error e => simp [hb, Except.bind] at hregister
        | ok b =>
          rw [hb] at hregister
          exact hopened.registerBase hregister
  · exact h

omit [Payload α] in
theorem InStep.setupSave (h : s.InStep) (id : ObjectId) (mode : SaveMode) :
    (s.setupSave id mode).2.InStep := by
  have hmode := h.setSaveMode id mode
  unfold Session.setupSave
  split
  · next heq =>
    rw [heq] at hmode
    exact hmode
  · next heq =>
    rw [heq] at hmode
    exact hmode.openWritePath id

/-! ### Runs -/

/-- What can happen in a session: calls on its objects, time that passes, and others who change what
the network serves. A call that waits carries what happens while it looks for a version and while it
fetches what is lacking of one; a save what happens before the writing, and between the writing and
the recording. -/
inductive Event (α : Type) where
  | openObject (keys : KeyRing) (repository : Option StoreId) (config : ObjectConfig α)
      (looking fetching : List (Event α))
  | update (id : ObjectId) (timeout : Nat) (looking fetching : List (Event α))
  | updateName (id : ObjectId) (name : Name) (publisher : Option Publisher)
      (looking fetching : List (Event α))
  | updateFragment (id : ObjectId) (f : Fragment) (fetching : List (Event α))
  | updateInBackground (running : Bool) (id : ObjectId) (known : Option Name) (continuous : Bool)
  | cancelWatch (id : ObjectId)
  | setPayload (id : ObjectId) (y : α)
  | save (encode : α → Except ObjectError Octets) (id : ObjectId) (version : Option Version)
      (outstanding : Option Interest) (before after : List (Event α))
  | saveGone (id : ObjectId) (outstanding : Option Interest) (before after : List (Event α))
  | setSaveMode (id : ObjectId) (mode : SaveMode)
  | setupSave (id : ObjectId) (mode : SaveMode)
  | wait (ms : Nat)
  | waitUntil (stop : Session α → Bool) (ms : Nat)
  | publish (supply : Supply)

mutual

/-- The session after an event, whatever the caller was answered. -/
def happen (s : Session α) : Event α → Session α
  | .openObject keys repository config looking fetching =>
    (s.openObjectWith ⟨fun _ s => s.happenAll looking, fun _ s => s.happenAll fetching⟩ keys
      repository config).2
  | .update id timeout looking fetching =>
    (s.updateWith ⟨fun _ s => s.happenAll looking, fun _ s => s.happenAll fetching⟩ id timeout).2
  | .updateName id name publisher looking fetching =>
    (s.updateNameWith ⟨fun _ s => s.happenAll looking, fun _ s => s.happenAll fetching⟩ id name
      publisher).2
  | .updateFragment id f fetching =>
    (s.updateFragmentWith ⟨fun _ s => s, fun _ s => s.happenAll fetching⟩ id f).2
  | .updateInBackground running id known continuous =>
    (s.updateInBackgroundWhen running id known continuous).2
  | .cancelWatch id => s.cancelWatch id
  | .setPayload id y => s.setPayload id y
  | .save encode id version outstanding before after =>
    (s.saveRun ⟨encode, fun s => s.happenAll before, fun s => s.happenAll after⟩ id false version
      outstanding).2
  | .saveGone id outstanding before after =>
    (s.saveGoneRun ⟨fun x => .ok (Payload.encode x), fun s => s.happenAll before,
      fun s => s.happenAll after⟩ id outstanding).2
  | .setSaveMode id mode => (s.setSaveMode id mode).2
  | .setupSave id mode => (s.setupSave id mode).2
  | .wait ms => s.elapse ms
  | .waitUntil stop ms => (s.elapseUntil stop ms).2
  | .publish supply => s.withSupply supply

/-- The session after some events. -/
def happenAll (s : Session α) : List (Event α) → Session α
  | [] => s
  | e :: events => (s.happen e).happenAll events

end

mutual

theorem InStep.happen : (e : Event α) → ∀ {s : Session α}, s.InStep → (s.happen e).InStep
  | .openObject keys repository config looking fetching, _, h => by
    rw [Session.happen]
    exact h.openObjectWith ⟨fun _ _ h => h.happenAll looking, fun _ _ h => h.happenAll fetching⟩
      keys repository config
  | .update id timeout looking fetching, _, h => by
    rw [Session.happen]
    exact h.updateWith ⟨fun _ _ h => h.happenAll looking, fun _ _ h => h.happenAll fetching⟩ id
      timeout
  | .updateName id name publisher looking fetching, _, h => by
    rw [Session.happen]
    exact h.updateNameWith ⟨fun _ _ h => h.happenAll looking, fun _ _ h => h.happenAll fetching⟩ id
      name publisher
  | .updateFragment id f fetching, _, h => by
    rw [Session.happen]
    exact h.updateFragmentWith ⟨fun _ _ h => h, fun _ _ h => h.happenAll fetching⟩ id f
  | .updateInBackground running id known continuous, _, h => by
    rw [Session.happen]
    exact h.updateInBackgroundWhen running id known continuous
  | .cancelWatch id, _, h => by
    rw [Session.happen]
    exact (h.cancelWatch id).inStep
  | .setPayload id y, _, h => by
    rw [Session.happen]
    exact h.setPayload id y
  | .save encode id version outstanding before after, _, h => by
    rw [Session.happen]
    exact h.saves (fun _ h => h.happenAll before) (fun _ h => h.happenAll after)
      (saves_of_saveRun rfl)
  | .saveGone id outstanding before after, _, h => by
    rw [Session.happen]
    exact h.saves (fun _ h => h.happenAll before) (fun _ h => h.happenAll after)
      (saves_of_saveGoneRun rfl)
  | .setSaveMode id mode, _, h => by
    rw [Session.happen]
    exact h.setSaveMode id mode
  | .setupSave id mode, _, h => by
    rw [Session.happen]
    exact h.setupSave id mode
  | .wait ms, _, h => by
    rw [Session.happen]
    exact h.elapse ms
  | .waitUntil stop ms, _, h => by
    rw [Session.happen]
    exact h.elapseUntil stop ms
  | .publish supply, _, h => by
    rw [Session.happen]
    exact h.withSupply supply

theorem InStep.happenAll :
    (events : List (Event α)) → ∀ {s : Session α}, s.InStep → (s.happenAll events).InStep
  | [], _, h => by
    rw [Session.happenAll]
    exact h
  | e :: events, _, h => by
    rw [Session.happenAll]
    exact (h.happen e).happenAll events

end

/-! ### Registered watches -/

/-- The interest of an object's armed query is pending, under the number that the watch has noted,
for this arming of the watch. -/
def Registered (s : Session α) (id : ObjectId) (q : ActiveQuery) : Prop :=
  ∃ p, q.id = some p.id ∧ s.network.pending? p.id = some p ∧ p.listener = ⟨id, q.generation⟩ ∧
    p.interest = q.interest

omit [Suite] [Payload α] in
/-- A query of which something is pending is registered. -/
theorem InStep.registered_of_pending (h : s.InStep) {p : Pending Watcher}
    (hp : p ∈ s.network.pending) {q : ActiveQuery} (hq : s.query? p.listener = some q) :
    q.id = some p.id ∧ s.Registered p.listener.object q := by
  have hk := h.owns _ _ (.pending p hp rfl rfl)
  obtain ⟨j, hj⟩ := Option.isSome_iff_exists.mp (h.query _ q hq).1.id_isSome
  have hid : q.id = some p.id := by rw [hj, hk.number_eq j (.query q hq hj)]
  refine ⟨hid, ?_⟩
  obtain ⟨p', hfound⟩ : ∃ p', s.network.pending.find? (fun p₀ => p₀.id == p.id) = some p' :=
    Option.isSome_iff_exists.mp (List.find?_isSome.mpr ⟨p, hp, beq_self_eq_true _⟩)
  have hbeq := List.find?_some hfound
  have hid' : p'.id = p.id := beq_iff_eq.mp hbeq
  have hlistener : p'.listener = p.listener :=
    hk.listener_eq (List.mem_of_find?_eq_some hfound) hid'
  obtain ⟨q', hq', hinterest⟩ := h.asked p' (List.mem_of_find?_eq_some hfound)
  rw [hlistener, hq] at hq'
  obtain ⟨_, _, _, hgen⟩ := query?_eq_some_iff.mp hq
  refine ⟨p', by rw [hid, hid'], by rw [hid', Network.pending?, hfound], ?_, ?_⟩
  · rw [hlistener, hgen]
  · rw [hinterest, Option.some.inj hq']

/-- In every state of every run, whoever does what with whichever objects: an armed watch is
registered, unless it asks for versions below the root; and every pending interest is that of a
registered watch. So of an object that is not armed nothing is pending, and of one that is armed
nothing but its query, which below the root may be gone. -/
theorem registered_of_run (supply : Supply) (events : List (Event α)) :
    (∀ id o q, ((start supply).happenAll events).object? id = some o → o.watch.active = some q →
      q.known.base.isRoot = false → ((start supply).happenAll events).Registered id q) ∧
    ∀ p ∈ ((start supply).happenAll events).network.pending, ∃ o q,
      ((start supply).happenAll events).object? p.listener.object = some o ∧
        o.watch.active = some q ∧ q.id = some p.id ∧
        ((start supply).happenAll events).Registered p.listener.object q := by
  have h : ((start supply).happenAll events).InStep := (inStep_start supply).happenAll events
  generalize (start supply).happenAll events = s at h
  refine ⟨fun id o q ho hw hroot => ?_, fun p hp => ?_⟩
  · have hq : s.query? ⟨id, q.generation⟩ = some q := query?_eq_some_iff.mpr ⟨o, ho, hw, rfl⟩
    obtain ⟨p, hp, hlistener⟩ := (h.query _ q hq).2 hroot
    have hregistered := (h.registered_of_pending hp (q := q) (by rw [hlistener, hq])).2
    rwa [hlistener] at hregistered
  · obtain ⟨q, hq, _⟩ := h.asked p hp
    obtain ⟨o, ho, hw, _⟩ := query?_eq_some_iff.mp hq
    exact ⟨o, q, ho, hw, h.registered_of_pending hp hq⟩

end

/-! ### Below the root -/

/-- A version of the root name itself. -/
def rootVersion : Fragment where
  name := (Name.root.addVersion ⟨5⟩).firstSegmentName
  info := ⟨⟨.replicate 32 1⟩, 0, .data, some 0, .named .root none, none⟩
  content := [0x81, 5]
  signature := ⟨.replicate 64 0⟩

/-- An object without a name is armed for versions of the root name, and one is published. -/
def armedBelowRoot : List (Event (List UInt32)) :=
  [.openObject ⟨⟨.replicate 32 2⟩, [], []⟩ none {} [] [],
    .updateInBackground true ⟨0⟩ (some .root) false,
    .publish (unverified [rootVersion]), .wait 0]

theorem elapse_zero [Suite] {α : Type} [Payload α] (s : Session α) : s.elapse 0 = s.settle := by
  rw [elapse, elapseUntil]
  rfl

/-- An armed watch is not always registered: the object has adopted the version below the root, its
interest is retired, and the watch is still armed. -/
theorem not_always_registered :
    ¬ ∀ (supply : Supply) (events : List (Event (List UInt32))) (id : ObjectId)
        (o : VersionedObject (List UInt32)) (q : ActiveQuery),
      ((start supply).happenAll events).object? id = some o → o.watch.active = some q →
        ((start supply).happenAll events).Registered id q := by
  intro h
  have hrun : (start (unverified [])).happenAll armedBelowRoot =
      ((start (unverified [])).happenAll (armedBelowRoot.take 3)).settle := elapse_zero _
  have hpending : ((start (unverified [])).happenAll armedBelowRoot).network.pending = [] := by
    rw [hrun]
    rfl
  have hobj : ∃ o q, ((start (unverified [])).happenAll armedBelowRoot).object? ⟨0⟩ = some o ∧
      o.watch.active = some q := by
    rw [hrun]
    exact ⟨_, _, rfl, rfl⟩
  obtain ⟨o, q, ho, hw⟩ := hobj
  obtain ⟨p, _, hp, _⟩ := h _ _ _ o q ho hw
  rw [Network.pending?, hpending] at hp
  cases hp

end Session
end NamedContent
