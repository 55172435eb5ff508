import NamedContent.Proofs.Object.Registration

/-!
# Watches go on, wait and are armed anew

Serving keeps watches and network in step (`InStep.step`): a conclusion keeps the armed query and
its interest together (`InStep.conclude`), and so does a wait for what is lacking (`InStep.wait`).
Arming cancels what was armed before (`arm_eq`), so that whatever an earlier arming still waits for
concludes nothing (`InStep.conclude_stale`). Hence time may pass too (`InStep.elapseUntil`).
-/

namespace NamedContent

/-- An interest is not looked at while its listener has not replied. -/
theorem Network.ne_busy_of_isReady {ℓ : Type} {n : Network ℓ} {p : Pending ℓ}
    (h : n.isReady p = true) : p.standing ≠ .busy := by
  intro hbusy
  rw [isReady, hbusy] at h
  cases h

namespace Session

section

variable [Suite] {α : Type} {s s' : Session α} {id : ObjectId} {o : VersionedObject α}
  {k : InterestId} {x : Watcher} {q : ActiveQuery}

/-! ### Concluding -/

/-- What an arming that is not armed any more concludes changes nothing. -/
theorem InStep.conclude_stale (h : s.InStep) (hk : s.Owns k x) (hq : s.query? x = none)
    (seen : Nat) (token : Option Component) (outcome : Except ObjectError Unit) :
    s.Onward (s.conclude x k seen token outcome) := by
  unfold conclude
  cases ho : s.object? x.object with
  | none => exact h.onward_of_same (h.same_retire hk hq seen)
  | some o =>
    have hstale : o.watch.query? x.generation = none := (query?_of_object? ho).symm.trans hq
    simp only [nextInterest_of_stale hstale, replyOf]
    have hwatch := h.same_setWatch (w := o.watch) ho rfl (Nat.le_refl _)
    have h₁ := h.onward_of_same hwatch
    exact h₁.trans (h₁.inStep.onward_of_same
      (h₁.inStep.same_retire (h₁.owns k x hk) ((hwatch.query_eq x).trans hq) seen))

/-- Whatever the armed watch concludes, unless somebody else waits for it: it goes on with the
interest that stays pending, or the interest is retired and the watch is idle. Only below the root
the object may know no name, and then the watch stays armed without its interest. -/
theorem InStep.conclude (h : s.InStep) (hk : s.Owns k x)
    (halone : ∀ w ∈ s.waiting, w.watcher ≠ x)
    (hpending : ∀ q, s.query? x = some q → ∃ p ∈ s.network.pending, p.listener = x) (seen : Nat)
    (token : Option Component) {outcome : Except ObjectError Unit}
    (hroot : outcome = .ok () → ∀ o q e, s.object? x.object = some o → s.query? x = some q →
      o.state.knownName = .error e → q.known.base.isRoot = true) :
    (s.conclude x k seen token outcome).InStep := by
  cases hq : s.query? x with
  | none => exact (h.conclude_stale hk hq seen token outcome).inStep
  | some q =>
    have hx := h.expresses_of_query? hk hq
    obtain ⟨o, ho, hw, hg⟩ := query?_eq_some_iff.mp hq
    obtain ⟨hproper, _⟩ := h.query x q hq
    unfold Session.conclude
    simp only [ho]
    rw [← hg]
    cases outcome with
    | error e =>
      obtain ⟨q', exclusions, hnext, hnarrow⟩ := nextInterest_error hw token e
      simp only [hnext, replyOf]
      exact h.reissue (w := { o.watch with active := some q', exclusions }) hx halone ho hq rfl rfl
        hnarrow.generation_eq hnarrow.id_eq (hnarrow.proper hproper) (fun _ => hpending q hq) seen
    | ok u =>
      have hquery := Watch.query?_of_active hw
      unfold nextInterest
      dsimp only
      cases hknown : o.state.knownName with
      | error e =>
        -- The object knows no name, so the watch is left as it is.
        have hretire : s.Onward ((s.setWatch x.object o.watch).reply k seen .retire) :=
          h.retire hx ho hq rfl (.inr ⟨hw, hroot rfl o q e ho hq hknown, halone⟩)
            rfl rfl rfl rfl rfl
        exact hretire.inStep
      | ok known =>
        dsimp only
        unfold Watch.confirmed
        rw [hquery]
        dsimp only
        split
        · let q' : ActiveQuery := { q with known, interest := .nextVersion known }
          have hproper' : q'.Proper := ⟨Interest.deep_nextVersion known none,
            Interest.name_nextVersion known none, hproper.id_isSome⟩
          exact h.reissue (w := { o.watch with active := some q', exclusions := [] }) hx halone
            ho hq rfl rfl rfl rfl hproper' (fun _ => hpending q hq) seen
        · let idle : Watch := { o.watch with active := none, exclusions := [] }
          have hretire : s.Onward ((s.setWatch x.object idle).reply k seen .retire) :=
            h.retire (w := idle) hx ho hq rfl (.inl rfl) rfl rfl rfl rfl rfl
          exact hretire.inStep

/-! ### Acting on a reading -/

omit [Suite] in
theorem InStep.same_adopt (h : s.InStep) (id : ObjectId) (a : Adoption α) :
    s.Same (s.adopt id a).2 := by
  cases ho : s.object? id with
  | none =>
    rw [adopt_of_object?_eq_none ho]
    exact h.same_of_eq rfl rfl rfl rfl (.refl _)
  | some o =>
    rw [adopt_eq ho]
    exact h.modifyObject id fun _ => rfl

omit [Suite] in
/-- A watch begins to wait for what is lacking. -/
theorem InStep.wait (h : s.InStep) {w : Waiting} (hk : s.Owns w.id w.watcher)
    (halone : ∀ v ∈ s.waiting, v.watcher ≠ w.watcher)
    (hwaits : ∀ q, s.query? w.watcher = some q →
      w.lack.Below q.known.base ∧ ∃ p ∈ s.network.pending, p.listener = w.watcher)
    (hbusy : ∀ p ∈ s.network.pending, p.listener = w.watcher → p.standing = .busy) :
    { s with waiting := s.waiting ++ [w] }.InStep := by
  have hmem : ∀ v, v ∈ s.waiting ++ [w] ↔ v ∈ s.waiting ∨ v = w := fun v => by
    rw [List.mem_append, List.mem_singleton]
  -- Only the wait is new, and its number belongs to its watcher already.
  have hexpresses : ∀ j y, { s with waiting := s.waiting ++ [w] }.Expresses j y →
      s.Expresses j y ∨ j = w.id ∧ y = w.watcher := by
    intro j y hy
    cases hy with
    | pending p hp hj hl => exact .inl (.pending p hp hj hl)
    | waiting v hv hj hl =>
      rcases (hmem v).mp hv with hv | rfl
      · exact .inl (.waiting v hv hj hl)
      · exact .inr ⟨hj.symm, hl.symm⟩
    | query q hq hj => exact .inl (.query q hq hj)
  have hages : s.Ages { s with waiting := s.waiting ++ [w] } := fun _ _ o' ho' =>
    ⟨o', ho', Nat.le_refl _⟩
  constructor
  case numbered => exact h.numbered
  case owns =>
    intro j y hy
    rcases hexpresses j y hy with hy | ⟨rfl, rfl⟩
    · refine (h.owns j y hy).of_added hexpresses ⟨?_, ?_⟩ (Nat.le_refl _) (Nat.le_refl _) hages
      · rintro rfl
        exact hk.watcher_eq y hy
      · rintro rfl
        exact hk.number_eq j hy
    · exact hk.of_added hexpresses (iff_of_true rfl rfl) (Nat.le_refl _) (Nat.le_refl _) hages
  case asked => exact h.asked
  case query => exact h.query
  case waits =>
    intro v hv
    rcases (hmem v).mp hv with hv | rfl
    · exact h.waits v hv
    · exact hwaits
  case busy =>
    intro v hv
    rcases (hmem v).mp hv with hv | rfl
    · exact h.busy v hv
    · exact hbusy
  case apart =>
    refine List.pairwise_append.mpr ⟨h.apart, List.pairwise_singleton _ _, fun v hv u hu => ?_⟩
    rw [List.mem_singleton.mp hu]
    exact halone v hv

/-- Acting on how far a version was read that is right below the name of the armed query. -/
theorem InStep.proceed (h : s.InStep) (hk : s.Owns k x)
    (halone : ∀ w ∈ s.waiting, w.watcher ≠ x)
    (hpending : ∀ q, s.query? x = some q → ∃ p ∈ s.network.pending, p.listener = x) (seen : Nat)
    (token : Option Component) {reading : Except ObjectError (Reading α)}
    (hbelow : ∀ r q, reading = .ok r → s.query? x = some q → r.Below q.known.base) :
    (s.proceed x k seen token reading).InStep := by
  unfold Session.proceed
  split
  · exact h.conclude hk halone hpending seen token fun hok => nomatch hok
  · next a =>
    have hadopt := h.same_adopt x.object a
    refine (h.of_same hadopt).conclude (hadopt.owns hk) ?_ ?_ seen token ?_
    · simpa using halone
    · rw [network_adopt]
      exact fun q hq => hpending q (hadopt.query_eq x ▸ hq)
    · intro _ o' q e ho' hq hknown
      rw [hadopt.query_eq] at hq
      -- What was adopted is of the base that was asked for: no name is known only below the root.
      rw [← show a.base = q.known.base from hbelow _ q rfl hq]
      obtain ⟨o, ho, _⟩ := query?_eq_some_iff.mp hq
      rw [adopt_eq ho, modifyState, object?_modifyObject ho] at ho'
      rw [← Option.some.inj ho'] at hknown
      exact ObjectState.isRoot_of_knownName_adopt hknown
  · next lack =>
    split
    · next hnone =>
      exact h.of_same (h.same_retire hk (query?_of_object?_eq_none hnone) seen)
    · next o ho =>
      let w : Waiting :=
        { watcher := x, id := k, seen, token, lack, checked := s.supply.changes
          deadline := s.now + max (s.patience o lack) 1 }
      have hsame := h.same_later k seen
      refine (h.of_same hsame).wait (w := w) (hsame.owns hk) halone (fun q hq => ?_)
        fun p' hp' hl => ?_
      · obtain ⟨p, hp, hl⟩ := hpending q hq
        obtain ⟨p', hp', hl'⟩ := hsame.keeps.forth p hp
        exact ⟨hbelow _ q rfl hq, p', hp', hl'.trans hl⟩
      · obtain ⟨p, hp, rfl⟩ := List.mem_map.mp hp'
        have hid : p.id = k := by
          by_contra hne
          rw [if_neg hne] at hl
          exact hne (hk.id_eq hp hl)
        rw [if_pos hid]

/-! ### Serving -/

variable [Payload α]

theorem InStep.hand (h : s.InStep) {p : Pending Watcher} {f : Fragment}
    (hp : p ∈ s.network.pending) (hready : p.standing ≠ .busy)
    (hfind : s.supply.find p.interest = .ok (some f)) : (s.hand p f).InStep := by
  obtain ⟨q, hq, hinterest⟩ := h.asked p hp
  obtain ⟨o, ho, hw, hg⟩ := query?_eq_some_iff.mp hq
  have hx : s.Expresses p.id p.listener := .pending p hp rfl rfl
  have halone : ∀ w ∈ s.waiting, w.watcher ≠ p.listener := fun w hw hl =>
    hready (h.busy w hw p hp hl.symm)
  have hproper := (h.query _ q hq).1
  unfold Session.hand
  simp only [ho]
  rw [← hg]
  rcases Watch.handleBatch_singleton hw f with
    ⟨t, ht, hlater, hcand⟩ | ⟨q', exclusions, ht, hnarrow⟩
  · simp only [ht]
    have hsame := h.same_setWatch (w := { o.watch with active := some q, exclusions := [] }) ho
      hw.symm (Nat.le_refl _)
    refine (h.of_same hsame).proceed (hsame.owns (h.owns _ _ hx)) halone (fun _ _ => ⟨p, hp, rfl⟩)
      _ _ fun r q₁ hr hq₁ => ?_
    rw [hsame.query_eq, hq] at hq₁
    rw [← Option.some.inj hq₁]
    have haccepts := Supply.accepts_of_find hfind
    rw [hinterest] at haccepts
    exact Reading.below_of_ofConfirmed (Watch.below_of_candidate? hproper haccepts hlater hcand) hr
  · simp only [ht]
    exact h.reissue (w := { o.watch with active := some q', exclusions }) hx halone ho hq rfl rfl
      hnarrow.generation_eq hnarrow.id_eq (hnarrow.proper hproper) (fun _ => ⟨p, hp, rfl⟩) _

theorem InStep.deliver (h : s.InStep) {p : Pending Watcher} (hp : p ∈ s.network.pending)
    (hready : p.standing ≠ .busy) : (s.deliver p).InStep := by
  have hstall : { s with network := s.network.stall p.id s.supply.changes }.InStep :=
    h.of_same (h.same_stall (h.owns _ _ (.pending p hp rfl rfl))
      (fun w hw hl => hready (h.busy w hw p hp hl.symm)) _)
  unfold Session.deliver Network.answer?
  cases hfind : s.network.supply.find p.interest with
  | error e => exact hstall
  | ok found =>
    cases found with
    | none => exact hstall
    | some f => exact h.hand hp hready hfind

omit [Suite] [Payload α] in
/-- The wait that is taken, and those before and behind it. What it waits for was not looked for
since the last change. -/
theorem takeChanged_eq_some {changes : Nat} {ws rest : List Waiting} {w : Waiting}
    (h : takeChanged changes ws = some (w, rest)) :
    w.checked ≠ changes ∧ ∃ pre post, ws = pre ++ w :: post ∧ rest = pre ++ post := by
  induction ws generalizing rest with
  | nil => cases h
  | cons v ws ih =>
    unfold takeChanged at h
    split at h
    · next hne =>
      cases h
      exact ⟨hne, [], ws, rfl, rfl⟩
    · obtain ⟨⟨w', rest'⟩, hfound, heq⟩ := Option.map_eq_some_iff.mp h
      cases heq
      obtain ⟨hne, pre, post, rfl, rfl⟩ := ih hfound
      exact ⟨hne, v :: pre, post, rfl, rfl⟩

/-- A step looks again for what is waited for, or else at a pending interest. -/
theorem step?_cases (hs : s.step? = some s') :
    (∃ w pre post, s.waiting = pre ++ w :: post ∧ w.checked ≠ s.supply.changes ∧
      s' = { s with waiting := pre ++ post }.resume w) ∨
    ∃ p ∈ s.network.pending, s.network.isReady p = true ∧ s' = s.deliver p := by
  unfold step? at hs
  split at hs
  · next w rest htake =>
    obtain ⟨hne, pre, post, hw, rfl⟩ := takeChanged_eq_some htake
    exact .inl ⟨w, pre, post, hw, hne, (Option.some.inj hs).symm⟩
  · obtain ⟨p, hnext, rfl⟩ := Option.map_eq_some_iff.mp hs
    exact .inr ⟨p, List.mem_of_find?_eq_some hnext, List.find?_some hnext, rfl⟩

omit [Suite] [Payload α] in
/-- No other wait is of the same arming. -/
theorem InStep.alone_of_waiting (h : s.InStep) {w : Waiting} {pre post : List Waiting}
    (hw : s.waiting = pre ++ w :: post) :
    ({ s with waiting := pre ++ post } : Session α).InStep ∧
      ({ s with waiting := pre ++ post } : Session α).Owns w.id w.watcher ∧
      (pre ++ post).Sublist s.waiting ∧ ∀ v ∈ pre ++ post, v.watcher ≠ w.watcher := by
  have hsub : (pre ++ post).Sublist s.waiting := by
    rw [hw]
    exact (List.sublist_cons_self w post).append_left pre
  have hsame := same_with_waiting h hsub
  have hmem : w ∈ s.waiting := by simp [hw]
  refine ⟨h.of_same hsame, hsame.owns (h.owns w.id w.watcher (.waiting w hmem rfl rfl)), hsub, ?_⟩
  have hapart := h.apart
  rw [hw, List.pairwise_append] at hapart
  obtain ⟨_, hpost, hpre⟩ := hapart
  intro v hv
  rcases List.mem_append.mp hv with hv | hv
  · exact hpre v hv w List.mem_cons_self
  · exact ((List.pairwise_cons.mp hpost).1 v hv).symm

/-- Looking again for what a watch waits for. -/
theorem InStep.resume (h : s.InStep) {w : Waiting} {pre post : List Waiting}
    (hw : s.waiting = pre ++ w :: post) :
    ({ s with waiting := pre ++ post }.resume w).InStep := by
  obtain ⟨h₁, hk, -, halone⟩ := h.alone_of_waiting hw
  have hmem : w ∈ s.waiting := by simp [hw]
  have hwaits := h.waits w hmem
  cases ho : { s with waiting := pre ++ post }.object? w.watcher.object with
  | none =>
    unfold Session.resume
    simp only [ho]
    exact h₁.of_same (h₁.same_retire hk (query?_of_object?_eq_none ho) w.seen)
  | some o =>
    rcases resume_cases ho with hres | hres
    · rw [hres]
      exact h₁.wait (w := { w with checked := s.supply.changes }) hk halone hwaits (h.busy w hmem)
    · rw [hres]
      refine h₁.proceed hk halone (fun q hq => (hwaits q hq).2) _ _ fun r q hr hq => ?_
      exact Reading.below_of_pursue (hwaits q hq).1 hr

/-- A step of serving keeps watches and network in step. -/
theorem InStep.step (h : s.InStep) (hs : s.step? = some s') : s'.InStep := by
  rcases step?_cases hs with ⟨w, pre, post, hw, -, rfl⟩ | ⟨p, hp, hready, rfl⟩
  · exact h.resume hw
  · exact h.deliver hp (Network.ne_busy_of_isReady hready)

theorem InStep.settle (h : s.InStep) : s.settle.InStep :=
  settleIn_induction (P := InStep) (fun _ _ h hs => h.step hs) _ h

/-! ### Arming and cancelling -/

omit [Suite] [Payload α] in
theorem pending_withdraw (s : Session α) (k : InterestId) :
    (s.withdraw (some k)).network.pending = s.network.pending.filter fun p => p.id != k := by
  unfold withdraw Network.cancel
  dsimp only
  split
  · rfl
  · next hnone =>
    symm
    refine List.filter_eq_self.mpr fun p hp => ?_
    rw [Bool.not_eq_true, Option.isSome_eq_false_iff, Option.isNone_iff_eq_none,
      Network.pending?] at hnone
    have hne := List.find?_eq_none.mp hnone p hp
    simpa using hne

omit [Suite] [Payload α] in
theorem objects_withdraw (s : Session α) (number : Option InterestId) :
    (s.withdraw number).objects = s.objects ∧ (s.withdraw number).opened = s.opened ∧
      (s.withdraw number).network.expressed = s.network.expressed ∧
      (s.withdraw number).waiting = s.waiting := by
  obtain ⟨c, pending, h⟩ := s.withdraw_eq number
  rw [h]
  exact ⟨rfl, rfl, rfl, rfl⟩

omit [Suite] [Payload α] in
/-- Cancelling disarms the watch and withdraws its interest. -/
theorem InStep.cancelWatch (h : s.InStep) (id : ObjectId) : s.Onward (s.cancelWatch id) := by
  unfold Session.cancelWatch
  cases ho : s.object? id with
  | none => exact h.onward_of_same (h.same_of_eq rfl rfl rfl rfl (.refl _))
  | some o =>
    dsimp only [Watch.cancel]
    cases hw : o.watch.active with
    | none =>
      exact h.onward_of_same (h.same_setWatch ho hw.symm (Nat.le_refl _))
    | some q =>
      let x : Watcher := ⟨id, q.generation⟩
      have hq : s.query? x = some q := query?_eq_some_iff.mpr ⟨o, ho, hw, rfl⟩
      obtain ⟨k, hk⟩ := Option.isSome_iff_exists.mp (h.query x q hq).1.id_isSome
      rw [Option.bind_some, hk]
      let idle : Watch := { o.watch with active := none, exclusions := [], continuous := false }
      obtain ⟨hobj, hopened, hnumber, hwaiting⟩ :=
        objects_withdraw (s.setWatch id idle) (some k)
      exact h.retire (x := x) (w := idle) (.query q hq hk) ho hq rfl (.inl rfl) hobj hopened hnumber
        hwaiting (pending_withdraw _ k)

omit [Suite] [Payload α] in
@[simp] theorem object?_cancelWatch (ho : s.object? id = some o) :
    (s.cancelWatch id).object? id = some { o with watch := o.watch.cancel.2 } := by
  unfold Session.cancelWatch
  rw [ho]
  dsimp only
  unfold object?
  rw [(objects_withdraw _ _).1]
  exact object?_modifyObject ho _

omit [Suite] [Payload α] in
@[simp] theorem query?_cancelWatch (s : Session α) (x : Watcher) :
    (s.cancelWatch x.object).query? x = none := by
  cases ho : s.object? x.object with
  | none =>
    unfold Session.cancelWatch
    rw [ho]
    exact query?_of_object?_eq_none ho
  | some o =>
    rw [query?_of_object? (object?_cancelWatch ho)]
    rfl

omit [Suite] [Payload α] in
@[simp] theorem setWatch_setWatch (s : Session α) (id : ObjectId) (v w : Watch) :
    (s.setWatch id v).setWatch id w = s.setWatch id w := by
  unfold setWatch modifyObject
  dsimp only
  rw [List.map_map]
  congr 1
  refine List.map_congr_left fun e _ => ?_
  rw [Function.comp_apply]
  by_cases he : e.1 = id
  · simp [he]
  · simp [he]

/-- The watch of a new arming, the interest of which has got a number. -/
def armedWatch (w : Watch) (known : Name) (continuous : Bool) (k : InterestId) : Watch where
  active := some
    { generation := w.generation + 1, known, interest := .nextVersion known, id := some k }
  continuous
  generation := w.generation + 1

/-- An idle watch is armed: its interest gets the next number. -/
def arming (s : Session α) (id : ObjectId) (o : VersionedObject α) (known : Name)
    (continuous : Bool) : Session α :=
  { s with network :=
      (s.network.express (.nextVersion known) ⟨id, o.watch.generation + 1⟩).2 }.setWatch id
    (armedWatch o.watch known continuous ⟨s.network.expressed + 1⟩)

omit [Suite] [Payload α] in
theorem query?_arming (ho : s.object? id = some o) (known : Name) (continuous : Bool)
    (y : Watcher) :
    (s.arming id o known continuous).query? y =
      if y.object = id then
        (armedWatch o.watch known continuous ⟨s.network.expressed + 1⟩).query? y.generation
      else s.query? y :=
  query?_setWatch (s := { s with network :=
    (s.network.express (.nextVersion known) ⟨id, o.watch.generation + 1⟩).2 }) ho _ y

omit [Suite] [Payload α] in
theorem cancelWatch_eq (ho : s.object? id = some o) :
    s.cancelWatch id =
      (s.withdraw (o.watch.active.bind ActiveQuery.id)).setWatch id o.watch.cancel.2 := by
  unfold Session.cancelWatch withdraw
  rw [ho]
  dsimp only [Watch.cancel]
  cases o.watch.active.bind ActiveQuery.id <;> rfl

omit [Suite] [Payload α] in
/-- Arming cancels what was armed before. -/
theorem arm_eq (ho : s.object? id = some o) (known : Name) (continuous : Bool) :
    s.arm id known continuous =
      (s.cancelWatch id).arming id { o with watch := o.watch.cancel.2 } known continuous := by
  rw [cancelWatch_eq ho, arm_of_object? ho]
  unfold arming
  dsimp only [Watch.arm, Watch.cancel]
  generalize s.withdraw (o.watch.active.bind ActiveQuery.id) = s₁
  have hregistered : ∀ q : ActiveQuery, ∀ j : InterestId,
      (Watch.registered { active := some q, continuous, generation := q.generation }
        q.generation j).2 =
        { active := some { q with id := some j }, continuous, generation := q.generation } :=
    fun q j => by simp [Watch.registered, Watch.query?, Option.filter]
  rw [hregistered ⟨_, _, _, _⟩]
  exact (setWatch_setWatch { s₁ with network := _ } id _ _).symm

/-- A session in which one more arming has a query, and its interest under a new number. -/
structure Arms (s s' : Session α) (k : InterestId) (x : Watcher) (q : ActiveQuery) : Prop where
  numbered : s'.Numbered
  opened_eq : s'.opened = s.opened
  waiting_eq : s'.waiting = s.waiting
  ages : s.Ages s'
  expressed_le : s.network.expressed ≤ s'.network.expressed
  number_le : k.number ≤ s'.network.expressed
  opened : x.object.index < s.opened
  generation_le : ∀ o, s'.object? x.object = some o → x.generation ≤ o.watch.generation
  new : ∀ j y, s.Owns j y → j ≠ k ∧ y ≠ x
  pending : ∀ p, p ∈ s'.network.pending ↔ p ∈ s.network.pending ∨ p = ⟨k, q.interest, x, .ready⟩
  query : ∀ y q', s'.query? y = some q' ↔ s.query? y = some q' ∨ y = x ∧ q' = q
  id_eq : q.id = some k
  proper : q.Proper

omit [Suite] [Payload α] in
theorem Arms.expresses (ha : s.Arms s' k x q) (j : InterestId) (y : Watcher)
    (h : s'.Expresses j y) : s.Expresses j y ∨ j = k ∧ y = x := by
  cases h with
  | pending p hp hj hl =>
    rcases (ha.pending p).mp hp with hp | rfl
    · exact .inl (.pending p hp hj hl)
    · exact .inr ⟨hj.symm, hl.symm⟩
  | waiting w hw hj hl => exact .inl (.waiting w (ha.waiting_eq ▸ hw) hj hl)
  | query q' hq hj =>
    rcases (ha.query y q').mp hq with hq | ⟨rfl, rfl⟩
    · exact .inl (.query q' hq hj)
    · exact .inr ⟨Option.some.inj (hj.symm.trans ha.id_eq), rfl⟩

omit [Suite] [Payload α] in
/-- An arming that was there before has another number and another generation, and keeps them. -/
theorem Arms.owns (ha : s.Arms s' k x q) {j : InterestId} {y : Watcher} (hj : s.Owns j y) :
    s'.Owns j y := by
  obtain ⟨hjk, hyx⟩ := ha.new j y hj
  exact hj.of_added ha.expresses (iff_of_false hjk hyx) ha.expressed_le
    (Nat.le_of_eq ha.opened_eq.symm) ha.ages

omit [Suite] [Payload α] in
theorem InStep.owns_of_arms (h : s.InStep) (ha : s.Arms s' k x q) : s'.Owns k x where
  watcher_eq y hy := by
    rcases ha.expresses k y hy with hy | ⟨_, rfl⟩
    · exact absurd rfl (ha.new k y (h.owns k y hy)).1
    · rfl
  number_eq j hj := by
    rcases ha.expresses j x hj with hj | ⟨rfl, _⟩
    · exact absurd rfl (ha.new j x (h.owns j x hj)).2
    · rfl
  number_le := ha.number_le
  opened := ha.opened_eq ▸ ha.opened
  generation_le := ha.generation_le

omit [Suite] [Payload α] in
theorem InStep.onward_of_arms (h : s.InStep) (ha : s.Arms s' k x q) : s.Onward s' := by
  have hpending : ∀ y, (∃ p ∈ s.network.pending, p.listener = y) →
      ∃ p ∈ s'.network.pending, p.listener = y := by
    rintro y ⟨p, hp, hl⟩
    exact ⟨p, (ha.pending p).mpr (.inl hp), hl⟩
  -- Nobody waits for the new arming yet.
  have hnew : ∀ w ∈ s'.waiting, w ∈ s.waiting ∧ w.watcher ≠ x := by
    intro w hw
    rw [ha.waiting_eq] at hw
    exact ⟨hw, (ha.new _ _ (h.owns _ _ (.waiting w hw rfl rfl))).2⟩
  refine ⟨?_, fun _ _ => ha.owns⟩
  constructor
  case numbered => exact ha.numbered
  case owns =>
    intro j y hy
    rcases ha.expresses j y hy with hy | ⟨rfl, rfl⟩
    · exact ha.owns (h.owns j y hy)
    · exact h.owns_of_arms ha
  case asked =>
    intro p hp
    rcases (ha.pending p).mp hp with hp | rfl
    · obtain ⟨q', hq, hinterest⟩ := h.asked p hp
      exact ⟨q', (ha.query _ q').mpr (.inl hq), hinterest⟩
    · exact ⟨q, (ha.query x q).mpr (.inr ⟨rfl, rfl⟩), rfl⟩
  case query =>
    intro y q' hq
    rcases (ha.query y q').mp hq with hq | ⟨rfl, rfl⟩
    · exact (h.query y q' hq).imp_right fun hp hroot => hpending y (hp hroot)
    · exact ⟨ha.proper, fun _ => ⟨_, (ha.pending _).mpr (.inr rfl), rfl⟩⟩
  case waits =>
    intro w hw q' hq
    obtain ⟨hw, hne⟩ := hnew w hw
    rcases (ha.query _ q').mp hq with hq | ⟨hx, _⟩
    · exact (h.waits w hw q' hq).imp_right (hpending _)
    · exact absurd hx hne
  case busy =>
    intro w hw p hp hl
    obtain ⟨hw, hne⟩ := hnew w hw
    rcases (ha.pending p).mp hp with hp | rfl
    · exact h.busy w hw p hp hl
    · exact absurd hl.symm hne
  case apart =>
    rw [ha.waiting_eq]
    exact h.apart

omit [Suite] [Payload α] in
/-- Of the object that is armed there is no other query. -/
theorem query?_arming_iff (ho : s.object? id = some o) (hidle : o.watch.active = none)
    {known : Name} {continuous : Bool} {q : ActiveQuery}
    (hq : (armedWatch o.watch known continuous ⟨s.network.expressed + 1⟩).active = some q)
    (y : Watcher) (q' : ActiveQuery) : (s.arming id o known continuous).query? y = some q' ↔
      s.query? y = some q' ∨ y = ⟨id, o.watch.generation + 1⟩ ∧ q' = q := by
  cases hq
  rw [query?_arming ho]
  split
  · next hobj =>
    constructor
    · intro hq'
      obtain ⟨hactive, hgen⟩ := Watch.query?_eq_some_iff.mp hq'
      cases hactive
      exact .inr ⟨Watcher.ext hobj hgen.symm, rfl⟩
    · rintro (hold | ⟨rfl, rfl⟩)
      · rw [(active_of_query? (hobj ▸ ho) hold).1] at hidle
        cases hidle
      · exact Watch.query?_of_active (w := armedWatch o.watch known continuous _) rfl
  · next hobj => exact ⟨.inl, fun h => h.resolve_right fun hy => hobj (by rw [hy.1])⟩

omit [Suite] [Payload α] in
theorem InStep.arming (h : s.InStep) (ho : s.object? id = some o) (hidle : o.watch.active = none)
    (known : Name) (continuous : Bool) : s.Onward (s.arming id o known continuous) := by
  let network := (s.network.express (.nextVersion known) ⟨id, o.watch.generation + 1⟩).2
  have hobj : (s.arming id o known continuous).object? id = some { o with watch := _ } :=
    object?_modifyObject (s := { s with network }) ho _
  refine h.onward_of_arms
    { numbered := numbered_modifyObject (s := { s with network }) h.numbered id _
      opened_eq := rfl, waiting_eq := rfl
      ages := ages_setWatch (s := { s with network }) ho (Nat.le_succ _)
      expressed_le := Nat.le_succ _, number_le := Nat.le_refl _
      opened := h.numbered.lt_opened ho, generation_le := fun o' ho' => ?_
      new := fun j y hj => ⟨fun hjk => ?_, fun hyx => ?_⟩, pending := fun p => ?_
      query := query?_arming_iff ho hidle rfl, id_eq := rfl
      proper := ⟨Interest.deep_nextVersion known none, Interest.name_nextVersion known none, rfl⟩ }
  · rw [← Option.some.inj (hobj.symm.trans ho')]
    exact Nat.le_refl _
  · have hnumber := hj.number_le
    rw [hjk] at hnumber
    exact Nat.not_succ_le_self _ hnumber
  · have hle := hj.generation_le o (by rw [hyx]; exact ho)
    rw [hyx] at hle
    exact Nat.not_succ_le_self _ hle
  · show p ∈ s.network.pending ++ [_] ↔ _
    rw [List.mem_append, List.mem_singleton]

omit [Suite] [Payload α] in
/-- Arming keeps watches and network in step. -/
theorem InStep.arm (h : s.InStep) (id : ObjectId) (known : Name) (continuous : Bool) :
    s.Onward (s.arm id known continuous) := by
  cases ho : s.object? id with
  | none =>
    rw [arm_of_object?_eq_none ho]
    exact h.onward_of_same (h.same_of_eq rfl rfl rfl rfl (.refl _))
  | some o =>
    rw [arm_eq ho]
    have hcancel := h.cancelWatch id
    exact hcancel.trans (hcancel.inStep.arming (object?_cancelWatch ho) rfl known continuous)

omit [Suite] [Payload α] in
/-- Arming where nothing is running cancels what was armed before, and another generation is used
up. -/
theorem armWhen_false (ho : s.object? id = some o) (known : Name) (continuous : Bool) :
    (s.armWhen false id known continuous).2 =
      (s.cancelWatch id).setWatch id
        { o.watch.cancel.2 with generation := o.watch.generation + 1 } := by
  rw [cancelWatch_eq ho, setWatch_setWatch]
  unfold armWhen
  rw [ho]
  rfl

omit [Suite] [Payload α] in
/-- So does trying to arm. -/
theorem InStep.armWhen (h : s.InStep) (running : Bool) (id : ObjectId) (known : Name)
    (continuous : Bool) : (s.armWhen running id known continuous).2.InStep := by
  cases running with
  | true =>
    rw [armWhen_true]
    exact (h.arm id known continuous).inStep
  | false =>
    cases ho : s.object? id with
    | none =>
      unfold Session.armWhen
      rw [ho]
      exact h
    | some o =>
      rw [armWhen_false ho]
      have hcancel := (h.cancelWatch id).inStep
      have hobj := object?_cancelWatch ho
      refine hcancel.of_same
        { numbered := numbered_modifyObject hcancel.numbered id _, opened_le := Nat.le_refl _
          expressed_le := Nat.le_refl _, query_eq := fun x => ?_
          ages := ages_setWatch hobj (Nat.le_succ _), keeps := keeps_of_eq rfl
          waiting := .refl _ }
      rw [query?_setWatch hobj]
      split
      · next hx =>
        rw [← hx, query?_cancelWatch]
        rfl
      · rfl

omit [Suite] [Payload α] in
/-- What was armed before is not armed any more. -/
theorem Owns.query?_arm (hk : s.Owns k x) (known : Name) (continuous : Bool) :
    (s.arm x.object known continuous).query? x = none := by
  cases ho : s.object? x.object with
  | none =>
    rw [arm_of_object?_eq_none ho, query?, ho]
    rfl
  | some o =>
    rw [arm_eq ho]
    rw [query?_arming (object?_cancelWatch ho), if_pos rfl]
    refine Watch.query?_of_generation_ne rfl fun hgen => ?_
    have hle := hk.generation_le o ho
    rw [← hgen] at hle
    exact Nat.not_succ_le_self _ hle

omit [Suite] [Payload α] in
theorem InStep.watchAgain (h : s.InStep) (id : ObjectId) (fallback : Name) :
    s.Onward (s.watchAgain id fallback) := by
  obtain ⟨known, continuous, hagain⟩ := s.watchAgain_eq_arm id fallback
  rw [hagain]
  exact h.arm id known continuous

omit [Suite] [Payload α] in
theorem Owns.query?_watchAgain (hk : s.Owns k x) (fallback : Name) :
    (s.watchAgain x.object fallback).query? x = none := by
  obtain ⟨known, continuous, hagain⟩ := s.watchAgain_eq_arm x.object fallback
  rw [hagain]
  exact hk.query?_arm known continuous

/-! ### Time -/

omit [Payload α] in
/-- Giving up a wait arms the watch anew, and what was waited for before concludes nothing. -/
theorem InStep.giveUp (h : s.InStep) {w : Waiting} (hk : s.Owns w.id w.watcher) :
    s.Onward (s.giveUp w) := by
  have hagain := h.watchAgain w.watcher.object w.lack.fallback
  exact hagain.trans (hagain.inStep.conclude_stale (hagain.owns _ _ hk)
    (hk.query?_watchAgain w.lack.fallback) w.seen w.token _)

omit [Payload α] in
theorem InStep.giveUpAll (h : s.InStep) {ws : List Waiting}
    (hws : ∀ w ∈ ws, s.Owns w.id w.watcher) : (ws.foldl Session.giveUp s).InStep := by
  induction ws generalizing s with
  | nil => exact h
  | cons w ws ih =>
    have hgive := h.giveUp (hws w List.mem_cons_self)
    exact ih hgive.inStep fun v hv => hgive.owns _ _ (hws v (List.mem_cons_of_mem _ hv))

theorem InStep.expire (h : s.InStep) : s.expire.InStep := by
  unfold Session.expire
  rw [List.partition_eq_filter_filter]
  have hsame := same_with_waiting h (List.filter_sublist (p := fun w : Waiting =>
    !decide (w.deadline ≤ s.now)) (l := s.waiting))
  refine InStep.settle ((h.of_same hsame).giveUpAll fun w hw => hsame.owns ?_)
  exact h.owns _ _ (.waiting w (List.mem_filter.mp hw).1 rfl rfl)

theorem InStep.elapseUntil (h : s.InStep) (stop : Session α → Bool) (ms : Nat) :
    (s.elapseUntil stop ms).2.InStep :=
  elapseUntil_induction (P := InStep) stop (fun _ t h => (h.at_time t).expire) ms h

theorem InStep.elapse (h : s.InStep) (ms : Nat) : (s.elapse ms).InStep :=
  h.settle.elapseUntil _ ms

end

end Session
end NamedContent
