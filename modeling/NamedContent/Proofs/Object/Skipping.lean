import NamedContent.Proofs.Object.Advancing
import NamedContent.Proofs.Object.Agreement
import NamedContent.Proofs.Object.Answering
import NamedContent.Proofs.Object.FirstAnswer
import NamedContent.Proofs.Object.Registered

/-!
# Unreadable versions are skipped

A continuous watch is led to later and later versions. One that can be read is adopted, and the
watch goes on from it (`Skipping.adopt`); one that cannot be read is excluded, and the watch goes on
without it (`Skipping.reject`). Either leaves less to be asked for: a version that was adopted is
not asked for again, nor is any before it, and between two adoptions every answer excludes one more
version (`Skips.deliver`). So the watch is called only so often, whatever else is served in between,
and serving comes to rest.

At rest nothing is left that the watch asks for. While not more than a hundred versions are
unreadable, the filter hides nothing but them, so the object holds the greatest version that can be
read (`background_skips_unreadable`).
-/

namespace NamedContent

section

variable [Suite] {α : Type} [Payload α] {b : Name} {r : Issue} {rs : List Issue} {f : Fragment}
  {v : Option Version} {cs : List Component}

open Session (isLater)

namespace Session

variable {s s' : Session α} {id : ObjectId} {o : VersionedObject α} {p : Pending Watcher}
  {left : Nat}

/-! ### The watch -/

/-- What an armed watch is at: it asks for the versions after the one held, without those that it
has found to be unreadable. -/
structure Skipping (s : Session α) (id : ObjectId) (o : VersionedObject α) (b : Name)
    (rs : List Issue) (v : Option Version) (state : ObjectState α) (watch : Watch) (q : ActiveQuery)
    (cs : List Component) : Prop where
  object?_eq : s.object? id = some { o with state, watch }
  reaches : o.state.Reaches b s.supply rs v state
  active_eq : watch.active = some q
  continuous_eq : watch.continuous = true
  known_eq : q.known = b.known v
  interest_eq : q.interest = (Interest.nextVersion (b.known v)).excludingAll cs
  unreadable : s.supply.Unreadable α rs cs

/-- How much is left to be asked for. What is left to be adopted counts for more than what is left
to be excluded before. -/
def toSkip (s : Session α) (b : Name) (v : Option Version) (i : Interest) : Nat :=
  s.supply.matching (.nextVersion (b.known v)) * (s.supply.size + 1) + s.supply.matching i

omit [Payload α] in
theorem toSkip_of_supply_eq (h : s'.supply = s.supply) (b : Name) (v : Option Version)
    (i : Interest) : s'.toSkip b v i = s.toSkip b v i := by
  unfold toSkip
  rw [h]

/-- The watch can ask, with so much left, or it has asked in vain. -/
inductive Skips (s : Session α) (id : ObjectId) (o : VersionedObject α) (b : Name)
    (rs : List Issue) : Nat → Prop where
  | asking (v : Option Version) (state : ObjectState α) (watch : Watch) (q : ActiveQuery)
      (cs : List Component) (skipping : s.Skipping id o b rs v state watch q cs)
      (ready : ∀ p ∈ s.network.pending, p.listener.object = id → p.standing = .ready) :
      s.Skips id o b rs (s.toSkip b v q.interest + 1)
  | resting (v : Option Version) (state : ObjectState α) (watch : Watch) (q : ActiveQuery)
      (cs : List Component) (skipping : s.Skipping id o b rs v state watch q cs)
      (stalled : ∀ p ∈ s.network.pending, p.listener.object = id →
        p.standing = .stalled s.supply.changes)
      (get_eq : s.supply.get q.interest = .ok none) : s.Skips id o b rs 0

section

variable {state : ObjectState α} {watch : Watch} {q : ActiveQuery}

theorem Skipping.congr (h : s.Skipping id o b rs v state watch q cs)
    (hobj : s'.object? id = s.object? id) (hsupply : s'.supply = s.supply) :
    s'.Skipping id o b rs v state watch q cs where
  object?_eq := hobj.trans h.object?_eq
  reaches := hsupply ▸ h.reaches
  active_eq := h.active_eq
  continuous_eq := h.continuous_eq
  known_eq := h.known_eq
  interest_eq := h.interest_eq
  unreadable := hsupply ▸ h.unreadable

theorem Skipping.seeks (h : s.Skipping id o b rs v state watch q cs) :
    q.interest.Seeks q.known := by
  rw [h.interest_eq, h.known_eq]
  exact (Interest.seeks_nextVersion _).excludingAll cs

theorem Skipping.name_eq (h : s.Skipping id o b rs v state watch q cs) (hst : o.state.Based b) :
    q.interest.name = b := by
  rw [h.seeks.name_eq, h.known_eq, Name.base_known hst.plain]

/-- What is served of other objects does not come in between. -/
theorem Skips.congr (h : s.Skips id o b rs left) (hobj : s'.object? id = s.object? id)
    (hpending : ∀ p ∈ s'.network.pending, p.listener.object = id → p ∈ s.network.pending)
    (hsupply : s'.supply = s.supply) : s'.Skips id o b rs left := by
  cases h with
  | asking v state watch q cs hskip hready =>
    rw [← toSkip_of_supply_eq hsupply]
    exact .asking v state watch q cs (hskip.congr hobj hsupply)
      fun p hp hl => hready p (hpending p hp hl) hl
  | resting v state watch q cs hskip hstalled hget =>
    refine .resting v state watch q cs (hskip.congr hobj hsupply) ?_ ?_
    · rw [hsupply]
      exact fun p hp hl => hstalled p (hpending p hp hl) hl
    · rw [hsupply]
      exact hget

/-! ### Answers -/

/-- A session that was served: no wait has begun, and less is left than before. -/
structure Progress (s s' : Session α) (id : ObjectId) (o : VersionedObject α) (b : Name)
    (rs : List Issue) (left : Nat) : Prop where
  waiting_eq : s'.waiting = s.waiting
  less : ∃ less, less < left ∧ s'.Skips id o b rs less

/-- With another interest than before a watch asks again. -/
theorem Skipping.reissue (h : s.Skipping id o b rs v state watch q cs)
    {v' : Option Version} {state' : ObjectState α} {watch' : Watch} {next : ActiveQuery}
    {cs' : List Component} (hnext : s'.Skipping id o b rs v' state' watch' next cs')
    (hstep : s.InStep) (hp : p ∈ s.network.pending) (hl : p.listener.object = id)
    (hnetwork : s'.network = s.network) (hne : next.interest ≠ q.interest) :
    (s'.reply p.id s.supply.changes (.reissue next.interest)).Skips id o b rs
      (s'.toSkip b v' next.interest + 1) :=
  .asking v' state' watch' next cs' (hnext.congr rfl rfl)
    (hstep.ready_of_reissue s' h.object?_eq h.active_eq hp hl hnetwork hne s.supply.changes)

/-- A later version that can be read is adopted, and the watch goes on from it. -/
theorem Skipping.adopt (h : s.Skipping id o b rs v state watch q cs) (hst : o.state.Based b)
    (hpub : s.supply.Publishes b rs) (hstep : s.InStep) (hp : p ∈ s.network.pending)
    (hl : p.listener.object = id) (haccepts : q.interest.accepts f = true) (hr : r ∈ rs)
    (hf : f ∈ r.fragments) (hreadable : r.isReadable α s.supply = true)
    (hlater : isLater (some r.version) v = true) (token : Option Component) :
    Progress s (s.proceed ⟨id, q.generation⟩ p.id s.supply.changes token
      (.ok (.complete (r.adoption b)))) id o b rs (s.toSkip b v q.interest + 1) := by
  let known := b.known (some r.version)
  let next : ActiveQuery := { q with known, interest := .nextVersion known }
  let watch' : Watch := { watch with active := some next, exclusions := [] }
  have hreaches := h.reaches.next hr hreadable hlater
  have hstate := h.reaches.adopt_eq hst hlater
  have hnext := nextInterest_of_adopted
    (o := { o with state := (state.adopt (r.adoption b)).2, watch }) h.active_eq h.continuous_eq
    (hstate ▸ hreaches.knownName_eq hst) token
  let taken : Session α :=
    (s.modifyState id fun _ => (state.adopt (r.adoption b)).2).setWatch id watch'
  have hobj : taken.object? id =
      some { o with state := o.state.take (r.adoption b), watch := watch' } := by
    rw [← hstate]
    exact object?_modifyObject (object?_modifyObject h.object?_eq _)
      fun o => { o with watch := watch' }
  have hskipping : taken.Skipping id o b rs (some r.version) (o.state.take (r.adoption b)) watch'
      next [] := ⟨hobj, hreaches, rfl, h.continuous_eq, rfl, rfl, nofun⟩
  have hne : next.interest ≠ q.interest := by
    intro heq
    have hno := (hpub.whole r hr).accepts_nextVersion_iff (v := some r.version) hpub.plain hf
    rw [show Interest.nextVersion (b.known (some r.version)) = q.interest from heq, haccepts,
      not_isLater_self] at hno
    exact Bool.false_ne_true (hno.mp rfl)
  have hless : taken.toSkip b (some r.version) next.interest < s.toSkip b v q.interest := by
    -- One adoption less is left, whatever is to be excluded after it.
    have hadoptions := Nat.mul_le_mul_right (s.supply.size + 1) (hpub.matching_lt hr hlater)
    have hmatching := Supply.matching_le hpub.sound next.interest
    show s.toSkip b (some r.version) next.interest < _
    unfold toSkip
    rw [Nat.succ_mul] at hadoptions
    omega
  rw [proceed_of_complete h.object?_eq q.generation p.id s.supply.changes token (r.adoption b)
    hnext]
  exact ⟨rfl, _, Nat.succ_lt_succ hless, h.reissue hskipping hstep hp hl rfl hne⟩

/-- A later version that cannot be read is excluded, and the watch goes on without it. -/
theorem Skipping.reject (h : s.Skipping id o b rs v state watch q cs) (hst : o.state.Based b)
    (hpub : s.supply.Publishes b rs) (hstep : s.InStep) (hp : p ∈ s.network.pending)
    (hl : p.listener.object = id) (hget : s.supply.get q.interest = .ok (some f)) (hr : r ∈ rs)
    (hf : f ∈ r.fragments) (hunreadable : r.isReadable α s.supply = false) {e : ObjectError}
    (he : e.isUnreadable = true) :
    Progress s (s.proceed ⟨id, q.generation⟩ p.id s.supply.changes (some r.version.toComponent)
      (.error e : Except ObjectError (Reading α))) id o b rs (s.toSkip b v q.interest + 1) := by
  let token := r.version.toComponent
  let next : ActiveQuery := { q with interest := q.interest.excluding token }
  have hcomp : f.name.component? q.interest.name.length = some token := by
    rw [h.name_eq hst]
    exact (hpub.whole r hr).component?_eq hf
  obtain ⟨exclusions, hnext⟩ :=
    nextInterest_of_unreadable (o := { o with state, watch }) h.active_eq he token
  let watch' : Watch := { watch with active := some next, exclusions }
  have hobj : (s.setWatch id watch').object? id = some { o with state, watch := watch' } :=
    object?_modifyObject h.object?_eq fun o => { o with watch := watch' }
  have hinterest :
      next.interest = (Interest.nextVersion (b.known v)).excludingAll (cs ++ [token]) := by
    rw [Interest.excludingAll, List.foldl_append]
    exact congrArg (·.excluding token) h.interest_eq
  have hcs : s.supply.Unreadable α rs (cs ++ [token]) := by
    intro c hc
    rcases List.mem_append.mp hc with hc | hc
    · exact h.unreadable c hc
    · exact ⟨r, hr, hunreadable, List.mem_singleton.mp hc⟩
  have hskipping : (s.setWatch id watch').Skipping id o b rs v state watch' next (cs ++ [token]) :=
    ⟨hobj, h.reaches, rfl, h.continuous_eq, h.known_eq, hinterest, hcs⟩
  have hless : (s.setWatch id watch').toSkip b v next.interest < s.toSkip b v q.interest :=
    Nat.add_lt_add_left (Supply.matching_excluding_lt hpub.sound hget hcomp) _
  rw [proceed_of_error h.object?_eq q.generation p.id s.supply.changes (some token) e hnext]
  exact ⟨rfl, _, Nat.succ_lt_succ hless, h.reissue hskipping hstep hp hl rfl
    (Interest.excluding_ne_of_accepts (Supply.accepts_of_get hget) hcomp)⟩

/-- The answer to the interest of the watch is of a later version, which is read. -/
theorem Skipping.hand (h : s.Skipping id o b rs v state watch q cs) (hst : o.state.Based b)
    (hpub : s.supply.Publishes b rs) (hstep : s.InStep) (hp : p ∈ s.network.pending)
    (hl : p.listener.object = id) (hget : s.supply.get q.interest = .ok (some f)) :
    Progress s (s.hand p f) id o b rs (s.toSkip b v q.interest + 1) := by
  have hpicks := Supply.picks_of_get hpub.sound hget
  have haccepts := hpicks.accepts_found f rfl
  obtain ⟨r, hr, hf, hlater⟩ :=
    hpub.exists_of_accepts (hpicks.served_found f rfl) (h.interest_eq ▸ haccepts)
  obtain ⟨t, ht, hversion, hread⟩ :=
    (hpub.provides hr).ofCandidate (α := α) hf o.keys (h.name_eq hst)
  have hcomp : f.name.component? q.interest.name.length = some r.version.toComponent := by
    rw [h.name_eq hst]
    exact (hpub.whole r hr).component?_eq hf
  have hlaterName := (h.seeks.startsWithLaterVersionOf_iff haccepts).mpr ⟨_, hcomp⟩
  -- The watch that is sure of a later version forgets what it noted to be excluded.
  let sure : Watch := { watch with active := some q, exclusions := [] }
  have hbatch : watch.handleBatch q.generation [f] = (.confirmed t, sure) :=
    Watch.handleBatch_of_candidate h.active_eq hlaterName ht
  have hsure : (s.setWatch id sure).Skipping id o b rs v state sure q cs :=
    ⟨object?_modifyObject h.object?_eq fun o => { o with watch := sure }, h.reaches, rfl,
      h.continuous_eq, h.known_eq, h.interest_eq, h.unreadable⟩
  have hstep' : (s.setWatch id sure).InStep :=
    hstep.of_same (hstep.same_setWatch (w := sure) h.object?_eq h.active_eq.symm (Nat.le_refl _))
  have hlistener := (hstep.own h.object?_eq h.active_eq hp hl).1
  rw [hand_of_confirmed h.object?_eq hlistener hbatch, hversion]
  generalize (Reading.ofConfirmed s.supply o.keys t : Except ObjectError (Reading α)) = reading
    at hread ⊢
  have hserved : Progress (s.setWatch id sure)
      ((s.setWatch id sure).proceed ⟨id, q.generation⟩ p.id s.supply.changes
        (some r.version.toComponent) reading) id o b rs (s.toSkip b v q.interest + 1) := by
    cases hread with
    | complete hreadable =>
      exact hsure.adopt hst hpub hstep' hp hl haccepts hr hf hreadable hlater _
    | unreadable e he hunreadable =>
      exact hsure.reject hst hpub hstep' hp hl hget hr hf hunreadable he
  exact ⟨hserved.waiting_eq, hserved.less⟩

/-- A look at the interest of the watch is in vain, or a version is adopted, or one is excluded. -/
theorem Skips.deliver (h : s.Skips id o b rs left) (hst : o.state.Based b)
    (hpub : s.supply.Publishes b rs) (hstep : s.InStep) (hp : p ∈ s.network.pending)
    (hl : p.listener.object = id) (hready : s.network.isReady p = true) :
    Progress s (s.deliver p) id o b rs left := by
  cases h with
  | resting v state watch q cs _ hstalled _ =>
    rw [Network.isReady, hstalled p hp hl] at hready
    exact absurd (bne_self_eq_false s.supply.changes) (ne_true_of_eq_false · hready)
  | asking v state watch q cs hskip _ =>
    have hinterest := (hstep.own hskip.object?_eq hskip.active_eq hp hl).2
    obtain ⟨answer, hget, -⟩ := Supply.get_picks hpub.sound q.interest
    cases answer with
    | none =>
      rw [deliver_of_nothing (hinterest ▸ hget)]
      exact ⟨rfl, 0, Nat.succ_pos _, .resting v state watch q cs (hskip.congr rfl rfl)
        (hstep.stalled_of_stall hskip.object?_eq hskip.active_eq hp hl s.supply.changes) hget⟩
    | some f =>
      rw [deliver_of_answer (hinterest ▸ hget)]
      exact hskip.hand hst hpub hstep hp hl hget

end

/-! ### At rest -/

/-- Where a continuous watch has led an object. It goes on to watch, and its interest excludes what
is later than the version held and cannot be read. -/
structure Skipped (s : Session α) (id : ObjectId) (o o' : VersionedObject α) (q : ActiveQuery)
    (supply : Supply) (b : Name) (rs : List Issue) : Prop where
  object?_eq : s.object? id = some o'
  holds : o.state.HoldsGreatest b supply rs o'.state
  active_eq : o'.watch.active = some q
  continuous_eq : o'.watch.continuous = true
  pending : ∃ p ∈ s.network.pending, p.listener = ⟨id, q.generation⟩ ∧ p.interest = q.interest
  excludes : ∀ r ∈ rs, r.isReadable α supply = false →
    isLater (some r.version) o'.state.version = true →
    q.interest.exclude.excludes r.version.toComponent = true

/-- How often the supply has changed plays no part. -/
theorem Skipped.of_changes {o' : VersionedObject α} {q : ActiveQuery}
    {supply : Supply} {changes : Nat}
    (h : s.Skipped id o o' q { supply with changes } b rs) : s.Skipped id o o' q supply b rs where
  object?_eq := h.object?_eq
  holds := h.holds.of_changes
  active_eq := h.active_eq
  continuous_eq := h.continuous_eq
  pending := h.pending
  excludes := h.excludes

/-- The interest of the watch is pending. -/
theorem Skipping.exists_pending {state : ObjectState α} {watch : Watch} {q : ActiveQuery}
    (h : s.Skipping id o b rs v state watch q cs) (hst : o.state.Based b) (hstep : s.InStep) :
    ∃ p ∈ s.network.pending, p.listener = ⟨id, q.generation⟩ ∧ p.interest = q.interest := by
  have hq : s.query? ⟨id, q.generation⟩ = some q :=
    query?_eq_some_iff.mpr ⟨_, h.object?_eq, h.active_eq, rfl⟩
  have hroot : q.known.base.isRoot = false := by
    rw [h.known_eq, Name.base_known hst.plain]
    exact hst.not_root
  obtain ⟨p, hp, hl⟩ := (hstep.query _ q hq).2 hroot
  exact ⟨p, hp, hstep.own h.object?_eq h.active_eq hp (by rw [hl])⟩

/-- When no interest of the object can be looked at, it holds the greatest version that can be
read. -/
theorem Skips.skipped (h : s.Skips id o b rs left) (hst : o.state.Based b)
    (hpub : s.supply.Publishes b rs)
    (hfew : rs.countP (fun r => !r.isReadable α s.supply) ≤ 100) (hstep : s.InStep)
    (hrest : ∀ p ∈ s.network.pending, p.listener.object = id → s.network.isReady p = false) :
    ∃ o' q, s.Skipped id o o' q s.supply b rs := by
  cases h with
  | asking v state watch q cs hskip hready =>
    obtain ⟨p, hp, hl, -⟩ := hskip.exists_pending hst hstep
    have hno := hrest p hp (by rw [hl])
    rw [Network.isReady, hready p hp (by rw [hl])] at hno
    cases hno
  | resting v state watch q cs hskip _ hget =>
    have hnone : ∀ r ∈ rs, q.interest.accepts r.first = false := fun r hr =>
      (Supply.picks_of_get hpub.sound hget).not_accepts rfl r.first
        (hpub.served r hr r.first List.mem_cons_self)
    refine ⟨_, q, hskip.object?_eq, hskip.reaches.holdsGreatest fun r hr hreadable => ?_,
      hskip.active_eq, hskip.continuous_eq, hskip.exists_pending hst hstep,
      fun r hr _ _ => ?_⟩
    · by_contra hlater
      rw [Bool.not_eq_false] at hlater
      have haccepts := hpub.accepts_of_readable hskip.unreadable hfew hr hreadable hlater
        (f := r.first) List.mem_cons_self
      rw [← hskip.interest_eq, hnone r hr] at haccepts
      cases haccepts
    · obtain ⟨d, hname⟩ := (hpub.whole r hr).exists_name_eq (f := r.first) List.mem_cons_self
      rw [← hskip.name_eq hst] at hname
      exact hskip.seeks.excludes_of_not_accepts hname (hnone r hr)

/-! ### Serving -/

/-- A session in which a continuous watch leads an object past what cannot be read. -/
structure Sifts (id : ObjectId) (o : VersionedObject α) (b : Name) (rs : List Issue) (s : Session α)
    (left : Nat) : Prop where
  inStep : s.InStep
  lacks : s.Lacks id o.keys
  publishes : s.supply.Publishes b rs
  skips : s.Skips id o b rs left

theorem Skips.exists_object (h : s.Skips id o b rs left) :
    ∃ state watch, s.object? id = some { o with state, watch } := by
  cases h with
  | asking v state watch q cs hskip _ => exact ⟨state, watch, hskip.object?_eq⟩
  | resting v state watch q cs hskip _ _ => exact ⟨state, watch, hskip.object?_eq⟩

namespace Sifts

theorem deliver (h : Sifts id o b rs s left) (hst : o.state.Based b) (hp : p ∈ s.network.pending)
    (hl : p.listener.object = id) (hready : s.network.isReady p = true) :
    (s.deliver p).waiting = s.waiting ∧ ∃ less, less < left ∧
      Sifts id o b rs (s.deliver p) less := by
  obtain ⟨hwaiting, less, hless, hskips⟩ :=
    h.skips.deliver hst h.publishes h.inStep hp hl hready
  have hsupply := supply_deliver s p
  refine ⟨hwaiting, less, hless, h.inStep.deliver hp (Network.ne_busy_of_isReady hready),
    fun w hw hid => ?_, hsupply.symm ▸ h.publishes, hskips⟩
  rw [hwaiting] at hw
  rw [hsupply]
  exact h.lacks w hw hid

/-- It leaves nothing that has to be looked for again. -/
theorem look (h : Sifts id o b rs s left) (hst : o.state.Based b) (hquiet : s.Quiet id)
    (hp : p ∈ s.network.pending) (hl : p.listener.object = id)
    (hready : s.network.isReady p = true) :
    ∃ less, less < left ∧ Sifts id o b rs (s.deliver p) less ∧ (s.deliver p).Quiet id := by
  obtain ⟨hwaiting, less, hless, hsifts⟩ := h.deliver hst hp hl hready
  refine ⟨less, hless, hsifts, fun w hw hid => ?_⟩
  rw [hwaiting] at hw
  rw [supply_deliver]
  exact hquiet w hw hid

theorem step (h : Sifts id o b rs s left) (hst : o.state.Based b) (hs : s.step? = some s') :
    ∃ less, less ≤ left ∧ Sifts id o b rs s' less := by
  have hsupply := supply_step? hs
  have hinStep := h.inStep.step hs
  have hpub : s'.supply.Publishes b rs := hsupply.symm ▸ h.publishes
  rcases h.inStep.step_cases id hs with
    hspares | ⟨p, hp, hl, hready, rfl⟩ | ⟨w, pre, post, hw, hid, -, rfl⟩
  · refine ⟨left, Nat.le_refl left, hinStep, fun w hw hid => ?_, hpub,
      h.skips.congr hspares.object?_eq (fun p hp hl => (hspares.pending_iff p hl).mp hp) hsupply⟩
    rw [hsupply]
    exact h.lacks w ((hspares.waiting_iff w hid).mp hw) hid
  · obtain ⟨-, less, hless, hsifts⟩ := h.deliver hst hp hl hready
    exact ⟨less, Nat.le_of_lt hless, hsifts⟩
  · -- What the object waited for before is still lacking.
    obtain ⟨state, watch, hobj⟩ := h.skips.exists_object
    have hlacks := h.lacks
    unfold Lacks at hlacks
    rw [hw] at hlacks
    have hresume := resume_of_lacking (s := { s with waiting := pre ++ post })
      (o := { o with state, watch }) (hid ▸ hobj) (hlacks w (by simp) hid)
    rw [hresume] at hinStep hpub ⊢
    refine ⟨left, Nat.le_refl left, hinStep, fun u hu hu' => ?_, hpub,
      h.skips.congr rfl (fun _ hp _ => hp) rfl⟩
    rcases List.mem_append.mp hu with hu | hu
    · refine hlacks u ?_ hu'
      rcases List.mem_append.mp hu with hu | hu <;> simp [hu]
    · rw [List.mem_singleton.mp hu]
      exact hlacks w (by simp) hid

theorem settleIn (h : Sifts id o b rs s left) (hst : o.state.Based b) (fuel : Nat) :
    ∃ less, Sifts id o b rs (s.settleIn fuel) less :=
  settleIn_induction (P := fun s' => ∃ less, Sifts id o b rs s' less)
    (fun _ _ ⟨_, h⟩ hs => (h.step hst hs).imp fun _ h => h.2) fuel ⟨left, h⟩

end Sifts

/-! ### Arming -/

theorem sifts_arm (h : s.InStep) (ho : s.object? id = some o)
    (hpub : s.supply.Publishes b rs) (hlacks : s.Lacks id o.keys) :
    Sifts id o b rs (s.arm id (b.known o.state.version) true)
      (s.toSkip b o.state.version (.nextVersion (b.known o.state.version)) + 1) := by
  let known := b.known o.state.version
  obtain ⟨c, hsupply⟩ := s.supply_arm id known true
  have hpub' : (s.arm id known true).supply.Publishes b rs := hsupply.symm ▸ hpub.of_changes c
  constructor
  case inStep => exact (h.arm id known true).inStep
  case lacks =>
    intro w hw hid
    rw [waiting_arm] at hw
    rw [hsupply, Reading.pursue_of_changes]
    exact hlacks w hw hid
  case publishes => exact hpub'
  case skips =>
    let number : InterestId := ⟨(s.cancelWatch id).network.expressed + 1⟩
    let q : ActiveQuery := ⟨o.watch.generation + 1, known, .nextVersion known, some number⟩
    have hleft : (s.arm id known true).toSkip b o.state.version q.interest =
        s.toSkip b o.state.version (.nextVersion known) := by
      unfold toSkip
      rw [hsupply]
      rfl
    have hskipping : (s.arm id known true).Skipping id o b rs o.state.version o.state
        (armedWatch o.watch.cancel.2 known true number) q [] :=
      ⟨object?_arm ho known true, .start, rfl, rfl, rfl, rfl, nofun⟩
    rw [← hleft]
    exact .asking _ _ _ q [] hskipping (h.ready_of_arm ho known true)

/-! ### Skipping -/

omit [Payload α] in
/-- There is no more to skip than the square of what is served. -/
theorem toSkip_lt (h : s.supply.Sound) (b : Name) (v : Option Version) (i : Interest) :
    s.toSkip b v i < (s.supply.size + 1) * (s.supply.size + 1) := by
  have hadoptions := Nat.mul_le_mul_right (s.supply.size + 1)
    (Supply.matching_le h (.nextVersion (b.known v)))
  have hmatching := Supply.matching_le h i
  unfold toSkip
  rw [Nat.succ_mul s.supply.size]
  omega

/-- A continuous watch leads its object past the versions that cannot be read, if there are not more
than a hundred of them, to the greatest one that can. Whatever else is served in between, the watch
is handed an answer only so often; and once no interest of the object can be looked at any more, the
object holds the greatest version that can be read, and the watch goes on without the later ones
that cannot. If nothing else could be served before, then serving comes to this rest. -/
theorem background_skips_unreadable (h : s.InStep) (ho : s.object? id = some o)
    (hst : o.state.Based b) (hpub : s.supply.Publishes b rs)
    (hfew : rs.countP (fun r => !r.isReadable α s.supply) ≤ 100) (hlacks : s.Lacks id o.keys) :
    ∃ s₁, s.updateInBackground id none true = (.ok (), s₁) ∧
      (∀ steps, callsIn id steps s₁ ≤ (s.supply.size + 1) * (s.supply.size + 1)) ∧
      (∀ steps, (∀ p ∈ (s₁.settleIn steps).network.pending, p.listener.object = id →
          (s₁.settleIn steps).network.isReady p = false) →
        ∃ o' q, (s₁.settleIn steps).Skipped id o o' q s.supply b rs) ∧
      ((s.cancelWatch id).step? = none → s₁.settle.step? = none) := by
  let known := b.known o.state.version
  obtain ⟨c, hsupply⟩ := s.supply_arm id known true
  have hsifts := sifts_arm h ho hpub hlacks
  have hbound := toSkip_lt hpub.sound b o.state.version (.nextVersion known)
  refine ⟨s.arm id known true, ?_, fun steps => ?_, fun steps hrest => ?_, fun hcalm => ?_⟩
  · have hstart : o.state.Reaches b s.supply rs o.state.version o.state := .start
    have hknown : o.state.knownName = .ok known := hstart.knownName_eq hst
    exact updateInBackground_of_known ho none hknown true
  · exact Nat.le_trans (callsIn_le (P := Sifts id o b rs) (fun _ _ _ h hs => h.step hst hs)
      (fun _ _ h p hp hl hready => (h.deliver hst hp hl hready).2) hsifts steps) hbound
  · obtain ⟨less, hend⟩ := hsifts.settleIn hst steps
    have hsame : ((s.arm id known true).settleIn steps).supply = { s.supply with changes := c } :=
      (supply_settleIn _ steps).trans hsupply
    have hfew' :
        rs.countP (fun r => !r.isReadable α ((s.arm id known true).settleIn steps).supply) ≤
          100 := by
      rw [hsame]
      exact hfew
    obtain ⟨o', q, hskipped⟩ := hend.skips.skipped hst hend.publishes hfew' hend.inStep hrest
    rw [hsame] at hskipped
    exact ⟨o', q, hskipped.of_changes⟩
  · obtain ⟨p, hp, -⟩ : ∃ p ∈ (s.arm id known true).network.pending, p.listener.object = id := by
      rw [pending_arm ho]
      exact ⟨_, List.mem_append_right _ (List.mem_singleton_self _), rfl⟩
    -- Every look at the interest lowers what is left, which the fuel exceeds at the start.
    have hsole := sole_arm ho hcalm known true
    have hsize : (s.arm id known true).supply.size = s.supply.size := by
      rw [hsupply]
      rfl
    have hfuel := fuel_le hp
    have hsquare := Nat.mul_self_lt_mul_self (Nat.lt_succ_self (s.supply.size + 1))
    rw [hsize] at hfuel
    exact settleIn_of_decreasing (P := fun s left => Sifts id o b rs s left ∧ s.Quiet id)
      (fun _ _ h => ⟨h.1.inStep, h.2⟩)
      (fun _ _ h p hp hl hready => h.1.look hst h.2 hp hl hready)
      ⟨hsifts, fun w hw _ => hsole.waits w hw⟩ hsole
      (Nat.lt_of_le_of_lt hbound (Nat.lt_of_lt_of_le hsquare hfuel))

end Session

end

namespace Session

/-! ### A version among others that cannot be read -/

section

variable [Suite]

/-- The key that versions of the content carry. -/
def shown : PublicKey := ⟨.replicate 32 1⟩

/-- A version of the content in one segment, said to be by some publisher. -/
def short (publisher : Publisher) (v : Version) (content : Octets) : Issue where
  version := v
  first :=
    { name := (someContent.append v.toComponent).firstSegmentName
      info := ⟨publisher, 0, .data, some 0, .key shown, none⟩
      content
      signature := ⟨.replicate 64 0⟩ }
  rest := []

/-- The first and the third of these do not decode, and the last one is not by whom it is said to
be. -/
def shelf : List Issue :=
  [short shown.publisher ⟨5⟩ [0xff], short shown.publisher ⟨7⟩ [0x81, 5],
    short shown.publisher ⟨9⟩ [0xff], short wanted ⟨11⟩ [0x81, 6]]

/-- An object that was opened under the name of the content, while all of it is there. -/
def browsing : Session (List UInt32) :=
  ((start (Supply.publish {} (shelf.map Issue.first)).2).openObject ⟨wanted, [], []⟩ none
    { name := some someContent }).2

omit [Suite] in
theorem whole_short (publisher : Publisher) (v : Version) (content : Octets) :
    (short publisher v content).Whole someContent where
  length_eq := rfl
  name_eq
    | 0, _, hf => Option.some.inj hf ▸ rfl
    | _ + 1, _, hf => nomatch hf
  publisher_eq f hf := by rw [List.mem_singleton.mp hf]
  embeds f hf := by
    rw [List.mem_singleton.mp hf]
    exact ⟨_, rfl⟩

theorem short_of_mem_shelf {r : Issue} (hr : r ∈ shelf) :
    ∃ publisher v content, r = short publisher v content := by
  simp only [shelf, List.mem_cons, List.not_mem_nil, or_false] at hr
  rcases hr with rfl | rfl | rfl | rfl <;> exact ⟨_, _, _, rfl⟩

theorem sound_browsing : browsing.supply.Sound :=
  (Supply.publish_grows (Supply.sound_new {}) (shelf.map Issue.first)).1.of_content rfl rfl rfl

theorem serves_browsing_iff {f : Fragment} :
    browsing.supply.Serves f ↔ f ∈ shelf.map Issue.first := by
  rw [← Supply.mem_contents_iff sound_browsing]
  rfl

theorem publishes_browsing : browsing.supply.Publishes someContent shelf where
  plain := by decide
  sound := sound_browsing
  whole r hr := by
    obtain ⟨publisher, v, content, rfl⟩ := short_of_mem_shelf hr
    exact whole_short publisher v content
  distinct := by
    show [(⟨5⟩ : Version), ⟨7⟩, ⟨9⟩, ⟨11⟩].Nodup
    decide
  served r hr f hf := by
    obtain ⟨publisher, v, content, rfl⟩ := short_of_mem_shelf hr
    rw [List.mem_singleton.mp hf]
    exact serves_browsing_iff.mpr (List.mem_map_of_mem hr)
  below g hg _ := by
    obtain ⟨r, hr, rfl⟩ := List.mem_map.mp (serves_browsing_iff.mp hg)
    exact ⟨r, hr, List.mem_cons_self⟩

end

theorem isReadable_short :
    letI := trusting
    let readable (r : Issue) := r.isReadable (List UInt32) browsing.supply
    readable (short shown.publisher ⟨5⟩ [0xff]) = false ∧
      readable (short shown.publisher ⟨7⟩ [0x81, 5]) = true ∧
      readable (short shown.publisher ⟨9⟩ [0xff]) = false ∧
      readable (short wanted ⟨11⟩ [0x81, 6]) = false := by
  decide +kernel

theorem version_of_holdsGreatest {st : ObjectState (List UInt32)} :
    letI := trusting
    (ObjectState.new (some someContent)).HoldsGreatest someContent browsing.supply shelf st →
      st.version = some ⟨7⟩ := by
  let _ := trusting
  intro h
  obtain ⟨hfifth, hseventh, hninth, heleventh⟩ := isReadable_short
  cases h with
  | kept hno =>
    have hlater := hno (short shown.publisher ⟨7⟩ [0x81, 5]) (by simp [shelf]) hseventh
    cases hlater
  | took r hr hr' _ _ =>
    simp only [shelf, List.mem_cons, List.not_mem_nil, or_false] at hr
    rcases hr with rfl | rfl | rfl | rfl
    · cases hfifth.symm.trans hr'
    · rfl
    · cases hninth.symm.trans hr'
    · cases heleventh.symm.trans hr'

/-- The first version is excluded, the second one adopted, and the others are excluded. -/
theorem background_skips_unreadable_shelf :
    letI := trusting
    ∃ s₁ o' q, browsing.InStep ∧ browsing.supply.Publishes someContent shelf ∧
      browsing.updateInBackground ⟨0⟩ none true = (.ok (), s₁) ∧
      (∀ steps, callsIn ⟨0⟩ steps s₁ ≤ 25) ∧ s₁.settle.step? = none ∧
      s₁.settle.Skipped ⟨0⟩ (prepare ⟨wanted, [], []⟩ none { name := some someContent }) o' q
        browsing.supply someContent shelf ∧
      o'.state.version = some ⟨7⟩ ∧
      q.interest.exclude.excludes (Version.toComponent ⟨9⟩) = true ∧
      q.interest.exclude.excludes (Version.toComponent ⟨11⟩) = true := by
  let _ := trusting
  have hinStep : browsing.InStep := (inStep_start _).openObject _ _ _
  have hpub := publishes_browsing
  obtain ⟨s₁, hbackground, hcalls, hskipped, hcalm⟩ := background_skips_unreadable hinStep
    (show browsing.object? ⟨0⟩ = some (prepare ⟨wanted, [], []⟩ none { name := some someContent })
      from rfl) ⟨rfl, rfl, hpub.plain⟩ hpub
    (Nat.le_trans List.countP_le_length (by decide)) nofun
  have hrest := hcalm rfl
  obtain ⟨o', q, hend⟩ := hskipped s₁.settleFuel fun p hp _ => (step?_eq_none_iff.mp hrest).2 p hp
  have hversion := version_of_holdsGreatest hend.holds
  obtain ⟨_, _, hninth, heleventh⟩ := isReadable_short
  refine ⟨s₁, o', q, hinStep, hpub, hbackground, hcalls, hrest, hend, hversion, ?_, ?_⟩
  · exact hend.excludes (short shown.publisher ⟨9⟩ [0xff]) (by simp [shelf]) hninth
      (by rw [hversion]; decide)
  · exact hend.excludes (short wanted ⟨11⟩ [0x81, 6]) (by simp [shelf]) heleventh
      (by rw [hversion]; decide)

end Session
end NamedContent
