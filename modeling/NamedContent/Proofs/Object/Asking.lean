import NamedContent.Proofs.Interest.Versions
import NamedContent.Proofs.Object.Serving
import NamedContent.Proofs.Object.State
import NamedContent.Proofs.Object.Watch

/-!
# An object that asks for its first version

A session of one object goes through three phases until the object has its first version: its watch
asks for versions (`asking`), or waits for what is lacking of one (`awaiting`), or the object holds
a version and nothing is left to serve (`holding`). Every step of serving, and the giving up of a
wait, leads from a phase to a phase; and a version comes to be held only if its publisher is that of
an answer (`phase_step`, `phase_expire`).
-/

namespace NamedContent
namespace Session

variable {α : Type}

/-! ### Sessions of one object -/

theorem object?_of_single {s : Session α} {id : ObjectId} {o : VersionedObject α}
    (h : s.objects = [(id, o)]) : s.object? id = some o := by
  simp [object?, h]

theorem objects_modifyObject {s : Session α} {id : ObjectId} {o : VersionedObject α}
    (h : s.objects = [(id, o)]) (change : VersionedObject α → VersionedObject α) :
    (s.modifyObject id change).objects = [(id, change o)] := by
  simp [modifyObject, h]

theorem objects_setWatch {s : Session α} {id : ObjectId} {o : VersionedObject α}
    (h : s.objects = [(id, o)]) (watch : Watch) :
    (s.setWatch id watch).objects = [(id, { o with watch })] :=
  objects_modifyObject h _

/-- The only object has no version, and the only pending interest is its watch's, which asks for
versions under the base of a name. -/
structure Asks (s : Session α) (id : ObjectId) (o : VersionedObject α) (n : Name)
    (q : ActiveQuery) (number : InterestId) (standing : Standing) : Prop where
  objects_eq : s.objects = [(id, o)]
  state_eq : o.state = .new (some n)
  active_eq : o.watch.active = some q
  id_eq : q.id = some number
  oneShot : o.watch.continuous = false
  generation_le : q.generation ≤ o.watch.generation
  base_prefix : n.base.isPrefixOf q.interest.name = true
  pending_eq : s.network.pending = [⟨number, q.interest, ⟨id, q.generation⟩, standing⟩]
  number_le : number.number ≤ s.network.expressed

/-- The phases of a session of one object, up to its first version. What it comes to hold is of an
allowed publisher. -/
inductive Phase (allowed : Publisher → Prop) (id : ObjectId) (n : Name) (s : Session α) : Prop where
  | asking (o : VersionedObject α) (q : ActiveQuery) (number : InterestId) (standing : Standing)
      (asks : s.Asks id o n q number standing) (waiting_eq : s.waiting = [])
  | awaiting (o : VersionedObject α) (q : ActiveQuery) (w : Waiting)
      (asks : s.Asks id o n q w.id .busy) (waiting_eq : s.waiting = [w])
      (watcher_eq : w.watcher = ⟨id, q.generation⟩) (allowed_lack : allowed w.lack.publisher)
  | holding (o : VersionedObject α) (p : Publisher) (objects_eq : s.objects = [(id, o)])
      (publisher_eq : o.state.publisher = some p) (allowed_held : allowed p)
      (pending_eq : s.network.pending = []) (waiting_eq : s.waiting = [])

variable {allowed : Publisher → Prop} {s : Session α} {id : ObjectId} {o : VersionedObject α}
  {n : Name} {q : ActiveQuery} {number : InterestId} {standing : Standing}

theorem Asks.object?_eq (h : s.Asks id o n q number standing) : s.object? id = some o :=
  object?_of_single h.objects_eq

/-- What matters is the object and the pending interest. -/
theorem Asks.congr {s' : Session α} (h : s.Asks id o n q number standing)
    (hobj : s'.objects = s.objects) (hnet : s'.network.pending = s.network.pending)
    (hexp : s'.network.expressed = s.network.expressed) : s'.Asks id o n q number standing :=
  ⟨hobj.trans h.objects_eq, h.state_eq, h.active_eq, h.id_eq, h.oneShot, h.generation_le,
    h.base_prefix, hnet.trans h.pending_eq, hexp.symm ▸ h.number_le⟩

theorem Asks.with_waiting (h : s.Asks id o n q number standing) (ws : List Waiting) :
    { s with waiting := ws }.Asks id o n q number standing :=
  h.congr rfl rfl rfl

/-- A phase goes on whatever becomes of the supply and the time. -/
theorem Phase.congr {s' : Session α} (h : Phase allowed id n s) (hobj : s'.objects = s.objects)
    (hnet : s'.network.pending = s.network.pending)
    (hexp : s'.network.expressed = s.network.expressed) (hw : s'.waiting = s.waiting) :
    Phase allowed id n s' := by
  cases h with
  | asking o q number standing asks hwait =>
    exact .asking o q number standing (asks.congr hobj hnet hexp) (hw.trans hwait)
  | awaiting o q w asks hwait hwatcher hlack =>
    exact .awaiting o q w (asks.congr hobj hnet hexp) (hw.trans hwait) hwatcher hlack
  | holding o p hobj' hpub hal hpend hwait =>
    exact .holding o p (hobj.trans hobj') hpub hal (hnet.trans hpend) (hw.trans hwait)

/-! ### Replies -/

/-- The query can be narrowed as long as the interest follows it. -/
theorem Asks.narrow (h : s.Asks id o n q number standing) {q' : ActiveQuery} (hq : q'.Narrows q)
    (exclusions : List Component) (seen : Nat) :
    ∃ o' standing', ((s.setWatch id { o.watch with active := some q', exclusions }).reply number
      seen (.reissue q'.interest)).Asks id o' n q' number standing' := by
  refine ⟨{ o with watch := { o.watch with active := some q', exclusions } },
    if q'.interest = q.interest then .stalled seen else .ready, ?_, h.state_eq, rfl, ?_, h.oneShot,
    ?_, ?_, ?_, h.number_le⟩
  · exact objects_setWatch h.objects_eq _
  · rw [hq.id_eq, h.id_eq]
  · rw [hq.generation_eq]
    exact h.generation_le
  · rw [hq.name_eq]
    exact h.base_prefix
  · show (Network.resolve s.network number seen (.reissue q'.interest)).pending = _
    simp [Network.resolve, Network.modify, h.pending_eq, hq.generation_eq]

/-- The query stays while its watch forgets what it excluded. -/
theorem Asks.forget (h : s.Asks id o n q number standing) (exclusions : List Component) :
    (s.setWatch id { o.watch with active := some q, exclusions }).Asks id
      { o with watch := { o.watch with active := some q, exclusions } } n q number standing :=
  ⟨objects_setWatch h.objects_eq _, h.state_eq, rfl, h.id_eq, h.oneShot, h.generation_le,
    h.base_prefix, h.pending_eq, h.number_le⟩

theorem Asks.stall (h : s.Asks id o n q number standing) (seen : Nat) :
    { s with network := s.network.stall number seen }.Asks id o n q number (.stalled seen) where
  objects_eq := h.objects_eq
  state_eq := h.state_eq
  active_eq := h.active_eq
  id_eq := h.id_eq
  oneShot := h.oneShot
  generation_le := h.generation_le
  base_prefix := h.base_prefix
  pending_eq := by simp [Network.stall, Network.modify, h.pending_eq]
  number_le := h.number_le

theorem Asks.later (h : s.Asks id o n q number standing) (seen : Nat) :
    (s.reply number seen .later).Asks id o n q number .busy where
  objects_eq := h.objects_eq
  state_eq := h.state_eq
  active_eq := h.active_eq
  id_eq := h.id_eq
  oneShot := h.oneShot
  generation_le := h.generation_le
  base_prefix := h.base_prefix
  pending_eq := by simp [reply, Network.resolve, Network.modify, h.pending_eq]
  number_le := h.number_le

/-! ### What a reading leads to -/

variable [Suite]

/-- After a version could not be read, the watch goes on with its query or a narrower one. -/
theorem nextInterest_error (h : o.watch.active = some q) (token : Option Component)
    (e : ObjectError) :
    ∃ q' exclusions, nextInterest o q.generation token (.error e) =
      (some q'.interest, { o.watch with active := some q', exclusions }) ∧ q'.Narrows q := by
  have hretry : o.watch.retry q.generation = some q.interest := by
    rw [Watch.retry, Watch.query?_of_active h]
    rfl
  have hsame : { o.watch with active := some q } = o.watch := by rw [← h]
  unfold nextInterest
  dsimp only
  split
  · exact Watch.reject_of_active h _
  · refine ⟨q, o.watch.exclusions, ?_, Watch.narrows_refl q⟩
    rw [hretry, hsame]

/-- What an arming that is not armed any more concludes leaves the watch as it is. -/
theorem nextInterest_of_stale {g : Nat} (h : o.watch.query? g = none) (token : Option Component)
    (outcome : Except ObjectError Unit) : nextInterest o g token outcome = (none, o.watch) := by
  unfold nextInterest
  split
  · split
    · rw [Watch.confirmed, h]
    · rfl
  · split
    · rw [Watch.reject, h]
    · rw [Watch.retry, h]
      rfl

/-- After a version was adopted, a watch that is not continuous has no further interest. -/
theorem nextInterest_ok (hw : o.watch.continuous = false) (g : Nat) (token : Option Component) :
    (nextInterest o g token (.ok ())).1 = none := by
  unfold nextInterest
  dsimp only
  split
  · exact Watch.confirmed_of_oneShot hw _ _
  · rfl

/-- A complete version is adopted, and nothing is left to serve. -/
theorem Asks.proceed_complete (h : s.Asks id o n q number standing) (hw : s.waiting = [])
    (seen : Nat) (token : Option Component) (a : Adoption α) :
    ∃ o', (s.proceed ⟨id, q.generation⟩ number seen token (.ok (.complete a))).objects =
        [(id, o')] ∧ o'.state = o.state.take a ∧
      (s.proceed ⟨id, q.generation⟩ number seen token (.ok (.complete a))).network.pending = [] ∧
      (s.proceed ⟨id, q.generation⟩ number seen token (.ok (.complete a))).waiting = [] := by
  have hnone : o.state.version = none := by
    rw [h.state_eq]
    rfl
  have hobj : (s.modifyState id fun _ => o.state.take a).objects =
      [(id, { o with state := o.state.take a })] := objects_modifyObject h.objects_eq _
  have hnext : (nextInterest { o with state := o.state.take a } q.generation token (.ok ())).1 =
      none := nextInterest_ok (o := { o with state := o.state.take a }) h.oneShot _ _
  simp only [proceed, adopt_of_version_eq_none h.object?_eq hnone, conclude,
    object?_of_single hobj, hnext, replyOf]
  refine ⟨_, objects_setWatch hobj _, rfl, ?_, hw⟩
  show (Network.remove s.network number).pending = []
  simp [Network.remove, h.pending_eq]

theorem phase_proceed (h : s.Asks id o n q number standing) (hw : s.waiting = []) (seen : Nat)
    (token : Option Component) {reading : Except ObjectError (Reading α)}
    (hr : ∀ r, reading = .ok r → allowed r.publisher) :
    Phase allowed id n (s.proceed ⟨id, q.generation⟩ number seen token reading) := by
  cases reading with
  | error e =>
    obtain ⟨q', ex, hnext, hq⟩ := nextInterest_error h.active_eq token e
    obtain ⟨o', st, hasks⟩ := h.narrow hq ex seen
    simp only [proceed, conclude, h.object?_eq, hnext, replyOf]
    exact .asking o' q' number st hasks hw
  | ok r =>
    have hp := hr r rfl
    cases r with
    | complete a =>
      obtain ⟨o', hobj, hstate, hpend, hwait⟩ := h.proceed_complete hw seen token a
      refine .holding o' a.publisher hobj ?_ hp hpend hwait
      rw [hstate]
      rfl
    | lacking l =>
      simp only [proceed, h.object?_eq, hw, List.nil_append]
      exact .awaiting o q _ ((h.with_waiting _).later seen) rfl rfl hp

/-! ### One step of serving -/

variable [Payload α]

theorem phase_resume {w : Waiting} (h : s.Asks id o n q w.id .busy) (hw : s.waiting = [])
    (hwatcher : w.watcher = ⟨id, q.generation⟩) (hp : allowed w.lack.publisher) :
    Phase allowed id n (s.resume w) := by
  have hobj : s.object? w.watcher.object = some o := by
    rw [hwatcher]
    exact h.object?_eq
  have hproceed : Phase allowed id n
      (s.proceed w.watcher w.id w.seen w.token (Reading.pursue s.supply o.keys w.lack)) := by
    rw [hwatcher]
    apply phase_proceed h hw
    intro r hr
    rw [Reading.publisher_of_pursue hr]
    exact hp
  rcases resume_cases hobj with hres | hres
  · rw [hres, hw, List.nil_append]
    exact .awaiting o q { w with checked := s.supply.changes } (h.with_waiting _) rfl hwatcher hp
  · rw [hres]
    exact hproceed

theorem phase_hand (h : s.Asks id o n q number standing) (hw : s.waiting = []) {f : Fragment}
    (hp : allowed f.publisher) :
    Phase allowed id n (s.hand ⟨number, q.interest, ⟨id, q.generation⟩, standing⟩ f) := by
  unfold hand
  simp only [h.object?_eq]
  rcases Watch.handleBatch_singleton h.active_eq f with ⟨t, ht, _, hcand⟩ | ⟨q', ex, ht, hq⟩
  · simp only [ht]
    apply phase_proceed (h.forget []) hw
    intro r hr
    rw [Reading.publisher_of_ofConfirmed hr, Watch.publisher_of_candidate? hcand]
    exact hp
  · simp only [ht]
    obtain ⟨o', st, hasks⟩ := h.narrow hq ex s.supply.changes
    exact .asking o' q' number st hasks hw

/-- Some interest under a name finds the fragment. -/
def Offers (s : Session α) (n : Name) (f : Fragment) : Prop :=
  ∃ i : Interest, n.isPrefixOf i.name = true ∧ s.supply.find i = .ok (some f)

theorem phase_deliver (h : s.Asks id o n q number standing) (hw : s.waiting = [])
    (hoffers : ∀ f, s.Offers n.base f → allowed f.publisher) :
    Phase allowed id n (s.deliver ⟨number, q.interest, ⟨id, q.generation⟩, standing⟩) := by
  unfold deliver Network.answer?
  dsimp only
  cases hf : s.network.supply.find q.interest with
  | error e => exact .asking o q number _ (h.stall _) hw
  | ok found =>
    cases found with
    | none => exact .asking o q number _ (h.stall _) hw
    | some f => exact phase_hand h hw (hoffers f ⟨q.interest, h.base_prefix, hf⟩)

omit [Suite] [Payload α] in
theorem next?_of_asks (h : s.Asks id o n q number standing) {p : Pending Watcher}
    (hp : s.network.next? = some p) :
    p = ⟨number, q.interest, ⟨id, q.generation⟩, standing⟩ ∧ standing ≠ .busy := by
  rw [Network.next?, h.pending_eq, List.find?_singleton] at hp
  split at hp
  · next hready =>
    refine ⟨(Option.some.inj hp).symm, ?_⟩
    rintro rfl
    cases hready
  · cases hp

/-- A step of serving leads from a phase to a phase. -/
theorem phase_step {s' : Session α} (h : Phase allowed id n s)
    (hoffers : ∀ f, s.Offers n.base f → allowed f.publisher) (hs : s.step? = some s') :
    Phase allowed id n s' := by
  unfold step? at hs
  cases h with
  | asking o q number standing asks hw =>
    simp only [hw, takeChanged] at hs
    obtain ⟨p, hp, rfl⟩ := Option.map_eq_some_iff.mp hs
    obtain ⟨rfl, _⟩ := next?_of_asks asks hp
    exact phase_deliver asks hw hoffers
  | awaiting o q w asks hw hwatcher hlack =>
    simp only [hw, takeChanged] at hs
    split at hs
    · next found =>
      split at found
      · cases found
        cases hs
        exact phase_resume (asks.with_waiting []) rfl hwatcher hlack
      · cases found
    · obtain ⟨p, hp, rfl⟩ := Option.map_eq_some_iff.mp hs
      exact absurd rfl (next?_of_asks asks hp).2
  | holding o p hobj hpub hal hpend hw =>
    simp only [hw, takeChanged, Network.next?, hpend, List.find?_nil] at hs
    cases hs

/-! ### Arming anew -/

/-- The watch of the only object can be armed: it is idle, or its interest can be withdrawn. -/
def Armable (s : Session α) (id : ObjectId) (o : VersionedObject α) (n : Name) : Prop :=
  (o.watch.active = none ∧ s.network.pending = []) ∨
    ∃ q number standing, s.Asks id o n q number standing

omit [Suite] [Payload α] in
/-- Whatever the watch asked for before is withdrawn when it is armed. -/
theorem Armable.pending_withdraw (h : s.Armable id o n) :
    (s.withdraw (o.watch.active.bind ActiveQuery.id)).network.pending = [] := by
  rcases h with ⟨hw, hp⟩ | ⟨q, number, standing, h⟩
  · rw [hw]
    exact hp
  · have hp : (s.network.pending? number).isSome = true := by
      simp [Network.pending?, h.pending_eq]
    rw [h.active_eq, Option.bind_some, h.id_eq]
    simp [withdraw, Network.cancel, hp, Network.remove, h.pending_eq]

omit [Suite] [Payload α] in
/-- An object without a version goes on from its own name, unless that is the root. -/
theorem known_of_new {known fallback : Name} (hstate : o.state = .new (some n))
    (h : o.state.knownName = .ok known ∨
      (∃ e, o.state.knownName = .error e) ∧ known = fallback.base) :
    n.base.isPrefixOf known.base = true ∧ (n.isRoot = false → known = n) := by
  have hbase : o.state.base = some n := by
    rw [hstate]
    rfl
  rcases h with hown | ⟨⟨e, he⟩, -⟩
  · obtain ⟨b, hb, -, hknown⟩ := ObjectState.knownName_eq_ok_iff.mp hown
    obtain rfl : n = b := Option.some.inj (hbase.symm.trans hb)
    have hversion : o.state.version = none := by
      rw [hstate]
      rfl
    rw [hversion, Option.elim_none] at hknown
    subst hknown
    exact ⟨List.isPrefixOf_iff_prefix.mpr (List.prefix_refl _), fun _ => rfl⟩
  · have hisRoot := ObjectState.isRoot_of_knownName hbase he
    obtain rfl : n = Name.root := Name.eq_root_of_isRoot hisRoot
    exact ⟨rfl, nofun⟩

omit [Suite] [Payload α] in
/-- Armed after a read that found too little, the watch asks for the versions after the object's
name, of any publisher. -/
theorem asks_watchAgain (h : s.Armable id o n) (hobj : s.objects = [(id, o)])
    (hstate : o.state = .new (some n)) (hshot : o.watch.continuous = false) (fallback : Name) :
    ∃ o' q', (s.watchAgain id fallback).Asks id o' n q' ⟨s.network.expressed + 1⟩ .ready ∧
      o'.keys = o.keys ∧ q'.generation = o.watch.generation + 1 ∧
      (n.isRoot = false → q'.known = n ∧ q'.interest = .nextVersion n) ∧
      (s.watchAgain id fallback).waiting = s.waiting ∧
      ∃ c, (s.watchAgain id fallback).supply = { s.supply with changes := c } := by
  obtain ⟨c, pending, hwith⟩ := s.withdraw_eq (o.watch.active.bind ActiveQuery.id)
  have hpend : pending = [] := by
    have hp := h.pending_withdraw
    rw [hwith] at hp
    exact hp
  obtain ⟨known, hknown, hname⟩ := watchAgain_eq (object?_of_single hobj) fallback
  obtain ⟨hbase, hroot⟩ := known_of_new hstate hname
  let q' : ActiveQuery :=
    { generation := o.watch.generation + 1, known, interest := .nextVersion known
      id := some ⟨s.network.expressed + 1⟩ }
  let watch' : Watch :=
    { active := some q', exclusions := [], continuous := false
      generation := o.watch.generation + 1 }
  -- Whatever was pending belonged to the watch, so the new interest is all that is pending now.
  have hagain : s.watchAgain id fallback =
      { s with
        network :=
          { supply := { s.supply with changes := c }
            pending := [⟨⟨s.network.expressed + 1⟩, q'.interest, ⟨id, q'.generation⟩, .ready⟩]
            expressed := s.network.expressed + 1 }
        objects := [(id, { o with watch := watch' })] } := by
    rw [hknown, hshot]
    simp [arm_of_object? (object?_of_single hobj), Watch.arm, Watch.cancel, hwith,
      Network.express, hpend, Watch.registered, Watch.query?, Option.filter, setWatch,
      modifyObject, hobj, q', watch', supply]
  refine ⟨{ o with watch := watch' }, q', ?_, rfl, rfl, ?_, ?_, c, ?_⟩
  · rw [hagain]
    refine ⟨rfl, hstate, rfl, rfl, rfl, Nat.le_refl _, ?_, rfl, Nat.le_refl _⟩
    show n.base.isPrefixOf (Interest.nextVersion known).name = true
    rw [Interest.name_nextVersion]
    exact hbase
  · intro h
    rw [← hroot h]
    exact ⟨rfl, rfl⟩
  · rw [hagain]
  · rw [hagain]
    rfl

/-! ### Giving up -/

omit [Payload α] in
/-- A conclusion for an earlier arming changes nothing but what is left of its interest. -/
theorem Asks.conclude_stale (h : s.Asks id o n q number standing) {g : Nat}
    (hg : q.generation ≠ g) {k : InterestId} (hk : number ≠ k) (seen : Nat)
    (token : Option Component) :
    (s.conclude ⟨id, g⟩ k seen token (.ok ())).Asks id o n q number standing := by
  have hnext : nextInterest o g token (.ok ()) = (none, o.watch) :=
    nextInterest_of_stale (Watch.query?_of_generation_ne h.active_eq hg) token _
  simp only [conclude, h.object?_eq, hnext, replyOf]
  refine ⟨?_, h.state_eq, h.active_eq, h.id_eq, h.oneShot, h.generation_le, h.base_prefix, ?_,
    h.number_le⟩
  · exact objects_setWatch h.objects_eq _
  · show (Network.remove s.network k).pending = _
    simp [Network.remove, h.pending_eq, hk]

omit [Payload α] in
theorem phase_giveUp {w : Waiting} (h : s.Asks id o n q w.id .busy) (hw : s.waiting = [])
    (hwatcher : w.watcher = ⟨id, q.generation⟩) : Phase allowed id n (s.giveUp w) := by
  obtain ⟨o', q', hasks, _, hgen, _, hwait, _⟩ :=
    asks_watchAgain (.inr ⟨q, w.id, .busy, h⟩) h.objects_eq h.state_eq h.oneShot w.lack.fallback
  have hle := h.generation_le
  have hlt := h.number_le
  have hg : q'.generation ≠ q.generation := by omega
  have hk : (⟨s.network.expressed + 1⟩ : InterestId) ≠ w.id := by
    intro hk
    rw [← hk] at hlt
    exact absurd hlt (by simp)
  unfold giveUp
  rw [hwatcher]
  refine .asking o' q' _ .ready (hasks.conclude_stale hg hk w.seen w.token) ?_
  rw [waiting_conclude, hwait, hw]

omit [Payload α] in
theorem Offers.of_supply {s' : Session α} {c : Nat}
    (hs : s'.supply = { s.supply with changes := c }) {f : Fragment} (h : s'.Offers n f) :
    s.Offers n f := by
  obtain ⟨i, hi, hf⟩ := h
  rw [hs] at hf
  exact ⟨i, hi, hf⟩

/-- Settling leads from a phase to a phase. -/
theorem phase_settle (h : Phase allowed id n s)
    (hoffers : ∀ f, s.Offers n.base f → allowed f.publisher) : Phase allowed id n s.settle := by
  suffices hs : Phase allowed id n s.settle ∧ s.settle.supply = s.supply from hs.1
  apply settleIn_induction (P := fun s' => Phase allowed id n s' ∧ s'.supply = s.supply)
  · rintro s₁ s₂ ⟨hphase, hsupply⟩ hstep
    refine ⟨phase_step hphase (fun f hf => hoffers f ?_) hstep, ?_⟩
    · exact Offers.of_supply (c := s.supply.changes) hsupply hf
    · rw [supply_step? hstep, hsupply]
  · exact ⟨h, rfl⟩

/-- The giving up of waits leads from a phase to a phase. -/
theorem phase_expire (h : Phase allowed id n s)
    (hoffers : ∀ f, s.Offers n.base f → allowed f.publisher) : Phase allowed id n s.expire := by
  have hsettle := phase_settle h hoffers
  cases h with
  | asking o q number standing asks hw => rw [expire_of_waiting_nil hw]; exact hsettle
  | holding o p hobj hpub hal hpend hw => rw [expire_of_waiting_nil hw]; exact hsettle
  | awaiting o q w asks hw hwatcher hlack =>
    rcases expire_of_waiting_singleton hw with he | he
    · rw [he]
      apply phase_settle
      · exact phase_giveUp (asks.with_waiting []) rfl hwatcher
      · intro f hf
        obtain ⟨c, hc⟩ := supply_giveUp { s with waiting := [] } w
        exact hoffers f (Offers.of_supply hc hf)
    · rw [he]
      exact hsettle

end Session
end NamedContent
