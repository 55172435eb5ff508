import NamedContent.Proofs.Object.Passing
import NamedContent.Proofs.Object.Release

/-!
# Following releases while they arrive

An object that held no version follows a base in the background, among others that do what they do.
It holds no release or one of them, its watch asks for later ones, and either the interest of the
watch is pending, perhaps after it was looked at in vain, or the watch waits for what is lacking of
a later release (`Pursues`).

What is served of other objects leaves this as it is (`Pursues.congr`). When the object is served,
it is at rest until something changes, or it moves forward and less is left to be adopted
(`Served`). So the object never goes back (`Tracks.goes`), and if nobody else is at work, settling
brings it to rest (`Tracks.settle_of_alone`).
-/

namespace NamedContent

/-! ### Later versions -/

namespace Session

variable {u v w : Option Version}

@[simp] theorem not_isLater_self (v : Option Version) : isLater v v = false := by
  cases v with
  | none => rfl
  | some v => exact decide_eq_false (UInt64.lt_irrefl v.ticks)

theorem not_isLater_trans (h : isLater u v = false) (h' : isLater v w = false) :
    isLater u w = false := by
  cases u with
  | none => rfl
  | some u =>
    cases v with
    | none => cases h
    | some v =>
      cases w with
      | none => cases h'
      | some w =>
        have huv := Version.lt_iff_toNat_lt.not.mp (of_decide_eq_false h)
        have hvw := Version.lt_iff_toNat_lt.not.mp (of_decide_eq_false h')
        exact decide_eq_false (Version.lt_iff_toNat_lt.not.mpr (by omega))

theorem not_isLater_of_isLater (h : isLater u v = true) : isLater v u = false := by
  cases u with
  | none => cases h
  | some u =>
    cases v with
    | none => rfl
    | some v =>
      have hvu := Version.lt_iff_toNat_lt.mp (of_decide_eq_true h)
      exact decide_eq_false (Version.lt_iff_toNat_lt.not.mpr (by omega))

theorem isLater_trans (h : isLater u v = true) (h' : isLater v w = true) : isLater u w = true := by
  by_contra hno
  rw [Bool.not_eq_true] at hno
  -- Otherwise `u` would not be later than `v` either.
  rw [not_isLater_trans hno (not_isLater_of_isLater h')] at h
  cases h

end Session

variable [Suite] {α : Type} {b : Name} {rs : List (Release α)} {r : Release α}
  {v v' : Option Version}

/-! ### States -/

namespace ObjectState

variable {st st' : ObjectState α}

omit [Suite] in
/-- A state under a base name, without a version. -/
structure Versionless (st : ObjectState α) (b : Name) : Prop where
  base_eq : st.base = some b
  version_eq : st.version = none
  not_root : b.isRoot = false

/-- The states of an object that follows releases, and the versions that it holds in them. -/
inductive Follows (st : ObjectState α) (b : Name) (rs : List (Release α)) :
    Option Version → ObjectState α → Prop where
  | start : st.Follows b rs none st
  | took (r : Release α) (mem : r ∈ rs) :
      st.Follows b rs (some r.version) (st.take (r.adoption b))

theorem Follows.version_eq (hst : st.Versionless b) (h : st.Follows b rs v st') :
    st'.version = v := by
  cases h with
  | start => exact hst.version_eq
  | took r _ => rfl

theorem Follows.knownName_eq (hst : st.Versionless b) (hplain : b.splitVersion? = none)
    (h : st.Follows b rs v st') : st'.knownName = .ok (b.known v) := by
  have hbase : st'.base = some b := by
    cases h with
    | start => exact hst.base_eq
    | took r _ => rfl
  rw [knownName_of_base hbase hst.not_root, h.version_eq hst, Name.known_eq hplain]

/-- A later release replaces whatever was there. -/
theorem Follows.adopt_eq (hst : st.Versionless b) (hplain : b.splitVersion? = none)
    (h : st.Follows b rs v st') (hlater : Session.isLater (some r.version) v = true) :
    (st'.adopt (r.adoption b)).2 = st.take (r.adoption b) := by
  cases h with
  | start => rw [adopt_of_version_eq_none hst.version_eq]
  | took r' _ =>
    have hnew : (st.take (r'.adoption b)).isNewer (r.adoption b).base (r.adoption b).version =
        true := by
      show (if b.base = b then decide (r'.version < r.version) else true) = true
      rw [if_pos (Name.base_of_splitVersion?_eq_none hplain)]
      exact hlater
    rw [adopt_of_newer hnew]
    rfl

end ObjectState

/-! ### Watches -/

omit [Suite] in
theorem Interest.nextVersion_known_ne (hplain : b.splitVersion? = none)
    (hlater : Session.isLater (some r.version) v = true) :
    nextVersion (b.known (some r.version)) ≠ nextVersion (b.known v) := by
  intro heq
  have hbound := congrArg (fun i => i.exclude.bound) heq
  have hsome : (nextVersion (b.known (some r.version))).exclude.bound =
      some r.version.toComponent := by
    rw [Name.known, nextVersion_eq_of_split (Name.splitVersion?_append b r.version)]
    rfl
  rw [hsome] at hbound
  cases v with
  | none =>
    rw [Name.known, nextVersion_eq_of_unversioned hplain] at hbound
    cases hbound
  | some u =>
    rw [Name.known, nextVersion_eq_of_split (Name.splitVersion?_append b u)] at hbound
    have hru := Version.toComponent_injective (Option.some.inj hbound)
    rw [hru] at hlater
    exact absurd hlater (by rw [Session.not_isLater_self]; exact Bool.false_ne_true)

namespace Supply

variable [Payload α] {s s' : Supply}

/-- A supply at a later time. If more is served, it has changed. -/
structure LeadsTo (s s' : Supply) : Prop where
  serves : ∀ f, s.Serves f → s'.Serves f
  changes_le : s.changes ≤ s'.changes
  serves_of_changes_eq : s'.changes = s.changes → ∀ f, s'.Serves f → s.Serves f

omit [Suite] in
theorem leadsTo_of_changes {c : Nat} (h : s' = { s with changes := c }) (hle : s.changes ≤ c) :
    s.LeadsTo s' := by
  subst h
  exact ⟨fun _ hf => hf, hle, fun _ _ hf => hf⟩

/-- A release that is there in part is not matched any more from its version on. -/
theorem Carries.matching_lt (h : s.Carries b rs) (hr : r ∈ rs)
    (hlater : Session.isLater (some r.version) v = true) (hbegun : ∃ f ∈ r.fragments, s.Serves f) :
    s.matching (.nextVersion (b.known (some r.version))) <
      s.matching (.nextVersion (b.known v)) := by
  have hplain := h.releases.plain
  have hread := h.releases.readable r hr
  obtain ⟨f, hf, hserved⟩ := hbegun
  refine Supply.matching_lt h.sound (fun g hg ha => ?_) hserved
    ((hread.accepts_nextVersion_iff hplain hf).mpr hlater) ?_
  · have hpre := Interest.prefix_of_accepts ha
    rw [Interest.name_nextVersion_known hplain] at hpre
    obtain ⟨r', hr', hg'⟩ := h.below g hg hpre
    have hread' := h.releases.readable r' hr'
    rw [hread'.accepts_nextVersion_iff hplain hg'] at ha ⊢
    exact Session.isLater_trans ha hlater
  · rw [Bool.eq_false_iff, ne_eq, hread.accepts_nextVersion_iff hplain hf, Session.not_isLater_self]
    exact Bool.false_ne_true

end Supply

namespace Session

variable [Payload α] {s s' : Session α} {id : ObjectId} {o : VersionedObject α}
  {state : ObjectState α} {watch : Watch} {q : ActiveQuery} {p : Pending Watcher} {w : Waiting}
  {f : Fragment} {left : Nat}

/-! ### The invariant -/

/-- The watch of an object asks for the releases after the one held. -/
structure Seeks (s : Session α) (id : ObjectId) (o : VersionedObject α) (b : Name)
    (rs : List (Release α)) (v : Option Version) (state : ObjectState α) (watch : Watch)
    (q : ActiveQuery) : Prop where
  object?_eq : s.object? id = some { o with state, watch }
  versionless : o.state.Versionless b
  follows : o.state.Follows b rs v state
  active_eq : watch.active = some q
  continuous_eq : watch.continuous = true
  exclusions_eq : watch.exclusions = []
  known_eq : q.known = b.known v
  interest_eq : q.interest = .nextVersion (b.known v)

omit [Payload α] in
/-- An interest can be looked at, or it was looked at in vain. Then nothing of a later release is
there if nothing has changed since. -/
structure Searched (s : Session α) (b : Name) (rs : List (Release α)) (v : Option Version)
    (p : Pending Watcher) : Prop where
  not_busy : p.standing ≠ .busy
  seen_le : ∀ seen, p.standing = .stalled seen → seen ≤ s.supply.changes
  nothing : p.standing = .stalled s.supply.changes → ∀ r ∈ rs, isLater (some r.version) v = true →
    ∀ f ∈ r.fragments, ¬ s.supply.Serves f

omit [Payload α] in
/-- A watch waits for what is lacking of a later release, which is there in part. It is not there as
a whole if nothing has changed since it was looked for last. -/
structure Awaits (s : Session α) (b : Name) (v : Option Version) (r : Release α) (x : Watcher)
    (w : Waiting) : Prop where
  watcher_eq : w.watcher = x
  lacks : r.Lacks b w.lack
  later : isLater (some r.version) v = true
  begun : ∃ f ∈ r.fragments, s.supply.Serves f
  checked_le : w.checked ≤ s.supply.changes
  missing : w.checked = s.supply.changes → ∃ f ∈ r.fragments, ¬ s.supply.Serves f

/-- The object follows the releases, and holds this version: its watch asks for later ones, or waits
for what is lacking of one. -/
inductive Pursues (s : Session α) (id : ObjectId) (o : VersionedObject α) (b : Name)
    (rs : List (Release α)) (v : Option Version) : Prop where
  | asking (state : ObjectState α) (watch : Watch) (q : ActiveQuery)
      (seeks : s.Seeks id o b rs v state watch q) (idle : ∀ w ∈ s.waiting, w.watcher.object ≠ id)
      (searched : ∀ p ∈ s.network.pending, p.listener.object = id → s.Searched b rs v p)
  | awaiting (state : ObjectState α) (watch : Watch) (q : ActiveQuery) (r : Release α) (w : Waiting)
      (seeks : s.Seeks id o b rs v state watch q) (mem_releases : r ∈ rs) (mem : w ∈ s.waiting)
      (awaits : s.Awaits b v r ⟨id, q.generation⟩ w)
      (only : ∀ u ∈ s.waiting, u.watcher.object = id → u = w)

omit [Suite] [Payload α] in
theorem searched_of_ready (h : p.standing = .ready) : s.Searched b rs v p where
  not_busy := by simp [h]
  seen_le := by simp [h]
  nothing := by simp [h]

omit [Payload α] in
theorem Seeks.congr (h : s.Seeks id o b rs v state watch q) (hobj : s'.object? id = s.object? id) :
    s'.Seeks id o b rs v state watch q :=
  ⟨hobj.trans h.object?_eq, h.versionless, h.follows, h.active_eq, h.continuous_eq, h.exclusions_eq,
    h.known_eq, h.interest_eq⟩

omit [Payload α] in
/-- So it is while others are served, more is published and time passes. -/
theorem Pursues.congr (h : s.Pursues id o b rs v) (hs : Spares id s s')
    (hsupply : s.supply.LeadsTo s'.supply) : s'.Pursues id o b rs v := by
  have hle := hsupply.changes_le
  cases h with
  | asking state watch q hseeks hidle hsearched =>
    refine .asking state watch q (hseeks.congr hs.object?_eq) (fun w hw hid => ?_) fun p hp hl => ?_
    · exact hidle w ((hs.waiting_iff w hid).mp hw) hid
    · obtain ⟨hnot, hseen, hnothing⟩ := hsearched p ((hs.pending_iff p hl).mp hp) hl
      refine ⟨hnot, fun seen hstalled => Nat.le_trans (hseen seen hstalled) hle, fun hstalled => ?_⟩
      -- What was seen now was seen before, so nothing has changed.
      have hsame : s'.supply.changes = s.supply.changes :=
        Nat.le_antisymm (hseen _ hstalled) hle
      exact fun r hr hlater f hf hserved => hnothing (hsame ▸ hstalled) r hr hlater f hf
        (hsupply.serves_of_changes_eq hsame f hserved)
  | awaiting state watch q r w hseeks hr hmem hawaits honly =>
    have hid : w.watcher.object = id := by rw [hawaits.watcher_eq]
    obtain ⟨f, hf, hserved⟩ := hawaits.begun
    refine .awaiting state watch q r w (hseeks.congr hs.object?_eq) hr
      ((hs.waiting_iff w hid).mpr hmem)
      { watcher_eq := hawaits.watcher_eq, lacks := hawaits.lacks, later := hawaits.later
        begun := ⟨f, hf, hsupply.serves f hserved⟩
        checked_le := Nat.le_trans hawaits.checked_le hle, missing := fun hchecked => ?_ }
      fun u hu hid => honly u ((hs.waiting_iff u hid).mp hu) hid
    have hsame : s'.supply.changes = s.supply.changes :=
      Nat.le_antisymm (hchecked ▸ hawaits.checked_le) hle
    obtain ⟨g, hg, hmissing⟩ := hawaits.missing (hchecked.trans hsame)
    exact ⟨g, hg, fun hserved => hmissing (hsupply.serves_of_changes_eq hsame g hserved)⟩

/-! ### At rest -/

/-- Nothing can be served for an object before something changes. -/
structure Rests (s : Session α) (id : ObjectId) : Prop where
  quiet : s.Quiet id
  not_ready : ∀ p ∈ s.network.pending, p.listener.object = id → s.network.isReady p = false

/-- What is left to be adopted, counted in fragments. -/
def remaining (s : Session α) (b : Name) (v : Option Version) : Nat :=
  s.supply.matching (.nextVersion (b.known v))

omit [Payload α] in
theorem remaining_of_supply_eq (h : s'.supply = s.supply) (b : Name) (v : Option Version) :
    s'.remaining b v = s.remaining b v := by
  unfold remaining
  rw [h]

/-- What comes of it when an object is served, of which so much was left to be adopted: it is at
rest, or it has moved forward. -/
inductive Served (s : Session α) (id : ObjectId) (o : VersionedObject α) (b : Name)
    (rs : List (Release α)) (v : Option Version) (left : Nat) : Prop where
  | rest (pursues : s.Pursues id o b rs v) (rests : s.Rests id)
  | moved (v' : Option Version) (pursues : s.Pursues id o b rs v') (later : isLater v' v = true)
      (remaining_lt : s.remaining b v' < left)

/-! ### Serving -/

omit [Payload α] in
/-- A later release is adopted, and the watch goes on from it. -/
theorem Seeks.adopt (h : s.Seeks id o b rs v state watch q) (hplain : b.splitVersion? = none)
    (hin : s.InStep) (hidle : ∀ w ∈ s.waiting, w.watcher.object ≠ id)
    (hp : p ∈ s.network.pending) (hl : p.listener.object = id) (hr : r ∈ rs)
    (hlater : isLater (some r.version) v = true) (seen : Nat) (token : Option Component) :
    (s.proceed ⟨id, q.generation⟩ p.id seen token (.ok (.complete (r.adoption b)))).Pursues id o b
      rs (some r.version) := by
  let known := b.known (some r.version)
  let next : ActiveQuery := { q with known, interest := .nextVersion known }
  let watch' : Watch := { watch with active := some next, exclusions := [] }
  have hfollows : o.state.Follows b rs (some r.version) (o.state.take (r.adoption b)) := .took r hr
  have hstate := h.follows.adopt_eq h.versionless hplain hlater
  have hnext := nextInterest_of_adopted
    (o := { o with state := (state.adopt (r.adoption b)).2, watch }) h.active_eq h.continuous_eq
    (hstate ▸ hfollows.knownName_eq h.versionless hplain) token
  let taken : Session α :=
    (s.modifyState id fun _ => (state.adopt (r.adoption b)).2).setWatch id watch'
  have hobj : taken.object? id =
      some { o with state := o.state.take (r.adoption b), watch := watch' } := by
    rw [← hstate]
    exact object?_modifyObject (object?_modifyObject h.object?_eq _)
      fun o => { o with watch := watch' }
  -- Another interest is asked than before, so what was searched for so far does not count.
  have hne : next.interest ≠ q.interest := by
    rw [h.interest_eq]
    exact Interest.nextVersion_known_ne hplain hlater
  have hready := hin.ready_of_reissue taken h.object?_eq h.active_eq hp hl rfl hne seen
  rw [proceed_of_complete h.object?_eq q.generation p.id seen token (r.adoption b) hnext]
  exact .asking _ watch' next
    ⟨hobj, h.versionless, hfollows, rfl, h.continuous_eq, rfl, rfl, rfl⟩ hidle
    fun p' hp' hl' => searched_of_ready (hready p' hp' hl')

omit [Payload α] in
/-- A watch waits for what was looked for in vain. -/
theorem Seeks.await (h : s.Seeks id o b rs v state watch q)
    (hidle : ∀ w ∈ s.waiting, w.watcher.object ≠ id)
    (hbusy : ∀ p ∈ s.network.pending, p.listener.object = id → p.standing = .busy) (hr : r ∈ rs)
    (hw : s.Awaits b v r ⟨id, q.generation⟩ w) (hchecked : w.checked = s.supply.changes)
    (left : Nat) :
    { s with waiting := s.waiting ++ [w] }.Served id o b rs v left := by
  -- No other wait is of the object, and what it waits for was just looked for.
  have honly : ∀ u ∈ s.waiting ++ [w], u.watcher.object = id → u = w := by
    intro u hu hid
    rcases List.mem_append.mp hu with hu | hu
    · exact absurd hid (hidle u hu)
    · exact List.mem_singleton.mp hu
  refine .rest (.awaiting state watch q r w (h.congr rfl) hr (by simp) ?_ honly)
    ⟨fun u hu hid => ?_, fun p hp hl => ?_⟩
  · exact ⟨hw.watcher_eq, hw.lacks, hw.later, hw.begun, hw.checked_le, hw.missing⟩
  · rw [honly u hu hid]
    exact hchecked
  · rw [Network.isReady, hbusy p hp hl]

/-- Acting on how far a later release was read. -/
theorem Seeks.proceed (h : s.Seeks id o b rs v state watch q) (hin : s.InStep)
    (hcarries : s.supply.Carries b rs) (hidle : ∀ w ∈ s.waiting, w.watcher.object ≠ id)
    (hp : p ∈ s.network.pending) (hl : p.listener.object = id) (hr : r ∈ rs)
    (hlater : isLater (some r.version) v = true) (hbegun : ∃ f ∈ r.fragments, s.supply.Serves f)
    (seen : Nat) (token : Option Component) {reading : Except ObjectError (Reading α)}
    (hread : r.Read s.supply b reading) :
    (s.proceed ⟨id, q.generation⟩ p.id seen token reading).Served id o b rs v
      (s.remaining b v) := by
  cases hread with
  | complete =>
    refine .moved _ (h.adopt hcarries.releases.plain hin hidle hp hl hr hlater seen token) hlater ?_
    rw [remaining_of_supply_eq (supply_proceed ..)]
    exact hcarries.matching_lt hr hlater hbegun
  | lacking l hlacks f hf hmissing =>
    let w : Waiting :=
      { watcher := ⟨id, q.generation⟩, id := p.id, seen, token, lack := l
        checked := s.supply.changes
        deadline := s.now + max (s.patience { o with state, watch } l) 1 }
    have hproceed : s.proceed ⟨id, q.generation⟩ p.id seen token (.ok (.lacking l)) =
        { s.reply p.id seen .later with waiting := s.waiting ++ [w] } := by
      unfold Session.proceed
      simp only [h.object?_eq]
      rfl
    have hseeks : (s.reply p.id seen .later).Seeks id o b rs v state watch q := h.congr rfl
    rw [hproceed]
    exact hseeks.await hidle (hin.busy_of_later h.object?_eq h.active_eq hp hl seen) hr
      ⟨rfl, hlacks, hlater, hbegun, Nat.le_refl _, fun _ => ⟨f, hf, hmissing⟩⟩ rfl _

/-- Looking again for what is lacking. -/
theorem Seeks.resume (h : s.Seeks id o b rs v state watch q) (hin : s.InStep)
    (hcarries : s.supply.Carries b rs) (hidle : ∀ w ∈ s.waiting, w.watcher.object ≠ id)
    (hp : p ∈ s.network.pending) (hl : p.listener.object = id) (hid : p.id = w.id)
    (hbusy : ∀ p ∈ s.network.pending, p.listener.object = id → p.standing = .busy) (hr : r ∈ rs)
    (hw : s.Awaits b v r ⟨id, q.generation⟩ w) :
    (s.resume w).Served id o b rs v (s.remaining b v) := by
  have hread : r.Read s.supply b (Reading.pursue s.supply o.keys w.lack) :=
    hcarries.pursue hr hw.lacks
  have hproceed := h.proceed hin hcarries hidle hp hl hr hw.later hw.begun w.seen w.token hread
  rw [← hw.watcher_eq, hid] at hproceed
  have hobj : s.object? w.watcher.object = some { o with state, watch } := by
    rw [hw.watcher_eq]
    exact h.object?_eq
  unfold Session.resume
  simp only [hobj]
  generalize (Reading.pursue s.supply o.keys w.lack : Except ObjectError (Reading α)) = reading
    at hread hproceed ⊢
  cases hread with
  | complete => exact hproceed
  | lacking l _ f hf hmissing =>
    dsimp only
    -- The wait goes on if it is for the same, and starts anew if reading got further.
    split
    · let again : Waiting := { w with checked := s.supply.changes }
      have hagain : s.Awaits b v r ⟨id, q.generation⟩ again :=
        ⟨hw.watcher_eq, hw.lacks, hw.later, hw.begun, Nat.le_refl _, fun _ => ⟨f, hf, hmissing⟩⟩
      exact h.await hidle hbusy hr hagain rfl _
    · exact hproceed

/-- Handing over a fragment that answers the query of the watch. -/
theorem Seeks.hand (h : s.Seeks id o b rs v state watch q) (hin : s.InStep)
    (hcarries : s.supply.Carries b rs) (hidle : ∀ w ∈ s.waiting, w.watcher.object ≠ id)
    (hp : p ∈ s.network.pending) (hl : p.listener.object = id) (hserved : s.supply.Serves f)
    (ha : q.interest.accepts f = true) :
    (s.hand p f).Served id o b rs v (s.remaining b v) := by
  have hplain := hcarries.releases.plain
  have hname : q.interest.name = b := by
    rw [h.interest_eq]
    exact Interest.name_nextVersion_known hplain v
  obtain ⟨r, hr, hf⟩ := hcarries.below f hserved (hname ▸ Interest.prefix_of_accepts ha)
  have hread := hcarries.releases.readable r hr
  rw [h.interest_eq] at ha
  have hlater : isLater (some r.version) v = true :=
    (hread.accepts_nextVersion_iff hplain hf).mp ha
  obtain ⟨t, ht, hreading⟩ := hcarries.ofCandidate hr hf o.keys hname
  have hstarts : f.name.startsWithLaterVersionOf q.known = true := by
    rw [h.known_eq, hread.startsWithLaterVersionOf_eq hplain hf, hlater]
  let sure : Watch := { watch with active := some q, exclusions := [] }
  have hbatch : watch.handleBatch q.generation [f] = (.confirmed t, sure) :=
    Watch.handleBatch_of_candidate h.active_eq hstarts ht
  have hsure : (s.setWatch id sure).Seeks id o b rs v state sure q :=
    ⟨object?_modifyObject h.object?_eq fun o => { o with watch := sure }, h.versionless, h.follows,
      rfl, h.continuous_eq, rfl, h.known_eq, h.interest_eq⟩
  have hin' : (s.setWatch id sure).InStep :=
    hin.of_same (hin.same_setWatch (w := sure) h.object?_eq h.active_eq.symm (Nat.le_refl _))
  rw [hand_of_confirmed h.object?_eq (hin.own h.object?_eq h.active_eq hp hl).1 hbatch]
  exact hsure.proceed hin' hcarries hidle hp hl hr hlater ⟨f, hf, hserved⟩ _ _ hreading

/-- A look at the interest of the watch. -/
theorem Seeks.deliver (h : s.Seeks id o b rs v state watch q) (hin : s.InStep)
    (hcarries : s.supply.Carries b rs) (hidle : ∀ w ∈ s.waiting, w.watcher.object ≠ id)
    (hp : p ∈ s.network.pending) (hl : p.listener.object = id) :
    (s.deliver p).Served id o b rs v (s.remaining b v) := by
  have hinterest := (hin.own h.object?_eq h.active_eq hp hl).2
  obtain ⟨answer, hget, hpicks⟩ := Supply.get_picks hcarries.sound q.interest
  cases answer with
  | some f =>
    rw [deliver_of_answer (hinterest ▸ hget)]
    exact h.hand hin hcarries hidle hp hl (hpicks.served_found f rfl) (hpicks.accepts_found f rfl)
  | none =>
    have hstalled := hin.stalled_of_stall h.object?_eq h.active_eq hp hl s.supply.changes
    rw [deliver_of_nothing (hinterest ▸ hget)]
    refine .rest (.asking state watch q (h.congr rfl) hidle fun p' hp' hl' => ?_)
      ⟨fun w hw hid => absurd hid (hidle w hw), fun p' hp' hl' => ?_⟩
    · have hstanding := hstalled p' hp' hl'
      refine ⟨by simp [hstanding], fun seen hseen => ?_, fun _ r hr hlater f hf hserved => ?_⟩
      · rw [hstanding] at hseen
        cases hseen
        exact Nat.le_refl _
      · have hno := hpicks.not_accepts rfl f hserved
        have hread := hcarries.releases.readable r hr
        rw [h.interest_eq, (hread.accepts_nextVersion_iff hcarries.releases.plain hf).mpr hlater]
          at hno
        cases hno
    · rw [Network.isReady, hstalled p' hp' hl']
      exact bne_self_eq_false _

/-! ### Arming -/

omit [Payload α] in
/-- An object that is armed from the version it holds asks for later ones. -/
theorem seeks_arm (hin : s.InStep) (ho : s.object? id = some { o with state, watch })
    (hst : o.state.Versionless b) (hfollows : o.state.Follows b rs v state)
    (hidle : ∀ w ∈ s.waiting, w.watcher.object ≠ id) :
    ∃ watch' q', (s.arm id (b.known v) true).Seeks id o b rs v state watch' q' ∧
      (∀ w ∈ (s.arm id (b.known v) true).waiting, w.watcher.object ≠ id) ∧
      ∀ p ∈ (s.arm id (b.known v) true).network.pending, p.listener.object = id →
        p.standing = .ready := by
  refine ⟨_, _, ⟨object?_arm ho (b.known v) true, hst, hfollows, rfl, rfl, rfl, rfl, rfl⟩, ?_,
    hin.ready_of_arm ho (b.known v) true⟩
  rw [waiting_arm]
  exact hidle

omit [Payload α] in
/-- Giving up a wait arms the watch anew, and what waited concludes nothing. -/
theorem Seeks.giveUp (h : s.Seeks id o b rs v state watch q) (hplain : b.splitVersion? = none)
    (hin : s.InStep) (hidle : ∀ w ∈ s.waiting, w.watcher.object ≠ id) (hk : s.Owns w.id w.watcher)
    (hid : w.watcher.object = id) : (s.giveUp w).Pursues id o b rs v := by
  subst hid
  have hagain : s.watchAgain w.watcher.object w.lack.fallback =
      s.arm w.watcher.object (b.known v) true := by
    unfold Session.watchAgain
    simp only [h.object?_eq, h.follows.knownName_eq h.versionless hplain, h.continuous_eq]
  have hstale := hk.query?_arm (b.known v) true
  obtain ⟨watch', q', hseeks, hidle', hready⟩ :=
    seeks_arm hin h.object?_eq h.versionless h.follows hidle
  unfold Session.giveUp
  rw [hagain]
  generalize s.arm w.watcher.object (b.known v) true = armed at hstale hseeks hidle' hready ⊢
  rw [query?_of_object? hseeks.object?_eq] at hstale
  have hconclude : armed.conclude w.watcher w.id w.seen w.token (.ok ()) =
      (armed.setWatch w.watcher.object watch').reply w.id w.seen .retire := by
    unfold conclude
    simp only [hseeks.object?_eq, nextInterest_of_stale hstale, replyOf]
  rw [hconclude]
  refine .asking state watch' q' (hseeks.congr ?_) hidle' fun p hp hl => ?_
  · refine Eq.trans ?_ hseeks.object?_eq.symm
    exact object?_modifyObject hseeks.object?_eq fun o => { o with watch := watch' }
  · exact searched_of_ready (hready p (List.mem_filter.mp hp).1 hl)

/-! ### Small steps -/

/-- A session in which an object follows releases, and holds this version. -/
structure Tracks (s : Session α) (id : ObjectId) (o : VersionedObject α) (b : Name)
    (rs : List (Release α)) (v : Option Version) : Prop where
  inStep : s.InStep
  carries : s.supply.Carries b rs
  pursues : s.Pursues id o b rs v

namespace Tracks

theorem deliver (h : s.Tracks id o b rs v) (hp : p ∈ s.network.pending)
    (hl : p.listener.object = id) (hready : p.standing ≠ .busy) :
    (s.deliver p).Served id o b rs v (s.remaining b v) := by
  cases h.pursues with
  | asking state watch q hseeks hidle _ => exact hseeks.deliver h.inStep h.carries hidle hp hl
  | awaiting state watch q r w hseeks _ hmem hawaits _ =>
    refine absurd (h.inStep.busy w hmem p hp ?_) hready
    rw [hawaits.watcher_eq]
    exact (h.inStep.own hseeks.object?_eq hseeks.active_eq hp hl).1

/-- Without the wait, as it is while what is lacking is looked for again, or given up. -/
theorem apart (h : s.Tracks id o b rs v) {pre post : List Waiting}
    (hw : s.waiting = pre ++ w :: post) (hid : w.watcher.object = id) :
    ∃ state watch q r, { s with waiting := pre ++ post }.Seeks id o b rs v state watch q ∧ r ∈ rs ∧
      s.Awaits b v r ⟨id, q.generation⟩ w ∧ ∀ u ∈ pre ++ post, u.watcher.object ≠ id := by
  have hmem : w ∈ s.waiting := by simp [hw]
  obtain ⟨_, _, hsub, hothers⟩ := h.inStep.alone_of_waiting hw
  cases h.pursues with
  | asking _ _ _ _ hidle _ => exact absurd hid (hidle w hmem)
  | awaiting state watch q r u hseeks hr _ hawaits honly =>
    obtain rfl : w = u := honly w hmem hid
    refine ⟨state, watch, q, r, hseeks.congr rfl, hr, hawaits, fun u hu hid' => hothers u hu ?_⟩
    rw [honly u (hsub.subset hu) hid']

theorem resume (h : s.Tracks id o b rs v) {pre post : List Waiting}
    (hw : s.waiting = pre ++ w :: post) (hid : w.watcher.object = id) :
    ({ s with waiting := pre ++ post }.resume w).Served id o b rs v (s.remaining b v) := by
  obtain ⟨state, watch, q, r, hseeks, hr, hawaits, hidle⟩ := h.apart hw hid
  obtain ⟨hin, hk, _⟩ := h.inStep.alone_of_waiting hw
  have hmem : w ∈ s.waiting := by simp [hw]
  have hq : s.query? w.watcher = some q := by
    rw [hawaits.watcher_eq]
    exact query?_eq_some_iff.mpr ⟨_, hseeks.object?_eq, hseeks.active_eq, rfl⟩
  obtain ⟨p, hp, hl⟩ := (h.inStep.waits w hmem q hq).2
  refine hseeks.resume hin h.carries hidle hp (hl ▸ hid) (hk.id_eq hp hl) (fun p hp hl => ?_) hr
    ⟨hawaits.watcher_eq, hawaits.lacks, hawaits.later, hawaits.begun, hawaits.checked_le,
      hawaits.missing⟩
  refine h.inStep.busy w hmem p hp ?_
  rw [hawaits.watcher_eq]
  exact (hin.own hseeks.object?_eq hseeks.active_eq hp hl).1

/-- What comes of it when the object is served. -/
theorem of_served (h : s.Tracks id o b rs v) (hin : s'.InStep) (hsupply : s'.supply = s.supply)
    (hserved : s'.Served id o b rs v left) :
    ∃ v', s'.Tracks id o b rs v' ∧ isLater v v' = false := by
  have hcarries : s'.supply.Carries b rs := hsupply ▸ h.carries
  cases hserved with
  | rest hpursues _ => exact ⟨v, ⟨hin, hcarries, hpursues⟩, not_isLater_self v⟩
  | moved v' hpursues hlater _ =>
    exact ⟨v', ⟨hin, hcarries, hpursues⟩, not_isLater_of_isLater hlater⟩

/-- The object never goes back while nothing is published. -/
theorem goes (h : s.Tracks id o b rs v) (hgoes : s.Goes s') :
    ∃ v', s'.Tracks id o b rs v' ∧ isLater v v' = false := by
  obtain ⟨hpasses, c, hle, hsupply⟩ := hgoes
  have hin := h.inStep.passes hpasses
  have hcarries : s'.supply.Carries b rs := by
    rw [hsupply]
    exact h.carries.of_alike (Supply.alike_of_content rfl rfl rfl rfl rfl)
      (h.carries.sound.of_content rfl rfl rfl)
  rcases h.inStep.passes_cases hpasses id with
    hspares | ⟨p, hp, hl, hready, rfl⟩ | ⟨w, pre, post, hw, hid, rfl | rfl⟩
  · exact ⟨v, ⟨hin, hcarries, h.pursues.congr hspares (Supply.leadsTo_of_changes hsupply hle)⟩,
      not_isLater_self v⟩
  · exact h.of_served hin (supply_deliver ..) (h.deliver hp hl hready)
  · exact h.of_served hin (supply_resume ..) (h.resume hw hid)
  · obtain ⟨state, watch, q, r, hseeks, _, _, hidle⟩ := h.apart hw hid
    obtain ⟨hin', hk, _⟩ := h.inStep.alone_of_waiting hw
    have hpursues := hseeks.giveUp h.carries.releases.plain hin' hidle hk hid
    exact ⟨v, ⟨hin, hcarries, hpursues⟩, not_isLater_self v⟩

theorem goesTo (h : s.Tracks id o b rs v) (hgoes : s.GoesTo s') :
    ∃ v', s'.Tracks id o b rs v' ∧ isLater v v' = false := by
  induction hgoes with
  | refl => exact ⟨v, h, not_isLater_self v⟩
  | tail _ hstep ih =>
    obtain ⟨v₁, h₁, hback₁⟩ := ih
    obtain ⟨v₂, h₂, hback₂⟩ := h₁.goes hstep
    exact ⟨v₂, h₂, not_isLater_trans hback₁ hback₂⟩

/-! ### Settling -/

/-- If nobody else is at work, a step is one of serving the object. -/
theorem step_of_alone (h : s.Tracks id o b rs v) (halone : ∀ x, s.AtWork x → x.object = id)
    (hs : s.step? = some s') : s'.Served id o b rs v (s.remaining b v) := by
  rcases step?_cases hs with ⟨w, pre, post, hw, _, rfl⟩ | ⟨p, hp, hready, rfl⟩
  · exact h.resume hw (halone _ (.waiting w (by simp [hw]) rfl))
  · exact h.deliver hp (halone _ (.pending p hp rfl)) (Network.ne_busy_of_isReady hready)

/-- Then settling brings it to rest, if there is fuel for every fragment that is left to be
adopted. -/
theorem settleIn_of_alone (h : s.Tracks id o b rs v) (halone : ∀ x, s.AtWork x → x.object = id)
    {fuel : Nat} (hfuel : s.remaining b v < fuel) : (s.settleIn fuel).Rests id := by
  -- A step after which there are others leaves less to be adopted.
  induction fuel generalizing s v with
  | zero => exact absurd hfuel (Nat.not_lt_zero _)
  | succ fuel ih =>
    cases hs : s.step? with
    | none =>
      rw [settleIn_of_step?_eq_none hs]
      obtain ⟨hquiet, hnot⟩ := step?_eq_none_iff.mp hs
      exact ⟨fun w hw _ => hquiet w hw, fun p hp _ => hnot p hp⟩
    | some s' =>
      have halone' : ∀ x, s'.AtWork x → x.object = id :=
        h.inStep.alone_passesTo halone (.single (.serve hs))
      rw [settleIn_succ_of_step hs]
      cases h.step_of_alone halone hs with
      | rest _ hrest =>
        have hnone : s'.step? = none := step?_eq_none_iff.mpr
          ⟨fun w hw => hrest.quiet w hw (halone' _ (.waiting w hw rfl)),
            fun p hp => hrest.not_ready p hp (halone' _ (.pending p hp rfl))⟩
        rw [settleIn_of_step?_eq_none hnone]
        exact hrest
      | moved v' hpursues _ hless =>
        have htracks : s'.Tracks id o b rs v' :=
          ⟨h.inStep.step hs, supply_step? hs ▸ h.carries, hpursues⟩
        exact ih htracks halone' (by omega)

/-- The interest of the watch is pending. -/
theorem exists_pending (h : s.Tracks id o b rs v) :
    ∃ state watch q, s.Seeks id o b rs v state watch q ∧
      ∃ p ∈ s.network.pending, p.listener = ⟨id, q.generation⟩ := by
  obtain ⟨state, watch, q, hseeks⟩ : ∃ state watch q, s.Seeks id o b rs v state watch q := by
    cases h.pursues with
    | asking state watch q hseeks _ _ => exact ⟨state, watch, q, hseeks⟩
    | awaiting state watch q _ _ hseeks _ _ _ _ => exact ⟨state, watch, q, hseeks⟩
  have hq : s.query? ⟨id, q.generation⟩ = some q :=
    query?_eq_some_iff.mpr ⟨_, hseeks.object?_eq, hseeks.active_eq, rfl⟩
  have hroot : q.known.base.isRoot = false := by
    rw [hseeks.known_eq, Name.base_known h.carries.releases.plain]
    exact hseeks.versionless.not_root
  exact ⟨state, watch, q, hseeks, (h.inStep.query _ q hq).2 hroot⟩

theorem settle_of_alone (h : s.Tracks id o b rs v) (halone : ∀ x, s.AtWork x → x.object = id) :
    s.settle.Rests id := by
  obtain ⟨_, _, _, _, p, hp, _⟩ := h.exists_pending
  have hleft : s.remaining b v ≤ s.supply.size := Supply.matching_le h.carries.sound _
  have hfuel := fuel_le hp
  have hsquare := Nat.le_mul_self (s.supply.size + 2)
  exact h.settleIn_of_alone halone (by omega)

end Tracks

end Session
end NamedContent
