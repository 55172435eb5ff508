import NamedContent.Proofs.Object.Asking
import NamedContent.Proofs.Object.Hosted

/-!
# An object that follows whole versions

One object is open on a network that hosts the bases it is concerned with, and its watch is not
continuous. Whatever serving, arming, waiting and updating do to its state, they do by adopting a
version, and what is adopted is what the network stores under the version's name. So the state stays
as it is, or mirrors the version that it holds (`Following.updateWith`, `Following.updateNameWith`).
What the object is led to step by step it is led to on the whole (`LedOn.trans`).
-/

namespace NamedContent

/-! ### States that mirror a version -/

section

variable [Suite] {α : Type} [Payload α]

namespace ObjectState

/-- A clean state that says what a network stores of the state's base as some version. -/
structure Mirrors (bases : Name → Prop) (s : Supply) (st : ObjectState α) (u : Version) :
    Prop where
  clean : st.dirty = false
  gone_eq : st.gone = st.payload.isNone
  stored : ∃ b key fs, st.base = some b ∧ bases b ∧ s.Stores (b.append u.toComponent) key fs ∧
    Tells fs st.payload

/-- A state that mirrors the version that it holds. -/
def Current (bases : Name → Prop) (s : Supply) (st : ObjectState α) : Prop :=
  ∃ v, st.version = some v ∧ st.Mirrors bases s v

variable {bases : Name → Prop} {s s' : Supply} {st : ObjectState α} {u : Version} {a : Adoption α}

/-- A version stays mirrored while the network grows. -/
theorem Mirrors.of_grows (h : st.Mirrors bases s u) (hg : s.Grows s') (hh : s'.Hosts bases) :
    st.Mirrors bases s' u := by
  obtain ⟨b, key, fs, hb, hbases, hst, htells⟩ := h.stored
  exact ⟨h.clean, h.gone_eq, b, key, fs, hb, hbases, hst.of_grows hg (hh.whole b hbases u), htells⟩

theorem Current.of_grows (h : st.Current bases s) (hg : s.Grows s') (hh : s'.Hosts bases) :
    st.Current bases s' := by
  obtain ⟨v, hv, hm⟩ := h
  exact ⟨v, hv, hm.of_grows hg hh⟩

omit [Suite] [Payload α] in
/-- Versions that are adopted are no edits. -/
@[simp] theorem edits_adopt (st : ObjectState α) (a : Adoption α) :
    (st.adopt a).2.edits = st.edits := by
  rcases adopt_cases st a with ⟨_, hadopt⟩ | ⟨_, hadopt⟩
  · rw [hadopt]
    rfl
  · rw [hadopt]

/-- Adopting what the network stores leaves the state, or makes it current. -/
theorem adopt_of_told (h : s.Told bases a) (st : ObjectState α) :
    (st.adopt a).2 = st ∨ (st.adopt a).2.base = some a.base ∧ (st.adopt a).2.Current bases s := by
  rcases adopt_cases st a with ⟨_, hadopt⟩ | ⟨_, hadopt⟩
  · right
    rw [hadopt]
    obtain ⟨key, fs, hst, htells⟩ := h.stored
    exact ⟨rfl, a.version, rfl, rfl, rfl, a.base, key, fs, rfl, h.base, hst, htells⟩
  · left
    rw [hadopt]

end ObjectState

/-! ### Watches for whole versions -/

/-- The watch is not continuous and asks for versions of the bases, and so do the interests that are
still pending for its armings. -/
structure Watch.Tuned (bases : Name → Prop) (id : ObjectId) (w : Watch)
    (pending : List (Pending Watcher)) : Prop where
  oneShot : w.continuous = false
  query : ∀ q, w.active = some q →
    bases q.interest.name ∧ q.interest.name = q.known.base ∧ q.interest.Deep
  asked : ∀ p ∈ pending, p.listener.object = id ∧ p.listener.generation ≤ w.generation ∧
    p.interest.Deep
  linked : ∀ p ∈ pending, ∀ q, w.active = some q → q.generation = p.listener.generation →
    p.interest.name = q.interest.name

namespace Watch

variable {bases : Name → Prop} {id : ObjectId} {w : Watch} {q q' : ActiveQuery}
  {pending pending' : List (Pending Watcher)}

omit [Suite] in
/-- Interests may go, or change their standing. -/
theorem Tuned.sub (h : w.Tuned bases id pending)
    (hsub : ∀ p ∈ pending', ∃ p₀ ∈ pending, p.listener = p₀.listener ∧ p.interest = p₀.interest) :
    w.Tuned bases id pending' := by
  refine ⟨h.oneShot, h.query, ?_, ?_⟩
  · intro p hp
    obtain ⟨p₀, hp₀, hl, hi⟩ := hsub p hp
    rw [hl, hi]
    exact h.asked p₀ hp₀
  · intro p hp
    obtain ⟨p₀, hp₀, hl, hi⟩ := hsub p hp
    rw [hl, hi]
    exact h.linked p₀ hp₀

omit [Suite] in
/-- The watch may become idle, or keep its query. -/
theorem Tuned.rest (h : w.Tuned bases id pending) {w' : Watch}
    (hactive : w'.active = none ∨ w'.active = w.active) (hc : w'.continuous = w.continuous)
    (hg : w'.generation = w.generation) : w'.Tuned bases id pending := by
  have hkeep : ∀ q, w'.active = some q → w.active = some q := by
    intro q hq
    rcases hactive with hnone | hsame
    · rw [hnone] at hq
      cases hq
    · rw [← hsame, hq]
  refine ⟨hc.trans h.oneShot, fun q hq => h.query q (hkeep q hq), ?_,
    fun p hp q hq => h.linked p hp q (hkeep q hq)⟩
  rw [hg]
  exact h.asked

omit [Suite] in
/-- The query may be narrowed, with the interests of one number after it. -/
theorem Tuned.narrow (h : w.Tuned bases id pending) (hw : w.active = some q) (hq : q'.Narrows q)
    (exclusions : List Component)
    (hsub : ∀ p ∈ pending', ∃ p₀ ∈ pending, p.listener = p₀.listener ∧
      (p.interest = p₀.interest ∨ p.interest = q'.interest)) :
    ({ w with active := some q', exclusions } : Watch).Tuned bases id pending' := by
  obtain ⟨hbase, hknown, hdeep⟩ := h.query q hw
  have hdeep' : q'.interest.Deep :=
    ⟨hq.minSuffix_eq.trans hdeep.min_eq, hq.maxSuffix_eq.trans hdeep.max_eq⟩
  refine ⟨h.oneShot, ?_, ?_, ?_⟩
  · intro x hx
    cases hx
    refine ⟨?_, ?_, hdeep'⟩
    · rw [hq.name_eq]
      exact hbase
    · rw [hq.name_eq, hknown, hq.known_eq]
  · intro p hp
    obtain ⟨p₀, hp₀, hl, hi⟩ := hsub p hp
    obtain ⟨hid, hg, hd⟩ := h.asked p₀ hp₀
    rw [hl]
    refine ⟨hid, hg, ?_⟩
    rcases hi with hi | hi
    · rw [hi]
      exact hd
    · rw [hi]
      exact hdeep'
  · intro p hp x hx hgen
    cases hx
    obtain ⟨p₀, hp₀, hl, hi⟩ := hsub p hp
    rcases hi with hi | hi
    · rw [hi, hq.name_eq]
      apply h.linked p₀ hp₀ q hw
      rw [← hl, ← hgen, hq.generation_eq]
    · rw [hi]

omit [Suite] in
/-- A new arming asks below a base, and its interest comes after those that are left. -/
theorem Tuned.armed (h : w.Tuned bases id pending) {known : Name} (hknown : bases known.base)
    (number : InterestId) (exclusions : List Component) :
    let query : ActiveQuery :=
      { generation := w.generation + 1, known, interest := .nextVersion known, id := some number }
    ({ active := some query, exclusions, continuous := false, generation := w.generation + 1 } :
      Watch).Tuned bases id
        (pending ++ [⟨number, query.interest, ⟨id, query.generation⟩, .ready⟩]) := by
  intro query
  have hname : query.interest.name = known.base := Interest.name_nextVersion known none
  refine ⟨rfl, ?_, ?_, ?_⟩
  · intro q hq
    cases hq
    refine ⟨?_, hname, Interest.deep_nextVersion known none⟩
    rw [hname]
    exact hknown
  · intro p hp
    rcases List.mem_append.mp hp with hp | hp
    · obtain ⟨hid, hg, hd⟩ := h.asked p hp
      exact ⟨hid, Nat.le_succ_of_le hg, hd⟩
    · rw [List.mem_singleton.mp hp]
      exact ⟨rfl, Nat.le_refl _, Interest.deep_nextVersion known none⟩
  · intro p hp q hq hgen
    cases hq
    rcases List.mem_append.mp hp with hp | hp
    · -- An interest that is left is of an earlier arming.
      obtain ⟨_, hg, _⟩ := h.asked p hp
      have hgen' : w.generation + 1 = p.listener.generation := hgen
      omega
    · rw [List.mem_singleton.mp hp]

end Watch

/-! ### Sessions of one object -/

/-- What serving changes of an object: its watch at most, unless it has come to mirror a version. -/
structure VersionedObject.Served (bases : Name → Prop) (s : Supply) (o o' : VersionedObject α) :
    Prop where
  same : ∃ state watch, o' = { o with state, watch }
  state : o'.state = o.state ∨ o'.state.Current bases s
  edits_eq : o'.state.edits = o.state.edits

namespace Session

/-- The only object of a session follows the versions of some bases. -/
structure Following (bases : Name → Prop) (s : Session α) (id : ObjectId) (o : VersionedObject α) :
    Prop where
  objects_eq : s.objects = [(id, o)]
  waiting_eq : s.waiting = []
  opened_gt : id.index < s.opened
  hosts : s.supply.Hosts bases
  base : ∃ b, o.state.base = some b ∧ bases b
  tuned : o.watch.Tuned bases id s.network.pending

/-- The only object of a session is the one that there was, perhaps served, and still follows. -/
inductive Led (bases : Name → Prop) (id : ObjectId) (o : VersionedObject α) (s : Session α) :
    Prop where
  | intro (o' : VersionedObject α) (following : s.Following bases id o')
      (served : o.Served bases s.supply o')

variable {bases : Name → Prop} {s s' : Session α} {id : ObjectId} {o : VersionedObject α}
  {q : ActiveQuery}

omit [Payload α] in
theorem Following.object?_eq (h : s.Following bases id o) : s.object? id = some o :=
  object?_of_single h.objects_eq

theorem Following.led (h : s.Following bases id o) : s.Led bases id o :=
  ⟨o, h, ⟨o.state, o.watch, rfl⟩, .inl rfl, rfl⟩

/-- What the object was led to once is the start of what it is led to next, if the network has what
it had. -/
theorem Led.trans {o₁ : VersionedObject α} (h : o.Served bases s.supply o₁)
    (hg : s.supply.Grows s'.supply) (h' : s'.Led bases id o₁) : s'.Led bases id o := by
  obtain ⟨o₂, hfollowing, ⟨state₂, watch₂, rfl⟩, hstate, hedits⟩ := h'
  obtain ⟨⟨state₁, watch₁, rfl⟩, hstate₁, hedits₁⟩ := h
  refine ⟨_, hfollowing, ⟨state₂, watch₂, rfl⟩, ?_, hedits.trans hedits₁⟩
  rcases hstate with hsame | hcurrent
  · rcases hstate₁ with hsame₁ | hcurrent₁
    · exact .inl (hsame.trans hsame₁)
    · right
      rw [hsame]
      exact hcurrent₁.of_grows hg hfollowing.hosts
  · exact .inr hcurrent

/-- A change of the watch is no more than serving can do. -/
theorem Led.of_watch {watch : Watch} (h : s.Led bases id { o with watch }) : s.Led bases id o := by
  obtain ⟨o', hfollowing, ⟨state, watch', rfl⟩, hstate, hedits⟩ := h
  exact ⟨_, hfollowing, ⟨state, watch', rfl⟩, hstate, hedits⟩

/-- From a session with an object on to one with what has become of it, on a network that has
grown. -/
structure LedOn (bases : Name → Prop) (id : ObjectId) (o : VersionedObject α) (s s' : Session α) :
    Prop where
  led : s'.Led bases id o
  grows : s.supply.Grows s'.supply

theorem Following.ledOn (h : s.Following bases id o) : LedOn bases id o s s := ⟨h.led, .refl _⟩

/-- Stage after stage. -/
theorem LedOn.trans {t : Session α} (h : LedOn bases id o s t)
    (hnext : ∀ o₁, t.Following bases id o₁ → LedOn bases id o₁ t s') : LedOn bases id o s s' := by
  obtain ⟨o₁, hfollowing, hserved⟩ := h.led
  obtain ⟨hled, hgrows⟩ := hnext o₁ hfollowing
  exact ⟨.trans hserved hgrows hled, h.grows.trans hgrows⟩

omit [Payload α] in
/-- Following goes on with an object whose name and watch are of the same kind. -/
theorem Following.change (h : s.Following bases id o) {o' : VersionedObject α}
    (hobj : s'.objects = [(id, o')]) (hw : s'.waiting = s.waiting) (hopen : s'.opened = s.opened)
    (hosts : s'.supply.Hosts bases) (hbase : ∃ b, o'.state.base = some b ∧ bases b)
    (htuned : o'.watch.Tuned bases id s'.network.pending) : s'.Following bases id o' where
  objects_eq := hobj
  waiting_eq := hw.trans h.waiting_eq
  opened_gt := by
    rw [hopen]
    exact h.opened_gt
  hosts := hosts
  base := hbase
  tuned := htuned

omit [Payload α] in
theorem Following.with_supply (h : s.Following bases id o) {supply : Supply}
    (hosts : supply.Hosts bases) : (s.withSupply supply).Following bases id o :=
  h.change h.objects_eq rfl rfl hosts h.base h.tuned

/-! ### Replies -/

omit [Suite] [Payload α] in
theorem mem_pending_stall {n : Network Watcher} {k : InterestId} {seen : Nat} {p : Pending Watcher}
    (hp : p ∈ (n.stall k seen).pending) :
    ∃ p₀ ∈ n.pending, p.listener = p₀.listener ∧ p.interest = p₀.interest := by
  obtain ⟨p₀, hp₀, rfl⟩ := List.mem_map.mp hp
  refine ⟨p₀, hp₀, ?_⟩
  split <;> exact ⟨rfl, rfl⟩

omit [Suite] [Payload α] in
/-- A reply keeps the listeners, and the interests but for the one that it goes on with. -/
theorem mem_pending_resolve {n : Network Watcher} {k : InterestId} {seen : Nat} {r : Reply}
    {p : Pending Watcher} (hp : p ∈ (n.resolve k seen r).pending) :
    ∃ p₀ ∈ n.pending, p.listener = p₀.listener ∧
      (p.interest = p₀.interest ∨ r = .reissue p.interest) := by
  cases r with
  | reissue interest =>
    obtain ⟨p₀, hp₀, rfl⟩ := List.mem_map.mp hp
    refine ⟨p₀, hp₀, ?_⟩
    split
    · exact ⟨rfl, .inr rfl⟩
    · exact ⟨rfl, .inl rfl⟩
  | retire => exact ⟨p, (List.mem_filter.mp hp).1, rfl, .inl rfl⟩
  | later =>
    obtain ⟨p₀, hp₀, rfl⟩ := List.mem_map.mp hp
    refine ⟨p₀, hp₀, ?_⟩
    split <;> exact ⟨rfl, .inl rfl⟩

omit [Payload α] in
/-- An interest without an answer is stalled. -/
theorem Following.stall (h : s.Following bases id o) (k : InterestId) (seen : Nat) :
    { s with network := s.network.stall k seen }.Following bases id o :=
  ⟨h.objects_eq, h.waiting_eq, h.opened_gt, h.hosts, h.base, h.tuned.sub fun _ => mem_pending_stall⟩

omit [Payload α] in
/-- The object goes on with a watch that has no query or the same, and its interest is retired. -/
theorem Following.retire (h : s.Following bases id o) {watch : Watch}
    (hactive : watch.active = none ∨ watch.active = o.watch.active)
    (hc : watch.continuous = o.watch.continuous) (hg : watch.generation = o.watch.generation)
    (k : InterestId) (seen : Nat) :
    ((s.setWatch id watch).reply k seen .retire).Following bases id { o with watch } := by
  refine h.change (objects_setWatch h.objects_eq _) rfl rfl ?_ h.base ?_
  · simpa using h.hosts
  · refine (h.tuned.rest hactive hc hg).sub fun p hp => ?_
    exact ⟨p, (List.mem_filter.mp hp).1, rfl, rfl⟩

omit [Payload α] in
/-- The object goes on with a narrower query, and its interest follows. -/
theorem Following.reissue (h : s.Following bases id o) {q' : ActiveQuery}
    (hw : o.watch.active = some q) (hq : q'.Narrows q) (exclusions : List Component)
    (k : InterestId) (seen : Nat) :
    ((s.setWatch id { o.watch with active := some q', exclusions }).reply k seen
      (.reissue q'.interest)).Following bases id
        { o with watch := { o.watch with active := some q', exclusions } } := by
  refine h.change (objects_setWatch h.objects_eq _) rfl rfl ?_ h.base ?_
  · simpa using h.hosts
  · refine h.tuned.narrow hw hq exclusions fun p hp => ?_
    obtain ⟨p₀, hp₀, hl, hi⟩ := mem_pending_resolve hp
    exact ⟨p₀, hp₀, hl, hi.imp_right fun hr => (Reply.reissue.inj hr).symm⟩

/-! ### Concluding -/

/-- What a reading of a hosted version leads to: nothing, or the version that the network stores. -/
def Faithful (bases : Name → Prop) (s : Supply) (reading : Except ObjectError (Reading α)) : Prop :=
  ∀ r, reading = .ok r → ∃ a, r = .complete a ∧ s.Told bases a

omit [Payload α] in
/-- After a version was adopted, the watch is idle or was armed for another generation. -/
theorem nextInterest_ok_watch (hw : o.watch.continuous = false) (g : Nat)
    (token : Option Component) :
    ∃ watch, nextInterest o g token (.ok ()) = (none, watch) ∧
      (watch.active = none ∨ watch.active = o.watch.active) ∧
      watch.continuous = o.watch.continuous ∧ watch.generation = o.watch.generation := by
  unfold nextInterest
  dsimp only
  split
  · unfold Watch.confirmed
    split
    · exact ⟨_, rfl, .inr rfl, rfl, rfl⟩
    · rw [if_neg (by simp [hw])]
      exact ⟨_, rfl, .inl rfl, rfl, rfl⟩
  · exact ⟨_, rfl, .inr rfl, rfl, rfl⟩

/-- Adopting what the network stores keeps following. -/
theorem Following.adopt (h : s.Following bases id o) {a : Adoption α} (ha : s.supply.Told bases a) :
    ∃ state, (s.adopt id a).2.Following bases id { o with state } ∧
      (state = o.state ∨ state.Current bases s.supply) ∧ state.edits = o.state.edits := by
  rw [adopt_eq h.object?_eq]
  refine ⟨(o.state.adopt a).2, ?_, (ObjectState.adopt_of_told ha o.state).imp_right And.right,
    o.state.edits_adopt a⟩
  refine h.change (objects_modifyObject h.objects_eq _) rfl rfl h.hosts ?_ h.tuned
  rcases ObjectState.adopt_of_told ha o.state with hsame | ⟨hbase, _⟩
  · rw [hsame]
    exact h.base
  · exact ⟨a.base, hbase, ha.base⟩

/-- Acting on the reading of a hosted version keeps following. -/
theorem Following.proceed (h : s.Following bases id o) (hw : o.watch.active = some q)
    (k : InterestId) (seen : Nat) (token : Option Component)
    {reading : Except ObjectError (Reading α)} (hr : Faithful bases s.supply reading) :
    (s.proceed ⟨id, q.generation⟩ k seen token reading).Led bases id o := by
  cases reading with
  | error e =>
    obtain ⟨q', exclusions, hnext, hq⟩ := nextInterest_error hw token e
    simp only [Session.proceed, conclude, h.object?_eq, hnext, replyOf]
    exact ⟨_, h.reissue hw hq exclusions k seen, ⟨_, _, rfl⟩, .inl rfl, rfl⟩
  | ok r =>
    obtain ⟨a, rfl, ha⟩ := hr r rfl
    obtain ⟨state, hfollowing, hstate, hedits⟩ := h.adopt ha
    obtain ⟨watch, hnext, hactive, hc, hg⟩ :=
      nextInterest_ok_watch (o := { o with state }) h.tuned.oneShot q.generation token
    have hsupply := supply_adopt s id a
    show ((s.adopt id a).2.conclude ⟨id, q.generation⟩ k seen token (.ok ())).Led bases id o
    generalize (s.adopt id a).2 = s₁ at hfollowing hsupply ⊢
    simp only [conclude, hfollowing.object?_eq, hnext, replyOf]
    have hretired := hfollowing.retire hactive hc hg k seen
    refine ⟨_, hretired, ⟨_, _, rfl⟩, ?_, hedits⟩
    show state = o.state ∨ state.Current bases _
    rw [supply_reply]
    show state = o.state ∨ state.Current bases s₁.supply
    rw [hsupply]
    exact hstate

/-! ### Serving -/

/-- Handing an answer of the network to the watch keeps following. -/
theorem Following.hand (h : s.Following bases id o) {p : Pending Watcher} {f : Fragment}
    (hp : p ∈ s.network.pending) (hfind : s.supply.find p.interest = .ok (some f)) :
    (s.hand p f).Led bases id o := by
  obtain ⟨hid, _, hdeep⟩ := h.tuned.asked p hp
  unfold Session.hand
  simp only [hid, h.object?_eq]
  cases hquery : o.watch.query? p.listener.generation with
  | none =>
    simp only [Watch.handleBatch_of_stale hquery]
    exact ⟨_, h.retire (.inr rfl) rfl rfl p.id s.supply.changes, ⟨_, _, rfl⟩, .inl rfl, rfl⟩
  | some q =>
    obtain ⟨hw, hgen'⟩ := Watch.query?_eq_some_iff.mp hquery
    rw [← hgen']
    rcases Watch.handleBatch_singleton hw f with
      ⟨t, hbatch, hlater, hcand⟩ | ⟨q', exclusions, hbatch, hq⟩
    · -- The answer carries a version behind the base that the query asks below.
      obtain ⟨hbase, hknown, _⟩ := h.tuned.query q hw
      have hname := h.tuned.linked p hp q hw hgen'
      obtain ⟨c, d, hfname, hcomp⟩ := hdeep.name_eq (Supply.accepts_of_find hfind)
      obtain ⟨v, hv⟩ := Name.component?_of_startsWithLaterVersionOf hlater
      rw [← hknown, ← hname, hcomp] at hv
      rw [Option.some.inj hv, hname] at hfname
      have hfaithful : Faithful (α := α) bases s.supply (Reading.ofConfirmed s.supply o.keys t) :=
        fun r hr => h.hosts.told_of_target hbase hfind hfname
          (Watch.candidate?_cases hfname hcand) hr
      have hforget : (s.setWatch id { o.watch with active := some q, exclusions := [] }).Following
          bases id { o with watch := { o.watch with active := some q, exclusions := [] } } :=
        h.change (objects_setWatch h.objects_eq _) rfl rfl h.hosts h.base
          (h.tuned.rest (.inr hw.symm) rfl rfl)
      simp only [hbatch]
      have hlisten : p.listener = ⟨id, q.generation⟩ := by
        rw [hgen', ← hid]
      rw [hlisten]
      exact (hforget.proceed rfl p.id s.supply.changes (t.version?.map Version.toComponent)
        hfaithful).of_watch
    · simp only [hbatch]
      exact ⟨_, h.reissue hw hq exclusions p.id s.supply.changes, ⟨_, _, rfl⟩, .inl rfl, rfl⟩

theorem Following.deliver (h : s.Following bases id o) {p : Pending Watcher}
    (hp : p ∈ s.network.pending) : (s.deliver p).Led bases id o := by
  unfold Session.deliver Network.answer?
  cases hfind : s.network.supply.find p.interest with
  | error e => exact (h.stall p.id _).led
  | ok found =>
    cases found with
    | none => exact (h.stall p.id _).led
    | some f => exact h.hand hp hfind

theorem Following.step (h : s.Following bases id o) (hs : s.step? = some s') :
    LedOn bases id o s s' := by
  refine ⟨?_, ?_⟩
  · unfold step? at hs
    rw [h.waiting_eq] at hs
    obtain ⟨p, hp, rfl⟩ := Option.map_eq_some_iff.mp hs
    exact h.deliver (List.mem_of_find?_eq_some hp)
  · rw [supply_step? hs]
    exact .refl _

theorem Following.settle (h : s.Following bases id o) : LedOn bases id o s s.settle :=
  settleIn_induction (P := LedOn bases id o s)
    (fun _ _ hled hstep => hled.trans fun _ h₁ => h₁.step hstep) _ h.ledOn

omit [Payload α] in
/-- The clock for deadlines plays no part. -/
theorem Following.at_time (h : s.Following bases id o) (t : Nat) :
    { s with now := t }.Following bases id o :=
  ⟨h.objects_eq, h.waiting_eq, h.opened_gt, h.hosts, h.base, h.tuned⟩

theorem Following.elapse (h : s.Following bases id o) (ms : Nat) :
    LedOn bases id o s (s.elapse ms) := by
  apply elapseUntil_induction (fun _ => false) (P := LedOn bases id o s)
  · intro s' t hled
    refine hled.trans fun o₁ h₁ => ?_
    have hnow := h₁.at_time t
    rw [expire_of_waiting_nil hnow.waiting_eq]
    obtain ⟨hsettled, hgrows⟩ := hnow.settle
    exact ⟨hsettled, hgrows⟩
  · exact h.settle

/-! ### Arming -/

omit [Suite] [Payload α] in
theorem mem_pending_withdraw {number : Option InterestId} {p : Pending Watcher}
    (hp : p ∈ (s.withdraw number).network.pending) : p ∈ s.network.pending := by
  unfold withdraw Network.cancel at hp
  cases number with
  | none => exact hp
  | some k =>
    dsimp only at hp
    split at hp
    · exact (List.mem_filter.mp hp).1
    · exact hp

/-- Arming for the versions of a base keeps following. -/
theorem Following.arm (h : s.Following bases id o) {known : Name} (hknown : bases known.base) :
    (s.arm id known false).Led bases id o := by
  obtain ⟨c, pending, hwith⟩ := s.withdraw_eq (o.watch.active.bind ActiveQuery.id)
  let number : InterestId := ⟨s.network.expressed + 1⟩
  let query : ActiveQuery :=
    { generation := o.watch.generation + 1, known, interest := .nextVersion known
      id := some number }
  let watch : Watch :=
    { active := some query, exclusions := [], continuous := false
      generation := o.watch.generation + 1 }
  have harm : s.arm id known false =
      { s with
        network :=
          { supply := { s.supply with changes := c }
            pending := pending ++ [⟨number, query.interest, ⟨id, query.generation⟩, .ready⟩]
            expressed := s.network.expressed + 1 }
        objects := [(id, { o with watch })] } := by
    simp [arm_of_object? h.object?_eq, Watch.arm, Watch.cancel, hwith, Network.express,
      Watch.registered, Watch.query?, Option.filter, setWatch, modifyObject, h.objects_eq, number,
      query, watch, supply]
  have htuned : o.watch.Tuned bases id pending := by
    refine h.tuned.sub fun p hp => ⟨p, ?_, rfl, rfl⟩
    apply mem_pending_withdraw
    rw [hwith]
    exact hp
  have hfollowing : (s.arm id known false).Following bases id { o with watch } := by
    rw [harm]
    refine h.change rfl rfl rfl ?_ h.base (htuned.armed hknown number [])
    exact h.hosts.of_changes c
  exact hfollowing.led.of_watch

omit [Payload α] in
/-- The name that an object knows which keeps following belongs to its base. -/
theorem Following.base_of_knownName (h : s.Following bases id o) {b known : Name}
    (hb : o.state.base = some b) (hbases : bases b) (hknown : o.state.knownName = .ok known) :
    known.base = b := by
  obtain ⟨b', hb', hbase⟩ := ObjectState.base_of_knownName hknown
  obtain rfl : b = b' := Option.some.inj (hb.symm.trans hb')
  rw [hbase, Name.base_of_splitVersion?_eq_none (h.hosts.plain b hbases)]

/-- Arming after a read that found too little keeps following. -/
theorem Following.watchAgain (h : s.Following bases id o) {fallback : Name}
    (hfallback : bases fallback.base) : LedOn bases id o s (s.watchAgain id fallback) := by
  obtain ⟨c, hc⟩ := supply_watchAgain s id fallback
  refine ⟨?_, .of_changes hc⟩
  obtain ⟨b, hb, hbases⟩ := h.base
  obtain ⟨known, hagain, hknown⟩ := watchAgain_eq h.object?_eq fallback
  rw [hagain, h.tuned.oneShot]
  apply h.arm
  rcases hknown with hname | ⟨_, rfl⟩
  · rw [h.base_of_knownName hb hbases hname]
    exact hbases
  · rw [Name.base_of_splitVersion?_eq_none (h.hosts.plain _ hfallback)]
    exact hfallback

/-! ### Updates -/

omit [Payload α] in
/-- What a search finds carries a version behind the name that is asked for. -/
theorem name_of_findVersion {n : Supply} {i : Interest} (hi : i.Deep) {f : Fragment}
    (h : n.findVersion i = .ok (some f)) :
    ∃ (i' : Interest) (v : Version) (d : Component), n.find i' = .ok (some f) ∧
      f.name = (i.name.append v.toComponent).append d ∧
      i.versionedNameOf? f.name = some (i.name.append v.toComponent) := by
  obtain ⟨e, hget, hsome⟩ := Supply.get_of_findVersionIn h
  have hdeep : ({ i with exclude := e } : Interest).Deep := ⟨hi.min_eq, hi.max_eq⟩
  obtain ⟨c, d, hname, hcomp⟩ := hdeep.name_eq (Supply.accepts_of_get hget)
  obtain ⟨v, hv⟩ : ∃ v, Version.ofComponent? c = some v := by
    unfold Interest.versionedNameOf? Version.isComponent at hsome
    rw [hcomp] at hsome
    dsimp only at hsome
    split at hsome
    · next hc => exact Option.isSome_iff_exists.mp hc
    · cases hsome
  rw [Version.eq_toComponent_of_ofComponent? hv] at hname
  exact ⟨_, v, d, Supply.find_of_get hget, hname, Interest.versionedNameOf?_eq hname⟩

omit [Payload α] in
/-- So it is with what a name is opened by. -/
theorem name_of_openVersioned? {n : Supply} {name : Name} {publisher : Option Publisher}
    {f : Fragment} (h : n.openVersioned? name publisher = .ok (some f)) :
    ∃ (i : Interest) (v : Version) (d : Component),
      n.find i = .ok (some f) ∧ f.name = (name.base.append v.toComponent).append d := by
  cases hsplit : name.splitVersion? with
  | none =>
    have hnone : name.versioned? = none := by
      rw [Name.versioned?, hsplit]
      rfl
    rw [Supply.openVersioned?_of_unversioned hnone] at h
    obtain ⟨i, v, d, hfind, hfname, _⟩ :=
      name_of_findVersion (Interest.deep_latestVersion name publisher) h
    exact ⟨i, v, d, hfind, hfname⟩
  | some split =>
    obtain ⟨b, v⟩ := split
    rw [Supply.openVersioned?_of_versioned (Name.versioned?_of_splitVersion? hsplit)] at h
    refine ⟨_, v, Segment.toComponent Segment.first, Supply.find_of_get h, ?_⟩
    rw [Name.base_of_splitVersion? hsplit]
    exact (Interest.accepts_exact_iff.mp (Supply.accepts_of_get h)).1

variable {waits : Waits α}

/-- Whoever looked for it, what was read of a hosted version is adopted, or nothing changes. -/
theorem Following.finishWith (h : s.Following bases id o) (o₀ : VersionedObject α)
    {reading : Except ObjectError (Reading α)} (hr : Faithful bases s.supply reading) :
    LedOn bases id o s (s.finishWith waits id o₀ reading).2 := by
  cases reading with
  | error e => exact h.ledOn
  | ok r =>
    obtain ⟨a, rfl, ha⟩ := hr r rfl
    obtain ⟨state, hfollowing, hstate, hedits⟩ := h.adopt ha
    refine ⟨⟨_, hfollowing, ⟨_, _, rfl⟩, ?_, hedits⟩, ?_⟩
    · simpa [Session.finishWith] using hstate
    · simpa [Session.finishWith] using .refl _

/-- Updating leaves the state of the object, or makes it mirror the version that it then holds, and
so does what happens while it waits. -/
theorem Following.updateWith (h : s.Following bases id o) (timeout : Nat)
    (hlooking : LedOn bases id o s (waits.looking timeout s)) :
    LedOn bases id o s (s.updateWith waits id timeout).2 := by
  obtain ⟨b, hb, hbases⟩ := h.base
  rw [Session.updateWith, onObject, h.object?_eq]
  dsimp only
  split
  · exact h.ledOn
  · next known hknown =>
    have hbase := h.base_of_knownName hb hbases hknown
    have hname : (Interest.nextVersion known).name = b :=
      (Interest.name_nextVersion known none).trans hbase
    obtain ⟨t, hawait, ht⟩ := s.await_cases waits timeout (·.findVersion (.nextVersion known))
    have hled : LedOn bases id o s t := by
      rcases ht with rfl | rfl
      · exact h.ledOn
      · exact hlooking
    rw [hawait]
    split
    · next heq =>
      obtain ⟨_, rfl⟩ := Prod.mk.inj heq
      exact hled
    · next heq =>
      obtain ⟨_, rfl⟩ := Prod.mk.inj heq
      exact hled
    · next f _ heq =>
      obtain ⟨hfound, rfl⟩ := Prod.mk.inj heq
      -- What was found lies below the base, so it is told of a hosted version.
      obtain ⟨i, v, d, hfind, hfname, hversioned⟩ :=
        name_of_findVersion (Interest.deep_nextVersion known none) hfound
      rw [hname] at hfname
      refine hled.trans fun o₁ h₁ => h₁.finishWith o fun r hr =>
        h₁.hosts.told_of_target hbases hfind hfname ?_ hr
      unfold target
      split
      · exact .inl rfl
      · right
        rw [hversioned, hname]

/-- So does updating from a name of one of the bases. -/
theorem Following.updateNameWith (h : s.Following bases id o) {name : Name}
    (hname : bases name.base) (publisher : Option Publisher)
    (hlooking : LedOn bases id o s (waits.looking o.timeout s)) :
    LedOn bases id o s (s.updateNameWith waits id name publisher).2 := by
  rw [Session.updateNameWith, onObject, h.object?_eq]
  dsimp only
  obtain ⟨t, hawait, ht⟩ := s.await_cases waits o.timeout (·.openVersioned? name publisher)
  have hled : LedOn bases id o s t := by
    rcases ht with rfl | rfl
    · exact h.ledOn
    · exact hlooking
  rw [hawait]
  split
  · next heq =>
    obtain ⟨_, rfl⟩ := Prod.mk.inj heq
    exact hled
  · next f _ heq =>
    obtain ⟨hfound, rfl⟩ := Prod.mk.inj heq
    obtain ⟨i, v, d, hfind, hfname⟩ := name_of_openVersioned? hfound
    exact hled.trans fun o₁ h₁ => h₁.finishWith o fun r hr =>
      h₁.hosts.told_of_ofFirst hname hfind hfname hr
  · next heq =>
    obtain ⟨_, rfl⟩ := Prod.mk.inj heq
    exact hled.trans fun o₁ h₁ => h₁.watchAgain hname

end Session

end

end NamedContent
