import NamedContent.Proofs.Object.FirstAnswer
import NamedContent.Proofs.Object.Answering
import NamedContent.Proofs.Object.Registered
import NamedContent.Proofs.Object.Siblings

/-!
# Updating in the background is updating

An update searches for the earliest later version and reads it (`UpdatesTo`). In the background the
same questions are asked one by one: each answer is either a sibling that the search excludes next
(`hand_of_sibling`), or of the version that the search ends with, and then it is read and adopted
(`hand_of_complete`). Whatever is served of other objects in between, the watch stays in lockstep
with the search (`Chases.deliver`).

So where an update moves an object forward, a watch that is armed once leads it to the same state
and is idle again (`background_eq_update`).
-/

namespace NamedContent
namespace Session

section

variable [Suite] {α : Type} [Payload α] {s s' : Session α} {id : ObjectId}
  {o : VersionedObject α} {q : ActiveQuery} {p : Pending Watcher} {f : Fragment} {c : Component}
  {known n : Name} {a : Adoption α} {cs : List Component}

/-! ### The same target -/

omit [Suite] in
/-- A watch confirms what a search takes an answer for, as both ask below the same name. -/
theorem candidate?_eq_target {i j : Interest} (hj : j.name = i.name) {v : Version} {d : Component}
    (hf : f.name = (i.name.append v.toComponent).append d) :
    Watch.candidate? j f = some (target f i) := by
  rw [Watch.candidate?_eq (hj ▸ hf), target, Interest.versionedNameOf?_eq hf, hj]

/-! ### Answers -/

/-- An answer that is no version: the watch goes on without it, as a search does. -/
theorem hand_of_sibling (ho : s.object? id = some o) (hw : o.watch.active = some q)
    (hl : p.listener = ⟨id, q.generation⟩) (hq : q.interest.Seeks q.known)
    (haccepts : q.interest.accepts f = true)
    (hc : f.name.component? q.interest.name.length = some c) (hv : Version.ofComponent? c = none) :
    ∃ exclusions, s.hand p f =
      (s.setWatch id
        { o.watch with
          active := some { q with interest := q.interest.excluding c }
          exclusions }).reply p.id s.supply.changes (.reissue (q.interest.excluding c)) := by
  have hsiblings : ∀ g ∈ [f], q.interest.accepts g = true ∧ q.offer? g = none := by
    intro g hg
    rw [List.mem_singleton.mp hg]
    exact ⟨haccepts, by rw [ActiveQuery.offer?, hc]; exact hv⟩
  obtain ⟨⟨exclusions, hbatch⟩, -⟩ := Watch.handleBatch_of_siblings hw hq hsiblings
  have hbehind : q.behind [f] = [c] := by
    simp [ActiveQuery.behind, hc]
  rw [hbehind] at hbatch
  refine ⟨exclusions, ?_⟩
  rw [hand_of_reissue ho hl hbatch]
  rfl

/-- An answer that is of a version which can be read completely: the object adopts it, and a watch
that was armed once is idle again. -/
theorem hand_of_complete (ho : s.object? id = some o) (hw : o.watch.active = some q)
    (hl : p.listener = ⟨id, q.generation⟩) (honce : o.watch.continuous = false)
    (hlater : f.name.startsWithLaterVersionOf q.known = true) {t : Confirmed}
    (ht : Watch.candidate? q.interest f = some t)
    (hread : Reading.ofConfirmed s.supply o.keys t = .ok (.complete a))
    (hknown : (o.state.adopt a).2.knownName = .ok n) :
    ∃ (taken : Session α) (watch : Watch), s.hand p f = taken.reply p.id s.supply.changes .retire ∧
      taken.network = s.network ∧ taken.waiting = s.waiting ∧ watch.active = none ∧
      taken.object? id = some { o with state := (o.state.adopt a).2, watch } := by
  let sure : Watch := { o.watch with active := some q, exclusions := [] }
  let idle : Watch := { sure with active := none, exclusions := [] }
  have hbatch : o.watch.handleBatch q.generation [f] = (.confirmed t, sure) :=
    Watch.handleBatch_of_candidate hw hlater ht
  have hobj : (s.setWatch id sure).object? id = some { o with watch := sure } :=
    object?_modifyObject ho _
  have hnext : nextInterest { o with state := (o.state.adopt a).2, watch := sure } q.generation
      (t.version?.map Version.toComponent) (.ok ()) = (none, idle) := by
    have hquery : sure.query? q.generation = some q := Watch.query?_of_active rfl
    have hcontinuous : ¬ sure.continuous = true := by
      rw [show sure.continuous = false from honce]
      exact Bool.false_ne_true
    unfold nextInterest
    simp only [hknown, Watch.confirmed, hquery, if_neg hcontinuous]
    rfl
  have hadopted : ((s.setWatch id sure).modifyState id fun _ => (o.state.adopt a).2).object? id =
      some { o with state := (o.state.adopt a).2, watch := sure } := object?_modifyObject hobj _
  refine ⟨((s.setWatch id sure).modifyState id fun _ => (o.state.adopt a).2).setWatch id idle, idle,
    ?_, rfl, rfl, rfl, object?_modifyObject hadopted fun o => { o with watch := idle }⟩
  rw [hand_of_confirmed ho hl hbatch, hread]
  exact proceed_of_complete hobj q.generation p.id s.supply.changes
    (t.version?.map Version.toComponent) a hnext

/-! ### The update -/

/-- What an update of an object finds after its known name, and what is read of it. -/
structure UpdatesTo (s : Session α) (o : VersionedObject α) (known : Name) (f : Fragment)
    (cs : List Component) (a : Adoption α) : Prop where
  search : s.supply.Search (.nextVersion known) cs (some f)
  reading_eq : Reading.ofConfirmed s.supply o.keys (target f (.nextVersion known)) =
    .ok (.complete a)
  /-- Then the object still knows a name. -/
  knownName_eq : ∃ n, (o.state.adopt a).2.knownName = .ok n

/-- Neither the watch nor what else there is in the session plays a part in what an update finds. -/
theorem UpdatesTo.congr (h : s.UpdatesTo o known f cs a) (hs : s'.supply = s.supply)
    (watch : Watch) : s'.UpdatesTo { o with watch } known f cs a where
  search := by
    rw [hs]
    exact h.search
  reading_eq := by
    rw [hs]
    exact h.reading_eq
  knownName_eq := h.knownName_eq

omit [Payload α] in
/-- What a search finds is a later version, right below the base of the known name. -/
theorem later_of_search {i : Interest} (hi : i.Seeks known) (h : s.supply.Search i cs (some f)) :
    f.name.startsWithLaterVersionOf known = true ∧
      ∃ (v : Version) (d : Component), f.name = (known.base.append v.toComponent).append d := by
  generalize hfound : some f = found at h
  induction h with
  | @found i g v hget hc =>
    cases hfound
    have haccepts := Supply.accepts_of_get hget
    obtain ⟨c, d, hname, hcomp⟩ := hi.deep.name_eq haccepts
    obtain rfl : c = v.toComponent := Option.some.inj (hcomp.symm.trans hc)
    rw [hi.name_eq] at hname
    exact ⟨(hi.startsWithLaterVersionOf_iff haccepts).mpr ⟨v, hc⟩, v, d, hname⟩
  | exhausted _ => cases hfound
  | sibling _ _ _ _ ih => exact ih (hi.excluding _) hfound

omit [Payload α] in
theorem below_of_search (h : s.supply.Search (.nextVersion known) cs (some f)) :
    (target f (.nextVersion known)).Below known.base := by
  have hseeks := (Interest.seeks_nextVersion known).excludingAll cs
  obtain ⟨hlater, v, d, hname⟩ := later_of_search (Interest.seeks_nextVersion known) h
  let q : ActiveQuery :=
    { generation := 0, known, interest := (Interest.nextVersion known).excludingAll cs
      id := some ⟨0⟩ }
  have hq : q.Proper := ⟨hseeks.deep, hseeks.name_eq, rfl⟩
  refine Watch.below_of_candidate? hq (Supply.accepts_of_get h.get_excludingAll) hlater ?_
  have hbase := Interest.name_nextVersion known none
  exact candidate?_eq_target (hseeks.name_eq.trans hbase.symm) (hbase.symm ▸ hname)

/-- The answer to the last question of the search leads the object to where the update leads it. -/
theorem UpdatesTo.hand (hto : s.UpdatesTo o q.known f cs a) (ho : s.object? id = some o)
    (hw : o.watch.active = some q) (hl : p.listener = ⟨id, q.generation⟩)
    (hq : q.interest.Seeks q.known) (honce : o.watch.continuous = false)
    (hlast : s.supply.Search q.interest [] (some f)) :
    ∃ (taken : Session α) (watch : Watch), s.hand p f = taken.reply p.id s.supply.changes .retire ∧
      taken.network = s.network ∧ taken.waiting = s.waiting ∧ watch.active = none ∧
      taken.object? id = some { o with state := (o.state.adopt a).2, watch } := by
  obtain ⟨hlater, v, d, hname⟩ := later_of_search hq hlast
  obtain ⟨n, hknown⟩ := hto.knownName_eq
  have hbase := Interest.name_nextVersion q.known none
  have htarget : Watch.candidate? q.interest f = some (target f (.nextVersion q.known)) :=
    candidate?_eq_target (hq.name_eq.trans hbase.symm) (hbase.symm ▸ hname)
  exact hand_of_complete ho hw hl honce hlater htarget hto.reading_eq hknown

/-- An update that moves an object forward finds a version and adopts it. -/
theorem updatesTo_of_update {t : Nat} (ho : s.object? id = some o) (hn : o.state.base = some n)
    (hroot : n.base.isRoot = false) (h : s.update id t = (.ok true, s')) :
    ∃ known f cs a, o.state.knownName = .ok known ∧ known.base = n.base ∧
      s.UpdatesTo o known f cs a ∧ cs.length < s.supply.size + 1 ∧ s' = (s.adopt id a).2 := by
  rw [update_eq, onObject, ho] at h
  dsimp only at h
  split at h
  · cases h
  · next known hknown =>
    split at h
    · cases h
    · cases h
    · next f hfind =>
      obtain ⟨cs, hsearch, hlength⟩ :=
        Supply.search_of_findVersionIn (Interest.deep_nextVersion known none) hfind
      unfold finish at h
      split at h
      · cases h
      · next a hread =>
        obtain ⟨n', hn', hbase⟩ := ObjectState.base_of_knownName hknown
        obtain rfl : n = n' := Option.some.inj (hn.symm.trans hn')
        have hbelow : a.base = known.base :=
          Reading.below_of_ofConfirmed (below_of_search hsearch) hread
        refine ⟨known, f, cs, a, hknown, hbase, ⟨hsearch, hread, ?_⟩, hlength,
          (congrArg Prod.snd h).symm⟩
        apply ObjectState.exists_knownName_adopt
        rw [hbelow, hbase, hroot]
      · cases h

/-! ### The watch in lockstep with the search -/

/-- A watch that was armed once asks the next question of the search that an update makes, with so
many left, or it has led its object to where the update leads it, and is idle. -/
inductive Chases (s : Session α) (id : ObjectId) (o : VersionedObject α) (known : Name)
    (f : Fragment) (a : Adoption α) : Nat → Prop
  | asking (watch : Watch) (q : ActiveQuery) (cs : List Component)
      (object?_eq : s.object? id = some { o with watch }) (active_eq : watch.active = some q)
      (known_eq : q.known = known) (seeks : q.interest.Seeks known)
      (once : watch.continuous = false) (search : s.supply.Search q.interest cs (some f))
      (ready : ∀ p ∈ s.network.pending, p.listener.object = id → p.standing = .ready) :
      s.Chases id o known f a (cs.length + 1)
  | arrived (watch : Watch) (active_eq : watch.active = none)
      (object?_eq : s.object? id = some { o with state := (o.state.adopt a).2, watch }) :
      s.Chases id o known f a 0

variable {left : Nat}

omit [Payload α] in
/-- What is served of other objects does not come in between. -/
theorem Chases.of_spares (h : s.Chases id o known f a left) (hs : Spares id s s')
    (hsupply : s'.supply = s.supply) : s'.Chases id o known f a left := by
  cases h with
  | asking watch q cs ho hw hk hq honce hsearch hready =>
    refine .asking watch q cs (hs.object?_eq.trans ho) hw hk hq honce ?_ fun p hp hl => ?_
    · rw [hsupply]
      exact hsearch
    · exact hready p ((hs.pending_iff p hl).mp hp) hl
  | arrived watch hw ho => exact .arrived watch hw (hs.object?_eq.trans ho)

/-- A look at the interest of the watch asks one question of the search. -/
theorem Chases.deliver (h : s.Chases id o known f a left) (hstep : s.InStep)
    (hp : p ∈ s.network.pending) (hl : p.listener.object = id) {cs₀ : List Component}
    (hto : s.UpdatesTo o known f cs₀ a) :
    (∃ less, less < left ∧ (s.deliver p).Chases id o known f a less) ∧
      (s.deliver p).waiting = s.waiting := by
  cases h with
  | arrived watch hw ho => exact absurd hl (hstep.not_pending_of_idle ho hw p hp)
  | asking watch q cs ho hw hk hq honce hsearch _ =>
    obtain ⟨hlistener, hinterest⟩ := hstep.own ho hw hp hl
    rw [← hk] at hq
    generalize hfound : some f = found at hsearch
    cases hsearch with
    | exhausted _ => cases hfound
    | @found _ g v hget hc =>
      cases hfound
      rw [← hk] at hto
      obtain ⟨taken, watch', hhand, -, hwaiting, hidle, hobj⟩ :=
        (hto.congr rfl watch).hand (p := p) ho hw hlistener hq honce (.found hget hc)
      rw [deliver_of_answer (hinterest ▸ hget), hhand]
      exact ⟨⟨0, Nat.succ_pos _, .arrived watch' hidle hobj⟩, hwaiting⟩
    | @sibling _ g c cs _ hget hc hv hrest =>
      have haccepts := Supply.accepts_of_get hget
      obtain ⟨exclusions, hhand⟩ := hand_of_sibling ho hw hlistener hq haccepts hc hv
      let next : ActiveQuery := { q with interest := q.interest.excluding c }
      let watch' : Watch := { watch with active := some next, exclusions }
      have hobj : (s.setWatch id watch').object? id = some { o with watch := watch' } :=
        object?_modifyObject ho fun o => { o with watch := watch' }
      -- The next question is not the same again.
      have hready := hstep.ready_of_reissue (s.setWatch id watch') ho hw hp hl rfl
        (Interest.excluding_ne_of_accepts haccepts hc) s.supply.changes
      rw [deliver_of_answer (hinterest ▸ hget), hhand]
      exact ⟨⟨cs.length + 1, Nat.lt_succ_self _,
        .asking watch' next cs hobj rfl hk (hk ▸ hq.excluding c) honce (hfound ▸ hrest) hready⟩,
        rfl⟩

/-- A session in which a watch is in lockstep with the search of an update. -/
structure Lockstep (id : ObjectId) (o : VersionedObject α) (known : Name) (f : Fragment)
    (cs : List Component) (a : Adoption α) (s : Session α) (left : Nat) : Prop where
  inStep : s.InStep
  quiet : s.Quiet id
  updatesTo : s.UpdatesTo o known f cs a
  chases : s.Chases id o known f a left

namespace Lockstep

theorem deliver (h : Lockstep id o known f cs a s left) (hp : p ∈ s.network.pending)
    (hl : p.listener.object = id) (hready : s.network.isReady p = true) :
    ∃ less, less < left ∧ Lockstep id o known f cs a (s.deliver p) less := by
  obtain ⟨⟨less, hless, hchases⟩, hwaiting⟩ := h.chases.deliver h.inStep hp hl h.updatesTo
  have hsupply := supply_deliver s p
  refine ⟨less, hless, h.inStep.deliver hp (Network.ne_busy_of_isReady hready), fun w hw hid => ?_,
    h.updatesTo.congr hsupply o.watch, hchases⟩
  rw [hwaiting] at hw
  rw [hsupply]
  exact h.quiet w hw hid

theorem step (h : Lockstep id o known f cs a s left) (hs : s.step? = some s') :
    ∃ less, Lockstep id o known f cs a s' less := by
  rcases h.inStep.step_cases id hs with
    hspares | ⟨p, hp, hl, hready, rfl⟩ | ⟨w, pre, post, hw, hid, hchanged, -⟩
  · have hsupply := supply_step? hs
    refine ⟨left, h.inStep.step hs, fun w hw hid => ?_, h.updatesTo.congr hsupply o.watch,
      h.chases.of_spares hspares hsupply⟩
    rw [hsupply]
    exact h.quiet w ((hspares.waiting_iff w hid).mp hw) hid
  · obtain ⟨less, -, hless⟩ := h.deliver hp hl hready
    exact ⟨less, hless⟩
  · exact absurd (h.quiet w (by simp [hw]) hid) hchanged

theorem settleIn (h : Lockstep id o known f cs a s left) (fuel : Nat) :
    ∃ less, Lockstep id o known f cs a (s.settleIn fuel) less :=
  settleIn_induction (P := fun s' => ∃ less, Lockstep id o known f cs a s' less)
    (fun _ _ ⟨_, h⟩ hs => h.step hs) fuel ⟨left, h⟩

/-- When nothing more can be served, the object is where the update leads it. -/
theorem arrived_of_rest (h : Lockstep id o known f cs a s left) (hroot : known.base.isRoot = false)
    (hrest : s.step? = none) : ∃ watch : Watch, watch.active = none ∧
      s.object? id = some { o with state := (o.state.adopt a).2, watch } := by
  cases h.chases with
  | arrived watch hw ho => exact ⟨watch, hw, ho⟩
  | asking watch q cs ho hw hk _ _ _ hready =>
    -- The next question of the search could be asked.
    have hq : s.query? ⟨id, q.generation⟩ = some q := query?_eq_some_iff.mpr ⟨_, ho, hw, rfl⟩
    obtain ⟨p, hp, hl⟩ := (h.inStep.query _ q hq).2 (by rw [hk]; exact hroot)
    have hno := (step?_eq_none_iff.mp hrest).2 p hp
    rw [Network.isReady, hready p hp (by rw [hl])] at hno
    cases hno

end Lockstep

/-! ### Arming -/

omit [Suite] [Payload α] in
/-- An idle watch has nothing to withdraw. -/
theorem cancelWatch_of_idle (ho : s.object? id = some o) (hidle : o.watch.active = none) :
    s.cancelWatch id = s.setWatch id o.watch.cancel.2 := by
  unfold cancelWatch
  rw [ho]
  simp only [Watch.cancel, hidle]
  rfl

theorem lockstep_arm (h : s.InStep) (ho : s.object? id = some o) (hidle : o.watch.active = none)
    (hquiet : s.Quiet id) (hto : s.UpdatesTo o known f cs a) :
    Lockstep id o known f cs a (s.arm id known false) (cs.length + 1) := by
  obtain ⟨hsupply, hwaiting⟩ := arm_same ho known false
  rw [cancelWatch_of_idle ho hidle] at hsupply hwaiting
  constructor
  case inStep => exact (h.arm id known false).inStep
  case quiet =>
    intro w hw hid
    rw [hwaiting] at hw
    rw [hsupply]
    exact hquiet w hw hid
  case updatesTo => exact hto.congr hsupply o.watch
  case chases =>
    refine .asking _ _ cs (object?_arm ho known false) rfl rfl (Interest.seeks_nextVersion known)
      rfl ?_ (h.ready_of_arm ho known false)
    rw [hsupply]
    exact hto.search

/-! ### Agreement -/

/-- Where an update moves an object with an idle watch forward, a watch that is armed once for the
versions after the object's own name leads the object to the same state. Whatever is served of other
objects in between, once nothing more can be served the object has that state, its watch is idle,
and nothing is pending for it; and if nothing could be served before, then serving comes to this
rest. -/
theorem background_eq_update (h : s.InStep) (ho : s.object? id = some o)
    (hidle : o.watch.active = none) (hquiet : s.Quiet id) (hn : o.state.base = some n)
    (hroot : n.base.isRoot = false) {t : Nat} (hupdate : s.update id t = (.ok true, s')) :
    ∃ s₁, s.updateInBackground id none false = (.ok (), s₁) ∧
      (∀ fuel, (s₁.settleIn fuel).step? = none →
        ∃ o' o₁, s'.object? id = some o' ∧ (s₁.settleIn fuel).object? id = some o₁ ∧
          o₁.state = o'.state ∧ o₁.watch.active = none ∧
          ∀ p ∈ (s₁.settleIn fuel).network.pending, p.listener.object ≠ id) ∧
      (s.step? = none → s₁.settle.step? = none) := by
  obtain ⟨known, f, cs, a, hknown, hbase, hto, hlength, rfl⟩ :=
    updatesTo_of_update ho hn hroot hupdate
  have hlockstep := lockstep_arm h ho hidle hquiet hto
  refine ⟨s.arm id known false, ?_, fun fuel hrest => ?_, fun hcalm => ?_⟩
  · exact updateInBackground_of_known ho none hknown false
  -- At rest the watch has gone as far as the search, and both adopt what was found.
  · obtain ⟨less, hend⟩ := hlockstep.settleIn fuel
    obtain ⟨watch, hidle', hobj⟩ := hend.arrived_of_rest (hbase ▸ hroot) hrest
    have hupdated : (s.adopt id a).2.object? id = some { o with state := (o.state.adopt a).2 } := by
      rw [adopt_eq ho]
      exact object?_modifyObject ho _
    exact ⟨_, _, hupdated, hobj, rfl, hidle', hend.inStep.not_pending_of_idle hobj hidle'⟩
  · have hcancel : (s.cancelWatch id).step? = none := by
      obtain ⟨hwaits, hothers⟩ := step?_eq_none_iff.mp hcalm
      rw [cancelWatch_of_idle ho hidle]
      exact step?_eq_none_iff.mpr ⟨hwaits, hothers⟩
    obtain ⟨p, hp, -⟩ : ∃ p ∈ (s.arm id known false).network.pending, p.listener.object = id := by
      rw [pending_arm ho]
      exact ⟨_, List.mem_append_right _ (List.mem_singleton_self _), rfl⟩
    have hsupply : (s.arm id known false).supply = s.supply := by
      rw [(arm_same ho known false).1, cancelWatch_of_idle ho hidle]
      rfl
    refine settleIn_of_decreasing (P := Lockstep id o known f cs a)
      (fun _ _ h => ⟨h.inStep, h.quiet⟩) (fun _ _ h p hp hl hready => h.deliver hp hl hready)
      hlockstep (sole_arm ho hcancel known false) (Nat.lt_of_lt_of_le ?_ (fuel_le hp))
    rw [hsupply]
    have hsquare : s.supply.size + 2 ≤ (s.supply.size + 2) * (s.supply.size + 2) :=
      Nat.le_mul_of_pos_left _ (Nat.succ_pos _)
    omega

end

/-! ### A version behind a sibling -/

/-- A fragment with some component where others have a version. -/
def beside : Fragment :=
  { strangersVersion with name := (someContent.append (.ofText "x")).append (.ofText "y") }

/-- An object that was opened under the name of the content, and has no value yet. -/
def visiting : Session (List UInt32) :=
  ((start (unverified [beside, strangersVersion])).openObject ⟨wanted, [], []⟩ none
    { name := some someContent }).2

/-- The version is found behind the sibling, both at once and in the background. -/
theorem background_eq_update_beside :
    ∃ s' s₁, visiting.InStep ∧ visiting.Quiet ⟨0⟩ ∧ visiting.step? = none ∧
      visiting.update ⟨0⟩ 0 = (.ok true, s') ∧
      visiting.updateInBackground ⟨0⟩ none false = (.ok (), s₁) ∧ s₁.settle.step? = none ∧
      ∃ o' o₁, s'.object? ⟨0⟩ = some o' ∧ s₁.settle.object? ⟨0⟩ = some o₁ ∧
        o₁.state = o'.state ∧ o₁.watch.active = none ∧
        ∀ p ∈ s₁.settle.network.pending, p.listener.object ≠ ⟨0⟩ := by
  have hinStep : visiting.InStep := (inStep_start _).openObject _ _ _
  have hquiet : visiting.Quiet ⟨0⟩ := nofun
  have hupdate : visiting.update ⟨0⟩ 0 = (.ok true, (visiting.update ⟨0⟩ 0).2) := rfl
  obtain ⟨s₁, hbackground, hagree, hcalm⟩ := background_eq_update hinStep
    (show visiting.object? ⟨0⟩ = some (prepare ⟨wanted, [], []⟩ none { name := some someContent })
      from rfl) rfl hquiet rfl rfl hupdate
  exact ⟨_, s₁, hinStep, hquiet, rfl, hupdate, hbackground, hcalm rfl, hagree _ (hcalm rfl)⟩

end Session
end NamedContent
