import Mathlib.Data.Finset.Card
import NamedContent.Proofs.Object.CatchUp
import NamedContent.Proofs.Object.Turning

/-!
# A one-shot update adopts one version

An object is armed for one version, and then the session is left to itself: others publish, time
passes, watches are served and waits are given up, in any order (`Passes`). An arming is at work
while its interest is pending or it waits for what is lacking (`AtWork`). Nothing puts more armings
to work: a wait that is given up is replaced by the new arming, and a version that is adopted ends
the arming that read it (`Turn`). So an object adopts at most one version for each of its armings at
work, those that waited already when it was armed included (`adopts_of_oneShot`).

Two things are not so. An earlier wait is neither fenced off nor ended by a new arming: it can adopt
a version too, and arm the watch anew when it is given up (`not_always_oneShot`). And a wait that is
given up takes the version off a name that is without its version already, so that of an object
without a name the watch can come to ask below the root, where it is never disarmed.
-/

namespace NamedContent

/-! ### Names -/

/-- Nothing is left of a name when the versions at its end are taken off, one after the other. -/
inductive Name.Dissolves : Name → Prop where
  | root : Name.root.Dissolves
  | base (n : Name) (dissolves : n.base.Dissolves) : n.Dissolves

theorem Name.isRoot_base_of_not_dissolves {n : Name} (h : ¬ n.Dissolves) :
    n.base.isRoot = false := by
  by_contra hroot
  have hbase : n.base = .root := eq_root_of_isRoot (Bool.of_not_eq_false hroot)
  exact h (.base n (hbase ▸ .root))

/-- What is lacking of a version below a name leaves no less of a name to go on from. -/
theorem Lack.Below.not_dissolves {b : Name} {l : Lack} (h : l.Below b) (hb : ¬ b.Dissolves) :
    ¬ l.fallback.base.Dissolves := by
  cases l with
  | firstSegment versioned p =>
    obtain ⟨v, rfl⟩ := h
    show ¬ (b.append v.toComponent).base.Dissolves
    rw [Name.base_append]
    exact hb
  | segment c =>
    show ¬ c.first.name.base.base.Dissolves
    rw [show c.first.name.base = b from h]
    exact fun hbase => hb (.base b hbase)

namespace ObjectState

variable {α : Type} {s : ObjectState α}

/-- A version of an unversioned base is adopted exactly if the state changes. -/
theorem adopt_ne_iff {a : Adoption α} (hplain : a.base.splitVersion? = none) :
    (s.adopt a).2 ≠ s ↔ (s.adopt a).1 = true := by
  rcases s.adopt_cases a with ⟨hnewer, hadopt⟩ | ⟨_, hadopt⟩
  · rw [hadopt]
    refine iff_of_true (fun heq => ?_) rfl
    have hbase : s.base = some a.base := congrArg ObjectState.base heq.symm
    have hversion : s.version = some a.version := congrArg ObjectState.version heq.symm
    simp [isNewer, hbase, hversion, Name.base_of_splitVersion?_eq_none hplain] at hnewer
    exact Nat.lt_irrefl _ (Version.lt_iff_toNat_lt.mp hnewer)
  · rw [hadopt]
    exact iff_of_false (fun hne => hne rfl) Bool.false_ne_true

end ObjectState

namespace Session

section

variable {α : Type} {s s' s'' : Session α} {id : ObjectId} {o : VersionedObject α} {k : InterestId}
  {x y : Watcher}

variable [Suite]

/-! ### Turns -/

/-- What becomes of an object with a one-shot watch when an arming of it takes its turn: it goes on,
it is done with a version that is adopted if it moves the object forward, or it gives up and a new
arming takes its place. -/
inductive Turn (s : Session α) (x : Watcher) (o : VersionedObject α) (s' : Session α) : Prop where
  | goesOn (w : Watch) (object?_eq : s'.object? x.object = some { o with watch := w })
      (oneShot : w.continuous = false) (aim_eq : w.aim = o.watch.aim)
      (atWork : ∀ y : Watcher, y.object = x.object → s'.AtWork y → s.AtWork y)
  | isDone (a : Adoption α) (w : Watch)
      (object?_eq : s'.object? x.object =
        some { o with state := (o.state.adopt a).2, watch := w })
      (oneShot : w.continuous = false)
      (idle : ∀ known : Name, o.watch.aim = some (x.generation, known) →
        known.base.isRoot = false → w.active = none)
      (atWork : ∀ y : Watcher, y.object = x.object → s'.AtWork y → s.AtWork y ∧ y ≠ x)
  | givesUp (w : Watch) (g : Nat) (known : Name)
      (object?_eq : s'.object? x.object = some { o with watch := w })
      (oneShot : w.continuous = false) (aim_eq : w.aim = some (g, known))
      (named : ∀ b, o.state.base = some b → b.base.isRoot = false → known.base.isRoot = false)
      (unnamed : o.state.base = none → ∀ before, o.watch.aim = some (x.generation, before) →
        ¬ before.Dissolves → ¬ known.Dissolves)
      (atWork : ∀ y : Watcher, y.object = x.object → s'.AtWork y →
        y = ⟨x.object, g⟩ ∨ s.AtWork y ∧ y ≠ x)

variable [Payload α]

/-- With a one-shot watch every stride is a turn. -/
theorem Stride.turn (hstride : s.Stride x o s') (h : s.InStep) (ho : s.object? x.object = some o)
    (hone : o.watch.continuous = false) : s.Turn x o s' := by
  cases hstride with
  | goesOn w hobj _ hcontinuous haim _ hwork =>
    exact .goesOn w hobj (hcontinuous.trans hone) haim hwork
  | completes a w hreads hobj _ hcontinuous hconcludes _ hwork =>
    refine .isDone a w hobj (hcontinuous.trans hone) (fun known haim hroot => ?_)
      fun y hy hy' => (hwork y hy hy').imp_right fun hne => hne hone
    cases hconcludes with
    | ends haim' => exact Watch.aim_eq_none.mp haim'
    | follows _ _ hcontinuous' => exact absurd (hone.symm.trans hcontinuous') Bool.false_ne_true
    | stays _ hunfit =>
      -- An object that has just read a version that is not below the root knows a name.
      obtain ⟨q, hw, hg, rfl⟩ := Watch.aim_eq_some.mp haim
      have hbase : a.base = q.known.base :=
        h.below_of_reads hreads (query?_eq_some_iff.mpr ⟨o, ho, hw, hg⟩)
      obtain ⟨n, hn⟩ := ObjectState.exists_knownName_adopt (s := o.state) (hbase ▸ hroot)
      exact absurd hn (hunfit _ n haim)
  | givesUp v w known hv hl hobj _ hcontinuous haim hknown _ hwork =>
    refine .givesUp w _ known hobj (hcontinuous.trans hone) haim (fun b hb hroot => ?_)
      (fun hb before hbefore hdissolves => ?_) hwork
    · rcases hknown with hown | ⟨⟨e, he⟩, _⟩
      · obtain ⟨b', hb', hbase⟩ := ObjectState.base_of_knownName hown
        obtain rfl : b = b' := Option.some.inj (hb.symm.trans hb')
        rw [hbase, hroot]
      · cases he.symm.trans
          (ObjectState.knownName_of_base hb (Name.isRoot_of_isRoot_base hroot))
    · rcases hknown with hown | ⟨_, rfl⟩
      · obtain ⟨b', hb', _⟩ := ObjectState.base_of_knownName hown
        cases hb.symm.trans hb'
      · obtain ⟨q, hactive, hg, rfl⟩ := Watch.aim_eq_some.mp hbefore
        have hbelow := (h.waits v hv q (query?_eq_some_iff.mpr
          ⟨o, hl ▸ ho, hactive, hl ▸ hg⟩)).1
        exact hbelow.not_dissolves fun hbase => hdissolves (.base _ hbase)

/-! ### Courses -/

/-- A session is left to itself, and the state of an object changes so many times. Only a version
that is adopted changes it (`InStep.turn_of_passes`), and each does (`ObjectState.adopt_ne_iff`). -/
inductive Course (id : ObjectId) (s : Session α) : Nat → Session α → Prop where
  | refl : Course id s 0 s
  | still {n : Nat} {t u : Session α} (course : Course id s n t) (step : t.Passes u)
      (state_eq : u.stateOf id = t.stateOf id) : Course id s n u
  | moved {n : Nat} {t u : Session α} (course : Course id s n t) (step : t.Passes u)
      (state_ne : u.stateOf id ≠ t.stateOf id) : Course id s (n + 1) u

theorem exists_course (id : ObjectId) (h : s.PassesTo s') : ∃ n, s.Course id n s' := by
  induction h with
  | refl => exact ⟨0, .refl⟩
  | @tail t u _ hstep ih =>
    obtain ⟨n, hcourse⟩ := ih
    by_cases hstate : u.stateOf id = t.stateOf id
    · exact ⟨n, hcourse.still hstep hstate⟩
    · exact ⟨n + 1, hcourse.moved hstep hstate⟩

/-- Others publish, or time passes. -/
def Event.IsPassing : Event α → Prop
  | .publish _ | .wait _ | .waitUntil _ _ => True
  | _ => False

theorem passesTo_happenAll {events : List (Event α)} (h : ∀ e ∈ events, e.IsPassing) :
    s.PassesTo (s.happenAll events) := by
  induction events generalizing s with
  | nil => exact .refl
  | cons e events ih =>
    have hevent : s.PassesTo (s.happen e) := by
      cases e with
      | publish supply => exact .single (.publish s supply)
      | wait ms => exact (goes_elapse s ms).passesTo
      | waitUntil stop ms => exact (goes_elapseUntil stop s ms).passesTo
      | _ => exact absurd (h _ List.mem_cons_self) id
    exact hevent.trans (ih fun e he => h e (List.mem_cons_of_mem _ he))

/-! ### How many armings are at work -/

/-- How many readings of an object are under way, of which something is lacking. -/
def underWay (s : Session α) (id : ObjectId) : Nat :=
  (s.waiting.filter fun w => w.watcher.object = id).length

/-- The watch of an object is one-shot, and only some armings of it are at work. -/
structure Within (s : Session α) (id : ObjectId) (xs : Finset Watcher) : Prop where
  inStep : s.InStep
  object : ∃ o, s.object? id = some o ∧ o.watch.continuous = false
  atWork : ∀ x : Watcher, x.object = id → s.AtWork x → x ∈ xs

/-- A small step spares the object, or is a turn of one of its armings at work. -/
theorem InStep.turn_of_passes (h : s.InStep) (hp : s.Passes s') (ho : s.object? id = some o)
    (hone : o.watch.continuous = false) :
    Spares id s s' ∨ ∃ x, x.object = id ∧ s.AtWork x ∧ s.Turn x o s' := by
  refine (h.stride_of_passes hp ho).imp_right ?_
  rintro ⟨x, rfl, hx, hstride⟩
  exact ⟨x, rfl, hx, hstride.turn h ho hone⟩

/-- No step puts more armings to work, and each version that is adopted leaves one less. -/
theorem Within.passes {xs : Finset Watcher} (h : s.Within id xs) (hp : s.Passes s') :
    ∃ ys, s'.Within id ys ∧ ys.card ≤ xs.card ∧
      (s'.stateOf id ≠ s.stateOf id → ys.card < xs.card) := by
  obtain ⟨o, ho, hone⟩ := h.object
  have hin := h.inStep.passes hp
  rcases h.inStep.turn_of_passes hp ho hone with hspares | ⟨x, rfl, hx, hturn⟩
  · refine ⟨xs, ⟨hin, ⟨o, hspares.object?_eq.trans ho, hone⟩, fun y hy hwork =>
      h.atWork y hy (hspares.atWork hy hwork)⟩, le_refl _, fun hne => absurd ?_ hne⟩
    rw [stateOf, stateOf, hspares.object?_eq]
  -- Going on keeps all armings, being done loses one, and giving up has another in its place.
  have hmem := h.atWork x rfl hx
  cases hturn with
  | goesOn w hobj hone' haim hwork =>
    refine ⟨xs, ⟨hin, ⟨_, hobj, hone'⟩, fun y hy hy' => h.atWork y hy (hwork y hy hy')⟩, le_refl _,
      fun hne => absurd (stateOf_eq_of_state_eq ho hobj rfl) hne⟩
  | isDone a w hobj hone' hidle hwork =>
    refine ⟨xs.erase x, ⟨hin, ⟨_, hobj, hone'⟩, fun y hy hy' => ?_⟩,
      Finset.card_erase_le, fun _ => Finset.card_erase_lt_of_mem hmem⟩
    obtain ⟨hold, hne⟩ := hwork y hy hy'
    exact Finset.mem_erase.mpr ⟨hne, h.atWork y hy hold⟩
  | givesUp w g known hobj hone' haim hnamed hunnamed hwork =>
    refine ⟨insert ⟨x.object, g⟩ (xs.erase x), ⟨hin, ⟨_, hobj, hone'⟩, fun y hy hy' => ?_⟩, ?_,
      fun hne => absurd (stateOf_eq_of_state_eq ho hobj rfl) hne⟩
    · rcases hwork y hy hy' with rfl | ⟨hold, hne⟩
      · exact Finset.mem_insert_self _ _
      · exact Finset.mem_insert_of_mem (Finset.mem_erase.mpr ⟨hne, h.atWork y hy hold⟩)
    · calc (insert ⟨x.object, g⟩ (xs.erase x)).card
        _ ≤ (xs.erase x).card + 1 := Finset.card_insert_le _ _
        _ = xs.card := Finset.card_erase_add_one hmem

theorem Within.course {xs : Finset Watcher} (h : s.Within id xs) {n : Nat} (hc : s.Course id n s') :
    ∃ ys, s'.Within id ys ∧ ys.card + n ≤ xs.card := by
  induction hc with
  | refl => exact ⟨xs, h, le_refl _⟩
  | still _ hstep _ ih =>
    obtain ⟨ys, hys, hle⟩ := ih
    obtain ⟨zs, hzs, hcard, _⟩ := hys.passes hstep
    exact ⟨zs, hzs, by omega⟩
  | moved _ hstep hne ih =>
    obtain ⟨ys, hys, hle⟩ := ih
    obtain ⟨zs, hzs, _, hcard⟩ := hys.passes hstep
    have hless := hcard hne
    exact ⟨zs, hzs, by omega⟩

omit [Suite] [Payload α] in
/-- Arming puts one arming to work; those that waited already are at work as well. -/
theorem InStep.within_arm (h : s.InStep) (ho : s.object? id = some o) (known : Name) :
    ∃ xs, (s.arm id known false).Within id xs ∧ xs.card ≤ s.underWay id + 1 := by
  let waiting := ((s.waiting.filter fun w => w.watcher.object = id).map Waiting.watcher).toFinset
  refine ⟨insert ⟨id, o.watch.generation + 1⟩ waiting,
    ⟨(h.arm id known false).inStep, ⟨_, object?_arm ho known false, rfl⟩, fun x hx hwork => ?_⟩, ?_⟩
  · rcases h.atWork_arm ho hx hwork with rfl | ⟨w, hw, rfl⟩
    · exact Finset.mem_insert_self _ _
    · exact Finset.mem_insert_of_mem (List.mem_toFinset.mpr (List.mem_map_of_mem
        (List.mem_filter.mpr ⟨hw, by simpa using hx⟩)))
  · refine (Finset.card_insert_le _ _).trans (Nat.succ_le_succ ?_)
    refine (List.toFinset_card_le _).trans ?_
    rw [List.length_map]
    exact le_refl _

/-! ### Names that last -/

/-- Only the armed query of an object is at work, and its name and that of the object are such that
a version below them has a base. -/
structure Lasting (s : Session α) (id : ObjectId) : Prop where
  armed : ∀ o, s.object? id = some o → ∀ x : Watcher, x.object = id → s.AtWork x →
    ∃ known, o.watch.aim = some (x.generation, known)
  known : ∀ o g known, s.object? id = some o → o.watch.aim = some (g, known) →
    known.base.isRoot = false ∧ (∀ b, o.state.base = some b → b.base.isRoot = false) ∧
      (o.state.base = none → ¬ known.Dissolves)

theorem Lasting.passes (h : s.Lasting id) (hin : s.InStep) (ho : s.object? id = some o)
    (hone : o.watch.continuous = false) (hp : s.Passes s') : s'.Lasting id := by
  rcases hin.turn_of_passes hp ho hone with hspares | ⟨x, rfl, hx, hturn⟩
  · refine ⟨fun o' ho' y hy hwork => h.armed o' (hspares.object?_eq ▸ ho') y hy
      (hspares.atWork hy hwork),
      fun o' g known ho' => h.known o' g known (hspares.object?_eq ▸ ho')⟩
  obtain ⟨before, hbefore⟩ := h.armed o ho x rfl hx
  obtain ⟨hroot, hbase, hlasts⟩ := h.known o _ before ho hbefore
  -- The armed query is all that is at work, so there is nothing left beside it.
  have honly : ∀ y : Watcher, y.object = x.object → ¬ (s.AtWork y ∧ y ≠ x) := by
    rintro y hy ⟨hwork, hne⟩
    obtain ⟨known, hknown⟩ := h.armed o ho y hy hwork
    obtain ⟨hg, -⟩ := Prod.mk.inj (Option.some.inj (hbefore.symm.trans hknown))
    exact hne (Watcher.ext hy hg.symm)
  cases hturn with
  | goesOn w hobj hone' haim hwork =>
    refine ⟨fun o' ho' y hy hy' => ?_, fun o' g known ho' hknown => ?_⟩
    · obtain rfl := Option.some.inj (hobj.symm.trans ho')
      rw [haim]
      exact h.armed o ho y hy (hwork y hy hy')
    · obtain rfl := Option.some.inj (hobj.symm.trans ho')
      exact h.known o g known ho (haim.symm.trans hknown)
  | isDone a w hobj hone' hidle hwork =>
    refine ⟨fun o' ho' y hy hy' => absurd (hwork y hy hy') (honly y hy),
      fun o' g known ho' hknown => ?_⟩
    obtain rfl := Option.some.inj (hobj.symm.trans ho')
    rw [Watch.aim_eq_none.mpr (hidle before hbefore hroot)] at hknown
    cases hknown
  | givesUp w g known hobj hone' haim hnamed hunnamed hwork =>
    refine ⟨fun o' ho' y hy hy' => ?_, fun o' g' known' ho' hknown => ?_⟩
    · obtain rfl := Option.some.inj (hobj.symm.trans ho')
      rcases hwork y hy hy' with rfl | hold
      · exact ⟨known, haim⟩
      · exact absurd hold (honly y hy)
    · obtain rfl := Option.some.inj (hobj.symm.trans ho')
      rw [haim, Option.some.injEq, Prod.mk.injEq] at hknown
      obtain ⟨rfl, rfl⟩ := hknown
      refine ⟨?_, hbase, fun hnone => hunnamed hnone before hbefore (hlasts hnone)⟩
      cases hb : o.state.base with
      | none => exact Name.isRoot_base_of_not_dissolves (hunnamed hb before hbefore (hlasts hb))
      | some b => exact hnamed b hb (hbase b hb)

theorem Lasting.course {xs : Finset Watcher} (h : s.Lasting id) (hw : s.Within id xs) {n : Nat}
    (hc : s.Course id n s') : s'.Lasting id := by
  have hstep : ∀ {m t u}, s.Course id m t → t.Lasting id → t.Passes u → u.Lasting id := by
    intro m t u hcourse hlasting hpasses
    obtain ⟨ys, hys, _⟩ := hw.course hcourse
    obtain ⟨o, ho, hone⟩ := hys.object
    exact hlasting.passes hys.inStep ho hone hpasses
  induction hc with
  | refl => exact h
  | still hcourse hpasses _ ih => exact hstep hcourse ih hpasses
  | moved hcourse hpasses _ ih => exact hstep hcourse ih hpasses

omit [Suite] [Payload α] in
/-- With nothing at work the watch is idle. -/
theorem Lasting.idle (h : s.Lasting id) (hin : s.InStep)
    (hrest : ∀ x : Watcher, x.object = id → ¬ s.AtWork x) (ho : s.object? id = some o) :
    o.watch.active = none := by
  cases hw : o.watch.active with
  | none => rfl
  | some q =>
    have haim : o.watch.aim = some (q.generation, q.known) :=
      Watch.aim_eq_some.mpr ⟨q, hw, rfl, rfl⟩
    have hq : s.query? ⟨id, q.generation⟩ = some q := query?_eq_some_iff.mpr ⟨o, ho, hw, rfl⟩
    obtain ⟨p, hp, hl⟩ := (hin.query _ q hq).2 (h.known o _ _ ho haim).1
    exact absurd (.pending p hp hl) (hrest ⟨id, q.generation⟩ rfl)

omit [Suite] [Payload α] in
theorem InStep.lasting_arm (h : s.InStep) (ho : s.object? id = some o) {known : Name}
    (hroot : known.base.isRoot = false) (hbase : ∀ b, o.state.base = some b → b.base.isRoot = false)
    (hlasts : o.state.base = none → ¬ known.Dissolves) (hquiet : s.underWay id = 0) :
    (s.arm id known false).Lasting id := by
  have hobj := object?_arm ho known false
  refine ⟨fun o' ho' x hx hwork => ?_, fun o' g known' ho' hknown => ?_⟩
  · obtain rfl := Option.some.inj (hobj.symm.trans ho')
    rcases h.atWork_arm ho hx hwork with rfl | ⟨w, hw, rfl⟩
    · exact ⟨known, rfl⟩
    · have hnil := List.length_eq_zero_iff.mp hquiet
      exact absurd (by simpa using hx) (List.filter_eq_nil_iff.mp hnil w hw)
  · obtain rfl := Option.some.inj (hobj.symm.trans ho')
    cases hknown
    exact ⟨hroot, hbase, hlasts⟩

/-- An object is armed for one version. Something is left of the name, and of the object's own if it
has one, without the version at its end. -/
structure OneShotCall (s : Session α) (id : ObjectId) (known : Option Name) (o : VersionedObject α)
    (name : Name) : Prop where
  inStep : s.InStep
  object?_eq : s.object? id = some o
  known_eq : (known.map .ok).getD o.state.knownName = .ok name
  name_base : name.base.isRoot = false
  own_base : ∀ b, o.state.base = some b → b.base.isRoot = false

/-- An object is armed for one version after a name. Whatever is published then, and however much
time passes, it adopts at most one version, and one more for each reading of it that was under way
when it was armed. When it has adopted so many nothing of it is left to do, and nothing that goes on
touches it any more. If no reading was under way, and the object has a name or its known name is not
made of versions only, then the watch is idle once it has adopted a version. -/
theorem adopts_of_oneShot {known : Option Name} {name : Name} (h : s.OneShotCall id known o name) :
    ∃ s₁, s.updateInBackground id known false = (.ok (), s₁) ∧
      (∀ events : List (Event α), (∀ e ∈ events, e.IsPassing) →
        ∃ n, s₁.Course id n (s₁.happenAll events)) ∧
      ∀ n t, s₁.Course id n t →
        n ≤ s.underWay id + 1 ∧
        (n = s.underWay id + 1 → (∀ x : Watcher, x.object = id → ¬ t.AtWork x) ∧
          ∀ u, t.PassesTo u → u.object? id = t.object? id) ∧
        (n = 1 → s.underWay id = 0 → (o.state.base = none → ¬ name.Dissolves) →
          ∃ o', t.object? id = some o' ∧ o'.watch.active = none) := by
  obtain ⟨h, ho, hknown, hroot, hbase⟩ := h
  refine ⟨s.arm id name false, ?_, fun events hevents =>
    exists_course id (passesTo_happenAll hevents), fun n t hcourse => ?_⟩
  · exact updateInBackground_of_known ho known hknown false
  obtain ⟨xs, hxs, hcard⟩ := h.within_arm ho name
  obtain ⟨ys, hys, hle⟩ := hxs.course hcourse
  have hrest : n = s.underWay id + 1 → ∀ x : Watcher, x.object = id → ¬ t.AtWork x := by
    intro hn x hx hwork
    have hempty : ys.card = 0 := by omega
    rw [Finset.card_eq_zero] at hempty
    have hmem := hys.atWork x hx hwork
    rw [hempty] at hmem
    exact Finset.notMem_empty x hmem
  refine ⟨by omega, fun hn => ⟨hrest hn, fun u hu =>
    (hys.inStep.spares_passesTo (hrest hn) hu).object?_eq⟩, fun hn hquiet hlasts => ?_⟩
  obtain ⟨o', ho', _⟩ := hys.object
  have hlasting := (h.lasting_arm ho hroot hbase hlasts hquiet).course hxs hcourse
  exact ⟨o', ho', hlasting.idle hys.inStep (hrest (by omega)) ho'⟩

/-! ### Short runs -/

theorem Course.passesTo {n : Nat} (h : s.Course id n s') : s.PassesTo s' := by
  induction h with
  | refl => exact .refl
  | still _ hstep _ ih => exact ih.tail hstep
  | moved _ hstep _ ih => exact ih.tail hstep

theorem passes_publish (s : Session α) (f : Fragment) : s.Passes (s.move (.publish f)) :=
  .publish s _

theorem passes_serve (h : s.step?.isSome = true) : s.Passes (s.move .serve) := by
  obtain ⟨s', hs⟩ := Option.isSome_iff_exists.mp h
  unfold move
  rw [hs]
  exact .serve hs

theorem passes_giveUp {w : Waiting} (hw : s.waiting = [w]) (hdue : w.deadline ≤ s.now) :
    s.Passes ({ s with waiting := [] }.giveUp w) :=
  .giveUp (by rw [hw, List.nil_append]) hdue

/-- A fragment is published and served, and the object adopts nothing. -/
theorem Course.unmoved {n : Nat} (h : s.Course id n s') (f : Fragment)
    (hserve : (s'.move (.publish f)).step?.isSome = true)
    (hstate : (s'.moveAll [.publish f, .serve]).stateOf id = s'.stateOf id) :
    s.Course id n (s'.moveAll [.publish f, .serve]) :=
  (h.still (passes_publish s' f) rfl).still (passes_serve hserve) hstate

/-- A fragment is published and served, and the object holds another version then. -/
theorem Course.adopts {n : Nat} (h : s.Course id n s') (f : Fragment)
    (hserve : (s'.move (.publish f)).step?.isSome = true)
    (hheld : (s'.moveAll [.publish f, .serve]).held id ≠ s'.held id) :
    s.Course id (n + 1) (s'.moveAll [.publish f, .serve]) :=
  (h.still (passes_publish s' f) rfl).moved (passes_serve hserve)
    fun hstate => hheld (congrArg (·.bind ObjectState.version) hstate)

end

/-- A session of one object, with a name or without one, on a network where nothing is published. -/
def lone (name : Option Name) : Session (List UInt32) :=
  ((start (unverified [])).openObject ⟨wanted, [], []⟩ none { name }).2

theorem inStep_lone (name : Option Name) : (lone name).InStep := (inStep_start _).openObject _ _ _

/-- The object is armed for one version. -/
def armedOnce (name known : Option Name) : Session (List UInt32) :=
  ((lone name).updateInBackground ⟨0⟩ known false).2

theorem oneShotCall_lone (known : Name) (hroot : known.base.isRoot = false) :
    (lone none).OneShotCall ⟨0⟩ (some known) (prepare ⟨wanted, [], []⟩ none {}) known where
  inStep := inStep_lone none
  object?_eq := rfl
  known_eq := rfl
  name_base := hroot
  own_base _ hb := nomatch hb

/-- A version is published, the object adopts it, and is idle. -/
theorem adopts_of_oneShot_single :
    ∃ o s₁ t, (lone (some someContent)).OneShotCall ⟨0⟩ none o someContent ∧
      (lone (some someContent)).updateInBackground ⟨0⟩ none false = (.ok (), s₁) ∧
      s₁.Course ⟨0⟩ 1 t ∧ t.held ⟨0⟩ = some ⟨7⟩ ∧
      (∀ u, t.PassesTo u → u.object? ⟨0⟩ = t.object? ⟨0⟩) ∧
      ∃ o', t.object? ⟨0⟩ = some o' ∧ o'.watch.active = none := by
  have hcall : (lone (some someContent)).OneShotCall ⟨0⟩ none _ someContent :=
    ⟨inStep_lone _, rfl, rfl, rfl, fun b hb => by cases hb; rfl⟩
  obtain ⟨s₁, hs₁, _, hcourses⟩ := adopts_of_oneShot hcall
  obtain rfl : armedOnce (some someContent) none = s₁ := congrArg Prod.snd hs₁
  have hcourse : (armedOnce (some someContent) none).Course ⟨0⟩ 1 _ :=
    Course.refl.adopts strangersVersion rfl (by decide +kernel)
  obtain ⟨_, hrest, hidle⟩ := hcourses 1 _ hcourse
  exact ⟨_, _, _, hcall, hs₁, hcourse, rfl, (hrest rfl).2, hidle rfl rfl fun hnone => nomatch hnone⟩

/-! ### What an update does not promise -/

/-- One segment of a version, with a signature that nobody verifies. -/
def segmentOf (versioned : Name) (k final : UInt64) (content : Octets) : Fragment where
  name := versioned.segmentName k
  info := ⟨⟨.replicate 32 1⟩, 0, .data, some final, .named .root none, none⟩
  content
  signature := ⟨.replicate 64 0⟩

/-- The object waits for the second segment of a version. -/
def waitsForRest : Session (List UInt32) :=
  (armedOnce (some someContent) none).moveAll
    [.publish (segmentOf (someContent.addVersion ⟨5⟩) 0 1 [0x82, 5]), .serve]

theorem inStep_waitsForRest : waitsForRest.InStep := by
  have hwaits : (armedOnce (some someContent) none).Course ⟨0⟩ 0 waitsForRest :=
    Course.refl.unmoved _ rfl rfl
  exact ((inStep_lone (some someContent)).updateInBackground ⟨0⟩ none false).passesTo
    hwaits.passesTo

/-- A version of a name that is itself all version. -/
def nested (v : Version) : Name := (Name.root.append (Version.toComponent ⟨1⟩)).append v.toComponent

/-- Armed for one version an object can adopt two: the one for which it waits already, and the next.
And an object without a name can stay armed after it has adopted one: it gives up a version of a
name that is all version, and is armed below the root. -/
theorem not_always_oneShot :
    (¬ ∀ (s : Session (List UInt32)) (id : ObjectId) (known : Option Name)
        (o : VersionedObject (List UInt32)) (name : Name), s.OneShotCall id known o name →
      ∀ n t, (s.updateInBackground id known false).2.Course id n t → n ≤ 1) ∧
    ¬ ∀ (s : Session (List UInt32)) (id : ObjectId) (known : Option Name)
        (o : VersionedObject (List UInt32)) (name : Name), s.OneShotCall id known o name →
      ∀ t, (s.updateInBackground id known false).2.Course id 1 t →
        ∃ o', t.object? id = some o' ∧ o'.watch.active = none := by
  constructor
  · intro h
    have hcourse : (waitsForRest.updateInBackground ⟨0⟩
        (some (someContent.addVersion ⟨5⟩)) false).2.Course ⟨0⟩ 2 _ :=
      (Course.refl.adopts (segmentOf (someContent.addVersion ⟨5⟩) 1 1 [6]) rfl
        (by decide +kernel)).adopts (segmentOf (someContent.addVersion ⟨6⟩) 0 0 [0x81, 5]) rfl
        (by decide +kernel)
    exact absurd (h _ _ _ _ _ ⟨inStep_waitsForRest, rfl, rfl, rfl, fun b hb => by cases hb; rfl⟩
      2 _ hcourse) (by decide)
  · intro h
    have hwaits := (Course.refl : (armedOnce none (some (nested ⟨2⟩))).Course ⟨0⟩ 0 _).unmoved
      (segmentOf (nested ⟨3⟩) 0 1 [0x82, 5]) rfl rfl
    have hgivesUp := (hwaits.still (.time _ 10000) rfl).still
      (passes_giveUp rfl (by decide +kernel)) rfl
    have hcourse := hgivesUp.adopts rootVersion rfl (by decide +kernel)
    obtain ⟨o', ho', hactive⟩ := h _ _ _ _ _ (oneShotCall_lone (nested ⟨2⟩) rfl) _ hcourse
    cases ho'
    cases hactive

end Session
end NamedContent
