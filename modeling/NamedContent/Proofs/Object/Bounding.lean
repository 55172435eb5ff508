import NamedContent.Proofs.Object.OneShot

/-!
# The bound of a watch

An object is armed for the versions after a name, and then the session is left to itself. The first
version that it adopts is below the base of the name and later than the version that the name
carries, if no reading was under way when it was armed and no wait of it was given up since
(`foreseen_of_updateInBackground`).

Neither exception can be left out. A reading that was under way can end first. And a wait that is
given up arms the watch for the versions after the object's own name, whatever it was armed for: the
version that is adopted then can be an earlier one than the known name's, or of other content
(`not_always_bounded`). An object that knows no name goes on from what the version that is given up
leaves. Nothing else can be adopted first (`Foreseen`): as long as nothing is adopted, whatever the
object asks for, reads or waits for is foreseen (`Abides`).
-/

namespace NamedContent

/-! ### Later than a name -/

/-- A version of a base name is later than what a name stands for: it is below the base of the name,
and later than the version that the name carries, if any. -/
def Name.Precedes (known b : Name) (v : Version) : Prop :=
  b = known.base ∧ ∀ k, known.version? = some k → k < v

namespace Name

theorem Precedes.of_lt {known b : Name} {v w : Version} (h : known.Precedes b v) (hlt : v < w) :
    known.Precedes b w := by
  refine ⟨h.1, fun k hk => ?_⟩
  have hkv := h.2 k hk
  rw [Version.lt_iff_toNat_lt] at hkv hlt ⊢
  omega

end Name

/-- What a query confirms is later than its known name. -/
theorem Watch.precedes_of_candidate? [Suite] {q : ActiveQuery} (hq : q.Proper) {f : Fragment}
    (haccepts : q.interest.accepts f = true)
    (hlater : f.name.startsWithLaterVersionOf q.known = true) {c : Confirmed}
    (hc : candidate? q.interest f = some c) {b : Name} {v : Version} (hof : c.IsOf b v) :
    q.known.Precedes b v := by
  obtain ⟨-, w, hw, hbound⟩ := Name.startsWithLaterVersionOf_iff.mp hlater
  obtain ⟨d, e, hname, hcomponent⟩ := hq.deep.name_eq haccepts
  rw [← hq.name_eq] at hw
  obtain rfl : d = w.toComponent := Option.some.inj (hcomponent.symm.trans hw)
  suffices hsame : b = q.interest.name ∧ v = w by
    obtain ⟨rfl, rfl⟩ := hsame
    exact ⟨hq.name_eq, hbound⟩
  unfold candidate? at hc
  split at hc
  · next hfirst =>
    cases hc
    obtain ⟨u, hu⟩ := hq.deep.eq_of_firstSegment haccepts hfirst
    have hsplit : f.name.splitVersion? = some (q.interest.name, u) := by
      rw [hu]
      exact Name.splitVersion?_segmentName _ u Segment.first
    have heq := Name.component?_of_eq hu
    obtain rfl : u = w :=
      Version.toComponent_injective (Option.some.inj (heq.symm.trans hcomponent))
    cases hof.symm.trans hsplit
    exact ⟨rfl, rfl⟩
  · rw [Interest.versionedNameOf?_eq hname] at hc
    cases hc
    obtain ⟨hbase, hversion⟩ := Name.append_inj hof
    exact ⟨hbase.symm, (Version.toComponent_injective hversion).symm⟩

/-- What is later than the name of an object that does not adopt a version is later than that
version too. -/
theorem ObjectState.lt_of_not_newer {α : Type} {s : ObjectState α} {b b' n : Name} {v v' : Version}
    (hnot : s.isNewer b v = false) (hn : s.knownName = .ok n) (h : n.Precedes b' v') :
    b' = b ∧ v < v' := by
  obtain ⟨rfl, hlater⟩ := h
  obtain ⟨current, held, hcurrent, hversion, rfl, hle⟩ := isNewer_eq_false_iff.mp hnot
  obtain ⟨current', hcurrent', -, hname⟩ := knownName_eq_ok_iff.mp hn
  obtain rfl : current = current' := Option.some.inj (hcurrent.symm.trans hcurrent')
  rw [hversion, Option.elim_some, Name.addVersion] at hname
  have hsplit : n.splitVersion? = some (current.base, held) := by
    rw [hname]
    exact Name.splitVersion?_append current.base held
  have hheld : held < v' := hlater held (by rw [Name.version?, hsplit]; rfl)
  exact ⟨Name.base_of_splitVersion? hsplit, UInt64.lt_of_le_of_lt hle hheld⟩

namespace Session

variable {α : Type}

/-! ### What can be adopted first -/

section

variable (s : Session α) (id : ObjectId) (o : VersionedObject α) (known : Name)

/-- The names that are left of a known name, and of what an object waits for, when the versions at
their ends are taken off. -/
inductive Left : Name → Prop where
  | known : Left known.base
  | fallback (w : Waiting) (mem : w ∈ s.waiting) (object_eq : w.watcher.object = id) :
      Left w.lack.fallback.base
  | base (n : Name) (left : Left n) : Left n.base

/-- The versions that an object can adopt first after it was armed for the versions after a name:
later ones than the name, and those that it was reading already. If a wait was given up meanwhile,
the watch has a later generation than that of the arming. Then there are those that are later than
the object's own name too, or, for an object that knows no name, those below what is left of the
other names. -/
inductive Foreseen (g : Nat) (b : Name) (v : Version) : Prop where
  | later (precedes : known.Precedes b v)
  | underWay (w : Waiting) (mem : w ∈ s.waiting) (object_eq : w.watcher.object = id)
      (lack : w.lack.IsOf b v)
  | own (n : Name) (again : o.watch.generation + 1 < g) (knownName_eq : o.state.knownName = .ok n)
      (precedes : n.Precedes b v)
  | unnamed (e : ObjectError) (again : o.watch.generation + 1 < g)
      (knownName_eq : o.state.knownName = .error e) (left : Left s id known b)

end

section

variable {s s' s₀ t : Session α} {id : ObjectId} {o o₀ : VersionedObject α} {known : Name}
  {x : Watcher} {a : Adoption α}

/-- After a version was read a watch asks as before, or from the name that the object knows. -/
theorem Concludes.aim_cases {g g' : Nat} {w : Watch} {n : Name} (h : Concludes o g w)
    (hw : w.aim = some (g', n)) : o.watch.aim = some (g', n) ∨
      g' = g ∧ ∃ known, o.watch.aim = some (g, known) ∧ o.state.knownName = .ok n := by
  cases h with
  | stays heq => exact .inl (heq.symm.trans hw)
  | ends heq => cases heq.symm.trans hw
  | follows known n' _ hold hname heq =>
    obtain ⟨rfl, rfl⟩ := Prod.mk.inj (Option.some.inj (heq.symm.trans hw))
    exact .inr ⟨rfl, known, hold, hname⟩

theorem Left.of_eq_or {n m : Name} (h : s.Left id known m) (hn : n = m ∨ n = m.base) :
    s.Left id known n := by
  rcases hn with rfl | rfl
  · exact h
  · exact h.base

theorem Foreseen.mono {g g' : Nat} {b : Name} {v : Version} (h : s.Foreseen id o known g b v)
    (hle : g ≤ g') : s.Foreseen id o known g' b v := by
  cases h with
  | later precedes => exact .later precedes
  | underWay w mem object_eq lack => exact .underWay w mem object_eq lack
  | own n again name precedes => exact .own n (Nat.lt_of_lt_of_le again hle) name precedes
  | unnamed e again name left => exact .unnamed e (Nat.lt_of_lt_of_le again hle) name left

variable [Suite] [Payload α]

/-! ### Adoptions -/

/-- In a small step an object adopts a version that one of its armings has read. The state may be
the same afterwards. -/
structure Adopts (s : Session α) (id : ObjectId) (a : Adoption α) (s' : Session α) : Prop where
  passes : s.Passes s'
  reads : ∃ x : Watcher, x.object = id ∧ s.Reads (.ok (.complete a)) x s'
  moves : ∃ o, s.object? id = some o ∧ o.state.isNewer a.base a.version = true ∧
    s'.stateOf id = some (o.state.take a)

theorem adopts_of_newer (hp : s.Passes s') (ho : s.object? x.object = some o)
    (hreads : s.Reads (.ok (.complete a)) x s') {w : Watch}
    (hobj : s'.object? x.object = some { o with state := (o.state.adopt a).2, watch := w })
    (hnewer : o.state.isNewer a.base a.version = true) : s.Adopts x.object a s' where
  passes := hp
  reads := ⟨x, rfl, hreads⟩
  moves := by
    rw [ObjectState.adopt_of_newer hnewer] at hobj
    exact ⟨o, ho, hnewer, stateOf_of_object? hobj⟩

/-- Nothing but an adoption changes the state of an object in a session that is left to itself. -/
theorem InStep.adopts_of_stateOf_ne (h : s.InStep) (hp : s.Passes s') (ho : s.object? id = some o)
    (hne : s'.stateOf id ≠ s.stateOf id) : ∃ a, s.Adopts id a s' := by
  rcases h.stride_of_passes hp ho with hspares | ⟨x, rfl, -, hstride⟩
  · refine absurd ?_ hne
    rw [stateOf, stateOf, hspares.object?_eq]
  cases hstride with
  | goesOn w hobj => exact absurd (stateOf_eq_of_state_eq ho hobj rfl) hne
  | givesUp v w known _ _ hobj => exact absurd (stateOf_eq_of_state_eq ho hobj rfl) hne
  | completes a w hreads hobj =>
    cases hnewer : o.state.isNewer a.base a.version with
    | true => exact ⟨a, adopts_of_newer hp ho hreads hobj hnewer⟩
    | false =>
      rw [ObjectState.adopt_of_not_newer hnewer] at hobj
      exact absurd (stateOf_eq_of_state_eq ho hobj rfl) hne

/-- What a session that is left to itself can become before an object adopts a version. -/
def Lingers (id : ObjectId) : Session α → Session α → Prop :=
  Relation.ReflTransGen fun s s' => s.Passes s' ∧ ∀ a, ¬ s.Adopts id a s'

/-- An object adopts nothing, or there is a version that it adopts first. -/
theorem PassesTo.lingers_or_adopts (h : s.PassesTo t) (id : ObjectId) :
    Lingers id s t ∨ ∃ r u a, Lingers id s r ∧ r.Adopts id a u ∧ u.PassesTo t := by
  induction h with
  | refl => exact .inl .refl
  | @tail t t' _ hstep ih =>
    rcases ih with hlingers | ⟨r, u, a, hlingers, hadopts, hrest⟩
    · by_cases hadopts : ∃ a, t.Adopts id a t'
      · obtain ⟨a, hadopts⟩ := hadopts
        exact .inr ⟨t, t', a, hlingers, hadopts, .refl⟩
      · exact .inl (hlingers.tail ⟨hstep, not_exists.mp hadopts⟩)
    · exact .inr ⟨r, u, a, hlingers, hadopts, hrest.tail hstep⟩

/-! ### What is foreseen stays foreseen -/

/-- The object has not changed since it was armed, and all that it asks for or waits for is
foreseen. -/
structure Abides (s₀ : Session α) (id : ObjectId) (o₀ : VersionedObject α) (known : Name)
    (s : Session α) (o : VersionedObject α) : Prop where
  inStep : s.InStep
  object?_eq : s.object? id = some o
  state_eq : o.state = o₀.state
  generation_lt : o₀.watch.generation < o.watch.generation
  armed : ∀ g n, o.watch.aim = some (g, n) →
    (∀ b v, n.Precedes b v → s₀.Foreseen id o₀ known o.watch.generation b v) ∧
      ∀ e, o₀.state.knownName = .error e → s₀.Left id known n.base
  waits : ∀ w ∈ s.waiting, w.watcher.object = id →
    (∀ b v, w.lack.IsOf b v → s₀.Foreseen id o₀ known o.watch.generation b v) ∧
      ∀ e, o₀.state.knownName = .error e → s₀.Left id known w.lack.fallback.base
  /-- What the armed query waits for is later than its name. -/
  current : ∀ w ∈ s.waiting, w.watcher.object = id → ∀ n,
    o.watch.aim = some (w.watcher.generation, n) → ∀ b v, w.lack.IsOf b v → n.Precedes b v

namespace Abides

/-- What a turn reads is foreseen, and if it is the turn of the armed query, it is later than its
name. -/
theorem reads (h : Abides s₀ id o₀ known s o) {r : Reading α} (hreads : s.Reads (.ok r) x s')
    (hx : x.object = id) :
    (∀ b v, r.IsOf b v → s₀.Foreseen id o₀ known o.watch.generation b v) ∧
      (∀ n, o.watch.aim = some (x.generation, n) → ∀ b v, r.IsOf b v → n.Precedes b v) ∧
      ∀ l e, r = .lacking l → o₀.state.knownName = .error e → s₀.Left id known l.fallback.base := by
  subst hx
  rcases h.inStep.reads_cases hreads with
    ⟨q, f, c, keys, hq, haccepts, hlater, hcand, hread⟩ | ⟨w, hw, rfl, keys, hread⟩
  · obtain ⟨hactive, hg⟩ := active_of_query? h.object?_eq hq
    have haim := Watch.aim_of_active hactive
    obtain ⟨hforeseen, hleft⟩ := h.armed _ _ haim
    have hprecedes : ∀ b v, r.IsOf b v → q.known.Precedes b v := fun b v hof =>
      Watch.precedes_of_candidate? (h.inStep.query _ _ hq).1 haccepts hlater hcand
        (Reading.isOf_of_ofConfirmed hread hof)
    refine ⟨fun b v hof => hforeseen b v (hprecedes b v hof), fun n hn b v hof => ?_,
      fun l e hl he => ?_⟩
    · rw [haim] at hn
      obtain ⟨-, rfl⟩ := Prod.mk.inj (Option.some.inj hn)
      exact hprecedes b v hof
    · subst hl
      have hbelow : l.Below q.known.base := h.inStep.below_of_reads hreads hq
      exact (hleft e he).of_eq_or hbelow.fallback
  · obtain ⟨hforeseen, hleft⟩ := h.waits w hw rfl
    refine ⟨fun b v hof => hforeseen b v (Reading.isOf_of_pursue hread hof), fun n hn b v hof =>
      h.current w hw rfl n hn b v (Reading.isOf_of_pursue hread hof), fun l e hl he => ?_⟩
    subst hl
    exact (hleft e he).of_eq_or (Reading.fallback_of_pursue hread)

omit [Suite] [Payload α] in
/-- What is left to show of an object of which only the watch has changed. -/
theorem with_watch (h : Abides s₀ id o₀ known s o) (hin : s'.InStep) {w : Watch} {g : Nat}
    (hobj : s'.object? id = some { o with watch := w }) (hgeneration : w.generation = g)
    (hlt : o₀.watch.generation < g)
    (harmed : ∀ g' n, w.aim = some (g', n) →
      (∀ b v, n.Precedes b v → s₀.Foreseen id o₀ known g b v) ∧
        ∀ e, o₀.state.knownName = .error e → s₀.Left id known n.base)
    (hwaits : ∀ v ∈ s'.waiting, v.watcher.object = id →
      ((∀ b u, v.lack.IsOf b u → s₀.Foreseen id o₀ known g b u) ∧
        ∀ e, o₀.state.knownName = .error e → s₀.Left id known v.lack.fallback.base) ∧
      ∀ n, w.aim = some (v.watcher.generation, n) → ∀ b u, v.lack.IsOf b u → n.Precedes b u) :
    ∃ o', Abides s₀ id o₀ known s' o' := by
  subst hgeneration
  exact ⟨_, hin, hobj, h.state_eq, hlt, harmed, fun v hv hid => (hwaits v hv hid).1,
    fun v hv hid => (hwaits v hv hid).2⟩

omit [Suite] [Payload α] in
/-- What is armed anew has a generation that nothing waits for yet. -/
theorem generation_le (h : Abides s₀ id o₀ known s o) {w : Waiting} (hw : w ∈ s.waiting)
    (hid : w.watcher.object = id) : w.watcher.generation ≤ o.watch.generation :=
  (h.inStep.owns _ _ (.waiting w hw rfl rfl)).generation_le o (hid ▸ h.object?_eq)

/-- A turn in which no version is adopted. -/
theorem stride (h : Abides s₀ id o₀ known s o) (hp : s.Passes s') (hstride : s.Stride x o s')
    (hx : x.object = id) (hno : ∀ a, ¬ s.Adopts id a s') : ∃ o', Abides s₀ id o₀ known s' o' := by
  subst hx
  have hin := h.inStep.passes hp
  cases hstride with
  | goesOn w hobj hgeneration _ haim hwaits _ =>
    refine h.with_watch hin hobj hgeneration h.generation_lt
      (fun g n hn => h.armed g n (haim.symm.trans hn)) fun v hv hid => ?_
    rcases hwaits v hv hid with ⟨v₀, hv₀, hwatcher, hlack⟩ | ⟨hvx, hreads⟩
    · rw [hlack, hwatcher, haim]
      rw [hwatcher] at hid
      exact ⟨h.waits v₀ hv₀ hid, h.current v₀ hv₀ hid⟩
    · obtain ⟨hforeseen, hprecedes, hleft⟩ := h.reads hreads rfl
      rw [hvx, haim]
      exact ⟨⟨hforeseen, fun e he => hleft _ e rfl he⟩, hprecedes⟩
  | completes a w hreads hobj hgeneration _ hconcludes hwaits _ =>
    have hnot : o.state.isNewer a.base a.version = false := by
      by_contra hnewer
      exact hno a (adopts_of_newer hp h.object?_eq hreads hobj (Bool.of_not_eq_false hnewer))
    rw [ObjectState.adopt_of_not_newer hnot] at hobj hconcludes
    refine h.with_watch hin hobj hgeneration h.generation_lt (fun g n hn => ?_) fun v hv hid => ?_
    · rcases hconcludes.aim_cases hn with hsame | ⟨rfl, known₁, hold, hname⟩
      · exact h.armed g n hsame
      · -- The object's own name is not earlier than the version that it does not adopt.
        have hread := (h.reads hreads rfl).2.1 known₁ hold a.base a.version ⟨rfl, rfl⟩
        refine ⟨fun b v hprecedes => (h.armed _ _ hold).1 b v ?_, fun e he => ?_⟩
        · obtain ⟨rfl, hlt⟩ := ObjectState.lt_of_not_newer hnot hname hprecedes
          exact hread.of_lt hlt
        · rw [← h.state_eq, show o.state.knownName = .ok n from hname] at he
          cases he
    · -- The arming that goes on from another name is the one that read, and it waits no more.
      obtain ⟨hv₀, hne⟩ := hwaits v hv hid
      refine ⟨h.waits v hv₀ hid, fun n hn => ?_⟩
      rcases hconcludes.aim_cases hn with hsame | ⟨hg, -⟩
      · exact h.current v hv₀ hid n hsame
      · exact absurd (Watcher.ext hid hg) hne
  | givesUp v w known' hv hl hobj hgeneration _ haim hknown hwaits _ =>
    have hlt := h.generation_lt
    refine h.with_watch hin hobj hgeneration (by omega) (fun g n hn => ?_) fun v' hv' hid => ?_
    · obtain ⟨rfl, rfl⟩ := Prod.mk.inj (Option.some.inj (haim.symm.trans hn))
      have hagain : o₀.watch.generation + 1 < o.watch.generation + 1 := by omega
      -- Here the known name is forgotten: what is armed is the object's own name, or a fallback.
      rw [h.state_eq] at hknown
      rcases hknown with hown | ⟨⟨e, he⟩, rfl⟩
      · refine ⟨fun b v' hprecedes => .own known' hagain hown hprecedes, fun e he => ?_⟩
        rw [hown] at he
        cases he
      · have hleft := ((h.waits v hv (hl ▸ rfl)).2 e he).base
        exact ⟨fun b v' hprecedes => .unnamed e hagain he (hprecedes.1 ▸ hleft), fun _ _ => hleft⟩
    · have hv₀ := hwaits v' hv' hid
      refine ⟨(h.waits v' hv₀ hid).imp_left fun hforeseen b u hof =>
        (hforeseen b u hof).mono (Nat.le_succ _), fun n hn => ?_⟩
      -- Nothing waits for the new arming yet.
      have hle := h.generation_le hv₀ hid
      obtain ⟨hg, -⟩ := Prod.mk.inj (Option.some.inj (haim.symm.trans hn))
      omega

/-- A small step in which no version is adopted. -/
theorem passes (h : Abides s₀ id o₀ known s o) (hp : s.Passes s') (hno : ∀ a, ¬ s.Adopts id a s') :
    ∃ o', Abides s₀ id o₀ known s' o' := by
  rcases h.inStep.stride_of_passes hp h.object?_eq with hspares | ⟨x, hx, -, hstride⟩
  · exact ⟨o, h.inStep.passes hp, hspares.object?_eq.trans h.object?_eq, h.state_eq,
      h.generation_lt, h.armed,
      fun w hw hid => h.waits w ((hspares.waiting_iff w hid).mp hw) hid,
      fun w hw hid => h.current w ((hspares.waiting_iff w hid).mp hw) hid⟩
  · exact h.stride hp hstride hx hno

theorem lingers (h : Abides s₀ id o₀ known s o) (hlingers : Lingers id s t) :
    ∃ o', Abides s₀ id o₀ known t o' := by
  induction hlingers with
  | refl => exact ⟨o, h⟩
  | tail _ hstep ih =>
    obtain ⟨o', h'⟩ := ih
    exact h'.passes hstep.1 hstep.2

theorem foreseen (h : Abides s₀ id o₀ known s o) (hadopts : s.Adopts id a s') :
    s₀.Foreseen id o₀ known o.watch.generation a.base a.version := by
  obtain ⟨x, hx, hreads⟩ := hadopts.reads
  exact (h.reads hreads hx).1 _ _ ⟨rfl, rfl⟩

end Abides

omit [Suite] [Payload α] in
/-- An object that was just armed asks for what is later than the name, and waits for what it waited
for. -/
theorem InStep.abides_arm (h : s.InStep) (ho : s.object? id = some o) (known : Name)
    (continuous : Bool) : ∃ o', Abides s id o known (s.arm id known continuous) o' := by
  refine ⟨_, (h.arm id known continuous).inStep, object?_arm ho known continuous, rfl,
    Nat.lt_succ_self _, fun g n hn => ?_, fun w hw hid => ?_, fun w hw hid n hn => ?_⟩
  · cases hn
    exact ⟨fun b v hprecedes => .later hprecedes, fun _ _ => .known⟩
  · rw [waiting_arm] at hw
    exact ⟨fun b v hof => .underWay w hw hid hof, fun _ _ => .fallback w hw hid⟩
  · rw [waiting_arm] at hw
    -- Nothing waits for the new arming yet.
    have hle := (h.owns _ _ (.waiting w hw rfl rfl)).generation_le o (hid ▸ ho)
    have hg : o.watch.generation + 1 = w.watcher.generation :=
      (Prod.mk.inj (Option.some.inj hn)).1
    omega

omit [Suite] [Payload α] in
/-- With no reading under way, and no wait given up, nothing but what is later than the name is
foreseen. -/
theorem Foreseen.precedes {b : Name} {v : Version}
    (h : s.Foreseen id o known (o.watch.generation + 1) b v) (hquiet : s.underWay id = 0) :
    known.Precedes b v := by
  cases h with
  | later hprecedes => exact hprecedes
  | underWay w hw hid =>
    have hnil := List.length_eq_zero_iff.mp hquiet
    exact absurd (by simpa using hid) (List.filter_eq_nil_iff.mp hnil w hw)
  | own n hagain => exact absurd hagain (Nat.lt_irrefl _)
  | unnamed e hagain => exact absurd hagain (Nat.lt_irrefl _)

/-- An object is armed for the versions after a name. Whatever is published then, and however much
time passes, either it adopts nothing, or there is a version that it adopts first. That version is
below the base of the name and later than the version that the name carries, if no reading was under
way when the object was armed and no wait of it was given up since. In any case it is foreseen. -/
theorem foreseen_of_updateInBackground (h : s.InStep) (ho : s.object? id = some o) (known : Name)
    (continuous : Bool) :
    ∃ s₁, s.updateInBackground id (some known) continuous = (.ok (), s₁) ∧
      (∀ events : List (Event α), (∀ e ∈ events, e.IsPassing) →
        Lingers id s₁ (s₁.happenAll events) ∨
          ∃ t u a, Lingers id s₁ t ∧ t.Adopts id a u ∧ u.PassesTo (s₁.happenAll events)) ∧
      ∀ t, Lingers id s₁ t → ∃ o', t.object? id = some o' ∧ o'.state = o.state ∧
        ∀ a u, t.Adopts id a u → u.stateOf id = some (o.state.take a) ∧
          (s.underWay id = 0 → o'.watch.generation = o.watch.generation + 1 →
            known.Precedes a.base a.version) ∧
          s.Foreseen id o known o'.watch.generation a.base a.version := by
  refine ⟨s.arm id known continuous, ?_, fun events hevents =>
    (passesTo_happenAll hevents).lingers_or_adopts id, fun t hlingers => ?_⟩
  · exact updateInBackground_of_known ho (some known) rfl continuous
  obtain ⟨o₁, habides₁⟩ := h.abides_arm ho known continuous
  obtain ⟨o', habides⟩ := habides₁.lingers hlingers
  refine ⟨o', habides.object?_eq, habides.state_eq, fun a u hadopts => ?_⟩
  have hforeseen := habides.foreseen hadopts
  refine ⟨?_, fun hquiet hgeneration => ?_, hforeseen⟩
  · obtain ⟨o₂, ho₂, -, hstate⟩ := hadopts.moves
    obtain rfl : o' = o₂ := Option.some.inj (habides.object?_eq.symm.trans ho₂)
    rw [hstate, habides.state_eq]
  · rw [hgeneration] at hforeseen
    exact hforeseen.precedes hquiet

/-! ### Short runs -/

/-- A step after which the object holds no version is not an adoption. -/
theorem Lingers.bare {u : Session α} (h : Lingers id s t) (hp : t.Passes u)
    (hnone : u.held id = none) : Lingers id s u := by
  refine h.tail ⟨hp, fun a hadopts => ?_⟩
  obtain ⟨o, -, -, hstate⟩ := hadopts.moves
  unfold held at hnone
  rw [hstate] at hnone
  cases hnone

/-- A fragment is published and served, and the object holds no version then. -/
theorem Lingers.serves (h : Lingers id s t) (f : Fragment)
    (hserve : (t.move (.publish f)).step?.isSome = true) (hbefore : t.held id = none)
    (hafter : (t.moveAll [.publish f, .serve]).held id = none) :
    Lingers id s (t.moveAll [.publish f, .serve]) :=
  (h.bare (passes_publish t f) hbefore).bare (passes_serve hserve) hafter

theorem Lingers.passesTo (h : Lingers id s t) : s.PassesTo t :=
  Relation.ReflTransGen.mono (fun _ _ hstep => hstep.1) _ _ h

/-- The object adopts the version that it holds after a step. -/
theorem Lingers.adopts {u : Session α} (h : Lingers id s t) (hin : s.InStep)
    (ho : t.object? id = some o) (hbefore : t.held id = none) (hp : t.Passes u) {b : Name}
    {v : Version}
    (hbase : (u.stateOf id).bind ObjectState.base = some b) (hversion : u.held id = some v) :
    ∃ a, t.Adopts id a u ∧ a.base = b ∧ a.version = v := by
  obtain ⟨a, hadopts⟩ := (hin.passesTo h.passesTo).adopts_of_stateOf_ne hp ho fun heq => by
    have hheld : u.held id = t.held id := congrArg (·.bind ObjectState.version) heq
    rw [hversion, hbefore] at hheld
    cases hheld
  obtain ⟨_, -, -, hstate⟩ := hadopts.moves
  refine ⟨a, hadopts, ?_, ?_⟩
  · exact Option.some.inj ((congrArg (·.bind ObjectState.base) hstate).symm.trans hbase)
  · exact Option.some.inj ((congrArg (·.bind ObjectState.version) hstate).symm.trans hversion)

end

/-- An earlier version than the known one passes unnoticed, and a later one is adopted. -/
theorem foreseen_of_updateInBackground_single :
    ∃ o s₁ t a u, (lone (some someContent)).InStep ∧
      (lone (some someContent)).object? ⟨0⟩ = some o ∧
      (lone (some someContent)).updateInBackground ⟨0⟩ (some (someContent.addVersion ⟨4⟩)) false =
        (.ok (), s₁) ∧
      Lingers ⟨0⟩ s₁ t ∧ t.Adopts ⟨0⟩ a u ∧ a.version = ⟨7⟩ ∧
      (someContent.addVersion ⟨4⟩).Precedes a.base a.version := by
  have ho : (lone (some someContent)).object? ⟨0⟩ = some _ := rfl
  obtain ⟨s₁, hs₁, -, hfirst⟩ := foreseen_of_updateInBackground (inStep_lone (some someContent)) ho
    (someContent.addVersion ⟨4⟩) false
  obtain rfl : armedOnce (some someContent) (some (someContent.addVersion ⟨4⟩)) = s₁ :=
    congrArg Prod.snd hs₁
  have hin := (inStep_lone (some someContent)).updateInBackground ⟨0⟩
    (some (someContent.addVersion ⟨4⟩)) false
  have hunnoticed : Lingers ⟨0⟩
      (armedOnce (some someContent) (some (someContent.addVersion ⟨4⟩))) _ :=
    .serves .refl (segmentOf (someContent.addVersion ⟨3⟩) 0 0 [0x81, 5]) rfl rfl rfl
  have hlingers := hunnoticed.bare (passes_publish _ strangersVersion) rfl
  obtain ⟨a, hadopts, -, hversion⟩ := hlingers.adopts hin rfl rfl (passes_serve rfl)
    (b := someContent) (v := ⟨7⟩) (by decide +kernel) (by decide +kernel)
  obtain ⟨o', ho', -, hadopted⟩ := hfirst _ hlingers
  obtain ⟨-, hprecedes, -⟩ := hadopted a _ hadopts
  refine ⟨_, _, _, a, _, inStep_lone _, ho, hs₁, hlingers, hadopts, hversion, hprecedes rfl ?_⟩
  cases ho'
  rfl

/-! ### What a watch does not promise -/

/-- Content under another name. -/
def otherContent : Name := ⟨[.ofText "m"]⟩

/-- The first version that an object adopts after it was armed can be of other content than it was
armed for, and it can be earlier than the known version: a version of which something stays lacking
is given up, and then the object is armed for the versions after its own name. And with no wait
given up, it can be the known version itself, if the object was reading that already. -/
theorem not_always_bounded :
    (¬ ∀ (s : Session (List UInt32)) (id : ObjectId) (o : VersionedObject (List UInt32))
        (known : Name) (continuous : Bool), s.InStep → s.object? id = some o →
      ∀ t a u, Lingers id (s.updateInBackground id (some known) continuous).2 t →
        t.Adopts id a u → a.base = known.base) ∧
    (¬ ∀ (s : Session (List UInt32)) (id : ObjectId) (o : VersionedObject (List UInt32))
        (known : Name) (continuous : Bool), s.InStep → s.object? id = some o →
      ∀ t a u, Lingers id (s.updateInBackground id (some known) continuous).2 t →
        t.Adopts id a u → ∀ k, known.version? = some k → k < a.version) ∧
    ¬ ∀ (s : Session (List UInt32)) (id : ObjectId) (o o' : VersionedObject (List UInt32))
        (known : Name) (continuous : Bool), s.InStep → s.object? id = some o →
      ∀ t a u, Lingers id (s.updateInBackground id (some known) continuous).2 t →
        t.object? id = some o' → o'.watch.generation = o.watch.generation + 1 →
        t.Adopts id a u → ∀ k, known.version? = some k → k < a.version := by
  have hin := inStep_lone (some someContent)
  refine ⟨?_, ?_, ?_⟩
  · intro h
    have hwaits : Lingers ⟨0⟩ (armedOnce (some someContent) (some otherContent)) _ :=
      .serves .refl (segmentOf (otherContent.addVersion ⟨5⟩) 0 1 [0x82, 5]) rfl rfl rfl
    have hgivesUp := (hwaits.bare (.time _ 10000) rfl).bare
      (passes_giveUp rfl (by decide +kernel)) rfl
    have hlingers := hgivesUp.bare (passes_publish _ strangersVersion) rfl
    obtain ⟨a, hadopts, hbase, -⟩ := hlingers.adopts (hin.updateInBackground ⟨0⟩ _ false) rfl rfl
      (passes_serve rfl) (b := someContent) (v := ⟨7⟩) (by decide +kernel) (by decide +kernel)
    have heq := h _ _ _ _ _ hin rfl _ a _ hlingers hadopts
    rw [hbase] at heq
    exact absurd heq (by decide)
  · intro h
    -- The earlier version is there already when the later one is given up.
    have hwaits : Lingers ⟨0⟩
        (armedOnce (some someContent) (some (someContent.addVersion ⟨10⟩))) _ :=
      .serves .refl (segmentOf (someContent.addVersion ⟨11⟩) 0 1 [0x82, 5]) rfl rfl rfl
    have hpublished := hwaits.bare (passes_publish _ strangersVersion) rfl
    have hlingers := (hpublished.bare (.time _ 10000) rfl).bare
      (passes_giveUp rfl (by decide +kernel)) rfl
    obtain ⟨a, hadopts, -, hversion⟩ := hlingers.adopts (hin.updateInBackground ⟨0⟩ _ false) rfl rfl
      (passes_serve rfl) (b := someContent) (v := ⟨7⟩) (by decide +kernel) (by decide +kernel)
    have hlt := h _ _ _ _ _ hin rfl _ a _ hlingers hadopts ⟨10⟩ (by decide)
    rw [hversion] at hlt
    exact absurd hlt (by decide)
  · intro h
    have hlingers : Lingers ⟨0⟩ (waitsForRest.updateInBackground ⟨0⟩
        (some (someContent.addVersion ⟨5⟩)) false).2 _ :=
      Lingers.bare .refl (passes_publish _ (segmentOf (someContent.addVersion ⟨5⟩) 1 1 [6])) rfl
    obtain ⟨a, hadopts, -, hversion⟩ := hlingers.adopts
      (inStep_waitsForRest.updateInBackground ⟨0⟩ _ false) rfl rfl (passes_serve rfl)
      (b := someContent) (v := ⟨5⟩) (by decide +kernel) (by decide +kernel)
    have hlt := h _ _ _ _ _ _ inStep_waitsForRest rfl _ a _ hlingers rfl rfl hadopts ⟨5⟩ (by decide)
    rw [hversion] at hlt
    exact absurd hlt (by decide)

end Session
end NamedContent
