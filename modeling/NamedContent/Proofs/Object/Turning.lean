import NamedContent.Proofs.Object.Passing

/-!
# What comes of a turn

Whatever a session does while it is left to itself, an object takes part in it only through the
turns of its armings. In a turn an arming reads so far of a version that was confirmed, or for which
it waited (`Reads`). Then it goes on, or a version was read completely and is adopted if it moves
the object forward, or a wait is given up and the watch is armed anew (`Stride`). What is proved
about an object that is left to itself goes through these three (`InStep.stride_of_passes`).
-/

namespace NamedContent

namespace Watch

/-- The arming of a watch, and the name of which it wants later versions. -/
def aim (w : Watch) : Option (Nat × Name) := w.active.map fun q => (q.generation, q.known)

@[simp] theorem aim_eq_none {w : Watch} : w.aim = none ↔ w.active = none := Option.map_eq_none_iff

theorem aim_eq_some {w : Watch} {g : Nat} {known : Name} :
    w.aim = some (g, known) ↔ ∃ q, w.active = some q ∧ q.generation = g ∧ q.known = known := by
  unfold aim
  rw [Option.map_eq_some_iff]
  simp only [Prod.mk.injEq]

theorem aim_of_active {w : Watch} {q : ActiveQuery} (h : w.active = some q) :
    w.aim = some (q.generation, q.known) :=
  aim_eq_some.mpr ⟨q, h, rfl, rfl⟩

theorem query?_eq_none_or (w : Watch) (g : Nat) :
    w.query? g = none ∨ ∃ q, w.active = some q ∧ q.generation = g := by
  cases h : w.query? g with
  | none => exact .inl rfl
  | some q => exact .inr ⟨q, query?_eq_some_iff.mp h⟩

end Watch

namespace Session

variable {α : Type} {s s' t : Session α} {id : ObjectId} {o : VersionedObject α} {k : InterestId}
  {x y : Watcher}

/-! ### What an arming concludes -/

/-- What becomes of a watch after one of its armings read a version: nothing, if the arming is not
armed any more or the object knows no name, or else it is disarmed, or a continuous one goes on from
the name that the object knows. -/
inductive Concludes (o : VersionedObject α) (g : Nat) (w : Watch) : Prop where
  | stays (aim_eq : w.aim = o.watch.aim)
      (unfit : ∀ known n, o.watch.aim = some (g, known) → o.state.knownName ≠ .ok n)
  | ends (aim_eq : w.aim = none)
  | follows (known n : Name) (continuous : o.watch.continuous = true)
      (aim_eq : o.watch.aim = some (g, known)) (knownName_eq : o.state.knownName = .ok n)
      (aim_next : w.aim = some (g, n))

/-- Only what the watch is armed for counts. -/
theorem Concludes.congr {g : Nat} {w w₀ : Watch} (h : Concludes { o with watch := w₀ } g w)
    (haim : w₀.aim = o.watch.aim) (hcontinuous : w₀.continuous = o.watch.continuous) :
    Concludes o g w := by
  cases h with
  | stays heq hunfit =>
    exact .stays (heq.trans haim) fun known n hw => hunfit known n (haim.trans hw)
  | ends heq => exact .ends heq
  | follows known n hgoesOn hw hname hnext =>
    exact .follows known n (hcontinuous.symm.trans hgoesOn) (haim.symm.trans hw) hname hnext

variable [Suite]

theorem conclude_eq (ho : s.object? x.object = some o) (seen : Nat) (token : Option Component)
    (outcome : Except ObjectError Unit) :
    s.conclude x k seen token outcome =
      (s.setWatch x.object (nextInterest o x.generation token outcome).2).reply k seen
        (replyOf (nextInterest o x.generation token outcome).1) := by
  unfold conclude
  simp only [ho]

@[simp] theorem generation_nextInterest (o : VersionedObject α) (g : Nat) (token : Option Component)
    (outcome : Except ObjectError Unit) :
    (nextInterest o g token outcome).2.generation = o.watch.generation := by
  unfold nextInterest
  split
  · split
    · unfold Watch.confirmed
      split
      · rfl
      · split <;> rfl
    · rfl
  · split
    · unfold Watch.reject
      split <;> rfl
    · rfl

theorem aim_nextInterest_error (o : VersionedObject α) (g : Nat) (token : Option Component)
    (e : ObjectError) :
    (nextInterest o g token (.error e)).2.aim = o.watch.aim ∧
      (nextInterest o g token (.error e)).2.continuous = o.watch.continuous := by
  rcases o.watch.query?_eq_none_or g with hnone | ⟨q, hw, rfl⟩
  · rw [nextInterest_of_stale hnone]
    exact ⟨rfl, rfl⟩
  · obtain ⟨q', exclusions, hnext, hnarrow⟩ := nextInterest_error hw token e
    rw [hnext]
    refine ⟨?_, rfl⟩
    show some (q'.generation, q'.known) = o.watch.aim
    rw [hnarrow.generation_eq, hnarrow.known_eq, Watch.aim_of_active hw]

theorem concludes_nextInterest (o : VersionedObject α) (g : Nat) (token : Option Component) :
    Concludes o g (nextInterest o g token (.ok ())).2 ∧
      (nextInterest o g token (.ok ())).2.continuous = o.watch.continuous ∧
      (o.watch.continuous = false → (nextInterest o g token (.ok ())).1 = none) := by
  unfold nextInterest
  dsimp only
  cases hname : o.state.knownName with
  | error e =>
    refine ⟨.stays rfl fun _ _ _ hn => ?_, rfl, fun _ => rfl⟩
    rw [hname] at hn
    cases hn
  | ok n =>
    dsimp only
    unfold Watch.confirmed
    rcases o.watch.query?_eq_none_or g with hnone | ⟨q, hw, rfl⟩
    · rw [hnone]
      refine ⟨.stays rfl fun known _ haim _ => ?_, rfl, fun _ => rfl⟩
      obtain ⟨q, hw, rfl, _⟩ := Watch.aim_eq_some.mp haim
      rw [Watch.query?_of_active hw] at hnone
      cases hnone
    · rw [Watch.query?_of_active hw]
      dsimp only
      split
      · next hcontinuous =>
        exact ⟨.follows q.known n hcontinuous (Watch.aim_of_active hw) hname rfl, rfl,
          fun hone => absurd (hone.symm.trans hcontinuous) Bool.false_ne_true⟩
      · exact ⟨.ends rfl, rfl, fun _ => rfl⟩

variable [Payload α]

/-! ### Turns -/

/-- In a turn an arming reads so far, of what an answer confirmed or of what it waited for. -/
inductive Reads (s : Session α) (reading : Except ObjectError (Reading α)) :
    Watcher → Session α → Prop where
  | answer {p : Pending Watcher} {f : Fragment} {o : VersionedObject α} {c : Confirmed} {w : Watch}
      (mem : p ∈ s.network.pending) (answer?_eq : s.network.answer? p = some f)
      (object?_eq : s.object? p.listener.object = some o)
      (handleBatch_eq : o.watch.handleBatch p.listener.generation [f] = (.confirmed c, w))
      (reading_eq : Reading.ofConfirmed s.supply o.keys c = reading) :
      Reads s reading p.listener (s.deliver p)
  | wait {w : Waiting} {pre post : List Waiting} {o : VersionedObject α}
      (waiting_eq : s.waiting = pre ++ w :: post)
      (object?_eq : s.object? w.watcher.object = some o)
      (reading_eq : Reading.pursue s.supply o.keys w.lack = reading) :
      Reads s reading w.watcher ({ s with waiting := pre ++ post }.resume w)

/-- What becomes of an object when one of its armings takes its turn. -/
inductive Stride (s : Session α) (x : Watcher) (o : VersionedObject α) (s' : Session α) : Prop where
  /-- The arming goes on, and may wait for what is lacking of what it reads. -/
  | goesOn (w : Watch) (object?_eq : s'.object? x.object = some { o with watch := w })
      (generation_eq : w.generation = o.watch.generation)
      (continuous_eq : w.continuous = o.watch.continuous) (aim_eq : w.aim = o.watch.aim)
      (waits : ∀ v ∈ s'.waiting, v.watcher.object = x.object →
        (∃ v₀ ∈ s.waiting, v.watcher = v₀.watcher ∧ v.lack = v₀.lack) ∨
          v.watcher = x ∧ s.Reads (.ok (.lacking v.lack)) x s')
      (atWork : ∀ y : Watcher, y.object = x.object → s'.AtWork y → s.AtWork y)
  /-- A version was read completely. It is adopted if it moves the object forward. -/
  | completes (a : Adoption α) (w : Watch) (reads : s.Reads (.ok (.complete a)) x s')
      (object?_eq : s'.object? x.object =
        some { o with state := (o.state.adopt a).2, watch := w })
      (generation_eq : w.generation = o.watch.generation)
      (continuous_eq : w.continuous = o.watch.continuous)
      (concludes : Concludes { o with state := (o.state.adopt a).2 } x.generation w)
      (waits : ∀ v ∈ s'.waiting, v.watcher.object = x.object → v ∈ s.waiting ∧ v.watcher ≠ x)
      (atWork : ∀ y : Watcher, y.object = x.object → s'.AtWork y →
        s.AtWork y ∧ (o.watch.continuous = false → y ≠ x))
  /-- The wait is given up, and the watch is armed anew. -/
  | givesUp (v : Waiting) (w : Watch) (known : Name) (mem : v ∈ s.waiting)
      (watcher_eq : v.watcher = x)
      (object?_eq : s'.object? x.object = some { o with watch := w })
      (generation_eq : w.generation = o.watch.generation + 1)
      (continuous_eq : w.continuous = o.watch.continuous)
      (aim_eq : w.aim = some (o.watch.generation + 1, known))
      (known_eq : o.state.knownName = .ok known ∨
        (∃ e, o.state.knownName = .error e) ∧ known = v.lack.fallback.base)
      (waits : ∀ v ∈ s'.waiting, v.watcher.object = x.object → v ∈ s.waiting)
      (atWork : ∀ y : Watcher, y.object = x.object → s'.AtWork y →
        y = ⟨x.object, o.watch.generation + 1⟩ ∨ s.AtWork y ∧ y ≠ x)

/-- An arming is at its turn: it does not wait any more, and of its object nothing has changed but
what the watch excludes. -/
structure AtTurn (s : Session α) (x : Watcher) (o : VersionedObject α) (k : InterestId) (w : Watch)
    (t : Session α) : Prop where
  self : s.AtWork x
  owns : t.Owns k x
  object?_eq : t.object? x.object = some { o with watch := w }
  generation_eq : w.generation = o.watch.generation
  continuous_eq : w.continuous = o.watch.continuous
  aim_eq : w.aim = o.watch.aim
  waits : ∀ v ∈ t.waiting, v ∈ s.waiting ∧ v.watcher ≠ x
  atWork : ∀ y, t.AtWork y → s.AtWork y

namespace AtTurn

variable {w : Watch} {seen : Nat} {token : Option Component}

/-- What cannot be read is asked for again, or no more. -/
theorem stride_of_error (h : s.AtTurn x o k w t) (e : ObjectError) :
    s.Stride x o (t.proceed x k seen token (.error e)) := by
  show s.Stride x o (t.conclude x k seen token (.error e))
  rw [conclude_eq h.object?_eq]
  obtain ⟨haim, hcontinuous⟩ := aim_nextInterest_error { o with watch := w } x.generation token e
  exact .goesOn _ (object?_modifyObject h.object?_eq fun o => { o with watch := _ })
    ((generation_nextInterest _ _ _ _).trans h.generation_eq) (hcontinuous.trans h.continuous_eq)
    (haim.trans h.aim_eq) (fun v hv _ => .inl ⟨v, (h.waits v hv).1, rfl, rfl⟩)
    fun y _ hy => h.atWork y (hy.of_reply.congr rfl rfl)

omit [Suite] [Payload α] in
/-- After its interest is retired an arming that does not wait is not at work. -/
theorem ne_of_retired (h : s.AtTurn x o k w t) {t' : Session α}
    (hy : (t'.reply k seen .retire).AtWork y) (hnetwork : t'.network = t.network)
    (hwaiting : t'.waiting = t.waiting) : y ≠ x := by
  rintro rfl
  cases hy with
  | pending p hp hl =>
    obtain ⟨hmem, hne⟩ := List.mem_filter.mp hp
    exact bne_iff_ne.mp hne (h.owns.id_eq (hnetwork ▸ hmem) hl)
  | waiting v hv hl => exact (h.waits v (hwaiting ▸ hv)).2 hl

theorem stride_of_complete (h : s.AtTurn x o k w t) {a : Adoption α}
    (hreads : s.Reads (.ok (.complete a)) x (t.proceed x k seen token (.ok (.complete a)))) :
    s.Stride x o (t.proceed x k seen token (.ok (.complete a))) := by
  let o' : VersionedObject α := { o with state := (o.state.adopt a).2, watch := w }
  have hadopt := adopt_eq h.object?_eq a
  have ho' : (t.adopt x.object a).2.object? x.object = some o' := by
    rw [hadopt]
    exact object?_modifyObject h.object?_eq _
  obtain ⟨hconcludes, hcontinuous, hretires⟩ := concludes_nextInterest o' x.generation token
  have heq : t.proceed x k seen token (.ok (.complete a)) =
      ((t.adopt x.object a).2.setWatch x.object
        (nextInterest o' x.generation token (.ok ())).2).reply k seen
          (replyOf (nextInterest o' x.generation token (.ok ())).1) :=
    conclude_eq ho' seen token (.ok ())
  rw [heq] at hreads ⊢
  refine .completes a (nextInterest o' x.generation token (.ok ())).2 hreads
    (object?_modifyObject ho' fun o => { o with watch := _ })
    ((generation_nextInterest _ _ _ _).trans h.generation_eq) (hcontinuous.trans h.continuous_eq)
    (Concludes.congr (o := { o with state := (o.state.adopt a).2 }) hconcludes h.aim_eq
      h.continuous_eq)
    (fun v hv _ => h.waits v ?_) fun y _ hy => ?_
  · rw [hadopt] at hv
    exact hv
  · rw [hadopt] at hy
    refine ⟨h.atWork y (hy.of_reply.congr rfl rfl), fun hone => ?_⟩
    rw [hretires (h.continuous_eq.trans hone)] at hy
    exact h.ne_of_retired hy rfl rfl

/-- What is lacking is waited for. -/
theorem stride_of_lacking (h : s.AtTurn x o k w t) {lack : Lack}
    (hreads : s.Reads (.ok (.lacking lack)) x (t.proceed x k seen token (.ok (.lacking lack)))) :
    s.Stride x o (t.proceed x k seen token (.ok (.lacking lack))) := by
  let wait : Waiting :=
    { watcher := x, id := k, seen, token, lack, checked := t.supply.changes
      deadline := t.now + max (t.patience { o with watch := w } lack) 1 }
  have heq : t.proceed x k seen token (.ok (.lacking lack)) =
      { t with waiting := t.waiting ++ [wait] }.reply k seen .later := by
    unfold proceed
    simp only [h.object?_eq]
    rfl
  rw [heq] at hreads ⊢
  refine .goesOn w h.object?_eq h.generation_eq h.continuous_eq h.aim_eq (fun v hv _ => ?_)
    fun y _ hy => ?_
  · rcases List.mem_append.mp hv with hv | hv
    · exact .inl ⟨v, (h.waits v hv).1, rfl, rfl⟩
    · rw [List.mem_singleton.mp hv]
      exact .inr ⟨rfl, hreads⟩
  · cases hy.of_reply with
    | pending p hp hl => exact h.atWork y (.pending p hp hl)
    | waiting v hv hl =>
      rcases List.mem_append.mp hv with hv | hv
      · exact h.atWork y (.waiting v hv hl)
      · rw [List.mem_singleton.mp hv] at hl
        exact hl ▸ h.self

/-- Acting on how far a version was read. -/
theorem stride (h : s.AtTurn x o k w t) {reading : Except ObjectError (Reading α)}
    (hreads : s.Reads reading x s') (hs' : s' = t.proceed x k seen token reading) :
    s.Stride x o s' := by
  subst hs'
  rcases reading with e | a | lack
  · exact h.stride_of_error e
  · exact h.stride_of_complete hreads
  · exact h.stride_of_lacking hreads

end AtTurn

/-- A look at an interest of the object. -/
theorem InStep.stride_of_deliver (h : s.InStep) {p : Pending Watcher} (hp : p ∈ s.network.pending)
    (hready : p.standing ≠ .busy) (ho : s.object? p.listener.object = some o) :
    s.Stride p.listener o (s.deliver p) := by
  have hx : s.AtWork p.listener := .pending p hp rfl
  cases hanswer : s.network.answer? p with
  | none =>
    -- Nothing answers the interest: it is stalled, and the watch is as it was.
    have hstall : s.deliver p = { s with network := s.network.stall p.id s.supply.changes } := by
      unfold Session.deliver
      rw [hanswer]
    rw [hstall]
    exact .goesOn o.watch ho rfl rfl rfl (fun v hv _ => .inl ⟨v, hv, rfl, rfl⟩)
      fun y _ hy => hy.of_modify fun p' => by rfl
  | some f =>
    have hhand : s.deliver p = s.hand p f := by
      unfold Session.deliver
      rw [hanswer]
    obtain ⟨q, hq, hinterest⟩ := h.asked p hp
    obtain ⟨hw, hg⟩ := active_of_query? ho hq
    rcases Watch.handleBatch_singleton hw f with ⟨c, hc, -⟩ | ⟨q', exclusions, hc, hnarrow⟩
    · let w : Watch := { o.watch with active := some q, exclusions := [] }
      have hsame := h.same_setWatch (w := w) ho hw.symm (Nat.le_refl _)
      -- The answer is a candidate: the watch is at its turn to read it.
      have hread : s.deliver p = (s.setWatch p.listener.object w).proceed p.listener p.id
          s.supply.changes (c.version?.map Version.toComponent)
          (Reading.ofConfirmed s.supply o.keys c) := by
        rw [hhand]
        unfold Session.hand
        simp only [ho, ← hg, hc]
        rfl
      have hturn : s.AtTurn p.listener o p.id w (s.setWatch p.listener.object w) := {
        self := hx
        owns := hsame.owns (h.owns _ _ (.pending p hp rfl rfl))
        object?_eq := object?_modifyObject ho _
        generation_eq := rfl
        continuous_eq := rfl
        aim_eq := (Watch.aim_of_active hw).symm
        waits := fun v hv => ⟨hv, fun hl => hready (h.busy v hv p hp hl.symm)⟩
        atWork := fun y hy => hy.congr rfl rfl }
      exact hturn.stride (.answer hp hanswer ho (hg ▸ hc) rfl) hread
    · let w : Watch := { o.watch with active := some q', exclusions }
      -- The answer is no candidate: the query is narrowed, and its interest is issued again.
      have hreissue : s.deliver p = (s.setWatch p.listener.object w).reply p.id s.supply.changes
          (.reissue q'.interest) := by
        rw [hhand]
        unfold Session.hand
        simp only [ho, ← hg, hc]
        rfl
      rw [hreissue]
      refine .goesOn w (object?_modifyObject ho fun o => { o with watch := w }) rfl rfl ?_
        (fun v hv _ => .inl ⟨v, hv, rfl, rfl⟩) fun y _ hy => hy.of_reply.congr rfl rfl
      show some (q'.generation, q'.known) = o.watch.aim
      rw [hnarrow.generation_eq, hnarrow.known_eq, Watch.aim_of_active hw]

/-- Another look for what the object waits for. -/
theorem InStep.stride_of_resume (h : s.InStep) {w : Waiting} {pre post : List Waiting}
    (hw : s.waiting = pre ++ w :: post) (ho : s.object? w.watcher.object = some o) :
    s.Stride w.watcher o ({ s with waiting := pre ++ post }.resume w) := by
  obtain ⟨_, hk, hsub, halone⟩ := h.alone_of_waiting hw
  have hmem : w ∈ s.waiting := by simp [hw]
  have hx : s.AtWork w.watcher := .waiting w hmem rfl
  have ho' : { s with waiting := pre ++ post }.object? w.watcher.object = some o := ho
  rcases resume_cases ho' with hres | hres
  · rw [hres]
    refine .goesOn o.watch ho rfl rfl rfl (fun v hv _ => .inl ?_) fun y _ hy => ?_
    · rcases List.mem_append.mp hv with hv | hv
      · exact ⟨v, hsub.subset hv, rfl, rfl⟩
      · rw [List.mem_singleton.mp hv]
        exact ⟨w, hmem, rfl, rfl⟩
    · cases hy with
      | pending p hp hl => exact .pending p hp hl
      | waiting v hv hl =>
        rcases List.mem_append.mp hv with hv | hv
        · exact .waiting v (hsub.subset hv) hl
        · rw [List.mem_singleton.mp hv] at hl
          exact hl ▸ hx
  · have hturn : s.AtTurn w.watcher o w.id o.watch { s with waiting := pre ++ post } :=
      ⟨hx, hk, ho', rfl, rfl, rfl, fun v hv => ⟨hsub.subset hv, halone v hv⟩,
        fun y hy => hy.of_waiting_sublist hsub⟩
    exact hturn.stride (.wait hw ho rfl) hres

/-- A wait of the object is given up. -/
theorem InStep.stride_of_giveUp (h : s.InStep) {w : Waiting} {pre post : List Waiting}
    (hw : s.waiting = pre ++ w :: post) (ho : s.object? w.watcher.object = some o) :
    s.Stride w.watcher o ({ s with waiting := pre ++ post }.giveUp w) := by
  obtain ⟨h₁, hk, hsub, halone⟩ := h.alone_of_waiting hw
  have hmem : w ∈ s.waiting := by simp [hw]
  have ho₁ : { s with waiting := pre ++ post }.object? w.watcher.object = some o := ho
  obtain ⟨known, hagain, hknown⟩ := watchAgain_eq ho₁ w.lack.fallback
  have harm := object?_arm ho₁ known o.watch.continuous
  -- What waited is not armed any more, so that giving up concludes nothing.
  have hstale := hk.query?_arm known o.watch.continuous
  rw [query?_of_object? harm] at hstale
  unfold Session.giveUp
  rw [hagain, conclude_eq harm, nextInterest_of_stale hstale]
  refine .givesUp w _ known hmem rfl (object?_modifyObject harm fun o => { o with watch := _ }) rfl
    rfl rfl hknown (fun v hv _ => ?_) fun y hy hwork => ?_
  · have hv' : v ∈ ({ s with waiting := pre ++ post }.arm w.watcher.object known
        o.watch.continuous).waiting := hv
    rw [waiting_arm] at hv'
    exact hsub.subset hv'
  · have hwork' : ({ s with waiting := pre ++ post }.arm w.watcher.object known
        o.watch.continuous).AtWork y := hwork.of_reply.congr rfl rfl
    rcases h₁.atWork_arm ho₁ hy hwork' with hnew | ⟨v, hv, hl⟩
    · exact .inl hnew
    · exact .inr ⟨.waiting v (hsub.subset hv) hl, fun hyx => halone v hv (hl.trans hyx)⟩

/-- A small step spares the object, or is a turn of one of its armings at work. -/
theorem InStep.stride_of_passes (h : s.InStep) (hp : s.Passes s') (ho : s.object? id = some o) :
    Spares id s s' ∨ ∃ x, x.object = id ∧ s.AtWork x ∧ s.Stride x o s' := by
  rcases h.passes_cases hp id with hspares | ⟨p, hmem, rfl, hready, rfl⟩ |
    ⟨w, pre, post, hw, rfl, rfl | rfl⟩
  · exact .inl hspares
  · exact .inr ⟨_, rfl, .pending p hmem rfl, h.stride_of_deliver hmem hready ho⟩
  · exact .inr ⟨_, rfl, .waiting w (by simp [hw]) rfl, h.stride_of_resume hw ho⟩
  · exact .inr ⟨_, rfl, .waiting w (by simp [hw]) rfl, h.stride_of_giveUp hw ho⟩

/-! ### What is read -/

/-- What an arming reads is of the version that an answer to its query is of, or of what it waited
for. -/
theorem InStep.reads_cases (h : s.InStep) {r : Reading α} (hreads : s.Reads (.ok r) x s') :
    (∃ q f c keys, s.query? x = some q ∧ q.interest.accepts f = true ∧
      f.name.startsWithLaterVersionOf q.known = true ∧ Watch.candidate? q.interest f = some c ∧
      Reading.ofConfirmed s.supply keys c = .ok r) ∨
    ∃ w ∈ s.waiting, w.watcher = x ∧ ∃ keys, Reading.pursue s.supply keys w.lack = .ok r := by
  cases hreads with
  | wait hw ho hread => exact .inr ⟨_, by simp [hw], rfl, _, hread⟩
  | @answer p f o c w hp hanswer ho hbatch hread =>
    obtain ⟨q, hq, hinterest⟩ := h.asked p hp
    obtain ⟨hw, hg⟩ := active_of_query? ho hq
    have haccepts : q.interest.accepts f = true := by
      unfold Network.answer? at hanswer
      cases hfind : s.network.supply.find p.interest with
      | error e =>
        rw [hfind] at hanswer
        cases hanswer
      | ok found =>
        rw [hfind] at hanswer
        obtain rfl : found = some f := hanswer
        rw [← hinterest]
        exact Supply.accepts_of_find hfind
    rw [← hg] at hbatch
    rcases Watch.handleBatch_singleton hw f with ⟨c', hc, hlater, hcand⟩ | ⟨q', exclusions, hc, -⟩
    · rw [hc, Prod.mk.injEq, BatchOutcome.confirmed.injEq] at hbatch
      exact .inl ⟨q, f, c, _, hq, haccepts, hlater, hbatch.1 ▸ hcand, hread⟩
    · rw [hc] at hbatch
      cases hbatch

/-- It is right below the name that the query of the arming asks for. -/
theorem InStep.below_of_reads (h : s.InStep) {r : Reading α} (hreads : s.Reads (.ok r) x s')
    {q : ActiveQuery} (hq : s.query? x = some q) : r.Below q.known.base := by
  rcases h.reads_cases hreads with
    ⟨q', f, c, keys, hq', haccepts, hlater, hcand, hread⟩ | ⟨w, hw, rfl, keys, hread⟩
  · obtain rfl : q' = q := Option.some.inj (hq'.symm.trans hq)
    exact Reading.below_of_ofConfirmed
      (Watch.below_of_candidate? (h.query _ _ hq).1 haccepts hlater hcand) hread
  · exact Reading.below_of_pursue (h.waits w hw q hq).1 hread

end Session
end NamedContent
