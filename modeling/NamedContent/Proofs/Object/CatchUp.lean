import NamedContent.Proofs.Object.Registered
import NamedContent.Proofs.Object.Tracking

/-!
# The order of arrival plays no part

The fragments of some versions of a base are published one by one in any order, while an object of
the base follows it in the background: served at any time, perhaps not at all for a while, or long
enough for waits to be given up and the watch to be armed anew (`Tracks.move`). Others may watch
too. The version of the object never goes back, and when all fragments are there and have been
served it holds the latest version (`catchesUp_of_arrivals`).
-/

namespace NamedContent
namespace Session

section

variable [Suite] {α : Type} [Payload α] {s : Session α} {id : ObjectId} {o : VersionedObject α}
  {b : Name} {rs : List (Release α)} {r : Release α} {v : Option Version} {f : Fragment}

/-! ### Arrivals -/

/-- Another fragment of the releases arrives. Whatever was looked at in vain will be looked at
again. -/
theorem Tracks.publish (h : s.Tracks id o b rs v) (hr : r ∈ rs) (hf : f ∈ r.fragments) :
    (s.withSupply (s.supply.publish [f]).2).Tracks id o b rs v ∧
      ∀ g, s.supply.Serves g ∨ g = f → (s.supply.publish [f]).2.Serves g := by
  obtain ⟨hcarries, hserves⟩ := h.carries.publish hr hf
  have hleads : s.supply.LeadsTo (s.supply.publish [f]).2 := by
    rcases s.supply.publish_cases [f] with hsame | hchanges
    · rw [hsame]
      exact Supply.leadsTo_of_changes rfl (Nat.le_refl _)
    · exact ⟨fun g hg => (hserves g).mpr (.inl hg), by omega, by omega⟩
  exact ⟨⟨h.inStep.withSupply _, hcarries, h.pursues.congr (.of_objects rfl rfl rfl) hleads⟩,
    fun g hg => (hserves g).mpr hg⟩

/-- What happens while an object follows a base. -/
inductive Move where
  /-- A fragment is put on the network. -/
  | publish (f : Fragment)
  /-- One step of serving, if there is one. -/
  | serve
  /-- Time passes, and whatever can be served is. -/
  | wait (ms : Nat)

def move (s : Session α) : Move → Session α
  | .publish f => s.withSupply (s.supply.publish [f]).2
  | .serve => s.step?.getD s
  | .wait ms => s.elapse ms

def moveAll (s : Session α) (moves : List Move) : Session α := moves.foldl move s

theorem passesTo_move (s : Session α) (m : Move) : s.PassesTo (s.move m) := by
  cases m with
  | publish f => exact .single (.publish s _)
  | wait ms => exact (goes_elapse s ms).passesTo
  | serve =>
    unfold Session.move
    cases hs : s.step? with
    | none => exact .refl
    | some s' => exact .single (.serve hs)

theorem passesTo_moveAll (s : Session α) (moves : List Move) : s.PassesTo (s.moveAll moves) := by
  induction moves generalizing s with
  | nil => exact .refl
  | cons m moves ih => exact (passesTo_move s m).trans (ih _)

theorem Tracks.move (h : s.Tracks id o b rs v) {m : Move}
    (hm : ∀ f, m = .publish f → ∃ r ∈ rs, f ∈ r.fragments) :
    ∃ v', (s.move m).Tracks id o b rs v' ∧ isLater v v' = false ∧
      ∀ f, s.supply.Serves f ∨ m = .publish f → (s.move m).supply.Serves f := by
  cases m with
  | publish f =>
    obtain ⟨r, hr, hf⟩ := hm f rfl
    obtain ⟨htracks, hserves⟩ := h.publish hr hf
    refine ⟨v, htracks, not_isLater_self v, fun g hg => hserves g (hg.imp_right fun heq => ?_)⟩
    cases heq
    rfl
  | serve =>
    unfold Session.move
    cases hs : s.step? with
    | none => exact ⟨v, h, not_isLater_self v, fun f hf => hf.resolve_right nofun⟩
    | some s' =>
      obtain ⟨v', htracks, hback⟩ := h.goes (goes_serve hs)
      refine ⟨v', htracks, hback, fun f hf => ?_⟩
      show s'.supply.Serves f
      rw [supply_step? hs]
      exact hf.resolve_right nofun
  | wait ms =>
    obtain ⟨v', htracks, hback⟩ := h.goesTo (goes_elapse s ms)
    obtain ⟨c, hsupply⟩ := supply_elapse s ms
    refine ⟨v', htracks, hback, fun f hf => ?_⟩
    show (s.elapse ms).supply.Serves f
    rw [hsupply]
    exact hf.resolve_right nofun

theorem Tracks.moveAll (h : s.Tracks id o b rs v) (moves : List Move)
    (hm : ∀ f, .publish f ∈ moves → ∃ r ∈ rs, f ∈ r.fragments) :
    ∃ v', (s.moveAll moves).Tracks id o b rs v' ∧ isLater v v' = false ∧
      ∀ f, s.supply.Serves f ∨ .publish f ∈ moves → (s.moveAll moves).supply.Serves f := by
  induction moves generalizing s v with
  | nil => exact ⟨v, h, not_isLater_self v, fun f hf => hf.resolve_right List.not_mem_nil⟩
  | cons m moves ih =>
    obtain ⟨v₁, htracks₁, hback₁, hserves₁⟩ :=
      h.move fun f hf => hm f (hf ▸ List.mem_cons_self)
    obtain ⟨v₂, htracks₂, hback₂, hserves₂⟩ :=
      ih htracks₁ fun f hf => hm f (List.mem_cons_of_mem _ hf)
    refine ⟨v₂, htracks₂, not_isLater_trans hback₁ hback₂, fun f hf => hserves₂ f ?_⟩
    rcases hf with hf | hf
    · exact .inl (hserves₁ f (.inl hf))
    · rcases List.mem_cons.mp hf with hf | hf
      · exact .inl (hserves₁ f (.inr hf.symm))
      · exact .inr hf

/-! ### The latest version -/

omit [Suite] [Payload α] in
theorem exists_latest (hne : rs ≠ []) : ∃ r ∈ rs, ∀ r' ∈ rs, r'.version ≤ r.version := by
  induction rs with
  | nil => exact absurd rfl hne
  | cons r rs ih =>
    by_cases hrs : rs = []
    · rw [hrs]
      exact ⟨r, List.mem_cons_self, fun r' hr' => by
        rw [List.mem_singleton.mp hr']
        exact UInt64.le_refl _⟩
    · obtain ⟨m, hm, hmax⟩ := ih hrs
      by_cases hle : r.version ≤ m.version
      · refine ⟨m, List.mem_cons_of_mem _ hm, fun r' hr' => ?_⟩
        rcases List.mem_cons.mp hr' with rfl | hr'
        · exact hle
        · exact hmax r' hr'
      · refine ⟨r, List.mem_cons_self, fun r' hr' => ?_⟩
        rcases List.mem_cons.mp hr' with rfl | hr'
        · exact UInt64.le_refl _
        · exact UInt64.le_trans (hmax r' hr') (UInt64.le_of_lt (UInt64.not_le.mp hle))

/-- When everything is there and nothing of the object can be served, nothing is waited for, and no
later release is left. -/
theorem Tracks.not_isLater_of_rests (h : s.Tracks id o b rs v) (hrests : s.Rests id)
    (hall : ∀ r ∈ rs, ∀ f ∈ r.fragments, s.supply.Serves f) :
    ∀ r ∈ rs, isLater (some r.version) v = false := by
  obtain ⟨_, _, _, _, p, hp, hl⟩ := h.exists_pending
  cases h.pursues with
  | awaiting _ _ _ r' w _ hr' hmem hawaits _ =>
    obtain ⟨f, hf, hmissing⟩ :=
      hawaits.missing (hrests.quiet w hmem (by rw [hawaits.watcher_eq]))
    exact absurd (hall r' hr' f hf) hmissing
  | asking _ _ _ _ _ hsearched =>
    have hl' : p.listener.object = id := by rw [hl]
    obtain ⟨hnot, _, hnothing⟩ := hsearched p hp hl'
    have hready := hrests.not_ready p hp hl'
    intro r hr
    rw [Bool.eq_false_iff]
    intro hlater
    obtain ⟨f, hf⟩ := (h.carries.releases.readable r hr).exists_mem
    -- What rests was searched for after the last change, and then a fragment of it was there.
    refine hnothing ?_ r hr hlater f hf (hall r hr f hf)
    unfold Network.isReady at hready
    cases hs : p.standing with
    | ready =>
      rw [hs] at hready
      cases hready
    | busy => exact absurd hs hnot
    | stalled seen =>
      rw [hs] at hready
      exact congrArg _ (bne_eq_false_iff_eq.mp hready)

/-- The object holds a release, and its watch is armed and goes on to ask for later ones. -/
structure CaughtUp (s : Session α) (id : ObjectId) (st : ObjectState α) (b : Name) (r : Release α)
    (o : VersionedObject α) (q : ActiveQuery) : Prop where
  object?_eq : s.object? id = some o
  state_eq : o.state = st.take (r.adoption b)
  active_eq : o.watch.active = some q
  known_eq : q.known = r.name b
  interest_eq : q.interest = .nextVersion (r.name b)
  continuous_eq : o.watch.continuous = true
  exclusions_eq : o.watch.exclusions = []
  pending : ∃ p ∈ s.network.pending, q.id = some p.id ∧ p.listener = ⟨id, q.generation⟩ ∧
    p.interest = q.interest

theorem Tracks.caughtUp_of_rests (h : s.Tracks id o b rs v) (hrests : s.Rests id)
    (hall : ∀ r ∈ rs, ∀ f ∈ r.fragments, s.supply.Serves f) (hr : r ∈ rs)
    (hmax : ∀ r' ∈ rs, r'.version ≤ r.version) : ∃ o' q, s.CaughtUp id o.state b r o' q := by
  have hlatest := h.not_isLater_of_rests hrests hall r hr
  obtain ⟨state, watch, q, hseeks, p, hp, hl⟩ := h.exists_pending
  have hq : s.query? p.listener = some q := by
    rw [hl]
    exact query?_eq_some_iff.mpr ⟨_, hseeks.object?_eq, hseeks.active_eq, rfl⟩
  obtain ⟨hv, hstate⟩ : v = some r.version ∧ state = o.state.take (r.adoption b) := by
    cases hseeks.follows with
    | start => cases hlatest
    | took r' hr' =>
      -- The release held is not before the latest, and versions tell releases apart.
      have hle : r.version ≤ r'.version := UInt64.not_lt.mp (of_decide_eq_false hlatest)
      have hversion : r'.version = r.version :=
        Version.ext (UInt64.le_antisymm (hmax r' hr') hle)
      obtain rfl := List.inj_on_of_nodup_map h.carries.releases.distinct hr' hr hversion
      exact ⟨rfl, rfl⟩
  have hknown := hseeks.known_eq
  have hinterest := hseeks.interest_eq
  rw [hv] at hknown hinterest
  exact ⟨_, q, hseeks.object?_eq, hstate, hseeks.active_eq, hknown, hinterest,
    hseeks.continuous_eq, hseeks.exclusions_eq, p, hp, (h.inStep.registered_of_pending hp hq).1, hl,
    (h.inStep.own hseeks.object?_eq hseeks.active_eq hp (by rw [hl])).2⟩

/-! ### Following from the start -/

/-- The version that an object holds. -/
def held (s : Session α) (id : ObjectId) : Option Version :=
  (s.stateOf id).bind ObjectState.version

theorem Tracks.held_eq (h : s.Tracks id o b rs v) : s.held id = v := by
  obtain ⟨_, _, _, hseeks, _⟩ := h.exists_pending
  unfold held stateOf
  rw [hseeks.object?_eq]
  exact hseeks.follows.version_eq hseeks.versionless

/-- Only fragments of the releases arrive, and in the end all of them are there. -/
structure Brings (s : Session α) (rs : List (Release α)) (moves : List Move) : Prop where
  only : ∀ f, .publish f ∈ moves → ∃ r ∈ rs, f ∈ r.fragments
  all : ∀ r ∈ rs, ∀ f ∈ r.fragments, s.supply.Serves f ∨ .publish f ∈ moves

/-- An object without a version that does not wait for anything is armed to follow its base. -/
theorem tracks_updateInBackground (h : s.InStep) (ho : s.object? id = some o)
    (hw : ∀ w ∈ s.waiting, w.watcher.object ≠ id) (hst : o.state.Versionless b)
    (hcarries : s.supply.Carries b rs) :
    s.updateInBackground id none true = (.ok (), s.arm id b true) ∧
      (s.arm id b true).Tracks id o b rs none ∧
      ∀ f, s.supply.Serves f → (s.arm id b true).supply.Serves f := by
  have hstart : o.state.Follows b rs none o.state := .start
  have hknown := hstart.knownName_eq hst hcarries.releases.plain
  obtain ⟨watch, q, hseeks, hidle, hready⟩ := seeks_arm h ho hst hstart hw
  obtain ⟨c, hsupply⟩ := supply_arm s id b true
  have hcarries' : (s.arm id b true).supply.Carries b rs := by
    rw [hsupply]
    exact hcarries.of_alike (Supply.alike_of_content rfl rfl rfl rfl rfl)
      (hcarries.sound.of_content rfl rfl rfl)
  refine ⟨updateInBackground_of_known ho none hknown true,
    ⟨(h.arm id b true).inStep, hcarries', ?_⟩, fun f hf => ?_⟩
  · exact .asking _ watch q hseeks hidle fun p hp hl => searched_of_ready (hready p hp hl)
  · rw [hsupply]
    exact hf

/-- If nobody else watches, nobody else comes to be at work while the object follows its base. -/
theorem alone_moveAll (h : s.InStep) (hw : s.waiting = [])
    (hp : ∀ p ∈ s.network.pending, p.listener.object = id) (moves : List Move) :
    ∀ x, ((s.arm id b true).moveAll moves).AtWork x → x.object = id := by
  refine (h.arm id b true).inStep.alone_passesTo (fun x hx => ?_) (passesTo_moveAll _ moves)
  by_contra hne
  cases (h.spares_arm (Ne.symm hne) b true).atWork rfl hx with
  | pending p hmem hl => exact hne (hl ▸ hp p hmem)
  | waiting w hmem _ =>
    rw [hw] at hmem
    cases hmem

/-- The order of arrival plays no part. An object that holds no version, and does not wait for one,
is armed to follow its base, below which nothing is served but fragments of some releases. Whatever
order the fragments arrive in, and however much is served and time passes in between, for this
object or for others, its version never goes back. Once all fragments are there, and have been
served so far that nothing of the object is left to be served, it holds the latest release, and is
armed for the versions after it with nothing excluded. If nobody else watches, settling leaves
nothing to be served. -/
theorem catchesUp_of_arrivals (h : s.InStep) (ho : s.object? id = some o)
    (hw : ∀ w ∈ s.waiting, w.watcher.object ≠ id) (hst : o.state.Versionless b)
    (hcarries : s.supply.Carries b rs) (hne : rs ≠ []) :
    ∃ s₁, s.updateInBackground id none true = (.ok (), s₁) ∧
      ∃ r ∈ rs, (∀ r' ∈ rs, r'.version ≤ r.version) ∧ ∀ moves, s.Brings rs moves →
        (∀ before after, before <+: after → after <+: moves →
          isLater ((s₁.moveAll before).held id) ((s₁.moveAll after).held id) = false) ∧
        (∀ steps, ((s₁.moveAll moves).settleIn steps).Rests id →
          ∃ o' q, ((s₁.moveAll moves).settleIn steps).CaughtUp id o.state b r o' q) ∧
        (s.waiting = [] → (∀ p ∈ s.network.pending, p.listener.object = id) →
          ∃ o' q, (s₁.moveAll moves).settle.CaughtUp id o.state b r o' q) := by
  obtain ⟨hupdate, htracks, hserves⟩ := tracks_updateInBackground h ho hw hst hcarries
  obtain ⟨r, hr, hmax⟩ := exists_latest hne
  refine ⟨_, hupdate, r, hr, hmax, fun moves hmoves => ⟨?_, ?_⟩⟩
  · rintro before _ ⟨mid, rfl⟩ ⟨rest, rfl⟩
    -- What is tracked after some moves is tracked on from there, and never goes back.
    obtain ⟨v₁, htracks₁, _⟩ := htracks.moveAll before
      fun f hf => hmoves.only f (by simp [hf])
    obtain ⟨v₂, htracks₂, hback, _⟩ := htracks₁.moveAll mid
      fun f hf => hmoves.only f (by simp [hf])
    have hconcat : (s.arm id b true).moveAll (before ++ mid) =
        ((s.arm id b true).moveAll before).moveAll mid := List.foldl_append ..
    rw [hconcat, htracks₁.held_eq, htracks₂.held_eq]
    exact hback
  · obtain ⟨v, htracks', _, hserves'⟩ := htracks.moveAll moves hmoves.only
    -- All fragments are served in the end, so nothing later than what is held can be lacking at
    -- rest.
    have hall : ∀ r' ∈ rs, ∀ f ∈ r'.fragments, ((s.arm id b true).moveAll moves).supply.Serves f :=
      fun r' hr' f hf => hserves' f ((hmoves.all r' hr' f hf).imp_left (hserves f))
    have hcaught : ∀ steps, (((s.arm id b true).moveAll moves).settleIn steps).Rests id →
        ∃ o' q,
          (((s.arm id b true).moveAll moves).settleIn steps).CaughtUp id o.state b r o' q := by
      intro steps hrests
      obtain ⟨v', hsettled, _⟩ := htracks'.goesTo (goes_settleIn _ steps)
      refine hsettled.caughtUp_of_rests hrests (fun r' hr' f hf => ?_) hr hmax
      rw [supply_settleIn]
      exact hall r' hr' f hf
    exact ⟨hcaught, fun hnone halone =>
      hcaught _ (htracks'.settle_of_alone (alone_moveAll h hnone halone moves))⟩

end

section

variable [Suite]

/-- A value in two segments. -/
def fifth : Release (List UInt32) :=
  .ofValue content ⟨5⟩ [1] { segmentSize := 1 } 0 ⟨.replicate 32 7⟩

/-- An earlier tombstone. -/
def second : Release (List UInt32) := .ofTombstone content ⟨2⟩ {} 0 ⟨.replicate 32 8⟩

/-- The segments of the value arrive last one first, each long before the next, and then the
tombstone. -/
def backwards : List Move :=
  (fifth.fragments.reverse.flatMap fun f => [.publish f, .wait 5000]) ++
    second.fragments.map .publish

/-- An object that reads the content, of which nothing is there yet. -/
def reading : Session (List UInt32) :=
  ((start {}).openObject author none { name := some content }).2

theorem releases_content (hverify : Suite.VerifiesSigned) :
    Releases content [fifth, second] where
  plain := by decide
  readable r hr := by
    rcases List.mem_cons.mp hr with rfl | hr
    · exact Release.readable_ofValue hverify versionable_content ⟨5⟩ encodes_one.1 encodes_one.2 _ 0
    · rw [List.mem_singleton.mp hr]
      exact Release.readable_ofTombstone hverify versionable_content ⟨2⟩ _ 0
  distinct := by
    show [(⟨5⟩ : Version), ⟨2⟩].Nodup
    decide

theorem carries_reading (hverify : Suite.VerifiesSigned) :
    reading.supply.Carries content [fifth, second] where
  releases := releases_content hverify
  sound := ⟨nofun, nofun, nofun⟩
  below := by
    rintro f ⟨src, hsrc, hf⟩
    have hsources : reading.supply.sources = [.direct] := rfl
    rw [hsources, List.mem_singleton] at hsrc
    rw [hsrc] at hf
    cases hf

theorem brings_backwards : reading.Brings [fifth, second] backwards where
  only f hf := by
    simp only [backwards, List.mem_append, List.mem_flatMap, List.mem_reverse, List.mem_map] at hf
    simp only [List.mem_cons, List.not_mem_nil, or_false, exists_eq_or_imp, exists_eq_left]
    rcases hf with ⟨g, hg, hf⟩ | ⟨g, hg, hf⟩
    · simp only [List.mem_cons, Move.publish.injEq, List.not_mem_nil, or_false, reduceCtorEq] at hf
      rw [hf]
      exact .inl hg
    · cases hf
      exact .inr hg
  all r hr f hf := by
    right
    simp only [backwards, List.mem_append, List.mem_flatMap, List.mem_reverse, List.mem_map]
    rcases List.mem_cons.mp hr with rfl | hr
    · exact .inl ⟨f, hf, List.mem_cons_self⟩
    · rw [List.mem_singleton.mp hr] at hf
      exact .inr ⟨f, hf, rfl⟩

end

theorem catchesUp_of_arrivals_backwards :
    letI := trusting
    ∃ s₁ o q, reading.updateInBackground ⟨0⟩ none true = (.ok (), s₁) ∧
      (s₁.moveAll backwards).settle.CaughtUp ⟨0⟩ (.new (some content)) content fifth o q := by
  let _ := trusting
  have hverify : Suite.VerifiesSigned := fun _ _ => rfl
  have hinStep : reading.InStep := (inStep_start _).openObject _ _ _
  have hobj : reading.object? ⟨0⟩ = some (prepare author none { name := some content }) := rfl
  have hpending : reading.network.pending = [] := rfl
  obtain ⟨s₁, hupdate, r, hr, hmax, hmoves⟩ := catchesUp_of_arrivals hinStep hobj nofun
    ⟨rfl, rfl, rfl⟩ (carries_reading hverify) (List.cons_ne_nil _ _)
  obtain ⟨_, _, halone⟩ := hmoves backwards brings_backwards
  obtain ⟨o, q, hcaught⟩ := halone rfl fun p hp => absurd (hpending ▸ hp) List.not_mem_nil
  have hfifth : r = fifth := by
    rcases List.mem_cons.mp hr with rfl | hr
    · rfl
    · rw [List.mem_singleton.mp hr] at hmax
      have hle : (⟨5⟩ : Version) ≤ ⟨2⟩ := hmax fifth List.mem_cons_self
      exact absurd hle (by decide)
  rw [hfifth] at hcaught
  exact ⟨s₁, o, q, hupdate, hcaught⟩

end Session
end NamedContent
