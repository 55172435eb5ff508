import NamedContent.Proofs.Object.Origin
import NamedContent.Suite.Standard

/-!
# The first answer decides

An object that was opened to read a name from one publisher, and found nothing, listens for versions
of anyone. While the network has none it goes on listening (`listens_undergoAll`); the first one
that is offered, if it is complete, is adopted, whosever it is (`settle_of_answer`). So the object
keeps to the publisher that it was opened for exactly if that first version is the publisher's: this
is `heldFrom_of_read_from_publisher`, with what is true in all other cases.
-/

namespace NamedContent
namespace Session

section

variable {α : Type} [Suite] [Payload α] {s : Session α} {id : ObjectId} {n : Name} {p : Publisher}
  {keys : KeyRing}

/-! ### The first answer -/

/-- The network has no version after a name, of anyone. -/
def Silent (s : Session α) (n : Name) : Prop :=
  ∀ f, s.supply.find (.nextVersion n) ≠ .ok (some f)

/-- The armed watch has had no answer so far. It is looked at again unless the network is silent. -/
inductive Listens (keys : KeyRing) (id : ObjectId) (n : Name) (s : Session α) : Prop where
  | intro (o : VersionedObject α) (q : ActiveQuery) (number : InterestId) (standing : Standing)
      (asks : s.Asks id o n q number standing) (keys_eq : o.keys = keys)
      (waiting_eq : s.waiting = []) (known_eq : q.known = n)
      (interest_eq : q.interest = .nextVersion n)
      (standing_eq : standing = .ready ∨ ∃ seen, standing = .stalled seen ∧
        seen ≤ s.supply.changes ∧ (seen = s.supply.changes → s.Silent n))


omit [Payload α] in
theorem listens_of_armed (h : s.Armed keys id n) (hroot : n.isRoot = false) :
    s.Listens keys id n := by
  obtain ⟨o, q, number, asks, hkeys, hw, hquery⟩ := h
  obtain ⟨hknown, hint⟩ := hquery hroot
  exact .intro o q number .ready asks hkeys hw hknown hint (.inl rfl)

omit [Suite] [Payload α] in
theorem settleFuel_pos (h : s.network.pending.length = 1) : ∃ fuel, s.settleFuel = fuel + 1 := by
  refine ⟨s.settleFuel - 1, ?_⟩
  have hpos : 0 < s.settleFuel := by
    unfold settleFuel
    rw [h]
    apply Nat.mul_pos
    · exact Nat.mul_pos (by omega) (Nat.succ_pos _)
    · exact Nat.succ_pos _
  omega

omit [Payload α] in
/-- The interest can be looked at, or the network is silent. -/
theorem isReady_or_silent {q : ActiveQuery} {number : InterestId} {standing : Standing}
    (hs : standing = .ready ∨ ∃ seen, standing = .stalled seen ∧ seen ≤ s.supply.changes ∧
      (seen = s.supply.changes → s.Silent n))
    (hp : s.network.pending = [⟨number, q.interest, ⟨id, q.generation⟩, standing⟩]) :
    s.network.next? = some ⟨number, q.interest, ⟨id, q.generation⟩, standing⟩ ∨
      s.network.next? = none ∧ s.Silent n := by
  rw [Network.next?, hp, List.find?_singleton]
  rcases hs with rfl | ⟨seen, rfl, _, hsilent⟩
  · left
    rfl
  · by_cases hc : seen = s.supply.changes
    · right
      refine ⟨?_, hsilent hc⟩
      have hr : (seen != s.network.supply.changes) = false := by simpa [supply] using hc
      simp [Network.isReady, hr]
    · left
      have hr : (seen != s.network.supply.changes) = true := by simpa [supply] using hc
      simp [Network.isReady, hr]

/-- While the network is silent the watch goes on listening, and nothing else happens. -/
theorem listens_settle (h : s.Listens keys id n) (hsilent : s.Silent n) :
    s.settle.Listens keys id n ∧ s.settle.AtRest := by
  cases h with
  | intro o q number standing asks hkeys hw hknown hint hs =>
    rcases isReady_or_silent hs asks.pending_eq with hnext | ⟨hnext, _⟩
    · -- One look at the interest stalls it, and then nothing is left to do.
      let s₁ : Session α := { s with network := s.network.stall number s.supply.changes }
      have hasks : s₁.Asks id o n q number (.stalled s.supply.changes) := asks.stall _
      have hlistens : s₁.Listens keys id n :=
        .intro o q number _ hasks hkeys hw hknown hint
          (.inr ⟨_, rfl, Nat.le_refl _, fun _ => hsilent⟩)
      have hrest : s₁.AtRest := by
        refine ⟨hw, ?_⟩
        rw [Network.next?, hasks.pending_eq, List.find?_singleton]
        simp [Network.isReady, s₁, Network.stall, Network.modify, supply]
      have hstep : s.step? = some s₁ := by
        have hans : s.network.answer? ⟨number, q.interest, ⟨id, q.generation⟩, standing⟩ =
            none := by
          unfold Network.answer?
          dsimp only
          split
          · next found hf =>
            rw [hint] at hf
            cases found with
            | none => rfl
            | some f => exact absurd hf (hsilent f)
          · rfl
        simp [step?, hw, takeChanged, hnext, deliver, hans, s₁]
      obtain ⟨fuel, hfuel⟩ := settleFuel_pos (s := s) (by rw [asks.pending_eq]; rfl)
      rw [settle, hfuel, settleIn_succ_of_step hstep, hrest.settleIn_eq]
      exact ⟨hlistens, hrest⟩
    · have hrest : s.AtRest := ⟨hw, hnext⟩
      rw [hrest.settle_eq]
      exact ⟨.intro o q number standing asks hkeys hw hknown hint hs, hrest⟩

theorem listens_wait (h : s.Listens keys id n) (hsilent : s.Silent n) (stop : Session α → Bool)
    (ms : Nat) : (s.undergo (.wait stop ms)).Listens keys id n := by
  obtain ⟨hlistens, hrest⟩ := listens_settle h hsilent
  obtain ⟨t, ht⟩ := hrest.elapseUntil_eq stop ms
  rw [undergo, ht]
  cases hlistens with
  | intro o q number standing asks hkeys hw hknown hint hs =>
    exact .intro o q number standing (asks.congr rfl rfl rfl) hkeys hw hknown hint hs

theorem listens_publish (h : s.Listens keys id n) (content : Supply) :
    (s.undergo (.publish content)).Listens keys id n := by
  cases h with
  | intro o q number standing asks hkeys hw hknown hint hs =>
    refine .intro o q number standing (asks.congr rfl rfl rfl) hkeys hw hknown hint ?_
    rcases hs with rfl | ⟨seen, rfl, hle, _⟩
    · exact .inl rfl
    · refine .inr ⟨seen, rfl, ?_, ?_⟩
      · show seen ≤ s.supply.changes + 1
        omega
      · show seen = s.supply.changes + 1 → _
        intro hc
        omega

/-- The watch listens on as long as the network is silent whenever the caller waits. -/
theorem listens_undergoAll (h : s.Listens keys id n) (es : List (Around α))
    (hsilent : ∀ past stop ms, past ++ [.wait stop ms] <+: es → (s.undergoAll past).Silent n) :
    (s.undergoAll es).Listens keys id n := by
  induction es generalizing s with
  | nil => exact h
  | cons e es ih =>
    apply ih
    · cases e with
      | publish content => exact listens_publish h content
      | wait stop ms =>
        exact listens_wait h (hsilent [] stop ms ⟨es, rfl⟩) stop ms
    · intro past stop ms hpast
      exact hsilent (e :: past) stop ms (List.cons_prefix_cons.mpr ⟨rfl, hpast⟩)

/-- The first complete version that is offered, whosever it is, is adopted. -/
theorem settle_of_answer (h : s.Listens keys id n) {f : Fragment} {a : Adoption α}
    (hfind : s.supply.find (.nextVersion n) = .ok (some f))
    (hfirst : f.name.isVersionedFirstSegment = true)
    (hread : Reading.ofFirst s.supply keys f = .ok (.complete a)) :
    ∃ o', s.settle.objects = [(id, o')] ∧ o'.state.publisher = some f.publisher ∧
      s.settle.network.pending = [] ∧ s.settle.waiting = [] := by
  cases h with
  | intro o q number standing asks hkeys hw hknown hint hs =>
    rcases isReady_or_silent hs asks.pending_eq with hnext | ⟨_, hsilent⟩
    · have hlater : f.name.startsWithLaterVersionOf q.known = true := by
        rw [hknown]
        exact Interest.startsWithLaterVersionOf_of_accepts (Supply.accepts_of_find hfind) hfirst
      have hbatch := Watch.handleBatch_firstSegment asks.active_eq hfirst hlater
      have hans : s.network.answer? ⟨number, q.interest, ⟨id, q.generation⟩, standing⟩ =
          some f := by
        have hfind' : s.network.supply.find q.interest = .ok (some f) := by
          rw [hint]
          exact hfind
        simp [Network.answer?, hfind']
      -- One step hands over the answer, and it is adopted at once; the watch is one-shot, so
      -- nothing is left to be done.
      let s₁ := s.setWatch id { o.watch with active := some q, exclusions := [] }
      have hasks : s₁.Asks id _ n q number standing := asks.forget []
      obtain ⟨o', hobj, hstate, hpend, hwait⟩ := hasks.proceed_complete hw s.supply.changes
        ((Confirmed.firstSegment f).version?.map Version.toComponent) a
      have hread' : Reading.ofConfirmed s₁.supply o.keys (.firstSegment f) = .ok (.complete a) := by
        rw [hkeys]
        exact hread
      have hstep : s.step? = some (s₁.proceed ⟨id, q.generation⟩ number s.supply.changes
          ((Confirmed.firstSegment f).version?.map Version.toComponent) (.ok (.complete a))) := by
        rw [← hread']
        simp [step?, hw, takeChanged, hnext, deliver, hans, hand, asks.object?_eq, hbatch, s₁]
      have hrest := atRest_of_nothing_pending hpend hwait
      obtain ⟨fuel, hfuel⟩ := settleFuel_pos (s := s) (by rw [asks.pending_eq]; rfl)
      rw [settle, hfuel, settleIn_succ_of_step hstep, hrest.settleIn_eq]
      refine ⟨o', hobj, ?_, hpend, hwait⟩
      have hpub : a.publisher = f.publisher := Reading.publisher_of_ofFirst hread
      rw [hstate, ← hpub]
      rfl
    · exact absurd hfind (hsilent f)

/-! ### Exactly when the publisher is kept to -/

omit [Suite] in
/-- The events before the one at which the first answer comes, or some from that one on. -/
theorem prefix_append_cons {β : Type} {past quiet later : List β} {e : β}
    (h : past <+: quiet ++ e :: later) :
    past <+: quiet ∨ ∃ rest, past = quiet ++ [e] ++ rest := by
  rcases List.prefix_or_prefix_of_prefix h (List.prefix_append quiet (e :: later)) with hp | hp
  · exact .inl hp
  · obtain ⟨t, rfl⟩ := hp
    have ht := (List.prefix_append_right_inj quiet).mp h
    cases t with
    | nil => exact .inl ⟨[], by simp⟩
    | cons x rest =>
      right
      have hx := (List.cons_prefix_cons.mp ht).1
      exact ⟨rest, by rw [hx, List.append_assoc, List.singleton_append]⟩

/-- From the wait at which the first version is offered on, the object holds that version. -/
theorem heldFrom_of_answer (h : s.Listens keys id n) {f : Fragment} {a : Adoption α}
    (hfind : s.supply.find (.nextVersion n) = .ok (some f))
    (hfirst : f.name.isVersionedFirstSegment = true)
    (hread : Reading.ofFirst s.supply keys f = .ok (.complete a)) (stop : Session α → Bool)
    (ms : Nat) (later : List (Around α)) :
    ((s.undergo (.wait stop ms)).undergoAll later).heldFrom id = some f.publisher := by
  obtain ⟨o', hobj, hpub, hpend, hwait⟩ := settle_of_answer h hfind hfirst hread
  obtain ⟨t, ht⟩ := (atRest_of_nothing_pending hpend hwait).elapseUntil_eq stop ms
  have hobj' : (s.undergo (.wait stop ms)).objects = [(id, o')] := by
    rw [undergo, ht]
    exact hobj
  rw [heldFrom_of_single (objects_undergoAll hobj' ?_ ?_ later), hpub]
  · rw [undergo, ht]
    exact hpend
  · rw [undergo, ht]
    exact hwait

/-- Whose version an object holds that was opened to read a name from one publisher, while its
caller only waits. What is found at opening is that publisher's, and whatever is held stays. If
nothing was found, the object keeps to the publisher as long as nobody else's fragments are offered
under the name; but the watch takes the first version that is offered, so when that is complete, the
object keeps to the publisher exactly if the version is that publisher's. -/
theorem heldFrom_of_read_from_publisher {supply : Supply} {repository : Option StoreId}
    {c : ObjectConfig α} (hname : c.name = some n) (hinit : c.initial = .read (some p))
    (hopen : (start supply).openObject keys repository c = (.ok id, s)) :
    (∀ q, s.heldFrom id = some q → q = p) ∧
    (∀ (es later : List (Around α)) (q : Publisher), (s.undergoAll es).heldFrom id = some q →
      (s.undergoAll (es ++ later)).heldFrom id = some q) ∧
    (∀ es : List (Around α),
      (∀ past, past <+: es → ∀ f, (s.undergoAll past).Offers n.base f → f.publisher = p) →
      ∀ q, (s.undergoAll es).heldFrom id = some q → q = p) ∧
    (s.heldFrom id = none → n.isRoot = false →
      ∀ (quiet : List (Around α)) (stop : Session α → Bool) (ms : Nat) (later : List (Around α))
        (f : Fragment) (a : Adoption α),
        (∀ past stop ms, past ++ [.wait stop ms] <+: quiet → (s.undergoAll past).Silent n) →
        (s.undergoAll quiet).supply.find (.nextVersion n) = .ok (some f) →
        f.name.isVersionedFirstSegment = true →
        Reading.ofFirst (s.undergoAll quiet).supply keys f = .ok (.complete a) →
        ((∀ past, past <+: quiet ++ .wait stop ms :: later →
            ∀ q, (s.undergoAll past).heldFrom id = some q → q = p) ↔ f.publisher = p)) := by
  have hopened := opened_of_openObject hname hinit hopen
  -- Opening leaves an object that holds something of `p`, or one that asks. That is a phase,
  -- whatever is allowed besides `p`; each clause runs on from it with its own notion of allowed.
  have hphase : ∀ allowed : Publisher → Prop, allowed p → Phase allowed id n s := by
    intro allowed hp
    cases hopened with
    | found o hobj hpub hpend hw => exact .holding o p hobj hpub hp hpend hw
    | armed harmed =>
      obtain ⟨o, q, number, asks, _, hw, _⟩ := harmed
      exact .asking o q number .ready asks hw
  refine ⟨?_, ?_, ?_, ?_⟩
  · intro q hq
    exact ((hphase (· = p) rfl).heldFrom_undergoAll hq []).1
  · intro es later q hq
    have h := phase_undergoAll (hphase (fun _ => True) trivial) es fun _ _ _ _ => trivial
    rw [undergoAll_append]
    exact (h.heldFrom_undergoAll hq later).2
  · intro es hoffers q hq
    exact ((phase_undergoAll (hphase (· = p) rfl) es hoffers).heldFrom_undergoAll hq []).1
  · intro hnone hroot quiet stop ms later f a hsilent hfind hfirst hread
    have hlistens : s.Listens keys id n := by
      cases hopened with
      | found o hobj hpub hpend hw =>
        rw [heldFrom_of_single hobj, hpub] at hnone
        cases hnone
      | armed harmed => exact listens_of_armed harmed hroot
    have hend := listens_undergoAll hlistens quiet hsilent
    constructor
    · intro hall
      have hpast : quiet ++ [.wait stop ms] <+: quiet ++ .wait stop ms :: later :=
        (List.prefix_append_right_inj quiet).mpr ⟨later, rfl⟩
      apply hall _ hpast
      rw [undergoAll_append]
      exact heldFrom_of_answer hend hfind hfirst hread stop ms []
    · intro hp past hpast q hq
      rcases prefix_append_cons hpast with hquiet | ⟨rest, rfl⟩
      · -- Before the first answer nothing is held.
        have hl := listens_undergoAll hlistens past fun past' stop' ms' h =>
          hsilent past' stop' ms' (h.trans hquiet)
        obtain ⟨o, q', number, standing, asks, _, _, _, _, _⟩ := hl
        rw [heldFrom_of_asks asks] at hq
        cases hq
      · rw [undergoAll_append, undergoAll_append] at hq
        have hheld := heldFrom_of_answer hend hfind hfirst hread stop ms rest
        have hq' : some f.publisher = some q := hheld.symm.trans hq
        rw [← Option.some.inj hq', hp]

/-! ### A stranger's version -/

/-- The name of some content. -/
def someContent : Name := ⟨[.ofText "n"]⟩

/-- Whose versions of the content are wanted. -/
def wanted : Publisher := ⟨.replicate 32 2⟩

/-- A version of the content by somebody else. -/
def strangersVersion : Fragment where
  name := (someContent.addVersion ⟨7⟩).firstSegmentName
  info := ⟨⟨.replicate 32 1⟩, 0, .data, some 0, .named .root none, none⟩
  content := [0x81, 5]
  signature := ⟨.replicate 64 0⟩

/-- What a network that does not verify serves, with some fragments put on it. -/
def unverified (fs : List Fragment) : Supply :=
  (Supply.publish { config := { verify := false } } fs).2

/-- The content of the stranger's version is there to be found and read. -/
theorem answer_strangersVersion (s : Session (List UInt32)) :
    (s.undergo (.publish (unverified [strangersVersion]))).supply.find
        (.nextVersion someContent) = .ok (some strangersVersion) ∧
      Reading.ofFirst (s.undergo (.publish (unverified [strangersVersion]))).supply
        ⟨wanted, [], []⟩ strangersVersion =
          .ok (.complete
            ⟨someContent, ⟨7⟩, ⟨.replicate 32 1⟩, .named .root none, some [(5 : UInt32)]⟩) :=
  ⟨rfl, rfl⟩

end

theorem heldFrom_of_read_from_publisher_stranger :
    ∃ s : Session (List UInt32),
      (start (unverified [])).openObject ⟨wanted, [], []⟩ none (.read someContent (some wanted)) =
        (.ok ⟨0⟩, s) ∧
      s.heldFrom ⟨0⟩ = none ∧
      ((∀ past, past <+: [.publish (unverified [strangersVersion]), .wait (fun _ => false) 5] →
          ∀ q, (s.undergoAll past).heldFrom ⟨0⟩ = some q → q = wanted) ↔
        strangersVersion.publisher = wanted) := by
  obtain ⟨s, hopen, harmed⟩ := openObject_of_nothing (unverified []) (α := List UInt32)
    (c := .read someContent (some wanted)) ⟨wanted, [], []⟩ rfl rfl rfl
  have hnone : s.heldFrom ⟨0⟩ = none := by
    obtain ⟨o, q, number, asks, _, _, _⟩ := harmed
    exact heldFrom_of_asks asks
  refine ⟨s, hopen, hnone, ?_⟩
  refine (heldFrom_of_read_from_publisher rfl rfl hopen).2.2.2 hnone rfl
    [.publish (unverified [strangersVersion])] (fun _ => false) 5 [] strangersVersion _ ?_
    (answer_strangersVersion s).1 rfl (answer_strangersVersion s).2
  intro past stop ms hpast
  -- Nobody waited before the stranger published.
  obtain ⟨rest, hrest⟩ := hpast
  rcases past with _ | ⟨e, past⟩
  · cases hrest
  · have hlen := congrArg List.length hrest
    simp at hlen

/-- An object that was opened to read from one publisher can come to hold a version of another one
while its caller only waits. -/
theorem not_only_from_publisher :
    ¬ ∀ (supply : Supply) (keys : KeyRing) (repository : Option StoreId) (n : Name) (p : Publisher)
        (id : ObjectId) (s : Session (List UInt32)) (es : List (Around (List UInt32))),
      (start supply).openObject keys repository (.read n (some p)) = (.ok id, s) →
        ∀ q, (s.undergoAll es).heldFrom id = some q → q = p := by
  intro h
  obtain ⟨s, hopen, harmed⟩ := openObject_of_nothing (unverified []) (α := List UInt32)
    (c := .read someContent (some wanted)) ⟨wanted, [], []⟩ rfl rfl rfl
  have hlistens := listens_publish (listens_of_armed harmed rfl) (unverified [strangersVersion])
  obtain ⟨hfind, hread⟩ := answer_strangersVersion s
  have hheld := heldFrom_of_answer hlistens hfind rfl hread (fun _ => false) 5 []
  have heq : strangersVersion.publisher = wanted :=
    h _ _ _ _ _ _ _ [.publish (unverified [strangersVersion]), .wait (fun _ => false) 5] hopen _
      hheld
  exact absurd heq (by decide)

end Session
end NamedContent
