import NamedContent.Proofs.Interest.Versions
import NamedContent.Proofs.Object.Asking

/-!
# Whose version an opened object comes to hold

An object is opened to read a name from one publisher, and then its caller only waits while others
publish what they like. What the opening finds is that publisher's, and it stays. But if the opening
finds nothing, the watch that it leaves behind asks for a version of *anyone*.

Whatever is published then, the object comes to hold at most one version (`heldFrom_undergoAll`),
and its publisher is one of those whose fragments were offered under the name (`phase_undergoAll`).
-/

namespace NamedContent
namespace Session

variable {α : Type}

/-! ### What happens around the object -/

/-- A network without objects. -/
def start (supply : Supply) : Session α := { network := { supply } }

/-- What can happen while the caller of an object does nothing but wait. -/
inductive Around (α : Type) where
  /-- The network comes to serve other content. -/
  | publish (content : Supply)
  /-- The caller waits. -/
  | wait (stop : Session α → Bool) (ms : Nat)

/-- Whose version an object holds. -/
def heldFrom (s : Session α) (id : ObjectId) : Option Publisher :=
  (s.object? id).bind (·.state.publisher)

variable [Suite] [Payload α]

/-- One thing that happens. New content counts as a change of the supply. -/
def undergo (s : Session α) : Around α → Session α
  | .publish content => s.withSupply { content with changes := s.supply.changes + 1 }
  | .wait stop ms => (s.settle.elapseUntil stop ms).2

/-- Several things that happen in turn. -/
def undergoAll (s : Session α) (es : List (Around α)) : Session α := es.foldl undergo s

theorem undergoAll_append (s : Session α) (es fs : List (Around α)) :
    s.undergoAll (es ++ fs) = (s.undergoAll es).undergoAll fs :=
  List.foldl_append

variable {allowed : Publisher → Prop} {s s' : Session α} {id : ObjectId} {o : VersionedObject α}
  {n : Name} {p : Publisher}

/-! ### Once a version is held -/

omit [Suite] [Payload α] in
theorem heldFrom_of_single (h : s.objects = [(id, o)]) : s.heldFrom id = o.state.publisher := by
  rw [heldFrom, object?_of_single h]
  rfl

theorem undergo_of_nothing_pending (hobj : s.objects = [(id, o)]) (hp : s.network.pending = [])
    (hw : s.waiting = []) (e : Around α) :
    (s.undergo e).objects = [(id, o)] ∧ (s.undergo e).network.pending = [] ∧
      (s.undergo e).waiting = [] := by
  cases e with
  | publish content => exact ⟨hobj, hp, hw⟩
  | wait stop ms =>
    have hr : s.AtRest := atRest_of_nothing_pending hp hw
    obtain ⟨t, ht⟩ := hr.elapseUntil_eq stop ms
    rw [undergo, hr.settle_eq, ht]
    exact ⟨hobj, hp, hw⟩

/-- With nothing left to serve the object never changes again. -/
theorem objects_undergoAll (hobj : s.objects = [(id, o)]) (hp : s.network.pending = [])
    (hw : s.waiting = []) (es : List (Around α)) : (s.undergoAll es).objects = [(id, o)] := by
  induction es generalizing s with
  | nil => exact hobj
  | cons e es ih =>
    obtain ⟨hobj', hp', hw'⟩ := undergo_of_nothing_pending hobj hp hw e
    exact ih hobj' hp' hw'

omit [Suite] [Payload α] in
/-- Before its first version the object holds nobody's. -/
theorem heldFrom_of_asks {q : ActiveQuery} {number : InterestId} {standing : Standing}
    (h : s.Asks id o n q number standing) : s.heldFrom id = none := by
  rw [heldFrom_of_single h.objects_eq, h.state_eq]
  rfl

/-- A version once held stays. -/
theorem Phase.heldFrom_undergoAll (h : Phase allowed id n s) (hp : s.heldFrom id = some p)
    (es : List (Around α)) : allowed p ∧ (s.undergoAll es).heldFrom id = some p := by
  cases h with
  | asking o q number standing asks _ => rw [heldFrom_of_asks asks] at hp; cases hp
  | awaiting o q w asks _ _ _ => rw [heldFrom_of_asks asks] at hp; cases hp
  | holding o p' hobj hpub hal hpend hw =>
    rw [heldFrom_of_single hobj, hpub] at hp
    cases hp
    rw [heldFrom_of_single (objects_undergoAll hobj hpend hw es)]
    exact ⟨hal, hpub⟩

/-! ### Until a version is held -/

theorem phase_undergo (h : Phase allowed id n s)
    (hoffers : ∀ f, s.Offers n.base f → allowed f.publisher) (e : Around α) :
    Phase allowed id n (s.undergo e) := by
  cases e with
  | publish content => exact h.congr rfl rfl rfl rfl
  | wait stop ms =>
    -- The content of the supply stays while time passes, so the same publishers are offered.
    suffices hs : Phase allowed id n (s.settle.elapseUntil stop ms).2 ∧
        ∃ c, (s.settle.elapseUntil stop ms).2.supply = { s.supply with changes := c } from hs.1
    apply elapseUntil_induction stop
      (P := fun s' => Phase allowed id n s' ∧ ∃ c, s'.supply = { s.supply with changes := c })
    · rintro s' t ⟨hphase, c, hc⟩
      have hphase' : Phase allowed id n { s' with now := t } := hphase.congr rfl rfl rfl rfl
      refine ⟨phase_expire hphase' fun f hf => hoffers f (Offers.of_supply hc hf), ?_⟩
      obtain ⟨d, hd⟩ := supply_expire { s' with now := t }
      refine ⟨d, ?_⟩
      rw [hd]
      show { s'.supply with changes := d } = _
      rw [hc]
    · exact ⟨phase_settle h hoffers, s.supply.changes, supply_settle s⟩

/-- As long as only allowed publishers are offered below the base, the phases go on. -/
theorem phase_undergoAll (h : Phase allowed id n s) (es : List (Around α))
    (hoffers : ∀ past, past <+: es → ∀ f, (s.undergoAll past).Offers n.base f →
      allowed f.publisher) : Phase allowed id n (s.undergoAll es) := by
  induction es generalizing s with
  | nil => exact h
  | cons e es ih =>
    apply ih (phase_undergo h (hoffers [] List.nil_prefix) e)
    intro past hpast f hf
    exact hoffers (e :: past) (List.cons_prefix_cons.mpr ⟨rfl, hpast⟩) f hf

/-! ### Opening -/

/-- The object has no version, and its watch has just been armed for versions of anyone. -/
inductive Armed (keys : KeyRing) (id : ObjectId) (n : Name) (s : Session α) : Prop where
  | intro (o : VersionedObject α) (q : ActiveQuery) (number : InterestId)
      (asks : s.Asks id o n q number .ready) (keys_eq : o.keys = keys) (waiting_eq : s.waiting = [])
      (query_eq : n.isRoot = false → q.known = n ∧ q.interest = .nextVersion n)

/-- What opening to read from one publisher leaves behind: an object that holds a version of that
publisher, or one that has none and asks for anyone's. -/
inductive Opened (keys : KeyRing) (id : ObjectId) (n : Name) (p : Publisher) (s : Session α) :
    Prop where
  | found (o : VersionedObject α) (objects_eq : s.objects = [(id, o)])
      (publisher_eq : o.state.publisher = some p) (pending_eq : s.network.pending = [])
      (waiting_eq : s.waiting = [])
  | armed (armed : s.Armed keys id n)

/-- After a read that found too little the watch is armed, when the time is over. -/
theorem armed_of_watchAgain (hobj : s.objects = [(id, o)]) (hstate : o.state = .new (some n))
    (hidle : o.watch = .idle) (hp : s.network.pending = []) (hw : s.waiting = []) (ms : Nat)
    (fallback : Name) : ((s.elapse ms).watchAgain id fallback).Armed o.keys id n := by
  obtain ⟨t, ht⟩ := (atRest_of_nothing_pending hp hw).elapse_eq ms
  rw [ht]
  have harm : { s with now := t }.Armable id o n := .inl ⟨by rw [hidle]; rfl, hp⟩
  obtain ⟨o', q', hasks, hkeys, _, hquery, hwait, _⟩ :=
    asks_watchAgain harm hobj hstate (by rw [hidle]; rfl) fallback
  exact .intro o' q' _ hasks hkeys (hwait.trans hw) hquery

theorem opened_of_updateName {b : Bool} (hobj : s.objects = [(id, o)])
    (hstate : o.state = .new (some n)) (hidle : o.watch = .idle) (hp : s.network.pending = [])
    (hw : s.waiting = []) (h : s.updateName id n (some p) = (.ok b, s')) :
    Opened o.keys id n p s' := by
  rw [updateName_eq, onObject] at h
  simp only [object?_of_single hobj] at h
  split at h
  · cases h
  · next f hfound =>
    have hf := Supply.publisher_of_openVersioned? hfound
    unfold finish at h
    split at h
    · cases h
    · next a hread =>
      have hnone : o.state.version = none := by
        rw [hstate]
        rfl
      simp only [adopt_of_version_eq_none (object?_of_single hobj) hnone] at h
      cases h
      refine .found _ (objects_modifyObject hobj _) ?_ hp hw
      show some a.publisher = some p
      have hpub : a.publisher = f.publisher := Reading.publisher_of_ofFirst hread
      rw [hpub, hf]
    · cases h
      exact .armed (armed_of_watchAgain hobj hstate hidle hp hw _ _)
  · cases h
    exact .armed (armed_of_watchAgain hobj hstate hidle hp hw _ _)

theorem opened_of_giveFirstValue {keys : KeyRing} {repository : Option StoreId}
    {c : ObjectConfig α} {u : Unit} (hname : c.name = some n) (hinit : c.initial = .read (some p))
    (hobj : s.objects = [(id, prepare keys repository c)]) (hp : s.network.pending = [])
    (hw : s.waiting = []) (h : s.giveFirstValue id c = (.ok u, s')) :
    Opened keys id n p s' := by
  rw [giveFirstValue_eq] at h
  simp only [hinit, hname] at h
  rcases hup : s.updateName id n (some p) with ⟨outcome, s₂⟩
  rw [hup] at h
  cases outcome with
  | error e => cases h
  | ok b =>
    cases h
    have hstate : (prepare keys repository c).state = .new (some n) := by
      rw [← hname]
      rfl
    exact opened_of_updateName hobj hstate rfl hp hw hup

/-- Opening to read a name from one publisher. -/
theorem opened_of_openObject {supply : Supply} {keys : KeyRing} {repository : Option StoreId}
    {c : ObjectConfig α} (hname : c.name = some n) (hinit : c.initial = .read (some p))
    (h : (start supply).openObject keys repository c = (.ok id, s')) :
    Opened keys id n p s' := by
  unfold openObject openObjectWith at h
  cases repository with
  | none =>
    dsimp only at h
    split at h
    · next hgive =>
      cases h
      exact opened_of_giveFirstValue hname hinit rfl rfl rfl hgive
    · cases h
  | some store =>
    dsimp only at h
    split at h
    · next hgive =>
      cases h
      exact opened_of_giveFirstValue hname hinit rfl rfl rfl hgive
    · cases h

theorem updateName_of_nothing (hobj : s.objects = [(id, o)])
    (h : s.supply.openVersioned? n (some p) = .ok none) :
    s.updateName id n (some p) = (.ok false, (s.elapse o.timeout).watchAgain id n) := by
  rw [updateName_eq, onObject]
  simp only [object?_of_single hobj, h]

/-- Where the publisher has no version, an object without one is opened. -/
theorem openObject_of_nothing (supply : Supply) {c : ObjectConfig α} (keys : KeyRing)
    (hname : c.name = some n) (hinit : c.initial = .read (some p))
    (h : supply.openVersioned? n (some p) = .ok none) :
    ∃ s', (start supply).openObject keys none c = (.ok ⟨0⟩, s') ∧ s'.Armed keys ⟨0⟩ n := by
  let o := prepare keys none c
  let s₀ : Session α := { network := { supply }, objects := [(⟨0⟩, o)], opened := 1 }
  have hgive : s₀.giveFirstValue ⟨0⟩ c = (.ok (), (s₀.elapse o.timeout).watchAgain ⟨0⟩ n) := by
    rw [giveFirstValue_eq]
    simp only [hinit, hname]
    rw [updateName_of_nothing (s := s₀) (o := o) rfl h]
    rfl
  have hstate : o.state = .new (some n) := by
    rw [← hname]
    rfl
  refine ⟨(s₀.elapse o.timeout).watchAgain ⟨0⟩ n, ?_, ?_⟩
  · unfold openObject openObjectWith
    dsimp only
    split
    · next h' =>
      cases hgive.symm.trans h'
      rfl
    · next h' => cases hgive.symm.trans h'
  · exact armed_of_watchAgain (o := o) rfl hstate rfl rfl rfl o.timeout n

end Session
end NamedContent
