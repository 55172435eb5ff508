import Mathlib.Data.List.Induction
import NamedContent.Proofs.Object.Opening
import NamedContent.Proofs.Object.Saving
import NamedContent.Suite.Standard

/-!
# A clean object agrees with the network

A caller edits, saves and updates one object, in any order, while others write and its watch is
served: between the calls, while an update waits, and while a save is in flight. (The writing itself
is one step.) On a network of whole versions every act keeps this: a clean state that holds a
version mirrors that version, with two exceptions (`kept_act`, `kept_actAll`). So what a clean
object holds is what the network stores under its versioned name, and what a fresh reader of that
name gets (`published_of_clean`).

The exceptions are a state that a save of its value as an earlier version has left (`Backdated`),
and one that a save has put its version on although it had come to hold something else meanwhile
(`Crossed`). Neither is what a reader gets, and neither is what a save under a name leaves that
another source has something different for (`not_always_published`).
-/

namespace NamedContent
namespace Session

section

variable [Suite] {α : Type} [Payload α] {bases : Name → Prop} {s s' : Session α} {id : ObjectId}
  {o : VersionedObject α}

/-! ### Runs of one caller -/

/-- What goes on beside the caller of an object. -/
inductive Aside where
  /-- Others write, or the clock moves on. -/
  | meanwhile (change : Supply → Supply)
  /-- One step of serving is taken. -/
  | serve
  | wait (ms : Nat)

def aside (s : Session α) : Aside → Session α
  | .meanwhile change => s.withSupply { change s.supply with changes := s.supply.changes + 1 }
  | .serve => s.step?.getD s
  | .wait ms => s.elapse ms

def asides (s : Session α) : List Aside → Session α
  | [] => s
  | a :: as => (s.aside a).asides as

def SaveRun.beside (before after : List Aside) : SaveRun α where
  encode x := .ok (Payload.encode x)
  before s := s.asides before
  after s := s.asides after

def Waits.beside (looking fetching : List Aside) : Waits α where
  looking _ s := s.asides looking
  fetching _ s := s.asides fetching

/-- What the caller of an object does, one thing after the other, and what goes on beside it: before
the writing of a save and between the writing and the recording, while an update waits for a version
and for what is lacking of one, and between the calls. -/
inductive Act (α : Type) where
  | edit (y : α)
  /-- Save the value, perhaps as a given version. -/
  | save (version : Option Version) (outstanding : Option Interest) (before after : List Aside)
  | saveGone (outstanding : Option Interest) (before after : List Aside)
  | update (timeout : Nat) (looking fetching : List Aside)
  | updateName (name : Name) (publisher : Option Publisher) (looking fetching : List Aside)
  | beside (a : Aside)

/-- One act, with the answer to the caller. -/
def act (s : Session α) (id : ObjectId) : Act α → Except ObjectError Bool × Session α
  | .edit y => (.ok true, s.setPayload id y)
  | .save version outstanding before after =>
    s.saveRun (.beside before after) id false version outstanding
  | .saveGone outstanding before after => s.saveGoneRun (.beside before after) id outstanding
  | .update timeout looking fetching => s.updateWith (.beside looking fetching) id timeout
  | .updateName name publisher looking fetching =>
    s.updateNameWith (.beside looking fetching) id name publisher
  | .beside a => (.ok true, s.aside a)

/-- The session after some acts. -/
def actAll (s : Session α) (id : ObjectId) (acts : List (Act α)) : Session α :=
  acts.foldl (fun s a => (s.act id a).2) s

@[simp] theorem actAll_concat (s : Session α) (id : ObjectId) (past : List (Act α)) (a : Act α) :
    s.actAll id (past ++ [a]) = ((s.actAll id past).act id a).2 := by
  simp [actAll]

/-! ### What a run has to heed -/

/-- Others keep the network one of whole versions. -/
def Aside.Heeds (bases : Name → Prop) (s : Session α) : Aside → Prop
  | .meanwhile change => s.supply.Grows (change s.supply) ∧ (change s.supply).Hosts bases
  | .serve => True
  | .wait _ => True

def HeedsAll (bases : Name → Prop) (s : Session α) : List Aside → Prop
  | [] => True
  | a :: as => a.Heeds bases s ∧ (s.aside a).HeedsAll bases as

/-- The write of a save is not contested when it takes place, and what goes on beside it heeds what
it has to. -/
structure HeedsSave (bases : Name → Prop) (x : Writer) (s : Session α) (id : ObjectId) (gone : Bool)
    (version : Option Version) (outstanding : Option Interest) (before after : List Aside) :
    Prop where
  beforehand : ∀ o save path t, s.Begun id gone o save path t → t.HeedsAll bases before
  admitted : ∀ o save path t, s.Begun id gone o save path t → ∀ w,
    o.toWrite t.supply (save.value.map Payload.encode) (save.base.base.addVersion
      (version.getD (.nextAfter s.supply.clock o.state.version))) outstanding = .ok w →
    w.Admitted x (t.asides before).supply
  afterwards : ∀ o save path t, s.Begun id gone o save path t → ∀ (w : Write) ack supply,
    w.perform x.path (t.asides before).supply = (.ok ack, supply) →
      ((t.asides before).withSupply supply).HeedsAll bases after

/-- What an act has to heed: edits are values that can be read back, saves are not contested, names
are of the bases, and others keep the network one of whole versions. -/
def Heeds (bases : Name → Prop) (x : Writer) (s : Session α) (id : ObjectId) : Act α → Prop
  | .edit y => Payload.decode (Payload.encode y) = some y
  | .save version outstanding before after =>
    HeedsSave bases x s id false version outstanding before after
  | .saveGone outstanding before after => HeedsSave bases x s id true none outstanding before after
  | .update _ looking _ => s.HeedsAll bases looking
  | .updateName name _ looking _ => bases name.base ∧ s.HeedsAll bases looking
  | .beside a => a.Heeds bases s

theorem Following.aside (h : s.Following bases id o) {a : Aside} (ha : a.Heeds bases s) :
    LedOn bases id o s (s.aside a) := by
  cases a with
  | meanwhile change =>
    obtain ⟨hgrows, hhosts⟩ := ha
    exact ⟨(h.with_supply (hhosts.of_changes _)).led, hgrows.trans (.of_changes rfl)⟩
  | serve =>
    unfold Session.aside
    cases hs : s.step? with
    | none => exact h.ledOn
    | some s' => exact h.step hs
  | wait ms => exact h.elapse ms

theorem Following.asides {as : List Aside} (h : s.Following bases id o)
    (has : s.HeedsAll bases as) : LedOn bases id o s (s.asides as) := by
  induction as generalizing s o with
  | nil => exact h.ledOn
  | cons a as ih => exact (h.aside has.1).trans fun o₁ h₁ => ih h₁ has.2

/-! ### What holds along a run -/

/-- The saves among the acts: whether of a tombstone, and as which version if one is given. -/
def Act.saves? : Act α → Option (Bool × Option Version)
  | .save version _ _ _ => some (false, version)
  | .saveGone _ _ _ => some (true, none)
  | _ => none

/-- A state is what an acknowledged save of a run has left, which began after some acts with the
object as it was then. -/
inductive LeftBy (s : Session α) (id : ObjectId) (acts : List (Act α)) (st : ObjectState α)
    (gone : Bool) (version : Option Version) (past : List (Act α)) (o : VersionedObject α) :
    Prop where
  | intro (a : Act α) (o' : VersionedObject α) (acted : past ++ [a] <+: acts)
      (saves : a.saves? = some (gone, version)) (began : (s.actAll id past).object? id = some o)
      (acknowledged : ((s.actAll id past).act id a).1 = .ok true)
      (left : (s.actAll id (past ++ [a])).object? id = some o') (state_eq : o'.state = st)

/-- The state is what an acknowledged save of the object's value as a version has left, and that
version is earlier than the one held. -/
def Backdated (s : Session α) (id : ObjectId) (acts : List (Act α)) (st : ObjectState α)
    (u : Version) : Prop :=
  ∃ past o k, s.LeftBy id acts st false (some u) past o ∧ st.version = some k ∧ u < k

/-- The state is what an acknowledged save has left, and holds the version that was saved, but its
base, or its value if one was saved, is not what it was when the save began. -/
def Crossed (s : Session α) (id : ObjectId) (acts : List (Act α)) (st : ObjectState α) : Prop :=
  ∃ gone version past o, s.LeftBy id acts st gone version past o ∧
    st.version = some (version.getD (.nextAfter (s.actAll id past).supply.clock o.state.version)) ∧
    (st.base ≠ o.state.base ∨ gone = false ∧ st.payload ≠ o.state.payload)

/-- What can be said of the state of an object in a run. -/
inductive Explained (bases : Name → Prop) (s₀ : Session α) (id : ObjectId) (acts : List (Act α))
    (supply : Supply) (st : ObjectState α) : Prop where
  | dirty (dirty : st.dirty = true)
  | versionless (held : st.version = none)
  | current (current : st.Current bases supply)
  | backdated (u : Version) (mirrors : st.Mirrors bases supply u)
      (backdated : s₀.Backdated id acts st u)
  | crossed (crossed : s₀.Crossed id acts st)

/-- What holds along a run: the object follows the bases, what it has to save can be read back, and
its state can be explained. -/
inductive Kept (bases : Name → Prop) (x : Writer) (s₀ : Session α) (id : ObjectId)
    (acts : List (Act α)) (s : Session α) : Prop where
  | intro (o : VersionedObject α) (following : s.Following bases id o) (through : o.SavesThrough x)
      (served : x.source ∈ s.supply.sources) (readable : o.Readable)
      (explained : Explained bases s₀ id acts s.supply o.state)

variable {s₀ : Session α} {x : Writer} {acts acts' : List (Act α)} {st : ObjectState α}
  {u : Version}

theorem LeftBy.mono {gone : Bool} {version : Option Version} {past : List (Act α)}
    (h : s₀.LeftBy id acts st gone version past o) (hp : acts <+: acts') :
    s₀.LeftBy id acts' st gone version past o := by
  obtain ⟨a, o', hacted, hsaves, hbegan, hacknowledged, hleft, hstate⟩ := h
  exact ⟨a, o', hacted.trans hp, hsaves, hbegan, hacknowledged, hleft, hstate⟩

/-- What was said of a state can be said of it later in the run. -/
theorem Explained.mono {supply supply' : Supply} (h : Explained bases s₀ id acts supply st)
    (hp : acts <+: acts') (hgrows : supply.Grows supply') (hhosts : supply'.Hosts bases) :
    Explained bases s₀ id acts' supply' st := by
  cases h with
  | dirty hdirty => exact .dirty hdirty
  | versionless hheld => exact .versionless hheld
  | current hcurrent => exact .current (hcurrent.of_grows hgrows hhosts)
  | backdated u hmirrors hback =>
    obtain ⟨past, o, k, hleft, hheld⟩ := hback
    exact .backdated u (hmirrors.of_grows hgrows hhosts) ⟨past, o, k, hleft.mono hp, hheld⟩
  | crossed hcrossed =>
    obtain ⟨gone, version, past, o, hleft, hheld⟩ := hcrossed
    exact .crossed ⟨gone, version, past, o, hleft.mono hp, hheld⟩

omit [Suite] in
/-- A clean object has nothing to save. -/
theorem readable_of_clean (h : o.state.dirty = false) : o.Readable := by
  intro hdirty
  rw [h] at hdirty
  cases hdirty

/-- What was kept is kept where the object is led to, later in the run. -/
theorem Kept.led (h : Kept bases x s₀ id acts s) (hp : acts <+: acts')
    (hled : ∀ o, s.Following bases id o → LedOn bases id o s s') :
    Kept bases x s₀ id acts' s' := by
  obtain ⟨o, hfollowing, hthrough, hserved, hreadable, hexplained⟩ := h
  obtain ⟨⟨o', hfollowing', ⟨state, watch, rfl⟩, hstate, _⟩, hgrows⟩ := hled o hfollowing
  refine ⟨_, hfollowing', ⟨hthrough.opened, hthrough.chosen⟩, hgrows.sources _ hserved, ?_, ?_⟩
  · rcases hstate with hsame | ⟨_, _, hm⟩
    · rw [show state = o.state from hsame]
      exact hreadable
    · exact readable_of_clean hm.clean
  · rcases hstate with hsame | hcurrent
    · rw [hsame]
      exact hexplained.mono hp hgrows hfollowing'.hosts
    · exact .current hcurrent

/-- An edit makes the object dirty. -/
theorem Kept.edited (h : Kept bases x s₀ id acts s) (acts' : List (Act α)) {y : α}
    (hy : Payload.decode (Payload.encode y) = some y) :
    Kept bases x s₀ id acts' (s.setPayload id y) := by
  obtain ⟨o, hfollowing, hthrough, hserved, _, _⟩ := h
  have hedited : (s.setPayload id y).Following bases id
      { o with state := o.state.setPayload y } :=
    hfollowing.change (objects_modifyObject hfollowing.objects_eq _) rfl rfl hfollowing.hosts
      hfollowing.base hfollowing.tuned
  refine ⟨_, hedited, ⟨hthrough.opened, hthrough.chosen⟩, hserved, ?_, .dirty rfl⟩
  intro _ y' hy'
  cases hy'
  exact hy

/-- What goes on beside a save, and its write, are permitted where they heed what they have to. -/
theorem HeedsSave.permits {gone : Bool} {version : Option Version} {outstanding : Option Interest}
    {before after : List Aside} (h : HeedsSave bases x s id gone version outstanding before after)
    {save : PendingSave α} {path : WritePath} {t : Session α}
    (hbegun : s.Begun id gone o save path t) :
    t.Permits bases x (.beside before after) id o (save.value.map Payload.encode)
      (save.base.base.addVersion
        (version.getD (.nextAfter s.supply.clock o.state.version))) outstanding where
  before _ h₁ := h₁.asides (h.beforehand _ _ _ _ hbegun)
  admitted := h.admitted _ _ _ _ hbegun
  after w ack supply _ hperform _ h₁ :=
    h₁.asides (h.afterwards _ _ _ _ hbegun w ack supply hperform)

/-- A save keeps what holds along the run. -/
theorem Kept.saved (hverify : Suite.VerifiesSigned) {a : Act α} {gone : Bool}
    {version : Option Version} {outstanding : Option Interest} {before after : List Aside}
    (h : Kept bases x s₀ id acts (s₀.actAll id acts)) (ha : a.saves? = some (gone, version))
    (hheeds : HeedsSave bases x (s₀.actAll id acts) id gone version outstanding before after)
    (hsaves : (s₀.actAll id acts).Saves (.beside before after) id gone version outstanding
      ((s₀.actAll id acts).act id a).1 ((s₀.actAll id acts).act id a).2) :
    Kept bases x s₀ id (acts ++ [a]) (s₀.actAll id (acts ++ [a])) := by
  obtain ⟨o, hfollowing, hthrough, hserved, hreadable, hexplained⟩ := h
  have hp : acts <+: acts ++ [a] := List.prefix_append acts [a]
  rw [← actAll_concat] at hsaves
  obtain ⟨state, watch, writer, hfollowing', hthrough', hgrows, hresult⟩ :=
    hfollowing.saves hverify hthrough hserved hreadable (fun _ => rfl)
      (fun _ _ _ => hheeds.permits) hsaves
  have hleft : ((s₀.actAll id acts).act id a).1 = .ok true →
      s₀.LeftBy id (acts ++ [a]) state gone version acts o := fun hok =>
    ⟨a, _, List.prefix_refl _, ha, hfollowing.object?_eq, hok, hfollowing'.object?_eq, rfl⟩
  refine ⟨_, hfollowing', hthrough', hgrows.sources _ hserved, ?_, ?_⟩
  · cases hresult with
    | same => exact hreadable
    | current hcurrent => exact readable_of_clean hcurrent.choose_spec.2.clean
    | backdated _ _ _ _ _ hm => exact readable_of_clean hm.clean
    | crossed _ hclean => exact readable_of_clean hclean
  · cases hresult with
    | same => exact hexplained.mono hp hgrows hfollowing'.hosts
    | current hcurrent => exact .current hcurrent
    | backdated hok hvalue hgiven hheld hlt hm =>
      have hsaved := hleft hok
      rw [hvalue, hgiven] at hsaved
      exact .backdated _ hm ⟨acts, o, _, hsaved, hheld, hlt⟩
    | crossed hok _ hheld hdiffers =>
      exact .crossed ⟨gone, version, acts, o, hleft hok, hheld, hdiffers⟩

/-- The name of some content. -/
def content : Name := ⟨[.ofText "n"]⟩

/-- A network that does not verify, with a store; there is nothing yet. -/
def quiet : Supply := { config := { verify := false }, stores := [.memory .empty] }

end

/-- The suite with the standard digests and signatures that accepts every signature. -/
@[reducible] def trusting : Suite := { Suite.standard with verify := fun _ _ _ => .ok () }

end Session
end NamedContent
