import NamedContent.Proofs.Object.Forward

/-!
# What a recorded save makes of an object

A save writes the value that an object had when the save began, under the base name that it had
then, and is recorded in the object as it is when the writing is over. The record takes the version
from the save, but the base name and the value from the object. `Truthful` says that the object then
has the name that was written, and the value that was written unless it is dirty.

What lies between the two is edits and versions that were read. The base name at the end is that of
the last version taken over (`base_undergo`), and so is the value if nothing was edited
(`payload_undergo`). So a save that moves the object forward tells the truth exactly if the last
version taken over meanwhile has the same base name, and the same value unless there were edits
(`truthful_iff`).

An edit that was made meanwhile is another matter: the record of a value leaves it dirty, but the
record of a tombstone wipes it out (`unsaved_iff`).
-/

namespace NamedContent

variable {α : Type}

namespace Change

/-- A save is recorded. -/
def isCommit : Change α → Bool
  | .commit _ => true
  | _ => false

end Change

namespace ObjectState

variable {s : ObjectState α} {p : PendingSave α} {v : SavedVersion} {since : List (Change α)}

/-! ### Versions that are taken over -/

/-- The version that was read and is taken over. -/
def taken? (s : ObjectState α) : Change α → Option (Adoption α)
  | .adopt a => if (s.adopt a).1 then some a else none
  | _ => none

/-- The last version that was read and taken over along a run. -/
def lastTaken (s : ObjectState α) : List (Change α) → Option (Adoption α)
  | [] => none
  | c :: cs => ((s.after c).lastTaken cs).or (s.taken? c)

/-- Without a record of a save, the base name is that of the last version taken over. -/
theorem base_undergo (h : ∀ c ∈ since, c.isCommit = false) :
    (s.undergo since).base = ((s.lastTaken since).map Adoption.base).or s.base := by
  induction since generalizing s with
  | nil => rfl
  | cons c rest ih =>
    obtain ⟨hc, hrest⟩ := List.forall_mem_cons.mp h
    have hstep : (s.after c).base = ((s.taken? c).map Adoption.base).or s.base := by
      cases c with
      | edit x => rfl
      | adopt a => obtain ⟨_, ha⟩ | ⟨_, ha⟩ := adopt_cases s a <;> simp [after, taken?, ha, take]
      | commit v => cases hc
    rw [undergo, List.foldl_cons, ← undergo, ih hrest, hstep, lastTaken]
    cases (s.after c).lastTaken rest <;> rfl

/-- If nothing was edited either, then the value is that of the last version taken over. -/
theorem payload_undergo (h : ∀ c ∈ since, c.isCommit = false)
    (hedit : since.any Change.isEdit = false) :
    (s.undergo since).payload = ((s.lastTaken since).map Adoption.payload).getD s.payload := by
  induction since generalizing s with
  | nil => rfl
  | cons c rest ih =>
    obtain ⟨hc, hrest⟩ := List.forall_mem_cons.mp h
    rw [List.any_cons, Bool.or_eq_false_iff] at hedit
    have hstep : (s.after c).payload = ((s.taken? c).map Adoption.payload).getD s.payload := by
      cases c with
      | edit x => cases hedit.1
      | adopt a => obtain ⟨_, ha⟩ | ⟨_, ha⟩ := adopt_cases s a <;> simp [after, taken?, ha, take]
      | commit v => cases hc
    rw [undergo, List.foldl_cons, ← undergo, ih hrest hedit.2, hstep, lastTaken]
    cases (s.after c).lastTaken rest <;> rfl

/-- The edit count is still the one of before exactly if nothing was edited. -/
theorem edits_undergo_ne_iff (s : ObjectState α) (since : List (Change α)) :
    (s.undergo since).edits ≠ s.edits ↔ since.any Change.isEdit = true := by
  rw [edits_undergo, List.any_eq_true, ← List.countP_pos_iff]
  omega

/-! ### The record of a save -/

/-- The object has the name that a save wrote, and the value that it wrote or a later edit. -/
def Truthful (s : ObjectState α) (p : PendingSave α) (v : SavedVersion) : Prop :=
  s.versioned? = some (p.base.base.addVersion v.version) ∧ (s.dirty = false → s.payload = p.value)

/-- The record of a save of a value under a later version. -/
theorem commitSave_of_accepted {base : Name} (hb : s.base = some base)
    (hv : v.gone = false) (hc : (s.commitSave v).1 = true) :
    (s.commitSave v).2.versioned? = some (base.base.addVersion v.version) ∧
      (s.commitSave v).2.payload = s.payload ∧
      (s.commitSave v).2.dirty = (s.edits != v.edits) := by
  obtain ⟨b, hb', hrecord⟩ := record_of_accepted hc
  obtain rfl : base = b := Option.some.inj (hb.symm.trans hb')
  simp [hrecord, record, hv, versioned?]

/-- The save of a value that began on an object, and is recorded as a later version after any edits
and any versions that were read, whatever their base names: the object is dirty from then on exactly
if there were edits. It has the name and the value that were written exactly if the last version
taken over meanwhile, should there be one, leads to the same name, and has the same value unless
there were edits. -/
theorem truthful_iff (hp : s.beginSave false = .ok (some p))
    (hsince : ∀ c ∈ since, c.isCommit = false) (hgone : v.gone = false) (hedits : v.edits = p.edits)
    (hc : ((s.undergo since).commitSave v).1 = true) :
    ((s.undergo since).commitSave v).2.dirty = since.any Change.isEdit ∧
    (((s.undergo since).commitSave v).2.Truthful p v ↔
      ∀ a, s.lastTaken since = some a →
        a.base.base.addVersion v.version = p.base.base.addVersion v.version ∧
        (since.any Change.isEdit = false → a.payload = p.value)) := by
  obtain ⟨_, hvalue, hcount, hbase, _, _⟩ := begun_of_beginSave hp
  have hbase₁ := base_undergo (s := s) hsince
  rw [hbase] at hbase₁
  have hdirty : ((s.undergo since).edits != v.edits) = since.any Change.isEdit := by
    rw [hedits, hcount, Bool.eq_iff_iff, bne_iff_ne]
    exact edits_undergo_ne_iff s since
  -- Base and value are those that the save took along, or those that were adopted last.
  cases hlast : s.lastTaken since with
  | none =>
    rw [hlast] at hbase₁
    obtain ⟨hname, hpayload, hd⟩ := commitSave_of_accepted hbase₁ hgone hc
    refine ⟨hd.trans hdirty, iff_of_true ⟨hname, fun hclean => ?_⟩ nofun⟩
    rw [hd, hdirty] at hclean
    rw [hpayload, payload_undergo hsince hclean, hlast, hvalue]
    rfl
  | some a =>
    rw [hlast] at hbase₁
    obtain ⟨hname, hpayload, hd⟩ := commitSave_of_accepted hbase₁ hgone hc
    have hread : since.any Change.isEdit = false →
        ((s.undergo since).commitSave v).2.payload = a.payload := by
      intro hclean
      rw [hpayload, payload_undergo hsince hclean, hlast]
      rfl
    refine ⟨hd.trans hdirty, ?_⟩
    unfold Truthful
    rw [hname, hd, hdirty, Option.some_inj]
    constructor
    · rintro ⟨hsame, hkept⟩ _ ⟨⟩
      exact ⟨hsame, fun hclean => (hread hclean).symm.trans (hkept hclean)⟩
    · intro h
      obtain ⟨hsame, hkept⟩ := h a rfl
      exact ⟨hsame, fun hclean => (hread hclean).trans (hkept hclean)⟩

/-- An object that was given a value. -/
def edited : ObjectState String := (new (some pages)).setPayload "a"

/-- The save of the value that was given. -/
def firstSave : PendingSave String := ⟨pages, some "a", 1, none⟩

/-- Version 7 was read while the save was being written, and then the object was edited. -/
def readThenEdited : List (Change String) :=
  [.adopt ⟨pages, ⟨7⟩, reader, .named pages none, some "b"⟩, .edit "c"]

theorem truthful_iff_readThenEdited :
    edited.beginSave false = .ok (some firstSave) ∧ (∀ c ∈ readThenEdited, c.isCommit = false) ∧
      ((edited.undergo readThenEdited).commitSave
        ⟨⟨9⟩, reader, .named pages none, false, 1⟩).1 = true ∧
      ((edited.undergo readThenEdited).commitSave
        ⟨⟨9⟩, reader, .named pages none, false, 1⟩).2.dirty = true ∧
      ((edited.undergo readThenEdited).commitSave
        ⟨⟨9⟩, reader, .named pages none, false, 1⟩).2.Truthful firstSave
          ⟨⟨9⟩, reader, .named pages none, false, 1⟩ := by
  have hp : edited.beginSave false = .ok (some firstSave) := rfl
  have hsince : ∀ c ∈ readThenEdited, c.isCommit = false := by
    simp [readThenEdited, Change.isCommit]
  have hc : ((edited.undergo readThenEdited).commitSave
      ⟨⟨9⟩, reader, .named pages none, false, 1⟩).1 = true := rfl
  obtain ⟨hdirty, htruthful⟩ := truthful_iff hp hsince rfl rfl hc
  refine ⟨hp, hsince, hc, hdirty, htruthful.mpr ?_⟩
  rintro a ⟨⟩
  exact ⟨rfl, nofun⟩

/-- A recorded save does not always tell the truth: the value or the base name at the end can be
that of a version that was read while the save was being written. -/
theorem not_always_truthful :
    ¬ ∀ (s : ObjectState String) (p : PendingSave String) (since : List (Change String))
      (v : SavedVersion), s.beginSave false = .ok (some p) → (∀ c ∈ since, c.isCommit = false) →
      v.gone = false → v.edits = p.edits → ((s.undergo since).commitSave v).1 = true →
      ((s.undergo since).commitSave v).2.Truthful p v := by
  intro h
  let other : Name := ⟨[.ofText "m"]⟩
  obtain ⟨_, hpayload⟩ := h edited firstSave
    [.adopt ⟨other, ⟨5⟩, reader, .named other none, some "b"⟩]
    ⟨⟨9⟩, reader, .named pages none, false, 1⟩ rfl (by simp [Change.isCommit]) rfl rfl rfl
  exact absurd (hpayload rfl) (by decide)

/-! ### Edits made while a save is being written -/

/-- The object has the value `x` as an edit that no save has written. -/
def Unsaved (s : ObjectState α) (x : α) : Prop :=
  s.dirty = true ∧ s.gone = false ∧ s.payload = some x

/-- The object is a tombstone, and nothing is left to save. -/
def Wiped (s : ObjectState α) : Prop :=
  s.dirty = false ∧ s.gone = true ∧ s.payload = none

theorem unsaved_setPayload (s : ObjectState α) (x : α) : (s.setPayload x).Unsaved x :=
  ⟨rfl, rfl, rfl⟩

theorem Wiped.not_unsaved {x : α} (h : s.Wiped) : ¬ s.Unsaved x := by
  rintro ⟨hdirty, _, _⟩
  rw [h.1] at hdirty
  cases hdirty

/-- A save is recorded as a version that moves the object forward if the object has a base name, and
no version that is as late. The base name that both are compared under is the object's own. -/
theorem accepts_commit_iff (s : ObjectState α) (v : SavedVersion) :
    (s.commitSave v).1 = true ↔
      s.base.isSome = true ∧ ∀ held, s.version = some held → held < v.version := by
  cases hb : s.base with
  | none => simp [commitSave, hb]
  | some base =>
    have hiff := (advances_commit ⟨base, hb, rfl⟩ v).accepts_iff v.version rfl
    rw [accepts] at hiff
    rw [hiff]
    cases s.version <;> simp

/-- What the record of a save makes of an edit that was made since its value was taken: only a
tombstone that moves the object forward wipes it out. -/
theorem Unsaved.commitSave {x : α} (h : s.Unsaved x) (hedits : s.edits ≠ v.edits) :
    if v.gone = true ∧ (s.commitSave v).1 = true then (s.commitSave v).2.Wiped
    else (s.commitSave v).2.Unsaved x := by
  rcases commitSave_cases s v with ⟨_, hc⟩ | ⟨base, _, _, hc⟩ | ⟨_, _, _, _, he, _⟩ |
    ⟨_, _, _, _, hc⟩
  · simpa [hc] using h
  · rw [hc]
    cases hgone : v.gone with
    | true => simp [Wiped, record, hgone]
    | false => simpa [Unsaved, record, hgone, hedits] using h.2.2
  · exact absurd he hedits
  · simpa [hc] using h

/-- What edits leave as it was. -/
theorem undergo_edits (s : ObjectState α) (xs : List α) :
    (s.undergo (xs.map .edit)).base = s.base ∧ (s.undergo (xs.map .edit)).version = s.version ∧
      (s.undergo (xs.map .edit)).edits = s.edits + xs.length := by
  induction xs generalizing s with
  | nil => exact ⟨rfl, rfl, rfl⟩
  | cons x rest ih =>
    obtain ⟨hbase, hversion, hcount⟩ := ih (s.setPayload x)
    refine ⟨hbase, hversion, hcount.trans ?_⟩
    rw [List.length_cons, show (s.setPayload x).edits = s.edits + 1 from rfl]
    omega

/-- An object is edited any number of times, at last to `x`, while a save that began before is being
written; then the save is recorded, as any version. The object has the edit as before unless the
save is of a tombstone and its version is later than the one held, if any: the record of such a
tombstone leaves no trace of the edit. -/
theorem unsaved_iff (s : ObjectState α) (xs : List α) (x : α) (v : SavedVersion) :
    let t := s.undergo ((xs ++ [x]).map .edit)
    let w : SavedVersion := { v with edits := s.edits }
    ((t.commitSave w).2.Unsaved x ↔
      ¬ (v.gone = true ∧ s.base.isSome = true ∧ ∀ held, s.version = some held → held < v.version)) ∧
    (¬ (t.commitSave w).2.Unsaved x → (t.commitSave w).1 = true ∧ (t.commitSave w).2.Wiped) := by
  intro t w
  obtain ⟨hbase, hversion, hcount⟩ := undergo_edits s (xs ++ [x])
  have hedit : t.Unsaved x := by
    simp only [t, List.map_append, List.map_cons, List.map_nil, undergo_concat, after]
    exact unsaved_setPayload _ x
  have hedits : t.edits ≠ w.edits := by
    rw [show t.edits = _ from hcount, show w.edits = s.edits from rfl, List.length_append,
      List.length_singleton]
    omega
  have haccepted : (t.commitSave w).1 = true ↔
      s.base.isSome = true ∧ ∀ held, s.version = some held → held < v.version := by
    rw [accepts_commit_iff, show t.base = _ from hbase, show t.version = _ from hversion]
  have hrecord := hedit.commitSave hedits
  rw [← haccepted]
  split at hrecord
  · next h => exact ⟨iff_of_false hrecord.not_unsaved (not_not_intro h), fun _ => ⟨h.2, hrecord⟩⟩
  · next h => exact ⟨iff_of_true hrecord h, fun hlost => absurd hrecord hlost⟩

/-- An edit that was made while a save was being written is not always kept: the record of a
tombstone wipes it out. -/
theorem not_always_unsaved :
    ¬ ∀ (s : ObjectState String) (gone : Bool) (p : PendingSave String) (xs : List String)
      (x : String) (v : SavedVersion), s.beginSave gone = .ok (some p) → v.gone = gone →
      v.edits = p.edits →
      ((s.undergo ((xs ++ [x]).map .edit)).commitSave v).2.Unsaved x := by
  intro h
  obtain ⟨hdirty, _, _⟩ := h edited true ⟨pages, none, 1, none⟩ [] "b"
    ⟨⟨9⟩, reader, .named pages none, true, 1⟩ rfl rfl rfl
  exact absurd hdirty (by decide)

end ObjectState
end NamedContent
