import NamedContent.Object.Payload
import NamedContent.Proofs.Name.Profile
import NamedContent.Proofs.Object.Committing
import NamedContent.Proofs.Object.Stages
import NamedContent.Suite.Standard

/-!
# The name of an adopted version

An object keeps the base name of a version that it adopts. Whatever else it says about its name it
takes from the base without a version that the base itself carries: the name of the version held
(`versioned?_take`), what counts as another version of the same base (`adopt_take`), and the name of
the next save (`stream_of_save`), which strips twice. So the object stays at the name of the
fragment exactly if the base carries no version (`named_of_adopt`).
-/

namespace NamedContent

/-! ### Names and offers -/

namespace ObjectState

variable {α : Type} {st : ObjectState α} {a a' : Adoption α} {b : Name} {x : α}

theorem versioned?_take (st : ObjectState α) (a : Adoption α) :
    (st.take a).versioned? = some (a.base.base.append a.version.toComponent) := rfl

/-- Nothing is refused below a base that carries a version. -/
theorem adopt_take (hbase : a'.base = a.base) (hle : a'.version ≤ a.version) :
    (st.take a).adopt a' =
      if a.base.hasVersion then (true, (st.take a).take a') else (false, st.take a) := by
  have hnewer : (st.take a).isNewer a'.base a'.version =
      if a.base.base = a'.base then decide (a.version < a'.version) else true := rfl
  rw [hbase] at hnewer
  split
  · next hversion =>
    apply adopt_of_newer
    rw [hbase, hnewer, if_neg]
    rw [Name.base_eq_self_iff, hversion]
    exact nofun
  · next hversion =>
    rw [Bool.not_eq_true] at hversion
    apply adopt_of_not_newer
    rw [hbase, hnewer, if_pos (Name.base_eq_self_iff.mpr hversion)]
    exact decide_eq_false (UInt64.not_lt.mpr hle)

/-! ### Beginning a save -/

theorem beginSave_of_root (h : st.base = some b) (hroot : b.isRoot = true) (gone : Bool) :
    st.beginSave gone = .error .missingName := by
  unfold beginSave requireBase
  simp only [h, hroot, ↓reduceIte]
  rfl

/-- An edit that no save has written is what the next save writes. -/
theorem Unsaved.beginSave (hx : st.Unsaved x) (h : st.base = some b) (hroot : b.isRoot = false) :
    st.beginSave false = .ok (some ⟨b, some x, st.edits, st.version⟩) := by
  obtain ⟨hdirty, hgone, hpayload⟩ := hx
  exact beginSave_of_dirty h hroot hdirty hgone hpayload

end ObjectState

/-! ### Saves -/

namespace Session

section

variable [Suite] {α : Type}

variable [Payload α] {s s' : Session α} {id : ObjectId} {o : VersionedObject α} {b : Name} {x : α}
  {path : WritePath}

/-- A save hands the value to the write path as one stream, and succeeds if the path takes it. What
is written is a version chosen after the one held, under the base with its version and that of what
is left stripped. -/
theorem stream_of_save (ho : s.object? id = some o) (hb : o.state.base = some b)
    (hroot : b.isRoot = false) (hx : o.state.Unsaved x) (hready : s.Ready id o b path s')
    (outstanding : Option Interest) :
    ∃ w : StreamWrite, w.payload = Payload.encode x ∧
      w.name = b.base.base.append
        (Version.nextAfter s'.supply.clock o.state.version).toComponent ∧
      (s.save id none outstanding).1 =
        ((path.putStream w s'.supply).1.mapError .network).map (fun _ => true) ∧
      (s.save id none outstanding).2.supply = (path.putStream w s'.supply).2 := by
  let w : StreamWrite :=
    { name := b.base.addVersion (.nextAfter s'.supply.clock o.state.version)
      payload := Payload.encode x, publisher := o.identity.publisher
      locator := o.identity.locator, outstanding }
  refine ⟨w, rfl, rfl, ?_⟩
  rw [save, saveWith_of_begun ⟨ho, hx.beginSave hb hroot, hready⟩]
  unfold writeSave performSave
  dsimp only [VersionedObject.toWrite, Write.perform, Option.map_some, Option.getD_none,
    SaveRun.during]
  cases hput : path.putStream w s'.supply with
  | mk outcome supply => cases outcome <;> exact ⟨rfl, rfl⟩

/-- Below the root there is nothing to save under. -/
theorem save_of_root (ho : s.object? id = some o) (hb : o.state.base = some b)
    (hroot : b.isRoot = true) (outstanding : Option Interest) :
    s.save id none outstanding = (.error .missingName, s) := by
  unfold save saveWith saveRun onObject
  rw [ho]
  dsimp only
  rw [ObjectState.beginSave_of_root hb hroot]

/-! ### Adopted versions -/

/-- An object without a version adopts the version of a fragment; then versions of the same base are
offered to it, or it is edited and saved. It has the base name of the fragment's version. It has the
versioned name of the fragment, refuses what is not later, and saves below the base, exactly if the
base carries no version itself. The root name cannot be saved under. -/
theorem named_of_adopt {n : Name} {a : Adoption α} {st : ObjectState α}
    (hn : n.splitVersion? = some (a.base, a.version)) (hst : st.version = none) :
    (st.adopt a).1 = true ∧ (st.adopt a).2.base = some a.base ∧
    ((st.adopt a).2.versioned? = n.versioned? ↔ a.base.hasVersion = false) ∧
    (∀ a' : Adoption α, a'.base = a.base → a'.version ≤ a.version → (st.adopt a).2.adopt a' =
      if a.base.hasVersion then (true, (st.adopt a).2.take a') else (false, (st.adopt a).2)) ∧
    ∀ (s : Session α) (id : ObjectId) (o : VersionedObject α) (xs : List α) (x : α)
      (outstanding : Option Interest), s.object? id = some o →
      o.state = (st.adopt a).2.undergo ((xs ++ [x]).map .edit) →
      (a.base.isRoot = true → s.save id none outstanding = (.error .missingName, s)) ∧
      ∀ path s', a.base.isRoot = false → s.Ready id o a.base path s' → ∃ w : StreamWrite,
        w.payload = Payload.encode x ∧
        w.name = a.base.base.base.append
          (Version.nextAfter s'.supply.clock (some a.version)).toComponent ∧
        ((∃ u : Version, w.name = a.base.append u.toComponent) ↔ a.base.hasVersion = false) ∧
        (s.save id none outstanding).1 =
          ((path.putStream w s'.supply).1.mapError .network).map (fun _ => true) ∧
        (s.save id none outstanding).2.supply = (path.putStream w s'.supply).2 := by
  rw [ObjectState.adopt_of_version_eq_none hst]
  refine ⟨rfl, rfl, ?_, fun a' hbase hle => ObjectState.adopt_take hbase hle, ?_⟩
  · rw [ObjectState.versioned?_take, Name.versioned?_of_splitVersion? hn, Option.some.injEq,
      ← Name.base_eq_self_iff]
    -- The state prints its base without a version, so the name is the same if the base has none.
    constructor
    · intro hname
      exact (Name.append_inj hname).1
    · intro hbase
      rw [hbase]
  · intro s id o xs x outstanding ho hstate
    obtain ⟨hbase, hversion, _⟩ := ObjectState.undergo_edits (st.take a) (xs ++ [x])
    have hx : o.state.Unsaved x := by
      rw [hstate, List.map_append, ObjectState.undergo_append]
      exact ObjectState.unsaved_setPayload _ x
    rw [← hstate] at hbase hversion
    refine ⟨fun hroot => save_of_root ho hbase hroot outstanding, fun path s' hroot hready => ?_⟩
    obtain ⟨w, hpayload, hname, hsave⟩ := stream_of_save ho hbase hroot hx hready outstanding
    rw [hversion] at hname
    refine ⟨w, hpayload, hname, ?_, hsave⟩
    rw [hname, ← Name.base_base_eq_self_iff]
    constructor
    · rintro ⟨u, hu⟩
      exact (Name.append_inj hu).1
    · intro hsame
      rw [hsame]
      exact ⟨_, rfl⟩

end

/-- The name of a version, as the base of others. -/
def printing : Name := ObjectState.pages.append (Version.toComponent ⟨1⟩)

/-- A version of it that was read. -/
def reprint (v : Version) : Adoption String :=
  ⟨printing, v, ObjectState.reader, .named printing none, some "b"⟩

theorem splitVersion?_reprint (v : Version) :
    (printing.append v.toComponent).firstSegmentName.splitVersion? = some (printing, v) :=
  Name.splitVersion?_segmentName printing v Segment.first

/-- The object has adopted version 5. -/
def reprinted : ObjectState String := ((ObjectState.new none).adopt (reprint ⟨5⟩)).2

/-- Then it was edited, by a participant that writes to the network directly. -/
def corrected : VersionedObject String where
  keys := ⟨ObjectState.reader, [(ObjectState.reader, ⟨.replicate 32 7⟩)], []⟩
  repository := none
  identity := {}
  timeout := 0
  state := reprinted.setPayload "c"
  saveMode := some .raw
  writer := none

def correcting : Session String := { objects := [(⟨0⟩, corrected)] }

/-- The object has a different versioned name than the fragment, takes version 3, and saves next to
its base. -/
theorem named_of_adopt_reprint :
    reprinted.base = some printing ∧
    reprinted.versioned? ≠
      (printing.append (Version.toComponent ⟨5⟩)).firstSegmentName.versioned? ∧
    reprinted.adopt (reprint ⟨3⟩) = (true, reprinted.take (reprint ⟨3⟩)) ∧
    ∃ path s' w, correcting.Ready ⟨0⟩ corrected printing path s' ∧
      (¬ ∃ u : Version, w.name = printing.append u.toComponent) ∧
      (correcting.save ⟨0⟩ none none).2.supply = (path.putStream w s'.supply).2 := by
  have hnew : (ObjectState.new none : ObjectState String).version = none := rfl
  obtain ⟨_, hbase, hversioned, hoffered, hsaved⟩ :=
    named_of_adopt (a := reprint ⟨5⟩) (splitVersion?_reprint ⟨5⟩) hnew
  have hhas : printing.hasVersion ≠ false := by decide
  refine ⟨hbase, fun h => hhas (hversioned.mp h), hoffered (reprint ⟨3⟩) rfl (by decide), ?_⟩
  obtain ⟨w, _, _, hname, _, hsupply⟩ :=
    (hsaved correcting ⟨0⟩ corrected [] "c" none rfl rfl).2 _ _ rfl ⟨_, rfl, rfl⟩
  exact ⟨_, _, w, ⟨_, rfl, rfl⟩, fun h => hhas (hname.mp h), hsupply⟩

/-- An object does not always stay at the name that it adopted. -/
theorem not_always_named :
    ¬ ∀ (n : Name) (a : Adoption String) (st : ObjectState String),
      n.splitVersion? = some (a.base, a.version) → st.version = none →
      (st.adopt a).2.base = some a.base ∧ (st.adopt a).2.versioned? = n.versioned? ∧
      (∀ a' : Adoption String, a'.base = a.base → a'.version ≤ a.version →
        (st.adopt a).2.adopt a' = (false, (st.adopt a).2)) ∧
      ∀ (s s' : Session String) (id : ObjectId) (o : VersionedObject String) (path : WritePath)
        (x : String) (outstanding : Option Interest), s.object? id = some o →
        o.state = (st.adopt a).2.setPayload x → s.Ready id o a.base path s' →
        ∃ (w : StreamWrite) (u : Version), w.name = a.base.append u.toComponent ∧
          (s.save id none outstanding).2.supply = (path.putStream w s'.supply).2 := by
  intro h
  obtain ⟨_, _, hrefused, _⟩ :=
    h _ (reprint ⟨5⟩) (.new none) (splitVersion?_reprint ⟨5⟩) rfl
  have hback := hrefused (reprint ⟨3⟩) rfl (by decide)
  exact absurd (congrArg Prod.fst hback) (by decide)

end Session
end NamedContent
