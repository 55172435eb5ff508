import NamedContent.Object.State
import NamedContent.Proofs.Name.Profile

/-!
# What the operations on an object's state can do

One lemma for each operation says everything that it can do to the state, guards included:

* `knownName_eq_ok_iff`: the name that an object knows is its base, with the version that it holds;
* `isNewer_eq_false_iff`: what does not move the object forward is not later than what it holds;
* `adopt_cases`: the version moves the object forward and replaces everything, or nothing changes;
* `commitSave_cases`: the version moves the object forward and is recorded, or at most the object
  becomes clean;
* `begun_of_beginSave`: a save begins on a dirty object with a value, or is of a tombstone.

Everything that is proved about an object's state later on goes through these.
-/

namespace NamedContent
namespace ObjectState

variable {α : Type} {s : ObjectState α} {a : Adoption α} {b n : Name} {v : Version}
  {e : ObjectError}

/-! ### The name that is known -/

/-- The base that an object requires is the one that it has, unless that is the root. -/
theorem requireBase_eq_ok_iff : s.requireBase = .ok b ↔ s.base = some b ∧ b.isRoot = false := by
  unfold requireBase
  split
  · next base hb =>
    rw [hb, Option.some.injEq]
    split
    · next hroot =>
      refine iff_of_false nofun ?_
      rintro ⟨rfl, hb⟩
      exact Bool.false_ne_true (hb.symm.trans hroot)
    · next hroot =>
      rw [Except.ok.injEq]
      refine (and_iff_left_of_imp ?_).symm
      rintro rfl
      exact Bool.not_eq_true _ ▸ hroot
  · next hb => exact iff_of_false nofun fun h => nomatch hb.symm.trans h.1

/-- The name that an object knows is its base, with the version that it holds. -/
theorem knownName_eq_ok_iff :
    s.knownName = .ok n ↔
      ∃ b, s.base = some b ∧ b.isRoot = false ∧ n = s.version.elim b b.addVersion := by
  unfold knownName
  cases hbase : s.requireBase with
  | error e =>
    refine iff_of_false nofun ?_
    rintro ⟨b, hb, hroot, _⟩
    cases hbase.symm.trans (requireBase_eq_ok_iff.mpr ⟨hb, hroot⟩)
  | ok b =>
    obtain ⟨hb, hroot⟩ := requireBase_eq_ok_iff.mp hbase
    have hknown : s.versioned?.getD b = s.version.elim b b.addVersion := by
      rw [versioned?, hb]
      cases s.version <;> rfl
    constructor
    · intro h
      exact ⟨b, hb, hroot, (Except.ok.inj h).symm.trans hknown⟩
    · rintro ⟨b', hb', _, rfl⟩
      obtain rfl : b = b' := Option.some.inj (hb.symm.trans hb')
      exact congrArg Except.ok hknown

theorem knownName_of_base (hb : s.base = some b) (hroot : b.isRoot = false) :
    s.knownName = .ok (s.version.elim b b.addVersion) :=
  knownName_eq_ok_iff.mpr ⟨b, hb, hroot, rfl⟩

/-- An object with a base knows its name, unless the base is the root. -/
theorem isRoot_of_knownName (hb : s.base = some b) (h : s.knownName = .error e) :
    b.isRoot = true := by
  cases hroot : b.isRoot with
  | true => rfl
  | false => cases h.symm.trans (knownName_of_base hb hroot)

/-- The name that is known is below the base. -/
theorem base_of_knownName (h : s.knownName = .ok n) : ∃ b, s.base = some b ∧ n.base = b.base := by
  obtain ⟨b, hb, -, rfl⟩ := knownName_eq_ok_iff.mp h
  refine ⟨b, hb, ?_⟩
  cases s.version with
  | none => rfl
  | some v => exact Name.base_append b.base v

/-! ### Later versions -/

/-- Only a version below the same base, which is not later than the one held, does not move an
object forward. -/
theorem isNewer_eq_false_iff :
    s.isNewer b v = false ↔ ∃ n u, s.base = some n ∧ s.version = some u ∧ n.base = b ∧ v ≤ u := by
  unfold isNewer
  cases s.base with
  | none => exact iff_of_false nofun nofun
  | some n =>
    cases s.version with
    | none => exact iff_of_false nofun nofun
    | some u =>
      have hle : ¬ u < v ↔ v ≤ u := UInt64.not_lt
      by_cases hbase : n.base = b
      · simp [hbase, hle]
      · simp [hbase]

theorem isNewer_of_version_eq_none (h : s.version = none) (b : Name) (v : Version) :
    s.isNewer b v = true := by
  cases hnew : s.isNewer b v with
  | true => rfl
  | false =>
    obtain ⟨_, u, _, hu, _⟩ := isNewer_eq_false_iff.mp hnew
    cases h.symm.trans hu

/-! ### Adopting -/

/-- The state after a version that moves the object forward was adopted. -/
def take (s : ObjectState α) (a : Adoption α) : ObjectState α :=
  { s with
    base := some a.base, version := some a.version
    publisher := some a.publisher, locator := some a.locator
    payload := a.payload, gone := a.payload.isNone, dirty := false, available := true }

theorem adopt_of_newer (h : s.isNewer a.base a.version = true) :
    s.adopt a = (true, s.take a) := by
  unfold adopt
  rw [if_pos h]
  rfl

theorem adopt_of_not_newer (h : s.isNewer a.base a.version = false) : s.adopt a = (false, s) := by
  unfold adopt
  rw [if_neg (by simp [h])]

/-- Adopting replaces everything, or does nothing. -/
theorem adopt_cases (s : ObjectState α) (a : Adoption α) :
    (s.isNewer a.base a.version = true ∧ s.adopt a = (true, s.take a)) ∨
    (s.isNewer a.base a.version = false ∧ s.adopt a = (false, s)) := by
  cases h : s.isNewer a.base a.version with
  | true => exact .inl ⟨rfl, adopt_of_newer h⟩
  | false => exact .inr ⟨rfl, adopt_of_not_newer h⟩

/-- An object that holds no version takes any that is offered. -/
theorem adopt_of_version_eq_none (h : s.version = none) (a : Adoption α) :
    s.adopt a = (true, s.take a) :=
  adopt_of_newer (isNewer_of_version_eq_none h _ _)

/-- An object that has adopted a version, or has not because it holds a later one, knows its name,
unless the version is right below the root. -/
theorem isRoot_of_knownName_adopt (h : (s.adopt a).2.knownName = .error e) :
    a.base.isRoot = true := by
  obtain ⟨_, hadopt⟩ | ⟨hnot, hadopt⟩ := adopt_cases s a
  · rw [hadopt] at h
    exact isRoot_of_knownName rfl h
  · rw [hadopt] at h
    obtain ⟨n, _, hn, _, hbase, _⟩ := isNewer_eq_false_iff.mp hnot
    rw [← hbase, Name.eq_root_of_isRoot (isRoot_of_knownName hn h)]
    rfl

theorem exists_knownName_adopt (h : a.base.isRoot = false) :
    ∃ n, (s.adopt a).2.knownName = .ok n := by
  cases hname : (s.adopt a).2.knownName with
  | ok n => exact ⟨n, rfl⟩
  | error e => cases h.symm.trans (isRoot_of_knownName_adopt hname)

/-! ### Saving -/

theorem value_eq_ok_iff {x : α} : s.value = .ok x ↔ s.gone = false ∧ s.payload = some x := by
  unfold value
  cases s.gone with
  | true => exact iff_of_false nofun nofun
  | false => cases s.payload <;> simp

/-- A save that begins takes along the base, the edit count and the version held, and the value of
an object that is dirty, unless it is of a tombstone. -/
theorem taken_of_beginSave {gone : Bool} {p : PendingSave α} (h : s.beginSave gone = .ok (some p)) :
    ∃ b, s.base = some b ∧ b.isRoot = false ∧
      (gone = true ∧ p = ⟨b, none, s.edits, s.version⟩ ∨
        gone = false ∧ s.dirty = true ∧
          ∃ x, s.value = .ok x ∧ p = ⟨b, some x, s.edits, s.version⟩) := by
  unfold beginSave at h
  cases hbase : s.requireBase with
  | error e =>
    rw [hbase] at h
    cases h
  | ok b =>
    obtain ⟨hb, hroot⟩ := requireBase_eq_ok_iff.mp hbase
    refine ⟨b, hb, hroot, ?_⟩
    rw [hbase] at h
    cases gone with
    | true =>
      cases h
      exact .inl ⟨rfl, rfl⟩
    | false =>
      cases hdirty : s.dirty with
      | false =>
        rw [hdirty] at h
        cases h
      | true =>
        rw [hdirty] at h
        cases hx : s.value with
        | error e =>
          rw [hx] at h
          cases h
        | ok x =>
          rw [hx] at h
          cases h
          exact .inr ⟨rfl, rfl, x, rfl, rfl⟩

/-- A save that begins is of a tombstone, or of the value of a dirty object. It takes the edit count
with it. -/
theorem begun_of_beginSave {gone : Bool} {p : PendingSave α} (h : s.beginSave gone = .ok (some p)) :
    (gone = true ∨ s.dirty = true ∧ s.payload.isSome = true) ∧
      p.value = (if gone then none else s.payload) ∧ p.edits = s.edits ∧
      s.base = some p.base ∧ p.base.isRoot = false ∧ p.version = s.version := by
  obtain ⟨b, hb, hroot, ⟨rfl, rfl⟩ | ⟨rfl, hdirty, x, hx, rfl⟩⟩ := taken_of_beginSave h
  · exact ⟨.inl rfl, rfl, rfl, hb, hroot, rfl⟩
  · obtain ⟨_, hpayload⟩ := value_eq_ok_iff.mp hx
    exact ⟨.inr ⟨hdirty, by rw [hpayload]; rfl⟩, hpayload.symm, rfl, hb, hroot, rfl⟩

/-- A tombstone can be saved at any time. -/
theorem beginSave_gone (hb : s.base = some b) (hroot : b.isRoot = false) :
    s.beginSave true = .ok (some ⟨b, none, s.edits, s.version⟩) := by
  unfold beginSave
  rw [requireBase_eq_ok_iff.mpr ⟨hb, hroot⟩]
  rfl

/-- The value of a dirty object can be saved. -/
theorem beginSave_of_dirty {x : α} (hb : s.base = some b) (hroot : b.isRoot = false)
    (hdirty : s.dirty = true) (hgone : s.gone = false) (hx : s.payload = some x) :
    s.beginSave false = .ok (some ⟨b, some x, s.edits, s.version⟩) := by
  unfold beginSave
  rw [requireBase_eq_ok_iff.mpr ⟨hb, hroot⟩, hdirty, value_eq_ok_iff.mpr ⟨hgone, hx⟩]
  rfl

/-- Recording a save replaces the version and its origin, or at most cleans the object. The four
cases: there is no name, the version moves the object forward, it does not but the value is still
the saved one, and it does not otherwise. -/
theorem commitSave_cases (s : ObjectState α) (v : SavedVersion) :
    (s.base = none ∧ s.commitSave v = (false, s)) ∨
    (∃ base, s.base = some base ∧ s.isNewer base.base v.version = true ∧
      s.commitSave v = (true, s.record base.base v)) ∨
    (∃ base, s.base = some base ∧ s.isNewer base.base v.version = false ∧
      v.gone = false ∧ s.edits = v.edits ∧ s.commitSave v = (false, { s with dirty := false })) ∨
    (∃ base, s.base = some base ∧ s.isNewer base.base v.version = false ∧
      (v.gone = true ∨ s.edits ≠ v.edits) ∧ s.commitSave v = (false, s)) := by
  unfold commitSave
  cases hb : s.base with
  | none => exact .inl ⟨rfl, rfl⟩
  | some base =>
    right
    cases hn : s.isNewer base.base v.version with
    | true => exact .inl ⟨base, rfl, hn, by simp [hn]⟩
    | false =>
      right
      by_cases hc : v.gone = false ∧ s.edits = v.edits
      · exact .inl ⟨base, rfl, hn, hc.1, hc.2, by simp [hn, hc.1, hc.2]⟩
      · refine .inr ⟨base, rfl, hn, ?_, ?_⟩
        · cases hg : v.gone with
          | true => exact .inl rfl
          | false => exact .inr fun he => hc ⟨hg, he⟩
        · have hc' : (!v.gone && s.edits == v.edits) = false := by
            rw [Bool.eq_false_iff]
            intro h
            apply hc
            simpa using h
          simp [hn, hc']

/-- A version that moves the object forward is recorded. -/
theorem commitSave_of_newer {v : SavedVersion} (hb : s.base = some b)
    (h : s.isNewer b.base v.version = true) : s.commitSave v = (true, s.record b.base v) := by
  unfold commitSave
  simp [hb, h]

/-- What a save that moved the object forward has recorded. -/
theorem record_of_accepted {v : SavedVersion} (h : (s.commitSave v).1 = true) :
    ∃ b, s.base = some b ∧ (s.commitSave v).2 = s.record b.base v := by
  rcases commitSave_cases s v with ⟨_, hc⟩ | ⟨b, hb, _, hc⟩ | ⟨_, _, _, _, _, hc⟩ | ⟨_, _, _, _, hc⟩
  · cases (congrArg Prod.fst hc).symm.trans h
  · exact ⟨b, hb, congrArg Prod.snd hc⟩
  · cases (congrArg Prod.fst hc).symm.trans h
  · cases (congrArg Prod.fst hc).symm.trans h

/-- A base without a version stays whatever is recorded. -/
theorem base_commitSave (hb : s.base = some b) (hplain : b.splitVersion? = none)
    (v : SavedVersion) : (s.commitSave v).2.base = some b := by
  rcases commitSave_cases s v with ⟨_, hc⟩ | ⟨m, hm, _, hc⟩ | ⟨_, _, _, _, _, hc⟩ | ⟨_, _, _, _, hc⟩
  · rw [hc]
    exact hb
  · obtain rfl : b = m := Option.some.inj (hb.symm.trans hm)
    rw [hc]
    exact congrArg some (Name.base_of_splitVersion?_eq_none hplain)
  · rw [hc]
    exact hb
  · rw [hc]
    exact hb

end ObjectState
end NamedContent
