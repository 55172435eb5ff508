import Mathlib.Data.List.Chain
import Mathlib.Data.List.Induction
import NamedContent.Proofs.Name.Profile
import NamedContent.Proofs.Object.State

/-!
# An object moves forward only

Two operations give an object another version: it adopts one that was read, and it records one that
it saved itself. Both ask first whether the version moves the object forward. Under one unversioned
base name the answer is the order of the versions (`isNewer_iff`), whatever form of the name the
object started from, because both bases are compared without their versions.

`Advances` says what one change does to a state: which versions are accepted, which version is held
afterwards, and what a refusal leaves as it was. The main statement, `advances_of_run`, says this
of every change of every run, and that the versions accepted along the run are strictly
increasing and end in the version held.
-/

namespace NamedContent

variable {α : Type}

namespace Version

theorem lt_trans {u v w : Version} (h : u < v) (h' : v < w) : u < w :=
  UInt64.lt_trans h h'

instance : @Trans Version Version Version (· < ·) (· < ·) (· < ·) := ⟨lt_trans⟩

end Version

/-- What can change an object's state: an edit, a version that was read, or one that was saved. -/
inductive Change (α : Type) where
  | edit (x : α)
  | adopt (a : Adoption α)
  | commit (v : SavedVersion)

namespace Change

/-- The version that a change offers to the object. -/
def version? : Change α → Option Version
  | .edit _ => none
  | .adopt a => some a.version
  | .commit v => some v.version

def isEdit : Change α → Bool
  | .edit _ => true
  | _ => false

/-- Versions that were read are of a base name. A save is of the base name of the object itself. -/
def Under (b : Name) : Change α → Prop
  | .adopt a => a.base = b
  | _ => True

end Change

namespace ObjectState

/-! ### One change -/

/-- Whether the object takes over the version that a change offers. -/
def accepts (s : ObjectState α) : Change α → Bool
  | .edit _ => false
  | .adopt a => (s.adopt a).1
  | .commit v => (s.commitSave v).1

def after (s : ObjectState α) : Change α → ObjectState α
  | .edit x => s.setPayload x
  | .adopt a => (s.adopt a).2
  | .commit v => (s.commitSave v).2

/-- The object has a name, and without its version that is `b`. -/
def Under (s : ObjectState α) (b : Name) : Prop := ∃ n, s.base = some n ∧ n.base = b

/-- Under an unversioned base name, what moves the object forward is a first version or a later
one. -/
theorem isNewer_iff {s : ObjectState α} {b : Name} (hs : s.Under b) (v : Version) :
    s.isNewer b v = true ↔ s.version = none ∨ ∃ held, s.version = some held ∧ held < v := by
  obtain ⟨n, hn, hb⟩ := hs
  unfold isNewer
  rw [hn]
  cases s.version with
  | none => simp
  | some held => simp [hb]

theorem Under.base_eq {s : ObjectState α} {b n : Name} (hs : s.Under b)
    (hn : s.base = some n) : n.base = b := by
  obtain ⟨m, hm, hb⟩ := hs
  rw [hn] at hm
  cases hm
  exact hb

/-- What a change does to a state that it meets. -/
structure Advances (s : ObjectState α) (c : Change α) : Prop where
  /-- A version is accepted exactly if it is the first one or later than the one held. -/
  accepts_iff : ∀ v, c.version? = some v →
    (s.accepts c = true ↔ s.version = none ∨ ∃ held, s.version = some held ∧ held < v)
  /-- What is accepted was offered, and is held from then on. -/
  version_of_accepts : s.accepts c = true →
    c.version?.isSome = true ∧ (s.after c).version = c.version?
  /-- Otherwise the version stays. -/
  version_of_refuses : s.accepts c = false → (s.after c).version = s.version
  /-- A version that was read and refused leaves everything as it was. -/
  adopt_refused : ∀ a, c = .adopt a → s.accepts c = false → s.after c = s
  /-- A save that was refused leaves everything as it was, or it cleans the object, and then no edit
  was made since the save took its value. -/
  commit_refused : ∀ v, c = .commit v → s.accepts c = false →
    s.after c = s ∨
      (v.gone = false ∧ s.edits = v.edits ∧ s.after c = { s with dirty := false })

theorem advances_edit (s : ObjectState α) (x : α) : s.Advances (.edit x) where
  accepts_iff _ h := by cases h
  version_of_accepts h := by cases h
  version_of_refuses _ := rfl
  adopt_refused _ h := by cases h
  commit_refused _ h := by cases h

theorem advances_adopt {s : ObjectState α} {a : Adoption α} (hs : s.Under a.base) :
    s.Advances (.adopt a) where
  accepts_iff v hv := by
    cases hv
    rw [← isNewer_iff hs]
    obtain ⟨hn, h⟩ | ⟨hn, h⟩ := adopt_cases s a <;> simp [accepts, h, hn]
  version_of_accepts hacc := by
    obtain ⟨_, h⟩ | ⟨_, h⟩ := adopt_cases s a
    · simp [after, h, take, Change.version?]
    · simp [accepts, h] at hacc
  version_of_refuses hacc := by
    obtain ⟨_, h⟩ | ⟨_, h⟩ := adopt_cases s a
    · simp [accepts, h] at hacc
    · simp [after, h]
  adopt_refused a' ha hacc := by
    cases ha
    obtain ⟨_, h⟩ | ⟨_, h⟩ := adopt_cases s a
    · simp [accepts, h] at hacc
    · simp [after, h]
  commit_refused _ h := by cases h

theorem advances_commit {s : ObjectState α} {b : Name} (hs : s.Under b) (v : SavedVersion) :
    s.Advances (.commit v) := by
  obtain ⟨n, hn, hb⟩ := hs
  have hnewer := isNewer_iff ⟨n, hn, hb⟩ v.version
  rcases commitSave_cases s v with ⟨h, _⟩ | ⟨m, hm, hnew, h⟩ | ⟨m, hm, hnew, hg, he, h⟩ |
    ⟨m, hm, hnew, _, h⟩
  · rw [hn] at h
    cases h
  -- In the other cases the base name that the version is compared under is `b`.
  all_goals
    obtain rfl : n = m := Option.some.inj (hn.symm.trans hm)
    rw [hb] at hnew
    rw [hnew] at hnewer
  · exact
      { accepts_iff := fun w hw => by cases hw; simpa [accepts, h] using hnewer
        version_of_accepts := fun _ => by simp [after, h, record, Change.version?]
        version_of_refuses := fun hacc => by simp [accepts, h] at hacc
        adopt_refused := fun _ hc => by cases hc
        commit_refused := fun _ _ hacc => by simp [accepts, h] at hacc }
  · exact
      { accepts_iff := fun w hw => by cases hw; simpa [accepts, h] using hnewer
        version_of_accepts := fun hacc => by simp [accepts, h] at hacc
        version_of_refuses := fun _ => by simp [after, h]
        adopt_refused := fun _ hc => by cases hc
        commit_refused := fun w hw _ => by cases hw; exact .inr ⟨hg, he, by simp [after, h]⟩ }
  · exact
      { accepts_iff := fun w hw => by cases hw; simpa [accepts, h] using hnewer
        version_of_accepts := fun hacc => by simp [accepts, h] at hacc
        version_of_refuses := fun _ => by simp [after, h]
        adopt_refused := fun _ hc => by cases hc
        commit_refused := fun _ _ _ => .inl (by simp [after, h]) }

theorem advances {s : ObjectState α} {b : Name} (hs : s.Under b) {c : Change α}
    (hc : c.Under b) : s.Advances c := by
  cases c with
  | edit x => exact advances_edit s x
  | adopt a =>
    cases hc
    exact advances_adopt hs
  | commit v => exact advances_commit hs v

/-- Every change leaves the object under the base name. This is where the base name has to be
unversioned: a recorded save moves the object to the base of its name. -/
theorem under_after {s : ObjectState α} {b : Name} (hb : b.splitVersion? = none) (hs : s.Under b)
    {c : Change α} (hc : c.Under b) : (s.after c).Under b := by
  have hbase := Name.base_of_splitVersion?_eq_none hb
  cases c with
  | edit x => exact hs
  | adopt a =>
    obtain ⟨_, h⟩ | ⟨_, h⟩ := adopt_cases s a
    · refine ⟨a.base, by simp [after, h, take], ?_⟩
      rw [show a.base = b from hc, hbase]
    · simpa [after, h] using hs
  | commit v =>
    rcases commitSave_cases s v with ⟨_, h⟩ | ⟨m, hm, _, h⟩ | ⟨_, _, _, _, _, h⟩ | ⟨_, _, _, _, h⟩
    · simpa [after, h] using hs
    · refine ⟨m.base, by simp [after, h, record], ?_⟩
      rw [hs.base_eq hm, hbase]
    · rw [after, h]
      exact hs
    · simpa [after, h] using hs

/-- The edit count counts the edits. -/
theorem edits_after (s : ObjectState α) (c : Change α) :
    (s.after c).edits = s.edits + (if c.isEdit then 1 else 0) := by
  cases c with
  | edit x => rfl
  | adopt a => obtain ⟨_, h⟩ | ⟨_, h⟩ := adopt_cases s a <;> simp [after, h, take, Change.isEdit]
  | commit v =>
    rcases commitSave_cases s v with
      ⟨_, h⟩ | ⟨_, _, _, h⟩ | ⟨_, _, _, _, _, h⟩ | ⟨_, _, _, _, h⟩ <;>
      simp [after, h, record, Change.isEdit]

/-! ### Whole runs -/

def undergo (s : ObjectState α) (changes : List (Change α)) : ObjectState α :=
  changes.foldl after s

/-- The versions that are accepted along a run. -/
def accepted (s : ObjectState α) : List (Change α) → List Version
  | [] => []
  | c :: cs => (if s.accepts c then c.version?.toList else []) ++ (s.after c).accepted cs

theorem undergo_concat (s : ObjectState α) (past : List (Change α)) (c : Change α) :
    s.undergo (past ++ [c]) = (s.undergo past).after c := by
  simp [undergo]

@[simp] theorem undergo_append (s : ObjectState α) (past rest : List (Change α)) :
    s.undergo (past ++ rest) = (s.undergo past).undergo rest :=
  List.foldl_append

theorem accepted_concat (s : ObjectState α) (past : List (Change α)) (c : Change α) :
    s.accepted (past ++ [c]) =
      s.accepted past ++ if (s.undergo past).accepts c then c.version?.toList else [] := by
  induction past generalizing s with
  | nil => exact List.append_nil _
  | cons d past ih =>
    rw [List.cons_append, accepted, accepted, ih, List.append_assoc]
    rfl

theorem under_undergo {s : ObjectState α} {b : Name} (hb : b.splitVersion? = none)
    (hs : s.Under b) {changes : List (Change α)} (hc : ∀ c ∈ changes, c.Under b) :
    (s.undergo changes).Under b := by
  induction changes generalizing s with
  | nil => exact hs
  | cons c rest ih =>
    obtain ⟨hc, hrest⟩ := List.forall_mem_cons.mp hc
    exact ih (under_after hb hs hc) hrest

@[simp] theorem edits_undergo (s : ObjectState α) (changes : List (Change α)) :
    (s.undergo changes).edits = s.edits + changes.countP Change.isEdit := by
  induction changes generalizing s with
  | nil => rfl
  | cons c rest ih =>
    have h := ih (s.after c)
    rw [edits_after] at h
    rw [List.countP_cons, undergo, List.foldl_cons]
    rw [undergo] at h
    omega

/-- If the edit count is what it was, then nothing was edited. -/
theorem not_isEdit_of_edits_eq {s : ObjectState α} {since : List (Change α)}
    (h : (s.undergo since).edits = s.edits) : ∀ c ∈ since, c.isEdit = false := by
  rw [edits_undergo] at h
  intro c hc
  have hzero : since.countP Change.isEdit = 0 := by omega
  simpa using List.countP_eq_zero.mp hzero c hc

/-- The versions accepted since an object was without one are strictly increasing, and the last of
them is held. -/
theorem increasing_accepted {s : ObjectState α} {b : Name} (hb : b.splitVersion? = none)
    (hs : s.Under b) (hnone : s.version = none) {changes : List (Change α)}
    (hc : ∀ c ∈ changes, c.Under b) :
    (s.accepted changes).IsChain (· < ·) ∧
      (s.undergo changes).version = (s.accepted changes).getLast? := by
  induction changes using List.reverseRecOn with
  | nil => exact ⟨.nil, hnone⟩
  | append_singleton past c ih =>
    obtain ⟨hpast, hlast⟩ := ih fun d hd => hc d (List.mem_append_left _ hd)
    have hadv : (s.undergo past).Advances c :=
      advances (under_undergo hb hs fun d hd => hc d (List.mem_append_left _ hd))
        (hc c List.mem_concat_self)
    rw [accepted_concat, undergo_concat]
    cases hacc : (s.undergo past).accepts c with
    | false =>
      rw [hadv.version_of_refuses hacc, hlast]
      simpa using hpast
    | true =>
      obtain ⟨hsome, hheld⟩ := hadv.version_of_accepts hacc
      obtain ⟨v, hv⟩ := Option.isSome_iff_exists.mp hsome
      rw [hheld, hv]
      refine ⟨List.isChain_append.mpr ⟨hpast, .singleton v, ?_⟩, by simp⟩
      intro u hu w hw
      obtain rfl : v = w := by simpa using hw
      -- What was accepted last is held, and `v` was accepted over it.
      rw [← hlast] at hu
      rcases (hadv.accepts_iff v hv).mp hacc with h | ⟨held, h, hlt⟩
      · rw [h] at hu
        cases hu
      · rw [h] at hu
        cases hu
        exact hlt

/-- Along every run of an object under an unversioned base name, opened under that name or a
versioned form of it: every change does what `Advances` says; a refused save cleans the object only
if no edit was made since a state that had the edit count of the save; and the accepted versions are
strictly increasing and end in the version held. -/
theorem advances_of_run {b n : Name} (hb : b.splitVersion? = none) (hn : n.base = b)
    {changes : List (Change α)} (hc : ∀ c ∈ changes, c.Under b) :
    (∀ past c, past ++ [c] <+: changes →
      ((new (some n)).undergo past).Advances c ∧
      ∀ v early since, c = .commit v → ((new (some n)).undergo past).accepts c = false →
        ((new (some n)).undergo past).after c ≠ (new (some n)).undergo past →
        past = early ++ since → ((new (some n)).undergo early).edits = v.edits →
        ∀ d ∈ since, d.isEdit = false) ∧
      ((new (some n)).accepted changes).Pairwise (· < ·) ∧
      ((new (some n)).undergo changes).version = ((new (some n)).accepted changes).getLast? := by
  have hs : (new (some n) : ObjectState α).Under b := ⟨n, rfl, hn⟩
  obtain ⟨hchain, hlast⟩ := increasing_accepted hb hs rfl hc
  refine ⟨?_, List.isChain_iff_pairwise.mp hchain, hlast⟩
  intro past c hpast
  have hadv : ((new (some n)).undergo past).Advances c := by
    apply advances (under_undergo hb hs ?_) (hc c (hpast.subset List.mem_concat_self))
    exact fun d hd => hc d (hpast.subset (List.mem_append_left _ hd))
  refine ⟨hadv, ?_⟩
  intro v early since hcommit hrefused hchanged hsplit hedits
  rcases hadv.commit_refused v hcommit hrefused with h | ⟨_, he, _⟩
  · exact absurd h hchanged
  · apply not_isEdit_of_edits_eq (s := (new (some n)).undergo early)
    rw [← undergo_append, ← hsplit, he, hedits]

section

def pages : Name := ⟨[.ofText "pages"]⟩

def reader : Publisher := ⟨.replicate 32 1⟩

/-- A value is saved and edited again; then an earlier version is read, and the second save is
recorded as a later one. -/
def savesAroundRead : List (Change String) :=
  [.edit "a", .commit ⟨⟨5⟩, reader, .named pages none, false, 1⟩, .edit "b",
    .adopt ⟨pages, ⟨4⟩, reader, .named pages none, some "c"⟩,
    .commit ⟨⟨9⟩, reader, .named pages none, false, 2⟩]

theorem advances_of_run_savesAroundRead :
    pages.splitVersion? = none ∧ (pages.addVersion ⟨3⟩).base = pages ∧
      (∀ c ∈ savesAroundRead, c.Under pages) ∧
      (new (some (pages.addVersion ⟨3⟩))).accepted savesAroundRead = [⟨5⟩, ⟨9⟩] ∧
      ((new (some (pages.addVersion ⟨3⟩))).accepted savesAroundRead).Pairwise (· < ·) ∧
      ((new (some (pages.addVersion ⟨3⟩))).undergo savesAroundRead).version =
        ((new (some (pages.addVersion ⟨3⟩))).accepted savesAroundRead).getLast? ∧
      ∀ past c, past ++ [c] <+: savesAroundRead →
        ((new (some (pages.addVersion ⟨3⟩))).undergo past).Advances c := by
  have hb : pages.splitVersion? = none := rfl
  have hn : (pages.addVersion ⟨3⟩).base = pages := rfl
  have hc : ∀ c ∈ savesAroundRead, c.Under pages := by
    simp [savesAroundRead, Change.Under]
  obtain ⟨heach, hincreasing, hlast⟩ := advances_of_run hb hn hc
  exact ⟨hb, hn, hc, rfl, hincreasing, hlast, fun past c hp => (heach past c hp).1⟩

end

end ObjectState
end NamedContent
