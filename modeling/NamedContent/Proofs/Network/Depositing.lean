import Mathlib.Data.Finset.Card
import NamedContent.Proofs.Network.Holding

/-!
# What is put on a network directly

Fragments are put on a network directly by publishing them or, for a writer, by putting all of them
or none. Both add the first fragment of the batch under each name that holds nothing yet, and count
those names (`publish_adds`). A put fails exactly if some name holds a different fragment
(`put_cases`). So direct content only grows (`get?_depositAll`), and what was deposited need not be
deposited again (`deposit_again`). `appendOnly_depositAll` is all of this together, after any
deposits.
-/

namespace NamedContent

/-- Fragments that are put on a network directly. -/
inductive Deposit where
  | publish (fs : List Fragment)
  /-- By a writer: all of them or, if a name holds a different one, none. -/
  | put (fs : List Fragment)

namespace Deposit

def fragments : Deposit → List Fragment
  | publish fs => fs
  | put fs => fs

/-- A writer's fragments, of which two different ones have one name. -/
def Contradictory : Deposit → Prop
  | publish _ => False
  | put fs => ∃ f ∈ fs, ∃ g ∈ fs, f.name = g.name ∧ f ≠ g

end Deposit

namespace Supply

variable {s s' : Supply} {d : Deposit} {fs : List Fragment} {f g : Fragment} {n : Name} {k : Nat}

/-- What a deposit answers, the number of added fragments or a fault, and the supply after it. -/
def deposit (s : Supply) : Deposit → Except NetworkError Nat × Supply
  | .publish fs => (.ok (s.publish fs).1, (s.publish fs).2)
  | .put fs =>
    match s.put fs with
    | .ok (added, s') => (.ok added, s')
    | .error e => (.error e, s)

def depositAll (s : Supply) (ds : List Deposit) : Supply := ds.foldl (fun s d => (s.deposit d).2) s

/-- The name of a fragment holds a different one. -/
def Differs (s : Supply) (f : Fragment) : Prop := ∃ g, s.direct.get? f.name = some g ∧ g ≠ f

/-- The names of some fragments that hold nothing. -/
def freeNames (content : NameMap Fragment) (fs : List Fragment) : Finset Name :=
  (fs.map Fragment.name).toFinset.filter fun n => content.get? n = none

/-- What adding fragments makes of a supply. Each free name takes the first fragment that has it,
and the number of these names is what is counted as added. Nothing else becomes of the supply, and
if there is nothing to add, nothing at all. -/
structure Adds (s : Supply) (fs : List Fragment) (added : Nat) (s' : Supply) : Prop where
  get?_eq : ∀ n, s'.direct.get? n = (s.direct.get? n).or (fs.find? fun f => f.name == n)
  added_eq : added = (freeNames s.direct fs).card
  supply_eq : s' = if added = 0 then s else { s with direct := s'.direct, changes := s.changes + 1 }

/-! ### Adding -/

@[simp] theorem mem_freeNames {content : NameMap Fragment} :
    n ∈ freeNames content fs ↔ (∃ f ∈ fs, f.name = n) ∧ content.get? n = none := by
  rw [freeNames, Finset.mem_filter, List.mem_toFinset, List.mem_map]

theorem freeNames_eq_empty_iff {content : NameMap Fragment} :
    freeNames content fs = ∅ ↔ ∀ f ∈ fs, ∃ g, content.get? f.name = some g := by
  rw [Finset.eq_empty_iff_forall_notMem]
  constructor
  · intro h f hf
    refine Option.ne_none_iff_exists'.mp fun hnone => ?_
    exact h f.name (mem_freeNames.mpr ⟨⟨f, hf, rfl⟩, hnone⟩)
  · intro h n hn
    obtain ⟨⟨f, hf, rfl⟩, hnone⟩ := mem_freeNames.mp hn
    obtain ⟨g, hg⟩ := h f hf
    rw [hnone] at hg
    cases hg

/-- A name that has taken a fragment is not counted again. -/
theorem addNew_fst (content : NameMap Fragment) (fs : List Fragment) :
    (addNew content fs).1 = (freeNames content fs).card := by
  induction fs generalizing content with
  | nil => rfl
  | cons f fs ih =>
    rw [addNew]
    split
    · next hheld =>
      have hsame : freeNames content (f :: fs) = freeNames content fs := by
        rw [freeNames, List.map_cons, List.toFinset_cons, Finset.filter_insert, if_neg, freeNames]
        exact Option.isSome_iff_ne_none.mp hheld
      rw [hsame, ih]
    · next hnot =>
      have hfree : content.get? f.name = none := Option.not_isSome_iff_eq_none.mp hnot
      have hinsert : freeNames content (f :: fs) =
          insert f.name (freeNames (content.insertNew f.name f) fs) := by
        ext n
        rw [Finset.mem_insert, mem_freeNames, mem_freeNames]
        by_cases hn : n = f.name
        · simp [hn, hfree]
        · rw [NameMap.get?_insertNew_of_ne _ hn]
          simp [hn, Ne.symm hn]
      -- What comes later under this name finds it taken.
      have htaken : f.name ∉ freeNames (content.insertNew f.name f) fs := by
        rw [mem_freeNames, NameMap.get?_insertNew_self]
        simp
      rw [hinsert, Finset.card_insert_of_notMem htaken, ← ih]

theorem publish_adds (s : Supply) (fs : List Fragment) :
    s.Adds fs (s.publish fs).1 (s.publish fs).2 := by
  obtain ⟨c, hc⟩ := s.publish_eq fs
  refine ⟨fun n => ?_, addNew_fst s.direct fs, ?_⟩
  · rw [hc]
    exact get?_addNew s.direct fs n
  · unfold publish
    dsimp only
    split <;> rfl

theorem Adds.get? (h : s.Adds fs k s') (hf : s.direct.get? n = some f) :
    s'.direct.get? n = some f := by
  rw [h.get?_eq, hf, Option.some_or]

/-- The names of the fragments are taken then. -/
theorem Adds.exists_get? (h : s.Adds fs k s') (hf : f ∈ fs) :
    ∃ g, s'.direct.get? f.name = some g := by
  refine Option.ne_none_iff_exists'.mp fun hnone => ?_
  rw [h.get?_eq, Option.or_eq_none_iff, List.find?_eq_none] at hnone
  exact hnone.2 f hf (beq_self_eq_true f.name)

/-- Where all names are taken, publishing adds nothing. -/
theorem publish_of_taken (h : ∀ f ∈ fs, ∃ g, s.direct.get? f.name = some g) :
    s.publish fs = (0, s) := by
  have hadds := s.publish_adds fs
  have hzero : (s.publish fs).1 = 0 := by
    rw [hadds.added_eq, freeNames_eq_empty_iff.mpr h, Finset.card_empty]
  have hsame := hadds.supply_eq
  rw [if_pos hzero] at hsame
  exact Prod.ext hzero hsame

/-! ### Putting -/

theorem differs_iff : ((s.direct.get? f.name).any fun g => g != f) = true ↔ s.Differs f := by
  rw [Option.any_eq_true, Differs]
  simp only [bne_iff_ne]

/-- A put fails if it has a fragment whose name holds a different one; otherwise it publishes. -/
theorem put_cases (s : Supply) (fs : List Fragment) :
    (∃ f ∈ fs, s.Differs f ∧ s.put fs = .error (.writeConflict f.name)) ∨
      (∀ f ∈ fs, ¬ s.Differs f) ∧ s.put fs = .ok (s.publish fs) := by
  unfold put
  cases hclash : s.clash? fs with
  | some f =>
    have hdiffers := List.find?_some hclash
    exact .inl ⟨f, List.mem_of_find?_eq_some hclash, differs_iff.mp hdiffers, rfl⟩
  | none =>
    exact .inr ⟨fun f hf hd => List.find?_eq_none.mp hclash f hf (differs_iff.mpr hd), rfl⟩

/-- Once a writer's fragments were put, one of them differs from what its name holds exactly if two
of them have one name. -/
theorem Adds.differs_iff_contradictory (h : s.Adds fs k s') (hput : ∀ f ∈ fs, ¬ s.Differs f) :
    (∃ f ∈ fs, s'.Differs f) ↔ (Deposit.put fs).Contradictory := by
  constructor
  · rintro ⟨f, hf, g, hg, hne⟩
    rw [h.get?_eq, Option.or_eq_some_iff] at hg
    rcases hg with hold | ⟨-, hnew⟩
    · exact absurd ⟨g, hold, hne⟩ (hput f hf)
    · exact ⟨g, List.mem_of_find?_eq_some hnew, f, hf, by simpa using List.find?_some hnew, hne⟩
  · rintro ⟨f, hf, g, hg, hname, hne⟩
    obtain ⟨held, hheld⟩ := h.exists_get? hf
    by_cases hsame : held = f
    · refine ⟨g, hg, held, ?_, fun hheldg => hne (hsame.symm.trans hheldg)⟩
      rw [← hname]
      exact hheld
    · exact ⟨f, hf, held, hheld, hsame⟩

/-! ### Depositing -/

/-- A deposit fails and changes nothing, if a writer's fragment differs from what its name holds, or
adds its fragments. -/
theorem deposit_cases (s : Supply) (d : Deposit) :
    (∃ fs, d = .put fs ∧ ∃ f ∈ fs, s.Differs f ∧
      s.deposit d = (.error (.writeConflict f.name), s)) ∨
    (∀ fs, d = .put fs → ∀ f ∈ fs, ¬ s.Differs f) ∧
      ∃ k s', s.deposit d = (.ok k, s') ∧ s.Adds d.fragments k s' := by
  cases d with
  | publish fs => exact .inr ⟨nofun, _, _, rfl, s.publish_adds fs⟩
  | put fs =>
    rcases s.put_cases fs with ⟨f, hf, hd, hput⟩ | ⟨hno, hput⟩
    · refine .inl ⟨fs, rfl, f, hf, hd, ?_⟩
      rw [deposit, hput]
    · refine .inr ⟨fun gs hgs => ?_, _, _, ?_, s.publish_adds fs⟩
      · cases hgs
        exact hno
      · rw [deposit, hput]

theorem get?_deposit (h : s.direct.get? n = some f) (d : Deposit) :
    (s.deposit d).2.direct.get? n = some f := by
  rcases s.deposit_cases d with ⟨_, _, _, _, _, hfail⟩ | ⟨_, k, s', hok, hadds⟩
  · rw [hfail]
    exact h
  · rw [hok]
    exact hadds.get? h

/-- A name that holds a fragment keeps it, whatever is deposited. -/
theorem get?_depositAll (h : s.direct.get? n = some f) (ds : List Deposit) :
    (s.depositAll ds).direct.get? n = some f := by
  induction ds generalizing s with
  | nil => exact h
  | cons d ds ih => exact ih (get?_deposit h d)

/-- A deposit that succeeded adds nothing when it is made once more. If it has two different
fragments of one name, it fails then. -/
theorem deposit_again (h : s.deposit d = (.ok k, s')) :
    (¬ d.Contradictory → s'.deposit d = (.ok 0, s')) ∧
      (d.Contradictory → ∃ n, s'.deposit d = (.error (.writeConflict n), s')) := by
  rcases s.deposit_cases d with ⟨_, _, _, _, _, hfail⟩ | ⟨hput, k', t, hok, hadds⟩
  · rw [hfail] at h
    cases h
  · obtain ⟨rfl, rfl⟩ : k' = k ∧ t = s' := by
      rw [hok] at h
      cases h
      exact ⟨rfl, rfl⟩
    -- Nothing is free any more, so only a conflict within the batch can come of it.
    have hpublish := publish_of_taken fun f hf => hadds.exists_get? hf
    cases d with
    | publish fs =>
      refine ⟨fun _ => ?_, False.elim⟩
      rw [Deposit.fragments] at hpublish
      rw [deposit, hpublish]
    | put fs =>
      have hiff := hadds.differs_iff_contradictory (hput fs rfl)
      rw [Deposit.fragments] at hpublish
      rcases t.put_cases fs with ⟨f, hf, hd, hagain⟩ | ⟨hno, hagain⟩
      · refine ⟨fun hnot => absurd (hiff.mp ⟨f, hf, hd⟩) hnot, fun _ => ⟨f.name, ?_⟩⟩
        rw [deposit, hagain]
      · refine ⟨fun _ => ?_, fun hc => ?_⟩
        · rw [deposit, hagain, hpublish]
        · obtain ⟨f, hf, hd⟩ := hiff.mpr hc
          exact absurd hd (hno f hf)

/-- Direct content only grows. Whatever is deposited, a name that holds a fragment keeps it. A
further deposit fails exactly if it is a writer's and the name of one of its fragments holds a
different one, and then nothing changes. Otherwise it adds the first fragment of each free name and
answers how many these are; made once more it adds nothing, unless it has two different fragments of
one name itself, so that it fails. -/
theorem appendOnly_depositAll (s : Supply) (ds : List Deposit) :
    let t := s.depositAll ds
    (∀ n f, s.direct.get? n = some f → t.direct.get? n = some f) ∧
    ∀ d : Deposit,
      ((∃ e, (t.deposit d).1 = .error e) ↔ ∃ fs, d = .put fs ∧ ∃ f ∈ fs, t.Differs f) ∧
      (∀ e u, t.deposit d = (.error e, u) →
        u = t ∧ ∃ f ∈ d.fragments, t.Differs f ∧ e = .writeConflict f.name) ∧
      ∀ k u, t.deposit d = (.ok k, u) →
        t.Adds d.fragments k u ∧ (¬ d.Contradictory → u.deposit d = (.ok 0, u)) ∧
          (d.Contradictory → ∃ n, u.deposit d = (.error (.writeConflict n), u)) := by
  intro t
  refine ⟨fun n f h => get?_depositAll h ds, fun d => ?_⟩
  -- A deposit fails and changes nothing, or it adds; each clause is about one of these ends.
  rcases t.deposit_cases d with ⟨fs, rfl, f, hf, hd, hfail⟩ | ⟨hput, k, u, hok, hadds⟩
  · refine ⟨⟨fun _ => ⟨fs, rfl, f, hf, hd⟩, fun _ => ⟨_, congrArg Prod.fst hfail⟩⟩, ?_, ?_⟩
    · intro e u h
      rw [hfail] at h
      cases h
      exact ⟨rfl, f, hf, hd, rfl⟩
    · intro k u h
      rw [hfail] at h
      cases h
  · refine ⟨⟨?_, ?_⟩, ?_, ?_⟩
    · rintro ⟨e, he⟩
      rw [hok] at he
      cases he
    · rintro ⟨fs, rfl, f, hf, hd⟩
      exact absurd hd (hput fs rfl f hf)
    · intro e u h
      rw [hok] at h
      cases h
    · intro k' u' h
      have hagain := deposit_again h
      rw [hok] at h
      cases h
      exact ⟨hadds, hagain⟩

end Supply
end NamedContent
