import NamedContent.Proofs.Object.Following
import NamedContent.Proofs.Object.Origin

/-!
# Opening objects on a network of whole versions

An object that is opened from a fragment of a stored version mirrors the version
(`updateFragmentWith_adding`). A fresh object that is opened to read the name of a stored version
holds what the version tells, if its participant's keys verify it (`openObject_of_stores`).
-/

namespace NamedContent
namespace Session

variable [Suite] {α : Type} [Payload α] {bases : Name → Prop} {s s' : Session α} {id : ObjectId}
  {o : VersionedObject α} {waits : Waits α}

/-! ### New objects -/

/-- The session in which a participant with a repository opens an object. -/
def attaching (s : Session α) (repository : Option StoreId) : Session α :=
  match repository with
  | some store => s.withSupply (s.supply.attach store)
  | none => s

/-- The session with one more object, which has no value yet. -/
def adding (s : Session α) (o : VersionedObject α) : Session α :=
  { s with objects := s.objects ++ [(⟨s.opened⟩, o)], opened := s.opened + 1 }

theorem openObjectWith_eq (waits : Waits α) (s : Session α) (keys : KeyRing)
    (repository : Option StoreId) (c : ObjectConfig α) :
    s.openObjectWith waits keys repository c =
      match ((s.attaching repository).adding (prepare keys repository c)).giveFirstValueWith waits
        ⟨s.opened⟩ c with
      | (.ok _, s') => (.ok ⟨s.opened⟩, s')
      | (.error e, s') => (.error e, s'.drop ⟨s.opened⟩) := by
  cases repository <;> rfl

theorem openObject_eq (s : Session α) (keys : KeyRing) (repository : Option StoreId)
    (c : ObjectConfig α) :
    s.openObject keys repository c =
      match ((s.attaching repository).adding (prepare keys repository c)).giveFirstValue
        ⟨s.opened⟩ c with
      | (.ok _, s') => (.ok ⟨s.opened⟩, s')
      | (.error e, s') => (.error e, s'.drop ⟨s.opened⟩) :=
  openObjectWith_eq ..

omit [Suite] [Payload α] in
/-- A change of one object leaves the others. -/
@[simp] theorem object?_modifyObject_eq (s : Session α) (id i : ObjectId)
    (change : VersionedObject α → VersionedObject α) :
    (s.modifyObject id change).object? i =
      (s.object? i).map fun o => if i = id then change o else o := by
  unfold object? modifyObject
  dsimp only
  induction s.objects with
  | nil => rfl
  | cons e es ih =>
    obtain ⟨k, x⟩ := e
    cases hi : i == k with
    | true =>
      obtain rfl := beq_iff_eq.mp hi
      by_cases hk : i = id <;> simp [hk]
    | false =>
      have hkey : (if k = id then (k, change x) else (k, x)).1 = k := by split <;> rfl
      rw [List.map_cons, List.lookup_cons, hkey, hi, List.lookup_cons, hi]
      exact ih

omit [Suite] [Payload α] in
@[simp] theorem object?_modifyObject (h : s.object? id = some o)
    (change : VersionedObject α → VersionedObject α) :
    (s.modifyObject id change).object? id = some (change o) := by
  rw [object?_modifyObject_eq, h, Option.map_some, if_pos rfl]

omit [Payload α] in
/-- A repository that is served already plays no part. -/
theorem Following.attaching (h : s.Following bases id o) {repository : Option StoreId}
    (hserved : ∀ store, repository = some store → .store store ∈ s.supply.sources) :
    (s.attaching repository).Following bases id o ∧
      s.supply.Alike (s.attaching repository).supply ∧
      (s.attaching repository).opened = s.opened := by
  cases repository with
  | none => exact ⟨h, .refl _, rfl⟩
  | some store =>
    obtain ⟨hsound, halike⟩ := Supply.alike_attach h.hosts.sound (hserved store rfl)
    exact ⟨h.with_supply (h.hosts.of_alike halike hsound), halike, rfl⟩

omit [Suite] [Payload α] in
/-- The numbers of the objects of a session have been given out. -/
def Numbered (s : Session α) : Prop := ∀ e ∈ s.objects, e.1.index < s.opened

omit [Suite] [Payload α] in
theorem Numbered.lt_opened (h : s.Numbered) (ho : s.object? id = some o) : id.index < s.opened := by
  obtain ⟨e, he, heq⟩ : ∃ e ∈ s.objects, e.1 = id := by
    unfold object? at ho
    generalize s.objects = objects at ho ⊢
    induction objects with
    | nil => cases ho
    | cons e es ih =>
      by_cases he : id = e.1
      · exact ⟨e, List.mem_cons_self, he.symm⟩
      · rw [List.lookup_cons, beq_eq_false_iff_ne.mpr he] at ho
        obtain ⟨e', he', heq⟩ := ih ho
        exact ⟨e', List.mem_cons_of_mem _ he', heq⟩
  rw [← heq]
  exact h e he

omit [Suite] [Payload α] in
theorem numbered_modifyObject (h : s.Numbered) (id : ObjectId)
    (change : VersionedObject α → VersionedObject α) : (s.modifyObject id change).Numbered := by
  intro e he
  obtain ⟨e', he', rfl⟩ := List.mem_map.mp he
  have hlt := h e' he'
  split <;> exact hlt

omit [Suite] [Payload α] in
@[simp] theorem object?_adding (h : s.Numbered) (fresh : VersionedObject α) :
    (s.adding fresh).object? ⟨s.opened⟩ = some fresh := by
  have hne : ∀ e ∈ s.objects, ((⟨s.opened⟩ : ObjectId) == e.1) = false := by
    intro e he
    refine beq_eq_false_iff_ne.mpr fun heq => ?_
    have hlt := h e he
    rw [← heq] at hlt
    exact Nat.lt_irrefl _ hlt
  show List.lookup (⟨s.opened⟩ : ObjectId) (s.objects ++ [(⟨s.opened⟩, fresh)]) = some fresh
  generalize s.objects = objects at hne
  induction objects with
  | nil => simp
  | cons e es ih =>
    rw [List.cons_append, List.lookup_cons, hne e List.mem_cons_self]
    exact ih fun e he => hne e (List.mem_cons_of_mem _ he)

omit [Payload α] in
theorem Following.numbered (h : s.Following bases id o) : s.Numbered := by
  intro e he
  rw [h.objects_eq, List.mem_singleton] at he
  rw [he]
  exact h.opened_gt

/-- An object without a version that updates from a name which stands for a stored version takes
what the version tells. -/
theorem updateName_of_found (hobj : s.object? id = some o) (hnone : o.state.version = none)
    (hs : s.supply.Sound) {b n : Name} {u : Version} {p : Option Publisher} {key : PublicKey}
    {fs : List Fragment} (hst : s.supply.Stores (b.append u.toComponent) key fs)
    (hfound : s.supply.openVersioned? n p = .ok fs[0]?) {value : Option α}
    (htells : Tells fs value)
    (hkeys : s.supply.config.verify = true → ∀ f ∈ fs, Supply.verificationKey o.keys f = .ok key) :
    ∃ first ∈ fs, s.updateName id n p = (.ok true, s.modifyState id fun _ =>
      o.state.take ⟨b, u, first.publisher, first.info.locator, value⟩) := by
  have hpos := hst.edition.length_pos
  have hfirst : fs[0]? = some fs[0] := List.getElem?_eq_getElem hpos
  rw [hfirst] at hfound
  have hread : Reading.ofFirst s.supply o.keys fs[0] =
      .ok (.complete ⟨b, u, fs[0].publisher, fs[0].info.locator, value⟩) := by
    refine Reading.ofFirst_of_stores hs hst hfirst (fun f hf => ?_) htells
    exact verify_of_edition hst.edition hf fun hv => hkeys hv f hf
  refine ⟨fs[0], List.getElem_mem hpos, ?_⟩
  rw [updateName_eq, onObject]
  simp only [hobj, hfound, finish, hread, adopt_of_version_eq_none hobj hnone]

end Session
end NamedContent
