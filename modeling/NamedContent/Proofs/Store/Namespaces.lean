import Mathlib.Data.List.Dedup
import Mathlib.Data.List.Sort
import NamedContent.Proofs.Name.Map
import NamedContent.Proofs.Name.Uri
import NamedContent.Proofs.Store.FirstWrite

/-!
# The namespaces of a store

A store remembers the namespaces that it was asked to serve. In memory they are a set of names, and
all of them are listed, each once and in canonical order. In tables they are told apart by their
keys but read back from their URIs, so they are listed without the empty components at their ends,
and nothing is listed if a namespace has an empty component between two others
(`TableStore.Remembers.listNamespaces`). So a table store lists what it was asked to serve exactly
if no namespace has an empty component (`Store.namespaces_of_added`).
-/

namespace NamedContent

/-! ### Sorted names -/

namespace Name

theorem pairwise_sort (names : List Name) :
    (sort names).Pairwise fun a b => (compare a b).isLE = true :=
  List.pairwise_mergeSort (fun _ _ _ => Std.TransCmp.isLE_trans) isLE_total names

/-- A list in canonical order is what sorting its elements gives. -/
theorem sort_eq_of_perm {names sorted : List Name} (h : sorted.Perm names)
    (hsorted : sorted.Pairwise fun a b => (compare a b).isLE = true) : sort names = sorted := by
  apply List.Perm.eq_of_pairwise _ (pairwise_sort names) hsorted
  · exact (List.mergeSort_perm names _).trans h.symm
  · intro a b _ _ hab hba
    exact Std.LawfulEqOrd.eq_of_compare (Std.OrientedCmp.isLE_antisymm hab hba)

theorem sort_congr {names names' : List Name} (h : names.Perm names') : sort names = sort names' :=
  sort_eq_of_perm ((List.mergeSort_perm names' _).trans h.symm) (pairwise_sort names')

/-- Names in strictly ascending order are those of any list with the same elements, each once. -/
theorem sort_dedup_eq {names ps : List Name}
    (hascending : names.Pairwise fun a b => compare a b = .lt) (hmem : ∀ p, p ∈ names ↔ p ∈ ps) :
    sort ps.dedup = names := by
  apply sort_eq_of_perm
  · have hnodup : names.Nodup := by
      refine List.Pairwise.imp ?_ hascending
      rintro a _ hab rfl
      rw [Std.ReflOrd.compare_self] at hab
      cases hab
    rw [List.perm_ext_iff_of_nodup hnodup (List.nodup_dedup ps)]
    intro p
    rw [hmem, List.mem_dedup]
  · refine hascending.imp fun hab => ?_
    rw [hab]
    rfl

end Name

/-- Whether some name of a list is a prefix depends on its elements. -/
theorem any_eq_of_mem_iff {names ps : List Name} (h : ∀ p, p ∈ names ↔ p ∈ ps) (f : Name → Bool) :
    names.any f = ps.any f := by
  rw [Bool.eq_iff_iff, List.any_eq_true, List.any_eq_true]
  exact exists_congr fun p => and_congr_left fun _ => h p

/-! ### In memory -/

namespace NameSet

theorem mem_names_add {s : NameSet} {p q : Name} : q ∈ (s.add p).names ↔ q ∈ s.names ∨ q = p := by
  have hmem : ∀ {t : NameSet} {n : Name}, n ∈ t.names ↔ (n, ()) ∈ t.entries := by
    intro t n
    constructor
    · intro hn
      obtain ⟨e, he, rfl⟩ := List.mem_map.mp hn
      exact he
    · intro hn
      exact List.mem_map.mpr ⟨_, hn, rfl⟩
  rw [hmem, hmem]
  refine (NameMap.mem_insertEntry_iff s.ascending).trans ?_
  constructor
  · rintro (hq | ⟨hq, _⟩)
    · exact .inl hq
    · exact .inr (congrArg Prod.fst hq)
  · rintro (hq | rfl)
    · exact .inl hq
    · by_cases hin : (q, ()) ∈ s.entries
      · exact .inl hin
      · exact .inr ⟨rfl, fun _ => hin⟩

theorem mem_names_foldl_add {s : NameSet} {ps : List Name} {q : Name} :
    q ∈ (ps.foldl add s).names ↔ q ∈ s.names ∨ q ∈ ps := by
  induction ps generalizing s with
  | nil => simp
  | cons p ps ih => rw [List.foldl_cons, ih, mem_names_add, List.mem_cons, or_assoc]

theorem ascending_names (s : NameSet) : s.names.Pairwise fun a b => compare a b = .lt :=
  List.pairwise_map.mpr s.ascending

end NameSet

/-! ### In tables -/

namespace TableStore

variable {t : TableStore} {ds ps : List Name} {p : Name}

/-- The rows of namespaces are those of some different names. -/
structure Remembers (t : TableStore) (ds : List Name) : Prop where
  rows_eq : t.namespaces = ds.map fun p => (p.key, p.toUri)
  nodup : ds.Nodup
  short : ∀ p ∈ ds, p.Short

/-- A namespace is remembered from now on. -/
theorem Remembers.add (h : t.Remembers ds) (hp : p.Short) :
    ∃ ds', (t.addNamespace p).Remembers ds' ∧ ∀ q, q ∈ ds' ↔ q ∈ ds ∨ q = p := by
  -- Rows are told apart by their keys, and short names by theirs.
  have hany : (t.namespaces.any fun e => e.1 == p.key) = true ↔ p ∈ ds := by
    rw [h.rows_eq, List.any_map, List.any_eq_true]
    constructor
    · rintro ⟨q, hq, hkey⟩
      rw [← Name.key_injective (h.short q hq) hp (beq_iff_eq.mp hkey)]
      exact hq
    · intro hin
      exact ⟨p, hin, beq_self_eq_true _⟩
  unfold addNamespace
  by_cases hin : p ∈ ds
  · rw [if_pos (hany.mpr hin)]
    refine ⟨ds, h, fun q => ⟨.inl, ?_⟩⟩
    rintro (hq | rfl)
    · exact hq
    · exact hin
  · rw [if_neg (mt hany.mp hin)]
    refine ⟨ds ++ [p], ⟨?_, ?_, ?_⟩, fun q => by simp⟩
    · rw [List.map_append, ← h.rows_eq]
      rfl
    · rw [List.nodup_append]
      refine ⟨h.nodup, List.nodup_singleton p, ?_⟩
      rintro q hq _ hq' rfl
      rw [List.mem_singleton.mp hq'] at hq
      exact hin hq
    · intro q hq
      rcases List.mem_append.mp hq with hq | hq
      · exact h.short q hq
      · rw [List.mem_singleton.mp hq]
        exact hp

theorem Remembers.addAll (h : t.Remembers ds) (hps : ∀ p ∈ ps, p.Short) :
    ∃ ds', (ps.foldl addNamespace t).Remembers ds' ∧ ∀ q, q ∈ ds' ↔ q ∈ ds ∨ q ∈ ps := by
  induction ps generalizing t ds with
  | nil => exact ⟨ds, h, fun q => by simp⟩
  | cons p ps ih =>
    obtain ⟨ds₁, h₁, hmem₁⟩ := h.add (hps p List.mem_cons_self)
    obtain ⟨ds₂, h₂, hmem₂⟩ := ih h₁ fun q hq => hps q (List.mem_cons_of_mem _ hq)
    refine ⟨ds₂, h₂, fun q => ?_⟩
    rw [hmem₂, hmem₁, List.mem_cons, or_assoc]

/-- How a row of a namespace is read. -/
def readUri (e : Octets × String) : Except StoreError Name :=
  (Name.parse e.2).mapError fun fault => StoreError.codec (.ofUri fault)

theorem readUri_row (p : Name) :
    readUri (p.key, p.toUri) = if p.trimmed.Solid then .ok p.trimmed
      else .error (.codec (.ofUri (.emptyComponent p.toUri))) := by
  unfold readUri
  dsimp only
  rw [Name.parse_toUri]
  split <;> rfl

theorem mapM_readUri (ds : List Name) :
    ((∀ p ∈ ds, p.trimmed.Solid) ∧
      (ds.map fun p => (p.key, p.toUri)).mapM readUri = .ok (ds.map Name.trimmed)) ∨
    ∃ p ∈ ds, ¬ p.trimmed.Solid ∧ (ds.map fun p => (p.key, p.toUri)).mapM readUri =
      .error (.codec (.ofUri (.emptyComponent p.toUri))) := by
  induction ds with
  | nil => exact .inl ⟨nofun, rfl⟩
  | cons p ds ih =>
    rw [List.map_cons, List.mapM_cons, readUri_row]
    by_cases hp : p.trimmed.Solid
    · rw [if_pos hp]
      rcases ih with ⟨hsolid, hread⟩ | ⟨q, hq, hno, hread⟩
      · refine .inl ⟨List.forall_mem_cons.mpr ⟨hp, hsolid⟩, ?_⟩
        rw [hread]
        rfl
      · refine .inr ⟨q, List.mem_cons_of_mem _ hq, hno, ?_⟩
        rw [hread]
        rfl
    · rw [if_neg hp]
      exact .inr ⟨p, List.mem_cons_self, hp, rfl⟩

/-- The namespaces are listed without the empty components at their ends, unless one is left. -/
theorem Remembers.listNamespaces (h : t.Remembers ds) :
    ((∀ p ∈ ds, p.trimmed.Solid) ∧
      t.listNamespaces = .ok (Name.sort (ds.map Name.trimmed))) ∨
    ∃ p ∈ ds, ¬ p.trimmed.Solid ∧
      t.listNamespaces = .error (.codec (.ofUri (.emptyComponent p.toUri))) := by
  have hlist : t.listNamespaces =
      ((ds.map fun p => (p.key, p.toUri)).mapM readUri).map Name.sort := by
    rw [← h.rows_eq]
    rfl
  rw [hlist]
  rcases mapM_readUri ds with ⟨hsolid, hread⟩ | ⟨p, hp, hno, hread⟩
  · exact .inl ⟨hsolid, by rw [hread]; rfl⟩
  · exact .inr ⟨p, hp, hno, by rw [hread]; rfl⟩

end TableStore

/-! ### Stores of either kind -/

namespace Store

/-- Serve some namespaces from now on. -/
def addNamespaces (s : Store) (ps : List Name) : Store := ps.foldl addNamespace s

theorem addNamespaces_memory (m : MemoryStore) (ps : List Name) : (memory m).addNamespaces ps =
    .memory { m with namespaces := ps.foldl NameSet.add m.namespaces } := by
  induction ps generalizing m with
  | nil => rfl
  | cons p ps ih => exact ih (m.addNamespace p)

theorem addNamespaces_table (t : TableStore) (ps : List Name) :
    (table t).addNamespaces ps = .table (ps.foldl TableStore.addNamespace t) := by
  induction ps generalizing t with
  | nil => rfl
  | cons p ps ih => exact ih (t.addNamespace p)

/-- In memory the namespaces are those that were added. -/
theorem namespaces_memory {m : MemoryStore} (hm : m.namespaces = .empty) (ps : List Name) :
    ((memory m).addNamespaces ps).listNamespaces = .ok (Name.sort ps.dedup) ∧
      ∀ n, ((memory m).addNamespaces ps).serves n = .ok (ps.any (·.isPrefixOf n)) := by
  have hmem : ∀ q, q ∈ (ps.foldl NameSet.add m.namespaces).names ↔ q ∈ ps := by
    intro q
    rw [NameSet.mem_names_foldl_add, hm]
    exact or_iff_right List.not_mem_nil
  rw [addNamespaces_memory]
  constructor
  · exact congrArg Except.ok (Name.sort_dedup_eq (NameSet.ascending_names _) hmem).symm
  · intro n
    exact congrArg Except.ok (any_eq_of_mem_iff hmem (·.isPrefixOf n))

/-- In tables they are trimmed, and cannot be listed if an empty component is left. -/
theorem namespaces_table {t : TableStore} (ht : t.namespaces = []) {ps : List Name}
    (hps : ∀ p ∈ ps, p.Short) :
    ((∀ p ∈ ps, p.trimmed.Solid) ∧
      ((table t).addNamespaces ps).listNamespaces = .ok (Name.sort (ps.dedup.map Name.trimmed)) ∧
      ∀ n, ((table t).addNamespaces ps).serves n = .ok (ps.any (·.trimmed.isPrefixOf n))) ∨
    ∃ p ∈ ps, ¬ p.trimmed.Solid ∧
      ((table t).addNamespaces ps).listNamespaces =
        .error (.codec (.ofUri (.emptyComponent p.toUri))) ∧
      ∀ n, ((table t).addNamespaces ps).serves n =
        .error (.codec (.ofUri (.emptyComponent p.toUri))) := by
  have hempty : t.Remembers [] := ⟨ht, List.nodup_nil, nofun⟩
  obtain ⟨ds, hds, hmem⟩ := hempty.addAll hps
  have hmem' : ∀ q, q ∈ ds ↔ q ∈ ps := by simpa using hmem
  -- Both lists have the names once each; they differ in the order in which the names came.
  have hperm : (ds.map Name.trimmed).Perm (ps.dedup.map Name.trimmed) := by
    apply List.Perm.map
    rw [List.perm_ext_iff_of_nodup hds.nodup (List.nodup_dedup ps)]
    intro q
    rw [hmem', List.mem_dedup]
  have hserves : ∀ {names : List Name} (n : Name),
      (ps.foldl TableStore.addNamespace t).listNamespaces = .ok names →
      (ps.foldl TableStore.addNamespace t).serves n = .ok (names.any (·.isPrefixOf n)) := by
    intro names n hlist
    rw [TableStore.serves, hlist]
    rfl
  rw [addNamespaces_table]
  rcases hds.listNamespaces with ⟨hsolid, hlist⟩ | ⟨p, hp, hno, hlist⟩
  · rw [Name.sort_congr hperm] at hlist
    refine .inl ⟨fun p hp => hsolid p ((hmem' p).mpr hp), hlist, fun n => ?_⟩
    refine (hserves n hlist).trans (congrArg Except.ok ?_)
    rw [Bool.eq_iff_iff, List.any_eq_true, List.any_eq_true]
    simp [Name.sort, List.mem_mergeSort]
  · refine .inr ⟨p, (hmem' p).mp hp, hno, hlist, fun n => ?_⟩
    show (ps.foldl TableStore.addNamespace t).serves n = _
    rw [TableStore.serves, hlist]
    rfl

/-- Where no namespace has an empty component they are as in memory. -/
theorem namespaces_table_of_solid {t : TableStore} (ht : t.namespaces = []) {ps : List Name}
    (hps : ∀ p ∈ ps, p.Short) (hsolid : ∀ p ∈ ps, p.Solid) :
    ((table t).addNamespaces ps).listNamespaces = .ok (Name.sort ps.dedup) ∧
      ∀ n, ((table t).addNamespaces ps).serves n = .ok (ps.any (·.isPrefixOf n)) := by
  have htrimmed : ∀ p ∈ ps, p.trimmed = p := fun p hp => Name.trimmed_of_solid (hsolid p hp)
  rcases namespaces_table ht hps with ⟨_, hlist, hserves⟩ | ⟨p, hp, hno, _⟩
  · have hsame : ps.dedup.map Name.trimmed = ps.dedup := by
      rw [List.map_congr_left fun p hp => htrimmed p (List.mem_dedup.mp hp), List.map_id']
    rw [hsame] at hlist
    refine ⟨hlist, fun n => (hserves n).trans (congrArg Except.ok ?_)⟩
    rw [Bool.eq_iff_iff, List.any_eq_true, List.any_eq_true]
    refine exists_congr fun p => and_congr_right fun hp => ?_
    rw [htrimmed p hp]
  · rw [htrimmed p hp] at hno
    exact absurd (hsolid p hp) hno

/-- Only then they are listed as in memory, since every name that is listed was trimmed. -/
theorem solid_of_listed {t : TableStore} (ht : t.namespaces = []) {ps : List Name}
    (hps : ∀ p ∈ ps, p.Short)
    (hlist : ((table t).addNamespaces ps).listNamespaces = .ok (Name.sort ps.dedup)) :
    ∀ p ∈ ps, p.Solid := by
  intro p hp
  rcases namespaces_table ht hps with ⟨hsolid, htrimmed, _⟩ | ⟨_, _, _, hfails, _⟩
  · have hsame := Except.ok.inj (hlist.symm.trans htrimmed)
    have hin : p ∈ Name.sort ps.dedup := List.mem_mergeSort.mpr (List.mem_dedup.mpr hp)
    rw [hsame] at hin
    obtain ⟨q, hq, rfl⟩ := List.mem_map.mp (List.mem_mergeSort.mp hin)
    exact hsolid q (List.mem_dedup.mp hq)
  · rw [hlist] at hfails
    cases hfails

/-- A store is asked to serve some namespaces. In memory it lists them, each once and in canonical
order, and serves all names below them. In tables it does so if no namespace has an empty component,
and otherwise it does not list what it should: it lists the namespaces without the empty components
at their ends and serves the names below those, or it fails because an empty component is left. -/
theorem namespaces_of_added (ps : List Name) :
    (∀ m : MemoryStore, m.namespaces = .empty →
      ((memory m).addNamespaces ps).listNamespaces = .ok (Name.sort ps.dedup) ∧
      ∀ n, ((memory m).addNamespaces ps).serves n = .ok (ps.any (·.isPrefixOf n))) ∧
    ∀ t : TableStore, t.namespaces = [] → (∀ p ∈ ps, p.Short) →
      (((table t).addNamespaces ps).listNamespaces = .ok (Name.sort ps.dedup) ↔
        ∀ p ∈ ps, p.Solid) ∧
      ((∀ p ∈ ps, p.Solid) →
        ∀ n, ((table t).addNamespaces ps).serves n = .ok (ps.any (·.isPrefixOf n))) ∧
      ((∀ p ∈ ps, p.trimmed.Solid) ∧
          ((table t).addNamespaces ps).listNamespaces =
            .ok (Name.sort (ps.dedup.map Name.trimmed)) ∧
          (∀ n, ((table t).addNamespaces ps).serves n = .ok (ps.any (·.trimmed.isPrefixOf n))) ∨
        ∃ p ∈ ps, ¬ p.trimmed.Solid ∧
          ((table t).addNamespaces ps).listNamespaces =
            .error (.codec (.ofUri (.emptyComponent p.toUri))) ∧
          ∀ n, ((table t).addNamespaces ps).serves n =
            .error (.codec (.ofUri (.emptyComponent p.toUri)))) := by
  refine ⟨fun m hm => namespaces_memory hm ps, fun t ht hps => ?_⟩
  have hsolid := fun h => namespaces_table_of_solid ht hps h
  exact ⟨⟨solid_of_listed ht hps, fun h => (hsolid h).1⟩, fun h => (hsolid h).2,
    namespaces_table ht hps⟩

/-- One of the namespaces has an empty component in front. -/
def offices : List Name := [⟨[.ofText "", .ofText "a"]⟩, ⟨[.ofText "b"]⟩, ⟨[.ofText "b"]⟩]

theorem short_offices : ∀ p ∈ offices, p.Short := by decide

theorem namespaces_of_added_offices :
    ∃ t, TableStore.create = .ok t ∧
      ((table t).addNamespaces offices).listNamespaces ≠ .ok (Name.sort offices.dedup) ∧
      ((table t).addNamespaces offices.tail).listNamespaces =
        .ok (Name.sort offices.tail.dedup) ∧
      ((memory .empty).addNamespaces offices).listNamespaces =
        .ok (Name.sort offices.dedup) := by
  obtain ⟨hmemory, htable⟩ := namespaces_of_added offices
  have hall := (htable { schema := ⟨1, ["fragments", "namespaces", "idx_fragments_publisher"]⟩ }
    rfl short_offices).1
  have htail := ((namespaces_of_added offices.tail).2
    { schema := ⟨1, ["fragments", "namespaces", "idx_fragments_publisher"]⟩ } rfl
    fun p hp => short_offices p (List.mem_of_mem_tail hp)).1
  exact ⟨_, create_eq, mt hall.mp (by decide), htail.mpr (by decide), (hmemory .empty rfl).1⟩

/-- A store does not always list the namespaces that it was asked to serve. -/
theorem not_always_listed :
    ¬ ∀ (s : Store) (ps : List Name),
      s = .memory .empty ∨ (∃ t, TableStore.create = .ok t ∧ s = .table t) →
      (s.addNamespaces ps).listNamespaces = .ok (Name.sort ps.dedup) ∧
      ∀ n, (s.addNamespaces ps).serves n = .ok (ps.any (·.isPrefixOf n)) := by
  intro h
  have hlist := (h _ offices (.inr ⟨_, create_eq, rfl⟩)).1
  exact absurd (solid_of_listed rfl short_offices hlist) (by decide)

end Store
end NamedContent
