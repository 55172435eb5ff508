import Mathlib.Data.List.Find
import Mathlib.Data.List.Nodup
import NamedContent.Proofs.Fragment.Codec
import NamedContent.Proofs.Interest.Preference
import NamedContent.Proofs.Name.Map
import NamedContent.Proofs.Store.Keys
import NamedContent.Store.Any

/-!
# What a store holds

Both kinds of store are seen as the fragments that can be read from them, at most one for each name
(`Keeps`). Saving a fragment under a free name adds it (`save_of_free`); saving one under a name
that is taken changes nothing, and whether it is a conflict is decided by the digests
(`save_of_held`). A lookup returns what the interest selects from all that the store holds
(`find?_eq`).
-/

namespace NamedContent

/-- A fragment that every kind of store can keep. -/
structure Fragment.Storable (f : Fragment) : Prop where
  sized : f.Sized
  short : f.name.Short

/-- No two fragments of a list have one name. -/
def DistinctNames (fs : List Fragment) : Prop := (fs.map Fragment.name).Nodup

/-! ### Lists of fragments with distinct names -/

theorem DistinctNames.eq_of_name_eq {fs : List Fragment} (h : DistinctNames fs) {f g : Fragment}
    (hf : f ∈ fs) (hg : g ∈ fs) (hn : f.name = g.name) : f = g :=
  List.inj_on_of_nodup_map h hf hg hn

theorem DistinctNames.find?_eq_some_iff {fs : List Fragment} (h : DistinctNames fs) {n : Name}
    {f : Fragment} : fs.find? (fun g => g.name == n) = some f ↔ f ∈ fs ∧ f.name = n := by
  constructor
  · intro hf
    exact ⟨List.mem_of_find?_eq_some hf, by simpa using List.find?_some hf⟩
  · rintro ⟨hmem, rfl⟩
    cases hf : fs.find? (fun g => g.name == f.name) with
    | none => exact absurd (List.find?_eq_none.mp hf f hmem) (by simp)
    | some g =>
      have hg : g.name = f.name := by simpa using List.find?_some hf
      rw [h.eq_of_name_eq (List.mem_of_find?_eq_some hf) hmem hg]

/-- Looking for more than the name finds the fragment of the name, or nothing. -/
theorem DistinctNames.find?_and {fs : List Fragment} (h : DistinctNames fs) (n : Name)
    (p : Fragment → Bool) :
    fs.find? (fun g => g.name == n && p g) = (fs.find? fun g => g.name == n).filter p := by
  apply Option.ext
  intro f
  rw [Option.filter_eq_some_iff, h.find?_eq_some_iff]
  constructor
  · intro hf
    have hboth := List.find?_some hf
    rw [Bool.and_eq_true, beq_iff_eq] at hboth
    exact ⟨⟨List.mem_of_find?_eq_some hf, hboth.1⟩, hboth.2⟩
  · rintro ⟨⟨hmem, rfl⟩, hp⟩
    cases hf : fs.find? fun g => g.name == f.name && p g with
    | none => exact absurd (List.find?_eq_none.mp hf f hmem) (by simp [hp])
    | some g =>
      have hboth := List.find?_some hf
      rw [Bool.and_eq_true, beq_iff_eq] at hboth
      rw [h.eq_of_name_eq (List.mem_of_find?_eq_some hf) hmem hboth.1]

/-- Whether a fragment is of the wanted publisher, if one is wanted. -/
def Fragment.isFrom (f : Fragment) (p : Option Publisher) : Bool := p.all (· == f.publisher)

theorem Interest.accepts_exact_eq_true_iff [Suite] {n : Name} {p : Option Publisher}
    {f : Fragment} : (Interest.exact n p).accepts f = true ↔ f.name = n ∧ f.isFrom p = true := by
  rw [accepts_exact_iff, Fragment.isFrom]
  cases p with
  | none => simp
  | some q =>
    rw [Option.all_some, beq_iff_eq]
    constructor
    · rintro ⟨hn, hq⟩
      exact ⟨hn, (hq q rfl).symm⟩
    · rintro ⟨hn, hq⟩
      refine ⟨hn, fun r hr => ?_⟩
      rw [← Option.some.inj hr, hq]

namespace Store

variable [Suite]

/-! ### The fragments in a store -/

omit [Suite] in
/-- The fragments that can be read from a store. -/
def fragments : Store → List Fragment
  | .memory s => s.fragments.values
  | .table s => s.rows.filterMap fun r => r.fragment.toOption

omit [Suite] in
/-- The fragment that a store holds under a name. -/
def holds? (s : Store) (n : Name) : Option Fragment := s.fragments.find? fun f => f.name == n

/-- The row that a fragment becomes. -/
def row (f : Fragment) : Row := ⟨f.name.key, f.name.toUri, f.digest.block.octets, f.encode⟩

/-- The store keeps some fragments, each under its own name. -/
inductive Keeps : Store → List Fragment → Prop where
  | memory {m : MemoryStore} (keyed : ∀ e ∈ m.fragments.entries, e.1 = e.2.name) :
      Keeps (.memory m) m.fragments.values
  | table {t : TableStore} {fs : List Fragment} (rows_eq : t.rows = fs.map row)
      (storable : ∀ f ∈ fs, f.Storable) (distinct : DistinctNames fs) : Keeps (.table t) fs

/-- The store keeps what was saved in it. -/
def Sound (s : Store) : Prop := ∃ fs, s.Keeps fs

theorem row_fragment {f : Fragment} (h : f.Storable) : (row f).fragment = .ok f := by
  have hread := Fragment.decode_encode h.sized []
  rw [List.append_nil] at hread
  rw [Row.fragment, row, hread]
  rfl

omit [Suite] in
theorem keyed_entries {m : MemoryStore} (h : ∀ e ∈ m.fragments.entries, e.1 = e.2.name) :
    m.fragments.entries = m.fragments.values.map fun f => (f.name, f) := by
  rw [NameMap.values, List.map_map, eq_comm]
  have hid : ∀ e ∈ m.fragments.entries, ((fun f => (f.name, f)) ∘ Prod.snd) e = id e := by
    intro e he
    show (e.2.name, e.2) = e
    rw [← h e he]
  rw [List.map_congr_left hid, List.map_id]

theorem Keeps.fragments_eq {s : Store} {fs : List Fragment} (h : s.Keeps fs) :
    s.fragments = fs := by
  cases h with
  | memory _ => rfl
  | @table t _ rows_eq storable _ =>
    show t.rows.filterMap _ = fs
    rw [rows_eq, List.filterMap_map]
    have hsome : ∀ f ∈ fs, ((fun r : Row => r.fragment.toOption) ∘ row) f = some f := by
      intro f hf
      show (row f).fragment.toOption = some f
      rw [row_fragment (storable f hf)]
      rfl
    rw [List.filterMap_congr hsome, List.filterMap_some]

theorem Keeps.distinct {s : Store} {fs : List Fragment} (h : s.Keeps fs) : DistinctNames fs := by
  cases h with
  | table _ _ distinct => exact distinct
  | @memory m keyed =>
    have hnodup : (m.fragments.entries.map Prod.fst).Nodup := by
      rw [List.nodup_iff_pairwise_ne, List.pairwise_map]
      refine m.fragments.ascending.imp ?_
      intro a b hab heq
      rw [heq, Std.ReflOrd.compare_self] at hab
      cases hab
    rw [keyed_entries keyed, List.map_map] at hnodup
    exact hnodup

theorem Keeps.holds?_eq_some_iff {s : Store} {fs : List Fragment} (h : s.Keeps fs) {n : Name}
    {f : Fragment} : s.holds? n = some f ↔ f ∈ fs ∧ f.name = n := by
  rw [holds?, h.fragments_eq]
  exact h.distinct.find?_eq_some_iff

theorem Keeps.holds?_eq_none_iff {s : Store} {fs : List Fragment} (h : s.Keeps fs) {n : Name} :
    s.holds? n = none ↔ ∀ f ∈ fs, f.name ≠ n := by
  rw [holds?, h.fragments_eq, List.find?_eq_none]
  simp

/-- What is held under a name has that name. -/
theorem Sound.name_of_holds? {s : Store} (h : s.Sound) {n : Name} {f : Fragment}
    (hf : s.holds? n = some f) : f.name = n := by
  obtain ⟨fs, hk⟩ := h
  exact (hk.holds?_eq_some_iff.mp hf).2

/-- Two stores hold the same except that one has one more fragment. -/
theorem holds?_of_added {s s' : Store} {fs fs' : List Fragment} (h : s.Keeps fs)
    (h' : s'.Keeps fs') {f : Fragment} (hfree : s.holds? f.name = none)
    (hmem : ∀ g, g ∈ fs' ↔ g ∈ fs ∨ g = f) (n : Name) :
    s'.holds? n = if n = f.name then some f else s.holds? n := by
  split
  · next hn =>
    rw [h'.holds?_eq_some_iff, hmem]
    exact ⟨.inr rfl, hn.symm⟩
  · next hn =>
    apply Option.ext
    intro g
    rw [h'.holds?_eq_some_iff, h.holds?_eq_some_iff, hmem]
    constructor
    · rintro ⟨hg | rfl, hname⟩
      · exact ⟨hg, hname⟩
      · exact absurd hname.symm hn
    · rintro ⟨hg, hname⟩
      exact ⟨.inl hg, hname⟩

omit [Suite] in
@[simp] theorem holds?_addNamespace (s : Store) (p n : Name) :
    (s.addNamespace p).holds? n = s.holds? n := by
  cases s with
  | memory m => rfl
  | table t =>
    show (Store.table (t.addNamespace p)).holds? n = _
    unfold TableStore.addNamespace
    split <;> rfl

theorem Sound.addNamespace {s : Store} (h : s.Sound) (p : Name) : (s.addNamespace p).Sound := by
  obtain ⟨fs, hk⟩ := h
  cases hk with
  | memory keyed => exact ⟨_, .memory keyed⟩
  | table rows_eq storable distinct =>
    refine ⟨fs, .table ?_ storable distinct⟩
    unfold TableStore.addNamespace
    split <;> exact rows_eq

/-! ### Saving -/

omit [Suite] in
theorem mem_values_iff {m : MemoryStore} (h : ∀ e ∈ m.fragments.entries, e.1 = e.2.name)
    {f : Fragment} : f ∈ m.fragments.values ↔ (f.name, f) ∈ m.fragments.entries := by
  constructor
  · intro hf
    obtain ⟨e, he, rfl⟩ := List.mem_map.mp hf
    rw [← h e he]
    exact he
  · intro hf
    exact List.mem_map.mpr ⟨_, hf, rfl⟩

/-- A map in memory and the view of it give the same answers. -/
theorem get?_eq_holds? {m : MemoryStore} (h : ∀ e ∈ m.fragments.entries, e.1 = e.2.name)
    (n : Name) : m.fragments.get? n = (Store.memory m).holds? n := by
  apply Option.ext
  intro f
  rw [NameMap.get?_eq_some_iff, (Keeps.memory h).holds?_eq_some_iff, mem_values_iff h]
  constructor
  · intro hf
    have hn := h _ hf
    dsimp only at hn
    rw [hn] at hf
    exact ⟨hf, hn.symm⟩
  · rintro ⟨hf, rfl⟩
    exact hf

theorem memory_save_of_free {m : MemoryStore} (h : ∀ e ∈ m.fragments.entries, e.1 = e.2.name)
    {f : Fragment} (hfree : (Store.memory m).holds? f.name = none) :
    ∃ m' : MemoryStore, m.save f = (.inserted, m') ∧
      (∀ e ∈ m'.fragments.entries, e.1 = e.2.name) ∧
      ∀ g, g ∈ m'.fragments.values ↔ g ∈ m.fragments.values ∨ g = f := by
  rw [← get?_eq_holds? h] at hfree
  have hmem := fun x => NameMap.mem_insertEntry_iff (n := f.name) (v := f) (x := x)
    m.fragments.ascending
  have hnone := NameMap.get?_eq_none_iff.mp hfree
  have hkeyed : ∀ e ∈ (m.fragments.insertNew f.name f).entries, e.1 = e.2.name := by
    intro e he
    rcases (hmem e).mp he with he | ⟨rfl, _⟩
    · exact h e he
    · rfl
  refine ⟨{ m with fragments := m.fragments.insertNew f.name f }, ?_, hkeyed, ?_⟩
  · simp only [MemoryStore.save, hfree]
  · intro g
    rw [mem_values_iff (m := { m with fragments := m.fragments.insertNew f.name f }) hkeyed,
      mem_values_iff h]
    refine (hmem _).trans ⟨?_, ?_⟩
    · rintro (hg | ⟨hg, _⟩)
      · exact .inl hg
      · exact .inr (congrArg Prod.snd hg)
    · rintro (hg | rfl)
      · exact .inl hg
      · exact .inr ⟨rfl, hnone⟩

/-- Rows are found by the names of what they hold. -/
theorem row?_eq {t : TableStore} {fs : List Fragment} (hrows : t.rows = fs.map row)
    (hfs : ∀ f ∈ fs, f.Storable) (hd : DistinctNames fs) {n : Name} (hn : n.Short) :
    t.row? n = ((Store.table t).holds? n).map row := by
  have hk : (Store.table t).Keeps fs := .table hrows hfs hd
  rw [TableStore.row?, hrows, List.find?_map, holds?, hk.fragments_eq]
  congr 1
  apply List.find?_congr
  intro f hf
  show (f.name.key == n.key) = (f.name == n)
  by_cases hname : f.name = n
  · simp [hname]
  · have hkey : f.name.key ≠ n.key := fun h => hname (Name.key_injective (hfs f hf).short hn h)
    simp [hname, hkey]

/-- A fragment with a free name is added. -/
theorem save_of_free {s : Store} (h : s.Sound) {f : Fragment} (hf : f.Storable)
    (hfree : s.holds? f.name = none) :
    ∃ s', s.save f = .ok (.inserted, s') ∧ s'.Sound ∧
      ∀ n, s'.holds? n = if n = f.name then some f else s.holds? n := by
  obtain ⟨fs, hk⟩ := h
  cases hk with
  | @memory m keyed =>
    obtain ⟨m', hsave, hkeyed, hmem⟩ := memory_save_of_free keyed hfree
    refine ⟨.memory m', ?_, ⟨_, .memory hkeyed⟩, ?_⟩
    · simp only [save, hsave]
    · exact holds?_of_added (.memory keyed) (.memory hkeyed) hfree hmem
  | @table t _ rows_eq storable distinct =>
    have hrow : t.row? f.name = none := by
      rw [row?_eq rows_eq storable distinct hf.short, hfree]
      rfl
    have hnone : ∀ g ∈ fs, g.name ≠ f.name :=
      (Keeps.table rows_eq storable distinct).holds?_eq_none_iff.mp hfree
    have hk' : Keeps (.table { t with rows := t.rows ++ [row f] }) (fs ++ [f]) := by
      refine .table ?_ ?_ ?_
      · rw [rows_eq, List.map_append]
        rfl
      · intro g hg
        rcases List.mem_append.mp hg with hg | hg
        · exact storable g hg
        · rw [List.mem_singleton.mp hg]
          exact hf
      · rw [DistinctNames, List.map_append, List.nodup_append]
        refine ⟨distinct, List.nodup_singleton _, ?_⟩
        rintro _ hg _ hf' rfl
        obtain ⟨g, hg, hname⟩ := List.mem_map.mp hg
        exact hnone g hg (hname.trans (List.mem_singleton.mp hf'))
    refine ⟨.table { t with rows := t.rows ++ [row f] }, ?_, ⟨_, hk'⟩, ?_⟩
    · simp only [save, TableStore.save, hrow, bind, Except.bind, pure, Except.pure]
      rfl
    · apply holds?_of_added (.table rows_eq storable distinct) hk' hfree
      intro g
      rw [List.mem_append, List.mem_singleton]

/-- A fragment whose name is taken changes nothing; the digests tell whether it is a conflict. -/
theorem save_of_held {s : Store} (h : s.Sound) {f g : Fragment} (hf : f.Storable)
    (hheld : s.holds? f.name = some g) :
    s.save f = .ok (if g.digest = f.digest then .exists else .conflict g.digest, s) := by
  obtain ⟨fs, hk⟩ := h
  cases hk with
  | @memory m keyed =>
    rw [← get?_eq_holds? keyed] at hheld
    simp only [save, MemoryStore.save, hheld]
  | @table t _ rows_eq storable distinct =>
    have hrow : t.row? f.name = some (row g) := by
      rw [row?_eq rows_eq storable distinct hf.short, hheld]
      rfl
    have hdig : Block.ofOctets? 32 (row g).digest = some g.digest.block :=
      Block.ofOctets?_octets _
    have hiff : g.digest.block = f.digest.block ↔ g.digest = f.digest := by
      constructor
      · intro hb
        cases hg : g.digest
        cases hf' : f.digest
        rw [hg, hf'] at hb
        exact congrArg Digest.mk hb
      · intro hd
        rw [hd]
    simp only [save, TableStore.save, hrow, hdig, bind, Except.bind, pure, Except.pure, hiff]

/-! ### Finding -/

theorem mapM_row {fs : List Fragment} (h : ∀ f ∈ fs, f.Storable) :
    (fs.map row).mapM Row.fragment = .ok fs := by
  rw [mapM_eq_ok_iff, List.forall₂_map_left_iff, List.forall₂_same]
  intro f hf
  exact row_fragment (h f hf)

omit [Suite] in
/-- In memory the fragments under a name are those whose names extend it. -/
theorem mem_under_iff {m : MemoryStore} (h : ∀ e ∈ m.fragments.entries, e.1 = e.2.name) {p : Name}
    {f : Fragment} :
    f ∈ m.fragments.under p ↔ f ∈ m.fragments.values ∧ p.isPrefixOf f.name = true := by
  rw [NameMap.mem_under, mem_values_iff h]
  constructor
  · rintro ⟨n, hentry, hp⟩
    obtain rfl : n = f.name := h _ hentry
    exact ⟨hentry, hp⟩
  · rintro ⟨hentry, hp⟩
    exact ⟨f.name, hentry, hp⟩

/-- All rows below a name are readable, so listing them does not fail. -/
theorem under_table {t : TableStore} {fs : List Fragment} (hrows : t.rows = fs.map row)
    (hfs : ∀ f ∈ fs, f.Storable) (p : Name) :
    (Store.table t).under p = .ok ((fs.filter fun f => p.key.isPrefixOf f.name.key).mergeSort
      fun f g => (compare f.name g.name).isLE) := by
  have hread : (t.rows.filter fun r => p.key.isPrefixOf r.key).mapM Row.fragment =
      .ok (fs.filter fun f => p.key.isPrefixOf f.name.key) := by
    rw [hrows, List.filter_map]
    exact mapM_row fun f hf => hfs f (List.mem_of_mem_filter hf)
  simp only [under, TableStore.under, bind, Except.bind, pure, Except.pure]
  rw [hread]

theorem find?_table {t : TableStore} {fs : List Fragment} (hrows : t.rows = fs.map row)
    (hfs : ∀ f ∈ fs, f.Storable) (i : Interest) :
    (Store.table t).find? i = .ok (i.select
      ((fs.filter fun f => i.name.key.isPrefixOf f.name.key).mergeSort fun f g =>
        (compare f.name g.name).isLE)) := by
  have hunder : t.under i.name = _ := under_table hrows hfs i.name
  simp only [find?, TableStore.find?, bind, Except.bind, pure, Except.pure]
  rw [hunder]

/-- What is held under a name is found among all that is held. -/
theorem Sound.find?_fragments {s : Store} (h : s.Sound) (n : Name) (p : Fragment → Bool) :
    s.fragments.find? (fun g => g.name == n && p g) = (s.holds? n).filter p := by
  obtain ⟨fs, hk⟩ := h
  rw [holds?, hk.fragments_eq]
  exact hk.distinct.find?_and n p

theorem Sound.mem_fragments_iff {s : Store} (h : s.Sound) {f : Fragment} :
    f ∈ s.fragments ↔ s.holds? f.name = some f := by
  obtain ⟨fs, hk⟩ := h
  rw [hk.fragments_eq, hk.holds?_eq_some_iff]
  exact (and_iff_left rfl).symm

/-- A lookup does not fail, and picks from what the store holds. -/
theorem find?_picks {s : Store} (h : s.Sound) (i : Interest) :
    ∃ found, s.find? i = .ok found ∧ i.Picks (fun g => s.holds? g.name = some g) found := by
  have hheld : ∀ g, s.holds? g.name = some g ↔ g ∈ s.fragments := fun _ =>
    h.mem_fragments_iff.symm
  obtain ⟨fs, hk⟩ := h
  rw [hk.fragments_eq] at hheld
  cases hk with
  | @memory m keyed =>
    refine ⟨_, rfl, (Interest.picks_select i (m.fragments.under i.name)).of_iff fun g ha => ?_⟩
    rw [hheld, mem_under_iff keyed]
    exact and_iff_left (Interest.prefix_of_accepts ha)
  | @table t _ rows_eq storable distinct =>
    refine ⟨_, find?_table rows_eq storable i, (Interest.picks_select i _).of_iff fun g ha => ?_⟩
    rw [hheld, List.mem_mergeSort, List.mem_filter]
    exact and_iff_left (Name.key_isPrefixOf (Interest.prefix_of_accepts ha))

theorem picks_of_mem_iff {held : Name → Option Fragment} {i : Interest} {fs : List Fragment}
    (h : ∀ f, f ∈ fs ↔ held f.name = some f) :
    i.Picks (fun f => held f.name = some f) (i.select fs) :=
  (i.picks_select fs).of_iff fun f _ => h f

/-- A map has one fragment of each name, so an interest picks one thing from it. -/
theorem eq_of_picks {held : Name → Option Fragment} {i : Interest} {found found' : Option Fragment}
    (h : i.Picks (fun f => held f.name = some f) found)
    (h' : i.Picks (fun f => held f.name = some f) found') : found = found' := by
  apply h.unique h'
  intro f g hf hg hname
  rw [hname, hg] at hf
  exact (Option.some.inj hf).symm

/-- A lookup returns what the interest selects from all that a store holds. -/
theorem find?_eq {s : Store} (h : s.Sound) (i : Interest) :
    s.find? i = .ok (i.select s.fragments) := by
  obtain ⟨found, hfind, hpicks⟩ := find?_picks h i
  rw [hfind, eq_of_picks (picks_of_mem_iff fun _ => h.mem_fragments_iff) hpicks]

end Store
end NamedContent
