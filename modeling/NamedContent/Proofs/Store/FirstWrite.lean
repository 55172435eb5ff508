import NamedContent.Proofs.Fragment.Canonical
import NamedContent.Proofs.Store.Holding
import NamedContent.Suite.Standard

/-!
# Stores as maps in which the first write wins

What a store answers to a call depends on the calls before it through one thing only: the fragment
that was saved first under each name (`firstSaved`). `Answers` gives the answer of a map from names
to fragments to each kind of call, without saying how the map is kept, and determines it
(`Answers.unique`). A store of either kind that holds what a map holds gives the map's answer, and
goes on holding what the map holds (`perform_answers`). So the two kinds of store answer every
sequence of calls alike (`answers_firstSaved`).
-/

namespace NamedContent

namespace Store

/-! ### Calls -/

/-- A call that saves or looks up fragments. -/
inductive Call where
  | save (f : Fragment)
  | get (n : Name)
  | has (n : Name)
  | under (p : Name)
  | find (i : Interest)

inductive Answer where
  | saved (outcome : SaveOutcome)
  | fragment (found : Option Fragment)
  | held (answer : Bool)
  | fragments (fs : List Fragment)

/-- Every kind of store can keep what is saved, and can spell the names that are looked up. -/
def Call.Fits : Call → Prop
  | .save f => f.Storable
  | .get n => n.Short
  | .has n => n.Short
  | .under p => p.Short
  | .find _ => True

def Call.saved? : Call → Option Fragment
  | .save f => some f
  | _ => none

/-- The fragment that calls save first under a name. -/
def firstSaved (calls : List Call) (n : Name) : Option Fragment :=
  (calls.filterMap Call.saved?).find? fun f => f.name == n

/-- What a map that keeps the first fragment of each name holds after a call. -/
def keepFirst (held : Name → Option Fragment) (c : Call) (n : Name) : Option Fragment :=
  (held n).or (c.saved?.filter fun f => f.name == n)

/-- What a map from names to fragments answers if it keeps the first fragment of each name. -/
inductive Answers [Suite] (held : Name → Option Fragment) : Call → Answer → Prop where
  | inserted {f : Fragment} (free : held f.name = none) : Answers held (.save f) (.saved .inserted)
  | present {f : Fragment} (same : held f.name = some f) :
      Answers held (.save f) (.saved .exists)
  /-- The answer has the digest of what is stored. -/
  | conflict {f g : Fragment} (other : held f.name = some g) (ne : g ≠ f) :
      Answers held (.save f) (.saved (.conflict g.digest))
  | got {n : Name} : Answers held (.get n) (.fragment (held n))
  | told {n : Name} : Answers held (.has n) (.held (held n).isSome)
  /-- All that is stored under a prefix, in canonical order of the names. -/
  | listed {p : Name} {fs : List Fragment}
      (ascending : fs.Pairwise fun f g => compare f.name g.name = .lt)
      (mem_iff : ∀ f, f ∈ fs ↔ held f.name = some f ∧ p.isPrefixOf f.name = true) :
      Answers held (.under p) (.fragments fs)
  /-- What the interest selects from all that is stored, in whatever order it is listed. -/
  | found {i : Interest} {fs : List Fragment} (mem_iff : ∀ f, f ∈ fs ↔ held f.name = some f) :
      Answers held (.find i) (.fragment (i.select fs))

section

variable [Suite] {held : Name → Option Fragment} {s t : Store} {c : Call} {a b : Answer}
  {calls done : List Call}

omit [Suite] in
theorem firstSaved_concat (calls : List Call) (c : Call) :
    firstSaved (calls ++ [c]) = keepFirst (firstSaved calls) c := by
  funext n
  unfold firstSaved keepFirst
  rw [List.filterMap_append, List.find?_append]
  congr 1
  cases c with
  | save f => by_cases hn : f.name = n <;> simp [Call.saved?, Option.filter, hn]
  | _ => rfl

omit [Suite] in
theorem keepFirst_of_free {f : Fragment} (h : held f.name = none) (n : Name) :
    keepFirst held (.save f) n = if n = f.name then some f else held n := by
  unfold keepFirst
  split
  · next hn => simp [hn, h, Call.saved?, Option.filter]
  · next hn =>
    have hn' : f.name ≠ n := fun heq => hn heq.symm
    simp [Call.saved?, Option.filter, hn']

omit [Suite] in
theorem keepFirst_of_held {f g : Fragment} (h : held f.name = some g) :
    keepFirst held (.save f) = held := by
  funext n
  unfold keepFirst
  by_cases hn : f.name = n
  · rw [← hn, h, Option.some_or]
  · simp [Call.saved?, Option.filter, hn]

omit [Suite] in
theorem keepFirst_of_lookup (h : c.saved? = none) : keepFirst held c = held := by
  funext n
  rw [keepFirst, h, Option.filter_none, Option.or_none]

omit [Suite] in
theorem mem_of_firstSaved {n : Name} {f : Fragment} (h : firstSaved calls n = some f) :
    .save f ∈ calls ∧ f.name = n := by
  obtain ⟨c, hc, hsaved⟩ := List.mem_filterMap.mp (List.mem_of_find?_eq_some h)
  refine ⟨?_, by simpa using List.find?_some h⟩
  cases c <;> cases hsaved
  exact hc

omit [Suite] in
/-- What was saved first stays the first. -/
theorem firstSaved_of_prefix {earlier : List Call} (h : earlier <+: calls) {n : Name}
    {f : Fragment} (hf : firstSaved earlier n = some f) : firstSaved calls n = some f := by
  obtain ⟨later, rfl⟩ := h
  unfold firstSaved at hf ⊢
  rw [List.filterMap_append, List.find?_append, hf, Option.some_or]

/-! ### One answer to each call -/

omit [Suite] in
/-- Lists in canonical order that have the same members are the same. -/
theorem eq_of_ascending {fs gs : List Fragment}
    (hfs : fs.Pairwise fun f g => compare f.name g.name = .lt)
    (hgs : gs.Pairwise fun f g => compare f.name g.name = .lt) (h : ∀ f, f ∈ fs ↔ f ∈ gs) :
    fs = gs := by
  have hne : ∀ {f g : Fragment}, compare f.name g.name = .lt → f ≠ g := by
    rintro f _ hlt rfl
    rw [Std.ReflOrd.compare_self] at hlt
    cases hlt
  have hperm : fs.Perm gs := (List.perm_ext_iff_of_nodup (hfs.imp hne) (hgs.imp hne)).mpr h
  refine hperm.eq_of_pairwise (fun f g _ _ hfg hgf => ?_) hfs hgs
  exact absurd hgf (Std.OrientedCmp.not_lt_of_lt hfg)

theorem Answers.unique (h : Answers held c a) (h' : Answers held c b) : a = b := by
  cases h with
  | inserted free =>
    cases h' with
    | inserted _ => rfl
    | present same => rw [free] at same; cases same
    | conflict other _ => rw [free] at other; cases other
  | present same =>
    cases h' with
    | inserted free => rw [free] at same; cases same
    | present _ => rfl
    | conflict other ne => rw [same] at other; exact absurd (Option.some.inj other).symm ne
  | conflict other ne =>
    cases h' with
    | inserted free => rw [free] at other; cases other
    | present same => rw [same] at other; exact absurd (Option.some.inj other).symm ne
    | conflict other' _ => rw [other] at other'; rw [Option.some.inj other']
  | got => cases h'; rfl
  | told => cases h'; rfl
  | listed ascending mem_iff =>
    cases h' with
    | listed ascending' mem_iff' =>
      rw [eq_of_ascending ascending ascending' fun f => (mem_iff f).trans (mem_iff' f).symm]
  | @found i fs mem_iff =>
    cases h' with
    | @found _ gs mem_iff' =>
      rw [eq_of_picks (picks_of_mem_iff mem_iff) (picks_of_mem_iff mem_iff')]

/-! ### What a store answers -/

theorem get?_eq (h : s.Sound) {n : Name} (hn : n.Short) : s.get? n = .ok (s.holds? n) := by
  obtain ⟨fs, hk⟩ := h
  cases hk with
  | @memory m keyed =>
    rw [← get?_eq_holds? keyed]
    rfl
  | @table t _ rows_eq storable distinct =>
    show t.get? n = _
    unfold TableStore.get?
    rw [row?_eq rows_eq storable distinct hn]
    cases hheld : (Store.table t).holds? n with
    | none => rfl
    | some f =>
      have hmem := (Keeps.table rows_eq storable distinct).holds?_eq_some_iff.mp hheld
      show (row f).fragment.map some = _
      rw [row_fragment (storable f hmem.1)]
      rfl

theorem has_eq (h : s.Sound) {n : Name} (hn : n.Short) : s.has n = (s.holds? n).isSome := by
  obtain ⟨fs, hk⟩ := h
  cases hk with
  | @memory m keyed =>
    rw [← get?_eq_holds? keyed]
    rfl
  | @table t _ rows_eq storable distinct =>
    show (t.row? n).isSome = _
    rw [row?_eq rows_eq storable distinct hn, Option.isSome_map]

omit [Suite] in
/-- Sorting fragments that have different names puts them into strictly ascending order. -/
theorem ascending_mergeSort {fs : List Fragment} (h : DistinctNames fs) :
    (fs.mergeSort fun f g => (compare f.name g.name).isLE).Pairwise
      fun f g => compare f.name g.name = .lt := by
  have hsorted := List.pairwise_mergeSort (fun _ _ _ => Std.TransCmp.isLE_trans)
    (fun f g : Fragment => Name.isLE_total f.name g.name) fs
  have hdistinct : DistinctNames (fs.mergeSort fun f g => (compare f.name g.name).isLE) :=
    ((List.mergeSort_perm fs _).map Fragment.name).nodup_iff.mpr h
  have hne := List.pairwise_map.mp (List.nodup_iff_pairwise_ne.mp hdistinct)
  refine (hsorted.and hne).imp fun {f g} ⟨hle, hfg⟩ => ?_
  cases hc : compare f.name g.name with
  | lt => rfl
  | eq => exact absurd (Std.LawfulEqOrd.eq_of_compare hc) hfg
  | gt => rw [hc] at hle; cases hle

/-- All that a store holds under a prefix is listed in canonical order. -/
theorem under_eq (h : s.Sound) {p : Name} (hp : p.Short) :
    ∃ fs, s.under p = .ok fs ∧ fs.Pairwise (fun f g => compare f.name g.name = .lt) ∧
      ∀ f, f ∈ fs ↔ s.holds? f.name = some f ∧ p.isPrefixOf f.name = true := by
  have hheld : ∀ f, f ∈ s.fragments ↔ s.holds? f.name = some f := fun _ => h.mem_fragments_iff
  obtain ⟨fs, hk⟩ := h
  rw [hk.fragments_eq] at hheld
  cases hk with
  | @memory m keyed =>
    refine ⟨m.fragments.under p, rfl, ?_, fun f => ?_⟩
    · rw [NameMap.under, NameMap.scan_eq_filter, List.pairwise_map]
      refine (m.fragments.ascending.filter _).imp_of_mem fun {a b} ha hb hab => ?_
      rw [← keyed a (List.mem_of_mem_filter ha), ← keyed b (List.mem_of_mem_filter hb)]
      exact hab
    · rw [mem_under_iff keyed, hheld]
  | @table t _ rows_eq storable distinct =>
    refine ⟨_, under_table rows_eq storable p, ?_, fun f => ?_⟩
    · apply ascending_mergeSort
      exact distinct.sublist (List.filter_sublist.map Fragment.name)
    · rw [List.mem_mergeSort, List.mem_filter, hheld]
      refine and_congr_right fun hf => ?_
      rw [List.isPrefixOf_iff_prefix, Name.key_prefix_iff hp (storable f ((hheld f).mpr hf)).short]
      exact List.isPrefixOf_iff_prefix.symm

/-! ### Sequences of calls -/

/-- What a store answers to a call, and the store afterwards. A call that fails changes nothing. -/
def perform (s : Store) : Call → Except StoreError Answer × Store
  | .save f =>
    match s.save f with
    | .ok (outcome, s') => (.ok (.saved outcome), s')
    | .error e => (.error e, s)
  | .get n => ((s.get? n).map .fragment, s)
  | .has n => (.ok (.held (s.has n)), s)
  | .under p => ((s.under p).map .fragments, s)
  | .find i => ((s.find? i).map .fragment, s)

/-- What a store answers to calls in a row. -/
def answers (s : Store) : List Call → List (Except StoreError Answer)
  | [] => []
  | c :: calls => (s.perform c).1 :: answers (s.perform c).2 calls

/-- Fragments that are saved have one digest only if they have one encoding. -/
def CollisionFree (calls : List Call) : Prop :=
  ∀ f g, .save f ∈ calls → .save g ∈ calls → f.digest = g.digest → f.encode = g.encode

/-- A store answers a call as a map would that holds the same, and holds what the map holds after
it. -/
theorem perform_answers (h : s.Sound) (hc : c.Fits)
    (hdigest : ∀ f g, c = .save f → s.holds? f.name = some g → g.digest = f.digest → g = f) :
    ∃ a s', s.perform c = (.ok a, s') ∧ Answers s.holds? c a ∧ s'.Sound ∧
      s'.holds? = keepFirst s.holds? c := by
  cases c with
  | save f =>
    cases hheld : s.holds? f.name with
    | none =>
      obtain ⟨s', hsave, hsound, hholds⟩ := save_of_free h hc hheld
      refine ⟨_, s', by simp only [perform, hsave], .inserted hheld, hsound, ?_⟩
      funext n
      rw [hholds, keepFirst_of_free hheld]
    | some g =>
      have hsave := save_of_held h hc hheld
      have hholds := (keepFirst_of_held hheld).symm
      -- Only digests are compared, so that the fragment is present has to come from the assumption.
      by_cases hd : g.digest = f.digest
      · have hsame : s.holds? f.name = some f := hdigest f g rfl hheld hd ▸ hheld
        rw [if_pos hd] at hsave
        exact ⟨_, s, by simp only [perform, hsave], .present hsame, h, hholds⟩
      · have hne : g ≠ f := fun hgf => hd (by rw [hgf])
        rw [if_neg hd] at hsave
        exact ⟨_, s, by simp only [perform, hsave], .conflict hheld hne, h, hholds⟩
  | get n =>
    refine ⟨_, s, ?_, .got, h, (keepFirst_of_lookup rfl).symm⟩
    rw [perform, get?_eq h hc]
    rfl
  | has n =>
    refine ⟨_, s, ?_, .told, h, (keepFirst_of_lookup rfl).symm⟩
    rw [perform, has_eq h hc]
  | under p =>
    obtain ⟨fs, hunder, hascending, hmem⟩ := under_eq h hc
    refine ⟨_, s, ?_, .listed hascending hmem, h, (keepFirst_of_lookup rfl).symm⟩
    rw [perform, hunder]
    rfl
  | find i =>
    refine ⟨_, s, ?_, .found fun f => h.mem_fragments_iff, h, (keepFirst_of_lookup rfl).symm⟩
    rw [perform, find?_eq h i]
    rfl

/-- Two stores that hold what was saved first go on giving the answers of one map. -/
theorem exists_answers (hs : s.Sound) (ht : t.Sound) (hheld : s.holds? = firstSaved done)
    (hheld' : t.holds? = firstSaved done) (hfit : ∀ c ∈ done ++ calls, c.Fits)
    (hdigest : CollisionFree (done ++ calls)) :
    ∃ as : List Answer, s.answers calls = as.map .ok ∧ t.answers calls = as.map .ok ∧
      ∀ k c, calls[k]? = some c →
        ∃ a, as[k]? = some a ∧ Answers (firstSaved (done ++ calls.take k)) c a := by
  induction calls generalizing s t done with
  | nil => exact ⟨[], rfl, rfl, fun k c hk => by cases hk⟩
  | cons c calls ih =>
    have hc : c.Fits := hfit c (by simp)
    -- A saved fragment with the digest of the one that is held is that one.
    have hsame : ∀ f g, c = .save f → firstSaved done f.name = some g → g.digest = f.digest →
        g = f := by
      rintro f g rfl hg hd
      have hg' : .save g ∈ done ++ .save f :: calls :=
        List.mem_append_left _ (mem_of_firstSaved hg).1
      have hf' : .save f ∈ done ++ .save f :: calls := by simp
      exact Fragment.encode_injective (hfit _ hg').sized (hfit _ hf').sized (hdigest g f hg' hf' hd)
    obtain ⟨a, s', hperform, hanswers, hsound, hholds⟩ :=
      perform_answers hs hc (by rw [hheld]; exact hsame)
    obtain ⟨b, t', hperform', hanswers', hsound', hholds'⟩ :=
      perform_answers ht hc (by rw [hheld']; exact hsame)
    rw [hheld] at hanswers hholds
    rw [hheld'] at hanswers' hholds'
    obtain rfl := hanswers.unique hanswers'
    have happend : done ++ c :: calls = (done ++ [c]) ++ calls := by simp
    rw [happend] at hfit hdigest
    rw [← firstSaved_concat] at hholds hholds'
    obtain ⟨as, has, hbs, hspec⟩ := ih hsound hsound' hholds hholds' hfit hdigest
    refine ⟨a :: as, ?_, ?_, ?_⟩
    · rw [answers, hperform, has, List.map_cons]
    · rw [answers, hperform', hbs, List.map_cons]
    · intro k d hk
      cases k with
      | zero =>
        obtain rfl : c = d := by simpa using hk
        exact ⟨a, rfl, by simpa using hanswers⟩
      | succ k =>
        obtain ⟨e, he, hanswer⟩ := hspec k d (by simpa using hk)
        rw [List.append_assoc, List.singleton_append] at hanswer
        exact ⟨e, by simpa using he, by simpa using hanswer⟩

/-! ### Both kinds of store -/

omit [Suite] in
theorem toLower_beq_eq_false {a b : String}
    (h : a.toList.map Char.toLower ≠ b.toList.map Char.toLower) :
    (a.toLower == b.toLower) = false := by
  have hmap : ∀ c : String, c.toLower.toList = c.toList.map Char.toLower :=
    fun _ => String.toList_map
  rw [beq_eq_false_iff_ne]
  intro heq
  apply h
  rw [← hmap, ← hmap, heq]

omit [Suite] in
/-- The parts of a new database have different names, so that all of them are created. -/
theorem create_eq : TableStore.create =
    .ok { schema := ⟨1, ["fragments", "namespaces", "idx_fragments_publisher"]⟩ } := by
  have h₁ : ("fragments".toLower == "namespaces".toLower) = false :=
    toLower_beq_eq_false (by decide)
  have h₂ : ("fragments".toLower == "idx_fragments_publisher".toLower) = false :=
    toLower_beq_eq_false (by decide)
  have h₃ : ("namespaces".toLower == "idx_fragments_publisher".toLower) = false :=
    toLower_beq_eq_false (by decide)
  simp [TableStore.create, Schema.migrate, Schema.create, Schema.steps, Schema.current, h₁, h₂, h₃,
    List.foldlM, bind, Except.bind, pure, Except.pure]

/-- A store in memory and a store in tables, both new, answer every sequence of calls alike, and no
call fails. Each answer is that of a map which holds, under each name, what was saved there first;
and what was saved first under a name stays the first, whatever is saved later. -/
theorem answers_firstSaved {calls : List Call} (hfit : ∀ c ∈ calls, c.Fits)
    (hdigest : CollisionFree calls) :
    ∃ (t : TableStore) (as : List Answer), TableStore.create = .ok t ∧
      answers (.memory .empty) calls = as.map .ok ∧ answers (.table t) calls = as.map .ok ∧
      (∀ k c, calls[k]? = some c →
        ∃ a, as[k]? = some a ∧ Answers (firstSaved (calls.take k)) c a) ∧
      ∀ j k n f, j ≤ k → firstSaved (calls.take j) n = some f →
        firstSaved (calls.take k) n = some f := by
  have hmemory : (Store.memory .empty).Sound := ⟨[], .memory (fun e he => by cases he)⟩
  have htable : (Store.table { schema := ⟨1, ["fragments", "namespaces",
      "idx_fragments_publisher"]⟩ }).Sound := ⟨[], .table rfl (fun f hf => by cases hf) .nil⟩
  have hnothing : (Store.memory .empty).holds? = firstSaved [] := rfl
  obtain ⟨as, has, hbs, hspec⟩ := exists_answers hmemory htable hnothing rfl hfit hdigest
  refine ⟨_, as, create_eq, has, hbs, hspec, fun j k n f hjk hf => ?_⟩
  exact firstSaved_of_prefix (List.take_prefix_take_left hjk) hf

end

/-! ### Two fragments in turn -/

open Fragment in
/-- Two fragments saved in turn under a name of one empty component, and lookups there and below the
root. -/
def turns : List Call :=
  [.save extreme, .save { extreme with content := [] }, .save extreme, .get extreme.name,
    .has .root, .under .root, .find (.under .root)]

theorem fits_turns : ∀ c ∈ turns, c.Fits := by
  have hshort : Fragment.extreme.name.Short := by decide
  have hsized : Fragment.Sized { Fragment.extreme with content := [] } :=
    ⟨Fragment.sized_extreme.name, Fragment.sized_extreme.locator, by decide⟩
  intro c hc
  simp only [turns, List.mem_cons, List.not_mem_nil, or_false] at hc
  rcases hc with rfl | rfl | rfl | rfl | rfl | rfl | rfl
  · exact ⟨Fragment.sized_extreme, hshort⟩
  · exact ⟨hsized, hshort⟩
  · exact ⟨Fragment.sized_extreme, hshort⟩
  · exact hshort
  · exact Name.short_root
  · exact Name.short_root
  · trivial

theorem collisionFree_turns : CollisionFree turns := by
  have hne : Fragment.extreme.digest ≠ Fragment.digest { Fragment.extreme with content := [] } := by
    decide +kernel
  have hsaved : ∀ f, .save f ∈ turns →
      f = Fragment.extreme ∨ f = { Fragment.extreme with content := [] } := by
    intro f hf
    simp only [turns, List.mem_cons, Call.save.injEq, reduceCtorEq, List.not_mem_nil,
      or_false] at hf
    rcases hf with rfl | rfl | rfl
    · exact .inl rfl
    · exact .inr rfl
    · exact .inl rfl
  intro f g hf hg hd
  rcases hsaved f hf with rfl | rfl <;> rcases hsaved g hg with rfl | rfl
  · rfl
  · exact absurd hd hne
  · exact absurd hd.symm hne
  · rfl

/-- The second fragment is refused, with the digest of the first one, which stays. -/
theorem answers_firstSaved_turns :
    (∀ c ∈ turns, c.Fits) ∧ CollisionFree turns ∧
      ∃ (t : TableStore) (as : List Answer), TableStore.create = .ok t ∧
        answers (.memory .empty) turns = as.map .ok ∧ answers (.table t) turns = as.map .ok ∧
        as[1]? = some (.saved (.conflict Fragment.extreme.digest)) ∧
        as[3]? = some (.fragment (some Fragment.extreme)) := by
  obtain ⟨t, as, ht, hmemory, htable, hspec, -⟩ :=
    answers_firstSaved fits_turns collisionFree_turns
  refine ⟨fits_turns, collisionFree_turns, t, as, ht, hmemory, htable, ?_, ?_⟩
  · obtain ⟨a, ha, hanswers⟩ := hspec 1 _ rfl
    have hconflict : Answers (firstSaved (turns.take 1))
        (.save { Fragment.extreme with content := [] })
        (.saved (.conflict Fragment.extreme.digest)) := .conflict rfl (by decide)
    rw [ha, hanswers.unique hconflict]
  · obtain ⟨a, ha, hanswers⟩ := hspec 3 _ rfl
    rw [ha, hanswers.unique .got]
    rfl

end Store
end NamedContent
