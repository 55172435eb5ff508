import NamedContent.Proofs.Network.Searching
import NamedContent.Proofs.Object.Classification

/-!
# Siblings that are no versions

Below a base name there can be any number of fragments that are not of a version. A watch and a
search exclude the components of those that they meet, and ask again. As far as versions are
concerned they then ask for what they asked for before, except for versions that the exclusion
filter suspects (`Interest.KeepsVersions`); it suspects none before more than a hundred components
were listed.

So a version is missed because of siblings only if it is suspected (`keepsVersions_of_siblings`). It
can be, once there are more than a hundred of them (`not_always_kept`).
-/

namespace NamedContent

/-! ### Queries that exclude siblings -/

namespace Interest

variable [Suite] {i : Interest} {known : Name} {cs : List Component}

/-- What a query for the versions after a known name still asks for, once it went on to exclude some
components. -/
structure KeepsVersions (i : Interest) (known : Name) (cs : List Component) : Prop where
  /-- A version is still asked for if it was before, unless it is suspected. -/
  accepts_iff : ∀ (f : Fragment) (v : Version) (d : Component),
    f.name = (known.base.append v.toComponent).append d →
    ((i.excludingAll cs).accepts f = true ↔
      i.accepts f = true ∧ (i.excludingAll cs).exclude.suspects v.toComponent = false)
  /-- Nothing is suspected while all components that are excluded one by one can be listed. -/
  suspects_eq_false : i.exclude.bloom = none → i.exclude.load cs ≤ Exclude.maxExplicit →
    ∀ c, (i.excludingAll cs).exclude.suspects c = false
  /-- A query as it was armed lists nothing, and asks for all later versions. -/
  of_armed : i = nextVersion known →
    i.exclude.bloom = none ∧ i.exclude.load cs = cs.toFinset.card ∧
    ∀ (f : Fragment) (v : Version) (d : Component),
      f.name = (known.base.append v.toComponent).append d →
      (i.accepts f = true ↔ ∀ k, known.version? = some k → k < v)

omit [Suite] in
/-- The filter of a query as it is armed has no more than a bound. -/
theorem exclude_nextVersion (known : Name) :
    (nextVersion known).exclude.explicit = [] ∧ (nextVersion known).exclude.bloom = none := by
  cases h : known.splitVersion? with
  | none => rw [nextVersion_eq_of_unversioned h]; exact ⟨rfl, rfl⟩
  | some split => rw [nextVersion_eq_of_split h]; exact ⟨rfl, rfl⟩

/-- The query for the versions after a name asks for exactly these. -/
theorem accepts_nextVersion_iff {f : Fragment} {v : Version} {d : Component}
    (hf : f.name = (known.base.append v.toComponent).append d) :
    (nextVersion known).accepts f = true ↔ ∀ k, known.version? = some k → k < v := by
  rw [← name_nextVersion known none] at hf
  rw [(deep_nextVersion known none).accepts_iff hf, excludes_nextVersion_eq_false_iff]
  exact and_iff_right rfl

/-- Excluding siblings keeps the versions. -/
theorem Seeks.keepsVersions (hi : i.Seeks known) (hcs : ∀ c ∈ cs, Version.ofComponent? c = none) :
    i.KeepsVersions known cs where
  accepts_iff f v d hf := by
    rw [← hi.name_eq] at hf
    apply accepts_excludingAll_iff (Name.component?_of_eq hf)
    intro hmem
    have hv := hcs _ hmem
    rw [Version.ofComponent?_toComponent] at hv
    cases hv
  suspects_eq_false hbloom hload :=
    Exclude.suspects_of_bloom (bloom_excludingAll_eq_none hbloom hload)
  of_armed harmed := by
    obtain ⟨hlisted, hbloom⟩ := exclude_nextVersion known
    rw [harmed]
    refine ⟨hbloom, ?_, fun f v d hf => accepts_nextVersion_iff hf⟩
    rw [Exclude.load, hlisted]
    simp

end Interest

/-! ### Batches of siblings -/

/-- The components behind the name that a query asks below. -/
def ActiveQuery.behind (q : ActiveQuery) (fs : List Fragment) : List Component :=
  fs.filterMap fun f => f.name.component? q.interest.name.length

namespace Watch

section

variable [Suite] {w : Watch} {q : ActiveQuery} {g : Nat} {fs : List Fragment}
  {batches : List (List Fragment)}

/-- The watch after batches for one generation. -/
def fed (w : Watch) (g : Nat) (batches : List (List Fragment)) : Watch :=
  batches.foldl (fun w fs => w.after (.batch g fs)) w

/-- Each batch has only what the query of its time accepts, and no version behind the base name. -/
def OnlySiblings (w : Watch) (g : Nat) (batches : List (List Fragment)) : Prop :=
  ∀ past fs, past ++ [fs] <+: batches → ∀ q, (w.fed g past).query? g = some q →
    ∀ f ∈ fs, q.interest.accepts f = true ∧ q.offer? f = none

theorem onlySiblings_nil (w : Watch) (g : Nat) : w.OnlySiblings g [] := by
  intro past fs hp
  have hlen := hp.length_le
  simp at hlen

theorem onlySiblings_concat_iff {past : List (List Fragment)} :
    w.OnlySiblings g (past ++ [fs]) ↔ w.OnlySiblings g past ∧
      ∀ q, (w.fed g past).query? g = some q →
        ∀ f ∈ fs, q.interest.accepts f = true ∧ q.offer? f = none := by
  constructor
  · intro h
    exact ⟨fun p gs hp => h p gs (hp.trans (List.prefix_append past [fs])),
      h past fs (List.prefix_refl _)⟩
  · rintro ⟨hpast, hlast⟩ p gs hp
    rcases List.prefix_concat_iff.mp hp with heq | hp
    · obtain ⟨rfl, hgs⟩ := List.append_inj' heq rfl
      obtain rfl := List.singleton_inj.mp hgs
      exact hlast
    · exact hpast p gs hp

omit [Suite] in
/-- The components of further answers are those behind the name that the query has gone on asking
below. -/
theorem behind_append {q' : ActiveQuery} (hq : q.interest.Seeks q.known)
    (hq' : q'.interest.name = q.known.base) (past : List (List Fragment)) (fs : List Fragment) :
    q.behind (past ++ [fs]).flatten = q.behind past.flatten ++ q'.behind fs := by
  have hname : q'.interest.name = q.interest.name := hq'.trans hq.name_eq.symm
  rw [List.flatten_append, List.flatten_singleton]
  unfold ActiveQuery.behind
  rw [List.filterMap_append, hname]

/-- After a batch of siblings the query goes on without their components, which are no versions. -/
theorem handleBatch_of_siblings (hw : w.active = some q) (hq : q.interest.Seeks q.known)
    (hfs : ∀ f ∈ fs, q.interest.accepts f = true ∧ q.offer? f = none) :
    (∃ exclusions, w.handleBatch q.generation fs =
      (.reissue (q.interest.excludingAll (q.behind fs)),
        { w with
          active := some { q with interest := q.interest.excludingAll (q.behind fs) }
          exclusions })) ∧
      ∀ c ∈ q.behind fs, Version.ofComponent? c = none := by
  have hunwanted : fs.filterMap q.unwanted? = q.behind fs := by
    refine List.filterMap_congr fun f hf => ?_
    obtain ⟨-, c, hc, hunwanted⟩ := ActiveQuery.exists_unwanted? hq (hfs f hf).1 (hfs f hf).2
    rw [hunwanted, hc]
  have hnone : fs.filterMap q.candidate? = [] := by
    rw [List.filterMap_eq_nil_iff]
    intro f hf
    exact (ActiveQuery.exists_unwanted? hq (hfs f hf).1 (hfs f hf).2).1
  constructor
  · rcases handleBatch_eq hw fs with ⟨t, ht, -⟩ | ⟨-, exclusions, hbatch⟩
    · rw [hnone] at ht
      cases ht
    · rw [ActiveQuery.sifted, hunwanted] at hbatch
      exact ⟨exclusions, hbatch⟩
  · intro c hc
    obtain ⟨f, hf, hcomp⟩ := List.mem_filterMap.mp hc
    have hoffer := (hfs f hf).2
    rw [ActiveQuery.offer?, hcomp] at hoffer
    exact hoffer

/-- After any number of batches of siblings the query has excluded all their components, which are
no versions. -/
theorem fed_of_siblings (hw : w.active = some q) (hq : q.interest.Seeks q.known)
    (h : w.OnlySiblings q.generation batches) :
    (w.fed q.generation batches).active =
        some { q with interest := q.interest.excludingAll (q.behind batches.flatten) } ∧
      ∀ c ∈ q.behind batches.flatten, Version.ofComponent? c = none := by
  induction batches using List.reverseRecOn with
  | nil => exact ⟨hw, nofun⟩
  | append_singleton past fs ih =>
    obtain ⟨hbefore, hanswers⟩ := onlySiblings_concat_iff.mp h
    obtain ⟨hactive, hpast⟩ := ih hbefore
    let q' : ActiveQuery :=
      { q with interest := q.interest.excludingAll (q.behind past.flatten) }
    have hq' : q'.interest.Seeks q'.known := hq.excludingAll _
    obtain ⟨⟨exclusions, hbatch⟩, hlast⟩ := handleBatch_of_siblings hactive hq'
      (hanswers q' (query?_of_active hactive))
    rw [behind_append hq hq'.name_eq]
    refine ⟨?_, List.forall_mem_append.mpr ⟨hpast, hlast⟩⟩
    rw [fed, List.foldl_append]
    show ((w.fed q.generation past).handleBatch q'.generation fs).2.active = _
    rw [hbatch]
    simp only [q', Interest.excludingAll, List.foldl_append]

/-- What siblings that are no versions can do to a query for the versions after a known name.
However many there are, in whatever batches they arrive, the interest that a watch issues again
after the last one still asks for every version that the armed query asked for, unless its filter
suspects the version; and so does every question of a search. While all their components can be
listed nothing is suspected. A search that finds nothing has missed only versions that the filter of
its last question suspects. -/
theorem keepsVersions_of_siblings :
    (∀ (w : Watch) (q : ActiveQuery) (past : List (List Fragment)) (fs : List Fragment),
      w.Reachable → w.active = some q → w.OnlySiblings q.generation (past ++ [fs]) →
      ((w.fed q.generation past).handleBatch q.generation fs).1 =
          .reissue (q.interest.excludingAll (q.behind (past ++ [fs]).flatten)) ∧
        q.interest.KeepsVersions q.known (q.behind (past ++ [fs]).flatten)) ∧
    ∀ (s : Supply) (i : Interest) (known : Name), s.Sound → i.Seeks known →
      ∃ cs found, s.findVersion i = .ok found ∧ s.Search i cs found ∧
        (∀ asked, asked <+: cs → i.KeepsVersions known asked) ∧
        (found = none → ∀ (f : Fragment) (v : Version) (d : Component), s.Serves f →
          f.name = (known.base.append v.toComponent).append d → i.accepts f = true →
          (i.excludingAll cs).exclude.suspects v.toComponent = true) := by
  constructor
  · intro w q past fs hw hq h
    have hseeks := hw.seeks hq
    obtain ⟨hbefore, hanswers⟩ := onlySiblings_concat_iff.mp h
    obtain ⟨hactive, -⟩ := fed_of_siblings hq hseeks hbefore
    let q' : ActiveQuery :=
      { q with interest := q.interest.excludingAll (q.behind past.flatten) }
    have hq' : q'.interest.Seeks q'.known := hseeks.excludingAll _
    obtain ⟨⟨exclusions, hbatch⟩, -⟩ := handleBatch_of_siblings hactive hq'
      (hanswers q' (query?_of_active hactive))
    constructor
    · rw [behind_append hseeks hq'.name_eq]
      show ((w.fed q.generation past).handleBatch q'.generation fs).1 = _
      rw [hbatch]
      simp only [q', Interest.excludingAll, List.foldl_append]
    · exact hseeks.keepsVersions (fed_of_siblings hq hseeks h).2
  · intro s i known hs hi
    have hfuel : s.matching i < s.size + 1 := Nat.lt_succ_of_le (Supply.matching_le hs i)
    obtain ⟨cs, found, hfound, hsearch⟩ := Supply.exists_search hs hi.deep hfuel
    have hnone := hsearch.no_version_of_mem
    refine ⟨cs, found, hfound, hsearch, fun asked hp => ?_, ?_⟩
    · exact hi.keepsVersions fun c hc => hnone c (hp.subset hc)
    · rintro rfl f v d hf hname ha
      -- The last question matches nothing, so it does not match this fragment either.
      obtain ⟨answer, hget, hpicks⟩ := Supply.get_picks hs (i.excludingAll cs)
      obtain rfl : none = answer := Except.ok.inj (hsearch.get_excludingAll.symm.trans hget)
      have hno := hpicks.not_accepts rfl f hf
      have hkeeps := (hi.keepsVersions hnone).accepts_iff f v d hname
      rw [hno] at hkeeps
      cases hs : (i.excludingAll cs).exclude.suspects v.toComponent with
      | true => rfl
      | false => exact absurd (hkeeps.mpr ⟨ha, hs⟩) Bool.false_ne_true

end

/-! ### Siblings right below the root -/

/-- A fragment with some component where others have a version. -/
def sibling (c : Component) : Fragment :=
  { segmentOf 0 0 with name := (Name.root.append c).append (.ofText "x") }

/-- Two siblings arrive, and then a third. -/
def threeSiblings : List (List Fragment) :=
  [[sibling (.ofText "one"), sibling (.ofText "two")], [sibling (.ofText "six")]]

theorem onlySiblings_three : armedAtTwo.OnlySiblings 1 threeSiblings := by
  refine onlySiblings_concat_iff.mpr ⟨onlySiblings_concat_iff.mpr ⟨onlySiblings_nil _ _, ?_⟩, ?_⟩
  · rintro q ⟨⟩
    decide
  · rintro q ⟨⟩
    decide

/-- A sibling and the third version are published. -/
def shelf : Supply := (Supply.publish {} [sibling (.ofText "one"), segmentOf 3 0]).2

theorem sound_shelf : shelf.Sound := (Supply.publish_grows (Supply.sound_new {}) _).1

theorem keepsVersions_of_siblings_three :
    armedAtTwo.Reachable ∧ armedAtTwo.OnlySiblings 1 threeSiblings ∧
      (∃ q j, armedAtTwo.active = some q ∧
        j = q.interest.excludingAll [.ofText "one", .ofText "two", .ofText "six"] ∧
        ((armedAtTwo.fed 1 [[sibling (.ofText "one"), sibling (.ofText "two")]]).handleBatch 1
          [sibling (.ofText "six")]).1 = .reissue j ∧
        j.accepts (segmentOf 9 0) = true) ∧
      shelf.Sound ∧ (Interest.nextVersion .root).Seeks .root ∧
      ∃ cs, shelf.findVersion (.nextVersion .root) = .ok (some (segmentOf 3 0)) ∧
        shelf.Search (.nextVersion .root) cs (some (segmentOf 3 0)) ∧
        (Interest.nextVersion .root).KeepsVersions .root cs := by
  have hreach : armedAtTwo.Reachable := ⟨[_], rfl⟩
  have hfound : shelf.findVersion (.nextVersion .root) = .ok (some (segmentOf 3 0)) := by
    decide +kernel
  obtain ⟨hwatch, hsearch⟩ := keepsVersions_of_siblings
  obtain ⟨hoffers, hkeeps⟩ := hwatch armedAtTwo _
    [[sibling (.ofText "one"), sibling (.ofText "two")]] [sibling (.ofText "six")] hreach rfl
    onlySiblings_three
  have hseeks := Interest.seeks_nextVersion Name.root
  obtain ⟨cs, found, hfind, hall, hasked, -⟩ := hsearch shelf _ .root sound_shelf hseeks
  cases hfound.symm.trans hfind
  refine ⟨hreach, onlySiblings_three, ⟨_, _, rfl, rfl, hoffers, ?_⟩, sound_shelf, hseeks, cs,
    hfound, hall, hasked cs (List.prefix_refl cs)⟩
  obtain ⟨hbloom, hload, harmed⟩ := hkeeps.of_armed rfl
  refine (hkeeps.accepts_iff (segmentOf 9 0) ⟨9⟩ _ rfl).mpr ⟨?_, ?_⟩
  · exact (harmed (segmentOf 9 0) ⟨9⟩ _ rfl).mpr fun k hk => by cases hk; decide
  · refine hkeeps.suspects_eq_false hbloom ?_ _
    rw [hload]
    exact (List.toFinset_card_le _).trans (by decide)

/-- A hundred and one components of one octet. -/
def oneOctet : List Component := (List.range 101).map fun k => ⟨[UInt8.ofNat k]⟩

theorem nodup_oneOctet : oneOctet.Nodup := by
  refine List.Nodup.map_on (fun j hj k hk h => ?_) List.nodup_range
  have hoctet : UInt8.ofNat j = UInt8.ofNat k := (List.cons.inj (Component.mk.inj h)).1
  have hvalue := congrArg UInt8.toNat hoctet
  rw [UInt8.toNat_ofNat', UInt8.toNat_ofNat'] at hvalue
  rw [List.mem_range] at hj hk
  omega

theorem spilled_oneOctet :
    ((Interest.nextVersion .root).excludingAll oneOctet).exclude.explicit = [] := by
  have hsplit : oneOctet = oneOctet.take 100 ++ [⟨[100]⟩] := by decide
  rw [hsplit]
  have hnew : ∀ c, (Interest.nextVersion .root).exclude.excludes c = false := fun _ => rfl
  refine Interest.explicit_excludingAll_eq_nil rfl (fun c _ => hnew c) ?_ (hnew _) ?_ rfl
  · rw [← hsplit]
    exact nodup_oneOctet
  · rfl

/-- The twenty-seventh version has its bits in common with two of the components. -/
theorem suspects_oneOctet : ((Interest.nextVersion .root).excludingAll oneOctet).exclude.suspects
    (Version.toComponent ⟨27⟩) = true := by
  have hcovered : ∀ p ∈ Bloom.positions (Version.toComponent ⟨27⟩),
      ∃ c ∈ ([⟨[3]⟩, ⟨[71]⟩] : List Component), p ∈ Bloom.positions c := by
    decide +kernel
  refine Interest.suspects_of_covered rfl spilled_oneOctet fun p hp => ?_
  obtain ⟨c, hc, hpc⟩ := hcovered p hp
  have hmem : ∀ c ∈ ([⟨[3]⟩, ⟨[71]⟩] : List Component), c ∈ oneOctet := by decide
  exact ⟨c, hmem c hc, hpc⟩

/-- Siblings do not always leave all later versions in sight: one can be suspected when there are
more than a hundred. -/
theorem not_always_kept :
    ¬ ∀ (w : Watch) (q : ActiveQuery) (past : List (List Fragment)) (fs : List Fragment)
      (j : Interest), w.Reachable → w.active = some q →
      w.OnlySiblings q.generation (past ++ [fs]) →
      ((w.fed q.generation past).handleBatch q.generation fs).1 = .reissue j →
      ∀ (f : Fragment) (v : Version) (d : Component),
        f.name = (q.known.base.append v.toComponent).append d →
        (∀ k, q.known.version? = some k → k < v) → j.accepts f = true := by
  intro h
  let q : ActiveQuery := ⟨1, .root, .nextVersion .root, none⟩
  let w : Watch := idle.after (.arm .root false)
  have hq : w.active = some q := rfl
  have hseeks : q.interest.Seeks q.known := Interest.seeks_nextVersion .root
  have hsiblings : ∀ f ∈ oneOctet.map sibling,
      q.interest.accepts f = true ∧ q.offer? f = none := by
    intro f hf
    obtain ⟨c, hc, rfl⟩ := List.mem_map.mp hf
    have hnone : ∀ c ∈ oneOctet, Version.ofComponent? c = none := by decide
    exact ⟨hseeks.deep.accepts_of_name rfl rfl rfl, hnone c hc⟩
  have hone : w.OnlySiblings q.generation ([] ++ [oneOctet.map sibling]) := by
    refine onlySiblings_concat_iff.mpr ⟨onlySiblings_nil _ _, fun q' hq' => ?_⟩
    obtain rfl : q' = q :=
      Option.some.inj ((query?_eq_some_iff.mp hq').1.symm.trans hq)
    exact hsiblings
  obtain ⟨⟨exclusions, hbatch⟩, hnone⟩ := handleBatch_of_siblings hq hseeks hsiblings
  have haccepts := h w q [] _ _ ⟨[.arm .root false], rfl⟩ hq hone (congrArg Prod.fst hbatch)
    (segmentOf 27 0) ⟨27⟩ _ rfl nofun
  have hkeeps := hseeks.keepsVersions hnone
  have hnot := ((hkeeps.accepts_iff (segmentOf 27 0) ⟨27⟩ _ rfl).mp haccepts).2
  cases hnot.symm.trans suspects_oneOctet

end Watch

end NamedContent
