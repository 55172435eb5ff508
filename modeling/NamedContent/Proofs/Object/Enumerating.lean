import Mathlib.Data.List.Sort
import NamedContent.Proofs.Object.Advancing
import NamedContent.Proofs.Object.CatchUp
import NamedContent.Proofs.Object.Lockstep
import NamedContent.Proofs.Object.Passing

/-!
# Updates enumerate the versions

Below a base there are versions that can be read, such as participants sign (`Offers.of_releases`),
and fragments beside them (`Supply.Offers`). The search for the version after a known one excludes
what is beside, and while that is behind not more than a hundred components it hides no version. So
it ends with the first later version, from whichever of its fragments, or there is none
(`Offers.findVersion`).

An object that nothing is at work for stays as it is while it waits, so each update leads it to the
first later version or leaves it alone (`Idles.update`). Updated again and again it holds all later
versions in their order, each once (`update_enumerates`).
-/

namespace NamedContent

open Session (isLater)

/-! ### Versions in their order -/

namespace Issue

/-- The first of some versions that is later than a known one. -/
structure IsNext (rs : List Issue) (v : Option Version) (r : Issue) : Prop where
  mem : r ∈ rs
  later : isLater (some r.version) v = true
  first : ∀ r' ∈ rs, isLater (some r'.version) v = true → r.version ≤ r'.version

/-- The versions that are later than a known one, in their order. -/
def after (rs : List Issue) (v : Option Version) : List Issue :=
  (rs.filter fun r => isLater (some r.version) v).insertionSort (·.version ≤ ·.version)

variable {rs : List Issue} {r : Issue} {v : Option Version}

@[simp] theorem mem_after : r ∈ after rs v ↔ r ∈ rs ∧ isLater (some r.version) v = true := by
  rw [after, List.mem_insertionSort, List.mem_filter]

theorem pairwise_after (h : (rs.map version).Nodup) (v : Option Version) :
    (after rs v).Pairwise (·.version < ·.version) := by
  have : Std.Total fun r r' : Issue => r.version ≤ r'.version :=
    ⟨fun r r' => UInt64.le_total r.version.ticks r'.version.ticks⟩
  have : IsTrans Issue fun r r' => r.version ≤ r'.version := ⟨fun _ _ _ => UInt64.le_trans⟩
  have hle : (after rs v).Pairwise (·.version ≤ ·.version) := List.pairwise_insertionSort _ _
  have hne : (after rs v).Pairwise (·.version ≠ ·.version) := by
    rw [← List.pairwise_map (f := version) (R := (· ≠ ·))]
    refine (List.Perm.nodup_iff ((List.perm_insertionSort _ _).map version)).mpr ?_
    exact h.sublist (List.filter_sublist.map version)
  exact (hle.and hne).imp fun ⟨hle, hne⟩ =>
    (Version.eq_or_lt_of_le hle).resolve_left hne

/-- What is later than a version is that version and what is later than the first one of it. -/
theorem after_of_isNext (h : (rs.map version).Nodup) (hr : IsNext rs v r) :
    after rs v = r :: after rs (some r.version) := by
  have hrest : (r :: after rs (some r.version)).Pairwise (·.version < ·.version) :=
    List.pairwise_cons.mpr
      ⟨fun x hx => of_decide_eq_true (mem_after.mp hx).2, pairwise_after h (some r.version)⟩
  have : Std.Irrefl fun x y : Issue => x.version < y.version :=
    ⟨fun x => UInt64.lt_irrefl x.version.ticks⟩
  have : Std.Antisymm fun x y : Issue => x.version < y.version :=
    ⟨fun _ _ hxy hyx => absurd (UInt64.lt_trans hxy hyx) (UInt64.lt_irrefl _)⟩
  refine (pairwise_after h v).eq_of_mem_iff hrest fun x => ?_
  rw [List.mem_cons, mem_after, mem_after]
  constructor
  · rintro ⟨hx, hlater⟩
    rcases Version.eq_or_lt_of_le (hr.first x hx hlater) with heq | hlt
    · exact .inl (List.inj_on_of_nodup_map h hr.mem hx heq).symm
    · exact .inr ⟨hx, decide_eq_true hlt⟩
  · rintro (rfl | ⟨hx, hlater⟩)
    · exact ⟨hr.mem, hr.later⟩
    · exact ⟨hx, Session.isLater_trans hlater hr.later⟩

theorem after_eq_nil (h : ∀ r ∈ rs, isLater (some r.version) v = false) : after rs v = [] := by
  refine List.eq_nil_iff_forall_not_mem.mpr fun r hr => ?_
  obtain ⟨hmem, hlater⟩ := mem_after.mp hr
  rw [h r hmem] at hlater
  cases hlater

end Issue

section

variable [Suite] {α : Type} [Payload α] {b : Name} {r : Issue} {rs : List Issue}
  {others : List Component} {v : Option Version} {f : Fragment}

/-! ### What participants sign -/

/-- The fragments of a release as an issue. -/
def Release.issue? (q : Release α) : Option Issue :=
  match q.fragments with
  | [] => none
  | first :: rest => some ⟨q.version, first, rest⟩

omit [Suite] [Payload α] in
theorem Release.fragments_of_issue? {q : Release α} (h : q.issue? = some r) :
    q.fragments = r.fragments ∧ q.version = r.version := by
  unfold issue? at h
  split at h
  · cases h
  · next hfs =>
    cases h
    exact ⟨hfs, rfl⟩

namespace Release.Readable

variable {q : Release α}

theorem exists_issue (h : q.Readable b) : ∃ r, q.issue? = some r := by
  obtain ⟨first, rest, hfs⟩ := List.exists_cons_of_length_pos h.edition.length_pos
  exact ⟨_, by rw [issue?, hfs]⟩

/-- It is all of the version. -/
theorem whole (h : q.Readable b) (hr : q.issue? = some r) : r.Whole b := by
  obtain ⟨hfragments, hversion⟩ := fragments_of_issue? hr
  have hedition := h.edition
  have hembeds := h.embeds
  rw [Release.name, hfragments, hversion] at hedition
  rw [hfragments] at hembeds
  have hfirst : r.first ∈ r.fragments := List.mem_cons_self
  have hlen : r.fragments.length = r.rest.length + 1 := List.length_cons
  have hlt := hedition.length_lt
  exact {
    length_eq := by
      rw [hedition.final_eq r.first hfirst, Option.getD_some, UInt64.toNat_ofNat',
        Nat.mod_eq_of_lt (by omega), hlen, Nat.add_sub_cancel]
    name_eq := hedition.name_eq
    publisher_eq := fun f hf => by
      rw [hedition.publisher_eq f hf, hedition.publisher_eq r.first hfirst]
    embeds := fun f hf => ⟨q.key, hembeds f hf⟩ }

/-- And it can be read, whether what is signed is a value or a tombstone. -/
theorem isReadable (h : q.Readable b) (hr : q.issue? = some r) (s : Supply) :
    r.isReadable α s = true := by
  obtain ⟨hfragments, -⟩ := fragments_of_issue? hr
  have hpass : r.fragments.all s.passes = true := by
    rw [← hfragments, List.all_eq_true]
    intro f hf
    have hvalid : f.validate = .ok () := by
      rw [Fragment.validate, h.embeds f hf]
      exact h.edition.validateWith_eq hf
    rw [Supply.passes, hvalid]
    exact Bool.or_true _
  rw [Issue.isReadable, hpass, Bool.true_and]
  have htells := h.tells
  rw [Tells, Collection.payloadOf_of_edition h.edition
    (c := ⟨r.first, r.name b, 0, r.rest⟩) hfragments] at htells
  cases hgone : r.first.isGone with
  | true => rfl
  | false =>
    rcases htells with ⟨hnone, -⟩ | ⟨bytes, x, hsome, hdecode, -⟩
    · rw [hgone] at hnone
      cases hnone
    · rw [hgone] at hsome
      have hcontent : r.content = bytes := by
        rw [← Option.some.inj hsome, Collection.payload, hgone]
        rfl
      rw [hcontent, hdecode]
      rfl

end Release.Readable

/-! ### The first later version -/

namespace Supply

variable {s : Supply}

variable (α) in
/-- Some versions of an unversioned base are served, each given once and all of it, and every one
can be read. Beside them there is nothing below the base but fragments behind some components that
are no versions. -/
structure Offers (s : Supply) (b : Name) (rs : List Issue) (others : List Component) : Prop where
  plain : b.splitVersion? = none
  sound : s.Sound
  whole : ∀ r ∈ rs, r.Whole b
  readable : ∀ r ∈ rs, r.isReadable α s = true
  distinct : (rs.map Issue.version).Nodup
  served : ∀ r ∈ rs, ∀ f ∈ r.fragments, s.Serves f
  below : ∀ g c, s.Serves g → b.isPrefixOf g.name = true → g.name.component? b.length = some c →
    (∃ r ∈ rs, g ∈ r.fragments) ∨ c ∈ others
  no_version : ∀ c ∈ others, Version.ofComponent? c = none

namespace Offers

/-- How often a supply has changed plays no part. -/
theorem of_changes (h : s.Offers α b rs others) (changes : Nat) :
    { s with changes }.Offers α b rs others where
  plain := h.plain
  sound := h.sound.of_content rfl rfl rfl
  whole := h.whole
  readable := h.readable
  distinct := h.distinct
  served := h.served
  below := h.below
  no_version := h.no_version

/-- Releases are such versions, once all of their fragments are served. -/
theorem of_releases {qs : List (Release α)} (hqs : Releases b qs) (hs : s.Sound)
    (hserved : ∀ q ∈ qs, ∀ f ∈ q.fragments, s.Serves f)
    (hbelow : ∀ g c, s.Serves g → b.isPrefixOf g.name = true → g.name.component? b.length = some c →
      (∃ q ∈ qs, g ∈ q.fragments) ∨ c ∈ others)
    (hno : ∀ c ∈ others, Version.ofComponent? c = none) :
    s.Offers α b (qs.filterMap Release.issue?) others := by
  have hissue : ∀ r ∈ qs.filterMap Release.issue?, ∃ q ∈ qs, q.Readable b ∧ q.issue? = some r := by
    intro r hr
    obtain ⟨q, hq, hqr⟩ := List.mem_filterMap.mp hr
    exact ⟨q, hq, hqs.readable q hq, hqr⟩
  exact {
    plain := hqs.plain
    sound := hs
    whole := fun r hr => by
      obtain ⟨q, -, hread, hqr⟩ := hissue r hr
      exact hread.whole hqr
    readable := fun r hr => by
      obtain ⟨q, -, hread, hqr⟩ := hissue r hr
      exact hread.isReadable hqr s
    distinct := by
      have hdistinct := hqs.distinct
      rw [List.Nodup, List.pairwise_map] at hdistinct ⊢
      refine List.pairwise_filterMap.mpr (hdistinct.imp fun hne r hr r' hr' => ?_)
      rwa [← (Release.fragments_of_issue? hr).2, ← (Release.fragments_of_issue? hr').2]
    served := fun r hr f hf => by
      obtain ⟨q, hq, -, hqr⟩ := hissue r hr
      exact hserved q hq f ((Release.fragments_of_issue? hqr).1 ▸ hf)
    below := fun g c hg hpre hc => (hbelow g c hg hpre hc).imp_left fun ⟨q, hq, hmem⟩ => by
      obtain ⟨r, hqr⟩ := (hqs.readable q hq).exists_issue
      exact ⟨r, List.mem_filterMap.mpr ⟨q, hq, hqr⟩, (Release.fragments_of_issue? hqr).1 ▸ hmem⟩
    no_version := hno }

/-- What is served with a version behind the base is a fragment of that version. -/
theorem mem_of_version (h : s.Offers α b rs others) (hserved : s.Serves f)
    (hpre : b.isPrefixOf f.name = true) {u : Version}
    (hc : f.name.component? b.length = some u.toComponent) :
    ∃ r ∈ rs, f ∈ r.fragments ∧ r.version = u := by
  rcases h.below f _ hserved hpre hc with ⟨r, hr, hf⟩ | hmem
  · have hversion := (h.whole r hr).component?_eq hf
    rw [hc] at hversion
    exact ⟨r, hr, hf, (Version.toComponent_injective (Option.some.inj hversion)).symm⟩
  · have hno := h.no_version _ hmem
    rw [Version.ofComponent?_toComponent] at hno
    cases hno

theorem provides (h : s.Offers α b rs others) (hr : r ∈ rs) : s.Provides b r where
  sound := h.sound
  whole := h.whole r hr
  served := h.served r hr
  only f hf g hg hname := by
    have hwhole := h.whole r hr
    obtain ⟨d, hd⟩ := hwhole.exists_name_eq hf
    have hpre : b.isPrefixOf g.name = true := Name.isPrefixOf_of_eq (hname.trans hd)
    have hc := hwhole.component?_eq hf
    rw [← hname] at hc
    obtain ⟨r', hr', hg', hversion⟩ := h.mem_of_version hg hpre hc
    obtain rfl := List.inj_on_of_nodup_map h.distinct hr' hr hversion
    exact hwhole.eq_of_name_eq hf hg' hname

/-- What a search excludes is beside the versions, so while that is not too much it suspects
none. -/
theorem suspects_eq_false (h : s.Offers α b rs others) (hfew : others.length ≤ 100)
    {cs : List Component} {found : Option Fragment}
    (hsearch : s.Search (.nextVersion (b.known v)) cs found) (c : Component) :
    ((Interest.nextVersion (b.known v)).excludingAll cs).exclude.suspects c = false := by
  have hkeeps := (Interest.seeks_nextVersion (b.known v)).keepsVersions hsearch.no_version_of_mem
  obtain ⟨hbloom, hload, -⟩ := hkeeps.of_armed rfl
  refine hkeeps.suspects_eq_false hbloom ?_ c
  -- A component is excluded because something behind it answered, and that was no version.
  have hsub : cs.toFinset ⊆ others.toFinset := by
    intro c hc
    rw [List.mem_toFinset] at hc ⊢
    obtain ⟨g, hg, hpre, hcomp⟩ := hsearch.served_of_mem h.sound c hc
    rw [Interest.name_nextVersion_known h.plain] at hpre hcomp
    rcases h.below g c hg hpre hcomp with ⟨r, hr, hmem⟩ | hmem
    · have hno := hsearch.no_version_of_mem c hc
      rw [(h.whole r hr).component?_eq hmem] at hcomp
      rw [← Option.some.inj hcomp, Version.ofComponent?_toComponent] at hno
      cases hno
    · exact hmem
  calc (Interest.nextVersion (b.known v)).exclude.load cs
    _ = cs.toFinset.card := hload
    _ ≤ others.toFinset.card := Finset.card_le_card hsub
    _ ≤ others.length := List.toFinset_card_le others
    _ ≤ 100 := hfew

/-- The last question of a search still asks for all later versions. -/
theorem accepts_of_later (h : s.Offers α b rs others) (hfew : others.length ≤ 100)
    {cs : List Component} {found : Option Fragment}
    (hsearch : s.Search (.nextVersion (b.known v)) cs found) (hr : r ∈ rs)
    (hlater : isLater (some r.version) v = true) (hf : f ∈ r.fragments) :
    ((Interest.nextVersion (b.known v)).excludingAll cs).accepts f = true := by
  have hwhole := h.whole r hr
  obtain ⟨d, hd⟩ := hwhole.exists_name_eq hf
  have hkeeps := (Interest.seeks_nextVersion (b.known v)).keepsVersions hsearch.no_version_of_mem
  rw [← Name.base_known h.plain v] at hd
  exact (hkeeps.accepts_iff f r.version d hd).mpr
    ⟨(hwhole.accepts_nextVersion_iff h.plain hf).mpr hlater, h.suspects_eq_false hfew hsearch _⟩

/-- The search for the version after a known one finds a fragment of the first later version, unless
there is no later one. -/
theorem findVersion (h : s.Offers α b rs others) (hfew : others.length ≤ 100) (v : Option Version) :
    (∃ r, Issue.IsNext rs v r ∧ ∃ f ∈ r.fragments,
        s.findVersion (.nextVersion (b.known v)) = .ok (some f)) ∨
      (∀ r ∈ rs, isLater (some r.version) v = false) ∧
        s.findVersion (.nextVersion (b.known v)) = .ok none := by
  obtain ⟨cs, found, hfound, hsearch⟩ := exists_search h.sound
    (Interest.deep_nextVersion (b.known v) none) (Nat.lt_succ_of_le (matching_le h.sound _))
  have hpicks := picks_of_get h.sound hsearch.get_excludingAll
  have hname := Interest.name_nextVersion_known h.plain v
  cases found with
  | none =>
    refine .inr ⟨fun r hr => ?_, hfound⟩
    by_contra hlater
    rw [Bool.not_eq_false] at hlater
    have hno := hpicks.not_accepts rfl r.first (h.served r hr r.first List.mem_cons_self)
    rw [h.accepts_of_later hfew hsearch hr hlater List.mem_cons_self] at hno
    cases hno
  | some f =>
    have haccepts := Interest.accepts_of_excludingAll (hpicks.accepts_found f rfl)
    obtain ⟨u, hu⟩ := hsearch.version_of_found
    have hpre := Interest.prefix_of_accepts haccepts
    rw [hname] at hu hpre
    obtain ⟨r, hr, hf, rfl⟩ := h.mem_of_version (hpicks.served_found f rfl) hpre hu
    have hwhole := h.whole r hr
    refine .inl ⟨r, ⟨hr, (hwhole.accepts_nextVersion_iff h.plain hf).mp haccepts,
      fun r' hr' hlater' => ?_⟩, f, hf, hfound⟩
    -- Any other later issue answers the same question, and the leftmost answer was chosen.
    have hfirst : r'.first ∈ r'.fragments := List.mem_cons_self
    obtain ⟨d, hd⟩ := hwhole.exists_name_eq hf
    obtain ⟨d', hd'⟩ := (h.whole r' hr').exists_name_eq hfirst
    have hleft : ((Interest.nextVersion (b.known v)).excludingAll cs).selector = .leftmost :=
      congrArg Interest.selector
        ((Interest.seeks_nextVersion (b.known v)).excludingAll cs).eq_nextVersion
    rcases Interest.leftmost_cases hleft hd hd' (hpicks.not_prefers f rfl r'.first
      (h.served r' hr' r'.first hfirst)
      (h.accepts_of_later hfew hsearch hr' hlater' hfirst)) with hlt | ⟨heq, -⟩
    · exact UInt64.le_of_lt hlt
    · exact UInt64.le_of_eq (congrArg Version.ticks heq)

end Offers
end Supply

/-! ### Updates -/

/-- What reading a version comes to that can be read. -/
theorem Issue.Read.eq_complete {s : Supply} {reading : Except ObjectError (Reading α)}
    (h : r.Read s b reading) (hreadable : r.isReadable α s = true) :
    reading = .ok (.complete (r.adoption b)) := by
  cases h with
  | complete _ => rfl
  | unreadable e _ hno =>
    rw [hreadable] at hno
    cases hno

namespace ObjectState

/-- The state after so many of some versions were adopted, one after the other. -/
def reached (st : ObjectState α) (b : Name) (later : List Issue) (k : Nat) : ObjectState α :=
  match (later.take k).getLast? with
  | some r => st.take (r.adoption b)
  | none => st

omit [Suite] in
theorem reached_nil (st : ObjectState α) (b : Name) (k : Nat) : st.reached b [] k = st := by
  rw [reached, List.take_nil]
  rfl

omit [Suite] in
/-- What was adopted first does not show any more once another version was adopted. -/
theorem reached_cons (st : ObjectState α) (b : Name) (r : Issue) (later : List Issue) (k : Nat) :
    st.reached b (r :: later) (k + 1) = (st.take (r.adoption b)).reached b later k := by
  rw [reached, reached, List.take_succ_cons, List.getLast?_cons]
  cases (later.take k).getLast? <;> rfl

omit [Suite] in
theorem Based.take {st : ObjectState α} (h : st.Based b) (r : Issue) :
    (st.take (r.adoption b)).Based b := ⟨rfl, h.not_root, h.plain⟩

end ObjectState

namespace Session

variable {s : Session α} {id : ObjectId} {st : ObjectState α}

/-- An object with a base that nothing is at work for, where versions below the base can be read. -/
structure Idles (s : Session α) (id : ObjectId) (b : Name) (rs : List Issue)
    (others : List Component) (st : ObjectState α) : Prop where
  inStep : s.InStep
  object : ∃ o, s.object? id = some o ∧ o.state = st ∧ o.watch.active = none
  no_wait : ∀ w ∈ s.waiting, w.watcher.object ≠ id
  based : st.Based b
  offers : s.supply.Offers α b rs others

namespace Idles

theorem stateOf_eq (h : s.Idles id b rs others st) : s.stateOf id = some st := by
  obtain ⟨o, ho, rfl, -⟩ := h.object
  exact stateOf_of_object? ho

theorem not_atWork (h : s.Idles id b rs others st) (x : Watcher) (hx : x.object = id) :
    ¬ s.AtWork x := by
  obtain ⟨o, ho, -, hidle⟩ := h.object
  rintro (⟨p, hp, hl⟩ | ⟨w, hw, hl⟩)
  · exact h.inStep.not_pending_of_idle ho hidle p hp (hl ▸ hx)
  · exact h.no_wait w hw (hl ▸ hx)

/-- While it waits, nothing comes to it. -/
theorem elapse (h : s.Idles id b rs others st) (ms : Nat) :
    (s.elapse ms).Idles id b rs others st := by
  have hspares := h.inStep.spares_elapse h.not_atWork ms
  obtain ⟨c, hc⟩ := supply_elapse s ms
  refine ⟨h.inStep.elapse ms, ?_, fun w hw hl => ?_, h.based, ?_⟩
  · rw [hspares.object?_eq]
    exact h.object
  · exact h.no_wait w ((hspares.waiting_iff w hl).mp hw) hl
  · rw [hc]
    exact h.offers.of_changes c

/-- A later version is adopted. -/
theorem adopt (h : s.Idles id b rs others st)
    (hlater : isLater (some r.version) st.version = true) :
    ∃ s', s.adopt id (r.adoption b) = (true, s') ∧
      s'.Idles id b rs others (st.take (r.adoption b)) := by
  obtain ⟨o, ho, rfl, hidle⟩ := h.object
  have hadopt : o.state.adopt (r.adoption b) = (true, o.state.take (r.adoption b)) :=
    ObjectState.adopt_of_newer ((h.based.isNewer_eq r.version).trans hlater)
  have hstep := h.inStep.of_same (h.inStep.same_adopt id (r.adoption b))
  unfold Session.adopt at hstep ⊢
  rw [ho] at hstep ⊢
  simp only [hadopt] at hstep ⊢
  refine ⟨_, rfl, hstep, ⟨_, object?_modifyObject ho _, rfl, hidle⟩, h.no_wait, h.based.take r,
    h.offers⟩

/-- An update leads to the first later version. If there is none, nothing changes. -/
theorem update (h : s.Idles id b rs others st) (hfew : others.length ≤ 100) (ms : Nat) :
    (∃ r s', Issue.IsNext rs st.version r ∧ s.update id ms = (.ok true, s') ∧
        s'.Idles id b rs others (st.take (r.adoption b))) ∨
      ∃ s', (∀ r ∈ rs, isLater (some r.version) st.version = false) ∧
        s.update id ms = (.ok false, s') ∧ s'.Idles id b rs others st := by
  obtain ⟨o, ho, hst, -⟩ := h.object
  have hknown : o.state.knownName = .ok (b.known st.version) := by
    rw [hst]
    exact h.based.knownName_eq
  have hplain := h.offers.plain
  rcases h.offers.findVersion hfew st.version with ⟨r, hnext, f, hf, hfound⟩ | ⟨hno, hfound⟩
  · have hname := Interest.name_nextVersion_known hplain st.version
    have hprovides := h.offers.provides hnext.mem
    obtain ⟨d, hd⟩ := hprovides.whole.exists_name_eq hf
    obtain ⟨t, ht, -, hread⟩ := hprovides.ofCandidate (α := α) hf o.keys hname
    rw [← hname] at hd
    rw [candidate?_eq_target rfl hd] at ht
    obtain rfl := Option.some.inj ht
    have hcomplete : Reading.ofConfirmed s.supply o.keys
        (target f (.nextVersion (b.known st.version))) = .ok (.complete (r.adoption b)) :=
      hread.eq_complete (h.offers.readable r hnext.mem)
    obtain ⟨s', hadopt, hidles⟩ := h.adopt hnext.later
    refine .inl ⟨r, s', hnext, ?_, hidles⟩
    rw [update_eq, onObject, ho]
    simp only [hknown, hfound, hcomplete, finish, hadopt]
  · refine .inr ⟨s.elapse ms, hno, ?_, h.elapse ms⟩
    rw [update_eq, onObject, ho]
    simp only [hknown, hfound]

end Idles

/-- What some updates of an object answer, each with its timeout, and the states that they leave. -/
def visits (s : Session α) (id : ObjectId) :
    List Nat → List (Except ObjectError Bool × Option (ObjectState α))
  | [] => []
  | ms :: timeouts =>
    let (answer, s) := s.update id ms
    (answer, s.stateOf id) :: s.visits id timeouts

theorem visits_cons {s' : Session α} {answer : Except ObjectError Bool} {ms : Nat}
    (h : s.update id ms = (answer, s')) (timeouts : List Nat) :
    s.visits id (ms :: timeouts) = (answer, s'.stateOf id) :: s'.visits id timeouts := by
  rw [visits, h]

theorem Idles.visits_eq (h : s.Idles id b rs others st) (hfew : others.length ≤ 100)
    (timeouts : List Nat) :
    s.visits id timeouts = (List.range timeouts.length).map fun i =>
      (.ok (decide (i < (Issue.after rs st.version).length)),
        some (st.reached b (Issue.after rs st.version) (i + 1))) := by
  -- After the first update the others go on from the version that is held then.
  induction timeouts generalizing s st with
  | nil => rfl
  | cons ms timeouts ih =>
    rw [List.length_cons, List.range_succ_eq_map, List.map_cons, List.map_map]
    rcases h.update hfew ms with ⟨r, s', hnext, hupdate, hidles⟩ | ⟨s', hno, hupdate, hidles⟩
    · have hafter := Issue.after_of_isNext h.offers.distinct hnext
      have hversion : (st.take (r.adoption b : Adoption α)).version = some r.version := rfl
      rw [visits_cons hupdate, hafter, ih hidles, hidles.stateOf_eq, hversion]
      refine congrArg₂ List.cons ?_ (List.map_congr_left fun i _ => ?_)
      · rw [ObjectState.reached_cons, List.length_cons, decide_eq_true (Nat.succ_pos _)]
        rfl
      · rw [Function.comp_apply, ObjectState.reached_cons, List.length_cons]
        simp only [Nat.succ_lt_succ_iff]
    · rw [visits_cons hupdate, ih hidles, hidles.stateOf_eq, Issue.after_eq_nil hno]
      simp only [ObjectState.reached_nil]
      rfl

/-- An object to which nothing else comes goes through the versions. Each update adopts the first
one that is later than the one held, and answers so; if there is none it changes nothing, and
answers this. So however often it is updated, it holds one later version after the other, in their
order and each once, until it holds the last one. Up to a hundred components beside the versions do
not stand in the way. -/
theorem update_enumerates (h : s.Idles id b rs others st) (hfew : others.length ≤ 100) :
    (∀ ms, (∃ r s', Issue.IsNext rs st.version r ∧ s.update id ms = (.ok true, s') ∧
          s'.Idles id b rs others (st.take (r.adoption b))) ∨
        ∃ s', (∀ r ∈ rs, isLater (some r.version) st.version = false) ∧
          s.update id ms = (.ok false, s') ∧ s'.Idles id b rs others st) ∧
      (Issue.after rs st.version).Pairwise (·.version < ·.version) ∧
      (∀ r, r ∈ Issue.after rs st.version ↔
        r ∈ rs ∧ isLater (some r.version) st.version = true) ∧
      ∀ timeouts, s.visits id timeouts = (List.range timeouts.length).map fun i =>
        (.ok (decide (i < (Issue.after rs st.version).length)),
          some (st.reached b (Issue.after rs st.version) (i + 1))) :=
  ⟨h.update hfew, Issue.pairwise_after h.offers.distinct _, fun _ => Issue.mem_after,
    h.visits_eq hfew⟩

end Session

end

namespace Session

/-! ### Two versions and a sibling -/

section

variable [Suite]

/-- A value in two segments and an earlier tombstone, beside something else. -/
def volumes : List Fragment := beside :: (fifth.fragments ++ second.fragments)

/-- An object that was opened under the name of the content, while all of this is there. -/
def leafing : Session (List UInt32) :=
  ((start (Supply.publish {} volumes).2).openObject author none { name := some content }).2

theorem distinctNames_volumes : DistinctNames volumes := by
  have hnames : volumes.map Fragment.name =
      [beside.name, (content.append (Version.toComponent ⟨5⟩)).segmentName 0,
        (content.append (Version.toComponent ⟨5⟩)).segmentName 1,
        (content.append (Version.toComponent ⟨2⟩)).segmentName 0] := rfl
  unfold DistinctNames
  rw [hnames]
  decide

theorem serves_leafing_iff {f : Fragment} : leafing.supply.Serves f ↔ f ∈ volumes :=
  Supply.serves_publish_new_iff {} distinctNames_volumes

theorem offers_leafing (hverify : Suite.VerifiesSigned) :
    leafing.supply.Offers (List UInt32) content ([fifth, second].filterMap Release.issue?)
      [.ofText "x"] := by
  refine .of_releases (releases_content hverify)
    (Supply.publish_grows (Supply.sound_new {}) volumes).1 (fun q hq f hf => ?_)
    (fun g c hg _ hc => ?_) fun c hc => ?_
  · refine serves_leafing_iff.mpr (List.mem_cons_of_mem _ (List.mem_append.mpr ?_))
    rcases List.mem_cons.mp hq with rfl | hq
    · exact .inl hf
    · exact .inr (List.mem_singleton.mp hq ▸ hf)
  · rcases List.mem_cons.mp (serves_leafing_iff.mp hg) with rfl | hg
    · exact .inr (List.mem_singleton.mpr (Option.some.inj hc).symm)
    · refine .inl ((List.mem_append.mp hg).elim (fun hg => ⟨fifth, List.mem_cons_self, hg⟩)
        fun hg => ⟨second, List.mem_cons_of_mem _ (List.mem_singleton_self _), hg⟩)
  · rw [List.mem_singleton.mp hc]
    decide

end

/-- The tombstone is found behind the sibling, then the value, and then nothing more. -/
theorem update_enumerates_volumes :
    letI := trusting
    leafing.Idles ⟨0⟩ content ([fifth, second].filterMap Release.issue?) [.ofText "x"]
        (.new (some content)) ∧
      (leafing.visits ⟨0⟩ [0, 500, 0]).map
          (fun x => (x.1, x.2.map fun st => (st.version, st.gone))) =
        [(.ok true, some (some ⟨2⟩, true)), (.ok true, some (some ⟨5⟩, false)),
          (.ok false, some (some ⟨5⟩, false))] := by
  let _ := trusting
  have hidles : leafing.Idles ⟨0⟩ content ([fifth, second].filterMap Release.issue?) [.ofText "x"]
      (.new (some content)) :=
    ⟨(inStep_start _).openObject _ _ _, ⟨_, rfl, rfl, rfl⟩, nofun, ⟨rfl, rfl, by decide⟩,
      offers_leafing fun _ _ => rfl⟩
  refine ⟨hidles, ?_⟩
  rw [(update_enumerates hidles (by decide)).2.2.2 [0, 500, 0]]
  rfl

end Session
end NamedContent
