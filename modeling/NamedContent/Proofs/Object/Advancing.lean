import NamedContent.Proofs.Object.Issue
import NamedContent.Proofs.Object.Tracking

/-!
# Advancing among versions that can be read

A query for later versions that goes on to exclude versions which cannot be read still asks for all
that can (`Publishes.accepts_of_readable`), while not more than a hundred are excluded. What it asks
for is of later versions only (`Publishes.exists_of_accepts`), and less of it is left after each
adoption (`Publishes.matching_lt`).

An object that adopts such versions one after the other (`ObjectState.Reaches`) ends up with the
greatest one, once none of them is later than the one it holds (`Reaches.holdsGreatest`).
-/

namespace NamedContent

variable [Suite] {α : Type} [Payload α] {b : Name} {r r' : Issue} {rs : List Issue} {f : Fragment}
  {v : Option Version} {cs : List Component}

open Session (isLater)

/-! ### Interests in later versions -/

omit [Payload α] in
/-- The fragments of later versions are what a query for later versions asks for. -/
theorem Issue.Whole.accepts_nextVersion_iff (h : r.Whole b) (hplain : b.splitVersion? = none)
    (hf : f ∈ r.fragments) : (Interest.nextVersion (b.known v)).accepts f = true ↔
      isLater (some r.version) v = true := by
  obtain ⟨d, hname⟩ := h.exists_name_eq hf
  have hbase := Name.base_known hplain v
  have hversion : (b.known v).version? = v := by
    cases v with
    | none => simp [Name.version?, Name.known, hplain]
    | some u => exact Name.version?_append b u
  rw [Interest.accepts_nextVersion_iff (v := r.version) (d := d) (by rw [hbase]; exact hname),
    hversion]
  cases v with
  | none =>
    constructor
    · exact fun _ => rfl
    · intro _ k hk
      cases hk
  | some u =>
    constructor
    · exact fun h => decide_eq_true (h u rfl)
    · rintro h k ⟨⟩
      exact of_decide_eq_true h

/-- What is not asked for of what is below the base is excluded. -/
theorem Interest.Seeks.excludes_of_not_accepts {i : Interest} {known : Name} {c d : Component}
    (h : i.Seeks known) (hname : f.name = (i.name.append c).append d) (hno : i.accepts f = false) :
    i.exclude.excludes c = true := by
  by_contra hc
  rw [Bool.not_eq_true] at hc
  have hpublisher : i.publisher = none := congrArg (·.publisher) h.eq_nextVersion
  rw [h.deep.accepts_of_name hpublisher hname hc] at hno
  cases hno

/-- The components of versions that cannot be read. -/
def Supply.Unreadable (α : Type) [Payload α] (s : Supply) (rs : List Issue) (cs : List Component) :
    Prop :=
  ∀ c ∈ cs, ∃ r ∈ rs, r.isReadable α s = false ∧ c = r.version.toComponent

namespace Supply

variable {s : Supply}

/-- Up to a hundred versions are excluded one by one. -/
theorem Unreadable.bloom_eq_none (h : s.Unreadable α rs cs)
    (hfew : rs.countP (fun r => !r.isReadable α s) ≤ 100) :
    ((Interest.nextVersion (b.known v)).excludingAll cs).exclude.bloom = none := by
  obtain ⟨hlisted, hbloom⟩ := Interest.exclude_nextVersion (b.known v)
  refine Interest.bloom_excludingAll_eq_none hbloom ?_
  let bad : List Component :=
    (rs.filter fun r => !r.isReadable α s).map fun r => r.version.toComponent
  have hsub : cs.toFinset ⊆ bad.toFinset := by
    intro c hc
    obtain ⟨r, hr, hno, rfl⟩ := h c (List.mem_toFinset.mp hc)
    rw [List.mem_toFinset]
    exact List.mem_map.mpr ⟨r, List.mem_filter.mpr ⟨hr, by rw [hno]; rfl⟩, rfl⟩
  have hlength : bad.length ≤ 100 := by
    rw [List.length_map, ← List.countP_eq_length_filter]
    exact hfew
  rw [Exclude.load, hlisted]
  show 0 + _ ≤ 100
  rw [Nat.zero_add]
  calc (cs.toFinset \ [].toFinset).card
    ≤ cs.toFinset.card := Finset.card_le_card Finset.sdiff_subset
    _ ≤ bad.toFinset.card := Finset.card_le_card hsub
    _ ≤ bad.length := List.toFinset_card_le bad
    _ ≤ 100 := hlength

/-- A query that excludes versions which cannot be read still asks for those that can. -/
theorem Publishes.accepts_of_readable (h : s.Publishes b rs) (hcs : s.Unreadable α rs cs)
    (hfew : rs.countP (fun r => !r.isReadable α s) ≤ 100) (hr : r ∈ rs)
    (hreadable : r.isReadable α s = true) (hlater : isLater (some r.version) v = true)
    (hf : f ∈ r.fragments) :
    ((Interest.nextVersion (b.known v)).excludingAll cs).accepts f = true := by
  have hwhole := h.whole r hr
  have hname := Interest.name_nextVersion_known h.plain v
  have hcomp := hwhole.component?_eq hf
  rw [← hname] at hcomp
  refine (Interest.accepts_excludingAll_iff hcomp fun hmem => ?_).mpr
    ⟨(hwhole.accepts_nextVersion_iff h.plain hf).mpr hlater,
      Exclude.suspects_of_bloom (hcs.bloom_eq_none hfew) _⟩
  obtain ⟨r', hr', hno, hversion⟩ := hcs _ hmem
  obtain rfl := List.inj_on_of_nodup_map h.distinct hr hr'
    (Version.toComponent_injective hversion)
  rw [hreadable] at hno
  cases hno

/-- What a query for later versions still asks for is of a later version. -/
theorem Publishes.exists_of_accepts (h : s.Publishes b rs) (hserved : s.Serves f)
    (ha : ((Interest.nextVersion (b.known v)).excludingAll cs).accepts f = true) :
    ∃ r ∈ rs, f ∈ r.fragments ∧ isLater (some r.version) v = true := by
  have hseeks := (Interest.seeks_nextVersion (b.known v)).excludingAll cs
  have hpre := Interest.prefix_of_accepts ha
  rw [hseeks.name_eq, Name.base_known h.plain] at hpre
  obtain ⟨r, hr, hf⟩ := h.below f hserved hpre
  exact ⟨r, hr, hf, ((h.whole r hr).accepts_nextVersion_iff h.plain hf).mp
    (Interest.accepts_of_excludingAll ha)⟩

/-- After a version was adopted less is asked for than before. -/
theorem Publishes.matching_lt (h : s.Publishes b rs) (hr : r ∈ rs)
    (hlater : isLater (some r.version) v = true) :
    s.matching (.nextVersion (b.known (some r.version))) <
      s.matching (.nextVersion (b.known v)) := by
  have hwhole := h.whole r hr
  have hfirst : r.first ∈ r.fragments := List.mem_cons_self
  refine Supply.matching_lt h.sound (fun g hg ha => ?_) (h.served r hr r.first hfirst)
    ((hwhole.accepts_nextVersion_iff h.plain hfirst).mpr hlater) ?_
  · have hnone : ((Interest.nextVersion (b.known (some r.version))).excludingAll []).accepts g =
        true := ha
    obtain ⟨r', hr', hf', hlater'⟩ := h.exists_of_accepts hg hnone
    rw [(h.whole r' hr').accepts_nextVersion_iff h.plain hf']
    exact Session.isLater_trans hlater' hlater
  · rw [Bool.eq_false_iff, ne_eq, hwhole.accepts_nextVersion_iff h.plain hfirst,
      Session.not_isLater_self]
    exact Bool.false_ne_true

end Supply

/-! ### States -/

namespace ObjectState

variable {st st' : ObjectState α} {s : Supply}

/-- The states that an object goes through, and the versions that it holds in them: it stays as it
is, or takes a later version that can be read. -/
inductive Reaches (st : ObjectState α) (b : Name) (s : Supply) (rs : List Issue) :
    Option Version → ObjectState α → Prop where
  | start : st.Reaches b s rs st.version st
  | took (r : Issue) (mem : r ∈ rs) (readable : r.isReadable α s = true)
      (later : isLater (some r.version) st.version = true) :
      st.Reaches b s rs (some r.version) (st.take (r.adoption b))

/-- The greatest of the versions that can be read is held, or what was held before if none of them
is later. -/
inductive HoldsGreatest (st : ObjectState α) (b : Name) (s : Supply) (rs : List Issue) :
    ObjectState α → Prop where
  | kept (none_later : ∀ r ∈ rs,
        r.isReadable α s = true → isLater (some r.version) st.version = false) :
      st.HoldsGreatest b s rs st
  | took (r : Issue) (mem : r ∈ rs) (readable : r.isReadable α s = true)
      (later : isLater (some r.version) st.version = true)
      (greatest : ∀ r' ∈ rs, r'.isReadable α s = true → r'.version ≤ r.version) :
      st.HoldsGreatest b s rs (st.take (r.adoption b))

/-- How often the supply has changed plays no part. -/
theorem HoldsGreatest.of_changes {changes : Nat}
    (h : st.HoldsGreatest b { s with changes } rs st') :
    st.HoldsGreatest b s rs st' := by
  cases h with
  | kept hno => exact .kept hno
  | took r hr hreadable hlater hgreatest => exact .took r hr hreadable hlater hgreatest

/-- The object has a base name, which is not empty and has no version. -/
structure Based (st : ObjectState α) (b : Name) : Prop where
  base_eq : st.base = some b
  not_root : b.isRoot = false
  plain : b.splitVersion? = none

theorem Reaches.version_eq (h : st.Reaches b s rs v st') : st'.version = v := by
  cases h with
  | start => rfl
  | took r _ _ _ => rfl

omit [Suite] [Payload α] in
theorem Based.knownName_eq (h : st.Based b) : st.knownName = .ok (b.known st.version) := by
  rw [knownName_of_base h.base_eq h.not_root, Name.known_eq h.plain]

omit [Suite] [Payload α] in
/-- A later version moves the object forward, and no other does. -/
theorem Based.isNewer_eq (h : st.Based b) (u : Version) :
    st.isNewer b u = isLater (some u) st.version := by
  unfold isNewer
  rw [h.base_eq]
  cases st.version with
  | none => rfl
  | some w =>
    dsimp only
    rw [if_pos (Name.base_of_splitVersion?_eq_none h.plain)]
    rfl

theorem Reaches.based (hst : st.Based b) (h : st.Reaches b s rs v st') : st'.Based b := by
  refine ⟨?_, hst.not_root, hst.plain⟩
  cases h with
  | start => exact hst.base_eq
  | took r _ _ _ => rfl

theorem Reaches.knownName_eq (hst : st.Based b) (h : st.Reaches b s rs v st') :
    st'.knownName = .ok (b.known v) := by
  rw [(h.based hst).knownName_eq, h.version_eq]

/-- A later version replaces whatever was there. -/
theorem Reaches.adopt_eq (hst : st.Based b) (h : st.Reaches b s rs v st')
    (hlater : isLater (some r.version) v = true) :
    (st'.adopt (r.adoption b)).2 = st.take (r.adoption b) := by
  have hnew : st'.isNewer b r.version = true := by
    rw [(h.based hst).isNewer_eq, h.version_eq]
    exact hlater
  rw [adopt_of_newer (a := r.adoption b) hnew]
  cases h with
  | start => rfl
  | took r' _ _ _ => rfl

/-- And the object goes on to it, whatever it went through before. -/
theorem Reaches.next (h : st.Reaches b s rs v st') (hr : r ∈ rs)
    (hreadable : r.isReadable α s = true) (hlater : isLater (some r.version) v = true) :
    st.Reaches b s rs (some r.version) (st.take (r.adoption b)) := by
  refine .took r hr hreadable ?_
  cases h with
  | start => exact hlater
  | took r' _ _ hlater' => exact Session.isLater_trans hlater hlater'

/-- When no later version can be read, the greatest one is held. -/
theorem Reaches.holdsGreatest (h : st.Reaches b s rs v st')
    (hno : ∀ r ∈ rs, r.isReadable α s = true → isLater (some r.version) v = false) :
    st.HoldsGreatest b s rs st' := by
  cases h with
  | start => exact .kept hno
  | took r hr hreadable hlater =>
    refine .took r hr hreadable hlater fun r' hr' hreadable' => ?_
    exact UInt64.not_lt.mp (of_decide_eq_false (hno r' hr' hreadable'))

end ObjectState

end NamedContent
