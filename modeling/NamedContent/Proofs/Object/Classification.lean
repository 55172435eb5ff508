import NamedContent.Proofs.Object.Calls
import NamedContent.Suite.Standard

/-!
# What a batch of answers is classified as

Answers to an armed query carry one component behind the base of the known name, and another one
behind that. If the first of them is a version in any of the answers, then the greatest of these
versions is confirmed, and it is later than the known name's; if not, all these components are
excluded from the query (`Classified`). So a continuous watch that goes on from each confirmed
version confirms later and later ones (`Orderly.exists_increasing`).
-/

namespace NamedContent

/-- A target is the first segment of a versioned name, or that name with the publisher of some
fragment of it, among the answers. -/
inductive Confirmed.Names (fs : List Fragment) (versioned : Name) : Confirmed → Prop where
  | firstSegment {f : Fragment} (mem : f ∈ fs) (name_eq : f.name = versioned.firstSegmentName) :
      Names fs versioned (.firstSegment f)
  | version {f : Fragment} {d : Component} (mem : f ∈ fs) (name_eq : f.name = versioned.append d) :
      Names fs versioned (.version versioned f.publisher)

namespace ActiveQuery

/-- The version behind the name that the query asks below, if an answer has a version there. -/
def offer? (q : ActiveQuery) (f : Fragment) : Option Version :=
  (f.name.component? q.interest.name.length).bind Version.ofComponent?

def offered (q : ActiveQuery) (fs : List Fragment) : List Version := fs.filterMap q.offer?

variable [Suite] {q : ActiveQuery} {f : Fragment} {fs : List Fragment} {v : Version}

/-- What a batch of answers to a query comes to. -/
structure Classified (q : ActiveQuery) (fs : List Fragment) (outcome : BatchOutcome) : Prop where
  /-- A version is confirmed exactly if some answer has one. -/
  confirmed_iff : (∃ t, outcome = .confirmed t) ↔ ∃ f ∈ fs, (q.offer? f).isSome = true
  /-- It is the greatest one in the batch, and later than that of the known name. -/
  greatest : ∀ t, outcome = .confirmed t → ∃ v ∈ q.offered fs, t.version? = some v ∧
    (∀ u ∈ q.offered fs, u ≤ v) ∧ (∀ k, q.known.version? = some k → k < v) ∧
    t.Names fs (q.known.base.append v.toComponent)
  /-- Otherwise the query goes on without the components of the answers. -/
  excluded : (¬ ∃ t, outcome = .confirmed t) → ∃ i, outcome = .reissue i ∧
    ∀ f ∈ fs, ∃ c, f.name.component? q.interest.name.length = some c ∧
      i.exclude.excludes c = true

/-! ### One answer -/

/-- An answer that has a version is a candidate of that version, which is later than the known
name's. -/
theorem exists_candidate? (hq : q.interest.Seeks q.known) (hf : q.interest.accepts f = true)
    (hv : q.offer? f = some v) :
    (∀ k, q.known.version? = some k → k < v) ∧ ∃ t, q.candidate? f = some t ∧
      t.version? = some v ∧
        ∀ fs, f ∈ fs → t.Names fs (q.known.base.append v.toComponent) := by
  have hcomp := Name.bind_ofComponent?_eq_some_iff.mp hv
  obtain ⟨c, d, hname, hc⟩ := hq.deep.name_eq hf
  obtain rfl : c = v.toComponent := Option.some.inj (hc.symm.trans hcomp)
  have hlater := (hq.startsWithLaterVersionOf_iff hf).mpr ⟨v, hcomp⟩
  have hnot := Interest.not_excludes_of_accepts hf hcomp
  refine ⟨fun k hk => hq.lt_of_not_excludes hnot hk, ?_⟩
  have hcand := Watch.candidate?_eq hname
  refine ⟨_, candidate?_eq_some_iff.mpr ⟨hlater, hcand⟩, ?_⟩
  rw [← hq.name_eq]
  split
  · next hfirst =>
    -- The component behind the version is the number of the first segment.
    obtain ⟨b, w, hbw⟩ := Name.eq_of_isVersionedFirstSegment hfirst
    have hfirstName : f.name = (q.interest.name.append v.toComponent).firstSegmentName := by
      rw [hbw] at hname ⊢
      rw [(Name.append_inj hname).1]
    refine ⟨?_, fun _ hmem => .firstSegment hmem hfirstName⟩
    show f.name.version? = some v
    simp [hfirstName, Name.firstSegmentName]
  · exact ⟨Name.version?_append _ v, fun _ hmem => .version hmem hname⟩

/-- The component of an answer without a version is excluded. -/
theorem exists_unwanted? (hq : q.interest.Seeks q.known) (hf : q.interest.accepts f = true)
    (hv : q.offer? f = none) :
    q.candidate? f = none ∧ ∃ c, f.name.component? q.interest.name.length = some c ∧
      q.unwanted? f = some c := by
  obtain ⟨c, d, -, hc⟩ := hq.deep.name_eq hf
  have hlater : ¬ f.name.startsWithLaterVersionOf q.known = true := by
    rw [hq.startsWithLaterVersionOf_iff hf]
    rintro ⟨v, hcomp⟩
    rw [offer?, Name.bind_ofComponent?_eq_some_iff.mpr hcomp] at hv
    cases hv
  refine ⟨if_neg hlater, c, hc, ?_⟩
  rw [unwanted?, if_neg hlater, hc]

/-! ### The best candidate -/

omit [Suite] in
/-- The better one of two candidates that have versions is not earlier than either. -/
theorem exists_better {best c : Confirmed} {u v : Version} (hbest : best.version? = some u)
    (hc : c.version? = some v) : ∃ b w, Watch.better (some best) c = some b ∧
      (b = best ∨ b = c) ∧ b.version? = some w ∧ u ≤ w ∧ v ≤ w := by
  rw [Watch.better, Watch.isBetter, hbest, hc]
  by_cases hlt : u < v
  · exact ⟨c, v, by simp [hlt], .inr rfl, hc, UInt64.le_of_lt hlt, UInt64.le_refl _⟩
  · exact ⟨best, u, by simp [hlt], .inl rfl, hbest, UInt64.le_refl _, UInt64.not_lt.mp hlt⟩

omit [Suite] in
/-- The best of some candidates that have versions has the greatest one of these. -/
theorem exists_foldl_better {ts : List Confirmed} {best : Confirmed} {u : Version}
    (hbest : best.version? = some u) (hts : ∀ t ∈ ts, ∃ v, t.version? = some v) :
    ∃ t ∈ best :: ts, ∃ v, ts.foldl Watch.better (some best) = some t ∧ t.version? = some v ∧
      u ≤ v ∧ ∀ s ∈ ts, ∀ w, s.version? = some w → w ≤ v := by
  induction ts generalizing best u with
  | nil => exact ⟨best, List.mem_cons_self, u, rfl, hbest, UInt64.le_refl _, by simp⟩
  | cons c ts ih =>
    obtain ⟨x, hc⟩ := hts c List.mem_cons_self
    obtain ⟨b, y, hstep, hb, hby, huy, hxy⟩ := exists_better hbest hc
    obtain ⟨t, ht, v, hfold, hv, hyv, hmax⟩ :=
      ih hby fun t ht => hts t (List.mem_cons_of_mem _ ht)
    refine ⟨t, ?_, v, by rw [List.foldl_cons, hstep, hfold], hv, UInt64.le_trans huy hyv, ?_⟩
    · rcases List.mem_cons.mp ht with rfl | ht
      · rcases hb with rfl | rfl <;> simp
      · simp [ht]
    · intro s hs w hw
      rcases List.mem_cons.mp hs with rfl | hs
      · obtain rfl : x = w := Option.some.inj (hc.symm.trans hw)
        exact UInt64.le_trans hxy hyv
      · exact hmax s hs w hw

/-- Every candidate of a batch has a version that some answer offers. -/
theorem offered_of_candidate (hq : q.interest.Seeks q.known)
    (hfs : ∀ f ∈ fs, q.interest.accepts f = true) {t : Confirmed}
    (ht : t ∈ fs.filterMap q.candidate?) :
    ∃ v ∈ q.offered fs, t.version? = some v ∧ (∀ k, q.known.version? = some k → k < v) ∧
      t.Names fs (q.known.base.append v.toComponent) := by
  obtain ⟨f, hf, hft⟩ := List.mem_filterMap.mp ht
  cases hv : q.offer? f with
  | none =>
    rw [(exists_unwanted? hq (hfs f hf) hv).1] at hft
    cases hft
  | some v =>
    obtain ⟨hlater, t', ht', hversion, hnames⟩ := exists_candidate? hq (hfs f hf) hv
    obtain rfl : t' = t := Option.some.inj (ht'.symm.trans hft)
    exact ⟨v, List.mem_filterMap.mpr ⟨f, hf, hv⟩, hversion, hlater, hnames fs hf⟩

/-- Every version that an answer offers is that of a candidate. -/
theorem candidate_of_offered (hq : q.interest.Seeks q.known)
    (hfs : ∀ f ∈ fs, q.interest.accepts f = true) {u : Version} (hu : u ∈ q.offered fs) :
    ∃ t ∈ fs.filterMap q.candidate?, t.version? = some u := by
  obtain ⟨f, hf, hfu⟩ := List.mem_filterMap.mp hu
  obtain ⟨-, t, ht, hversion, -⟩ := exists_candidate? hq (hfs f hf) hfu
  exact ⟨t, List.mem_filterMap.mpr ⟨f, hf, ht⟩, hversion⟩

/-- The best candidate of answers has the greatest of their versions. -/
theorem best_of_offered (hq : q.interest.Seeks q.known)
    (hfs : ∀ f ∈ fs, q.interest.accepts f = true) (hne : ∃ f ∈ fs, (q.offer? f).isSome = true) :
    ∃ t v, (fs.filterMap q.candidate?).foldl Watch.better none = some t ∧ v ∈ q.offered fs ∧
      t.version? = some v ∧ (∀ u ∈ q.offered fs, u ≤ v) ∧
      (∀ k, q.known.version? = some k → k < v) ∧
      t.Names fs (q.known.base.append v.toComponent) := by
  have hcand := fun t => offered_of_candidate hq hfs (t := t)
  have hoffer := fun u => candidate_of_offered hq hfs (u := u)
  obtain ⟨f, hf, hsome⟩ := hne
  obtain ⟨u, hu⟩ := Option.isSome_iff_exists.mp hsome
  obtain ⟨t, ht, -⟩ := hoffer u (List.mem_filterMap.mpr ⟨f, hf, hu⟩)
  cases hts : fs.filterMap q.candidate? with
  | nil =>
    rw [hts] at ht
    cases ht
  | cons t₀ ts =>
    rw [hts] at hcand hoffer
    obtain ⟨v₀, -, hv₀, -⟩ := hcand t₀ List.mem_cons_self
    have hversions : ∀ t ∈ ts, ∃ v, t.version? = some v := by
      intro t ht
      obtain ⟨v, -, hv, -⟩ := hcand t (List.mem_cons_of_mem _ ht)
      exact ⟨v, hv⟩
    -- The best candidate has the greatest of the offered versions, and names what offered it.
    obtain ⟨t, ht, w, hfold, hw, hfirst, hmax⟩ := exists_foldl_better hv₀ hversions
    obtain ⟨v, hmem, hv, hlater, hnames⟩ := hcand t ht
    obtain rfl : v = w := Option.some.inj (hv.symm.trans hw)
    refine ⟨t, v, hfold, hmem, hv, fun u hu => ?_, hlater, hnames⟩
    obtain ⟨s, hs, hsu⟩ := hoffer u hu
    rcases List.mem_cons.mp hs with rfl | hs
    · obtain rfl : v₀ = u := Option.some.inj (hv₀.symm.trans hsu)
      exact hfirst
    · exact hmax s hs u hsu

/-! ### Batches -/

theorem classified (hq : q.interest.Seeks q.known) {w : Watch} (hw : w.active = some q)
    (hfs : ∀ f ∈ fs, q.interest.accepts f = true) :
    q.Classified fs (w.handleBatch q.generation fs).1 := by
  -- If something is offered the best of it is confirmed. Otherwise all answers are excluded.
  by_cases hne : ∃ f ∈ fs, (q.offer? f).isSome = true
  · obtain ⟨t, v, hbest, hspec⟩ := best_of_offered hq hfs hne
    rcases Watch.handleBatch_eq hw fs with ⟨t', ht', hbatch⟩ | ⟨hnone, -⟩
    · obtain rfl : t' = t := Option.some.inj (ht'.symm.trans hbest)
      rw [hbatch]
      refine ⟨⟨fun _ => hne, fun _ => ⟨t', rfl⟩⟩, ?_, fun h => absurd ⟨t', rfl⟩ h⟩
      rintro _ ⟨⟩
      exact ⟨v, hspec⟩
    · rw [hbest] at hnone
      cases hnone
  · have hnone : ∀ f ∈ fs, q.offer? f = none := by
      intro f hf
      cases hv : q.offer? f with
      | none => rfl
      | some v => exact absurd ⟨f, hf, by rw [hv]; rfl⟩ hne
    have hcands : fs.filterMap q.candidate? = [] := by
      rw [List.filterMap_eq_nil_iff]
      intro f hf
      exact (exists_unwanted? hq (hfs f hf) (hnone f hf)).1
    rcases Watch.handleBatch_eq hw fs with ⟨t, ht, -⟩ | ⟨-, exclusions, hbatch⟩
    · rw [hcands] at ht
      cases ht
    · rw [hbatch]
      refine ⟨⟨?_, fun h => absurd h hne⟩, ?_, fun _ => ⟨_, rfl, fun f hf => ?_⟩⟩
      · rintro ⟨_, ⟨⟩⟩
      · rintro _ ⟨⟩
      · obtain ⟨-, c, hc, hunwanted⟩ := exists_unwanted? hq (hfs f hf) (hnone f hf)
        refine ⟨c, hc, Interest.excludes_excludingAll_of_mem ?_ _⟩
        exact List.mem_filterMap.mpr ⟨f, hf, hunwanted⟩

end ActiveQuery

/-! ### Runs of batches -/

def BatchOutcome.target? : BatchOutcome → Option Confirmed
  | .confirmed t => some t
  | _ => none

theorem BatchOutcome.target?_eq_some_iff {outcome : BatchOutcome} {t : Confirmed} :
    outcome.target? = some t ↔ outcome = .confirmed t := by
  cases outcome <;> simp [target?]

namespace Watch

section

variable [Suite] {w : Watch} {q : ActiveQuery} {owed : Option Confirmed} {calls : List Call}

/-- The target that a call confirms. -/
def confirms? (w : Watch) : Call → Option Confirmed
  | .batch g fs => (w.handleBatch g fs).1.target?
  | _ => none

/-- The targets that calls in a row confirm. -/
def confirmations (w : Watch) : List Call → List Confirmed
  | [] => []
  | c :: calls => (w.confirms? c).toList ++ (w.after c).confirmations calls

/-- Calls in which a batch has only what the active interest accepts, and in which the watch goes on
from a name of each confirmed version before the next batch. In between, components are rejected and
the interest is asked for again. A target is owed while it is confirmed but not gone on from. -/
inductive Orderly : Watch → Option Confirmed → List Call → Prop where
  | done {w : Watch} {owed : Option Confirmed} : Orderly w owed []
  | batch {w : Watch} {g : Nat} {fs : List Fragment} {calls : List Call}
      (accepted : ∀ q, w.query? g = some q → ∀ f ∈ fs, q.interest.accepts f = true)
      (rest : Orderly (w.after (.batch g fs)) (w.confirms? (.batch g fs)) calls) :
      Orderly w none (.batch g fs :: calls)
  | confirmed {w : Watch} {g : Nat} {q : ActiveQuery} {t : Confirmed} {v : Version} {n : Name}
      {calls : List Call} (query_eq : w.query? g = some q) (version_eq : t.version? = some v)
      (split_eq : n.splitVersion? = some (q.interest.name, v))
      (rest : Orderly (w.after (.confirmed g n)) none calls) :
      Orderly w (some t) (.confirmed g n :: calls)
  | reject {w : Watch} {owed : Option Confirmed} {g : Nat} {c : Component} {calls : List Call}
      (rest : Orderly (w.after (.reject g c)) owed calls) : Orderly w owed (.reject g c :: calls)
  | retry {w : Watch} {owed : Option Confirmed} {g : Nat} {calls : List Call}
      (rest : Orderly (w.after (.retry g)) owed calls) : Orderly w owed (.retry g :: calls)

omit [Suite] in
/-- A continuous watch whose query seeks the versions after its known name. -/
structure Continues (w : Watch) (q : ActiveQuery) : Prop where
  active_eq : w.active = some q
  continuous : w.continuous = true
  seeks : q.interest.Seeks q.known

namespace Continues

theorem batch (h : w.Continues q) (g : Nat) (fs : List Fragment) :
    ∃ q', (w.after (.batch g fs)).Continues q' ∧ q'.known = q.known := by
  show ∃ q', (w.handleBatch g fs).2.Continues q' ∧ _
  by_cases hg : q.generation = g
  · subst hg
    have hsifted : (q.sifted fs).interest.Seeks q.known := h.seeks.excludingAll _
    obtain ⟨exclusions, hbatch⟩ := snd_handleBatch h.active_eq fs
    rw [hbatch]
    exact ⟨q.sifted fs, ⟨rfl, h.continuous, hsifted⟩, rfl⟩
  · rw [handleBatch_of_stale (query?_of_generation_ne h.active_eq hg)]
    exact ⟨q, h, rfl⟩

theorem reject (h : w.Continues q) (g : Nat) (c : Component) :
    ∃ q', (w.after (.reject g c)).Continues q' ∧ q'.known = q.known := by
  show ∃ q', (w.reject g c).2.Continues q' ∧ _
  unfold Watch.reject
  split
  · exact ⟨q, h, rfl⟩
  · next q₁ hq₁ =>
    obtain rfl : q₁ = q :=
      Option.some.inj ((query?_eq_some_iff.mp hq₁).1.symm.trans h.active_eq)
    exact ⟨_, ⟨rfl, h.continuous, h.seeks.excluding c⟩, rfl⟩

theorem confirmed (h : w.Continues q) {g : Nat} {q₁ : ActiveQuery} (hg : w.query? g = some q₁)
    (n : Name) : ∃ q', (w.after (.confirmed g n)).Continues q' ∧ q'.known = n := by
  show ∃ q', (w.confirmed g n).2.Continues q' ∧ _
  unfold Watch.confirmed
  simp only [hg, h.continuous, if_true]
  exact ⟨_, ⟨rfl, rfl, Interest.seeks_nextVersion n⟩, rfl⟩

/-- What a batch of accepted answers confirms is later than the known name's version. -/
theorem lt_of_confirms? (h : w.Continues q) {g : Nat} {fs : List Fragment} {t : Confirmed}
    (accepted : ∀ q, w.query? g = some q → ∀ f ∈ fs, q.interest.accepts f = true)
    (ht : w.confirms? (.batch g fs) = some t) :
    ∃ v, t.version? = some v ∧ ∀ k, q.known.version? = some k → k < v := by
  have hbatch := BatchOutcome.target?_eq_some_iff.mp ht
  by_cases hg : q.generation = g
  · subst hg
    have hclass := ActiveQuery.classified h.seeks h.active_eq
      (accepted q (query?_of_active h.active_eq))
    obtain ⟨v, -, hv, -, hlater, -⟩ := hclass.greatest t hbatch
    exact ⟨v, hv, hlater⟩
  · rw [handleBatch_of_stale (query?_of_generation_ne h.active_eq hg)] at hbatch
    cases hbatch

end Continues

omit [Suite] in
/-- What the next confirmed version has to be later than: the version that is owed, or else that of
the known name. -/
def floor (known : Name) : Option Confirmed → Option Version
  | some t => t.version?
  | none => known.version?

/-- The versions that a continuous watch confirms strictly increase, and are later than what is owed
or known at the start. -/
theorem Orderly.exists_increasing (h : w.Orderly owed calls) {q : ActiveQuery}
    (hw : w.Continues q) : ∃ vs : List Version,
      (w.confirmations calls).map Confirmed.version? = vs.map some ∧ vs.Pairwise (· < ·) ∧
        ∀ v ∈ vs, ∀ k, floor q.known owed = some k → k < v := by
  induction h generalizing q with
  | done => exact ⟨[], rfl, .nil, fun v hv => by cases hv⟩
  | @batch w g fs calls accepted rest ih =>
    obtain ⟨q', hw', hknown⟩ := hw.batch g fs
    obtain ⟨vs, hmap, hincreasing, hfloor⟩ := ih hw'
    cases hc : w.confirms? (.batch g fs) with
    | none =>
      rw [hc, hknown] at hfloor
      exact ⟨vs, by rw [confirmations, hc]; exact hmap, hincreasing, hfloor⟩
    | some t =>
      -- What comes later is later than the version that is confirmed now.
      obtain ⟨v, hv, hlater⟩ := hw.lt_of_confirms? accepted hc
      rw [hc] at hfloor
      refine ⟨v :: vs, ?_, ?_, ?_⟩
      · rw [confirmations, hc]
        simp [hv, hmap]
      · exact List.pairwise_cons.mpr ⟨fun u hu => hfloor u hu v hv, hincreasing⟩
      · intro u hu k hk
        rcases List.mem_cons.mp hu with rfl | hu
        · exact hlater k hk
        · exact UInt64.lt_trans (hlater k hk) (hfloor u hu v hv)
  | @confirmed w g q₁ t v n calls query_eq version_eq split_eq rest ih =>
    obtain ⟨q', hw', hknown⟩ := hw.confirmed query_eq n
    obtain ⟨vs, hmap, hincreasing, hfloor⟩ := ih hw'
    refine ⟨vs, hmap, hincreasing, fun u hu k hk => hfloor u hu k ?_⟩
    have hn : n.version? = some v := by rw [Name.version?, split_eq]; rfl
    rw [floor, hknown, hn, ← version_eq]
    exact hk
  | @reject w owed g c calls rest ih =>
    obtain ⟨q', hw', hknown⟩ := hw.reject g c
    rw [← hknown]
    exact ih hw'
  | retry rest ih => exact ih hw

/-- A watch that calls led to classifies every batch of answers to its query. If it is continuous,
the versions that it confirms in a run strictly increase, and all are later than the known one. -/
theorem Reachable.classifies (h : w.Reachable) (hq : w.active = some q) :
    (∀ fs, (∀ f ∈ fs, q.interest.accepts f = true) →
      q.Classified fs (w.handleBatch q.generation fs).1) ∧
    (w.continuous = true → ∀ calls, w.Orderly none calls → ∃ vs : List Version,
      (w.confirmations calls).map Confirmed.version? = vs.map some ∧ vs.Pairwise (· < ·) ∧
        ∀ v ∈ vs, ∀ k, q.known.version? = some k → k < v) := by
  refine ⟨fun fs hfs => ActiveQuery.classified (h.seeks hq) hq hfs, fun hc calls hcalls => ?_⟩
  exact hcalls.exists_increasing ⟨hq, hc, h.seeks hq⟩

end

/-! ### Versions out of order -/

/-- A segment of a version right below the root. -/
def segmentOf (ticks segment : UInt64) : Fragment where
  name := (Name.root.append (Version.toComponent ⟨ticks⟩)).segmentName segment
  info := ⟨⟨.replicate 32 1⟩, 0, .data, none, .named .root none, none⟩
  content := []
  signature := ⟨.replicate 64 0⟩

def armedAtTwo : Watch := idle.after (.arm (Name.root.append (Version.toComponent ⟨2⟩)) true)

/-- The seventh version arrives between two others and is gone on from; the ninth one is next. -/
def outOfOrder : List Call :=
  [.batch 1 [segmentOf 3 0, segmentOf 7 1, segmentOf 5 0], .reject 1 (Version.toComponent ⟨8⟩),
    .confirmed 1 (Name.root.append (Version.toComponent ⟨7⟩)), .retry 1,
    .batch 1 [segmentOf 9 0]]

theorem orderly_outOfOrder : armedAtTwo.Orderly none outOfOrder := by
  have hseven : armedAtTwo.confirms? (.batch 1 [segmentOf 3 0, segmentOf 7 1, segmentOf 5 0]) =
      some (.version (Name.root.append (Version.toComponent ⟨7⟩)) ⟨.replicate 32 1⟩) := by
    decide
  refine .batch ?_ ?_
  · rintro q ⟨⟩
    decide
  rw [hseven]
  apply Orderly.reject
  refine .confirmed rfl rfl (Name.splitVersion?_append .root ⟨7⟩) (.retry (.batch ?_ .done))
  rintro q ⟨⟩
  decide

theorem classifies_outOfOrder : armedAtTwo.Reachable ∧ armedAtTwo.Orderly none outOfOrder ∧
    ∃ q vs, armedAtTwo.active = some q ∧
      q.Classified [segmentOf 3 0, segmentOf 7 1]
        (armedAtTwo.handleBatch q.generation [segmentOf 3 0, segmentOf 7 1]).1 ∧
      (armedAtTwo.confirmations outOfOrder).map Confirmed.version? = vs.map some ∧
      vs = [⟨7⟩, ⟨9⟩] ∧ vs.Pairwise (· < ·) := by
  have hreach : armedAtTwo.Reachable := ⟨[_], rfl⟩
  obtain ⟨hclass, hrun⟩ := Reachable.classifies hreach rfl
  obtain ⟨vs, hmap, hincreasing, -⟩ := hrun rfl outOfOrder orderly_outOfOrder
  have hversions : (armedAtTwo.confirmations outOfOrder).map Confirmed.version? =
      [⟨7⟩, ⟨9⟩].map some := by
    decide
  have hvs : vs = [⟨7⟩, ⟨9⟩] := by
    rw [hmap] at hversions
    exact List.map_injective_iff.mpr (fun _ _ h => Option.some.inj h) hversions
  exact ⟨hreach, orderly_outOfOrder, _, vs, rfl, hclass _ (by decide), hmap, hvs, hincreasing⟩

end Watch
end NamedContent
