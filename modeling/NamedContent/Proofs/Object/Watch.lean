import NamedContent.Object.Watch
import NamedContent.Proofs.Interest.Versions
import NamedContent.Proofs.Object.Reading

/-!
# What a watch does with answers

Of a batch of answers the best candidate is confirmed, or else the query goes on; in both cases it
excludes the components of what was not of a later version (`handleBatch_eq`). A single answer that
is confirmed leaves the query as it is (`handleBatch_singleton`). The query always asks below the
same name and keeps its generation and number.
-/

namespace NamedContent

/-- A query that differs from another one by exclusions only. -/
structure ActiveQuery.Narrows (q' q : ActiveQuery) : Prop where
  generation_eq : q'.generation = q.generation
  id_eq : q'.id = q.id
  known_eq : q'.known = q.known
  name_eq : q'.interest.name = q.interest.name
  minSuffix_eq : q'.interest.minSuffix = q.interest.minSuffix
  maxSuffix_eq : q'.interest.maxSuffix = q.interest.maxSuffix

namespace ActiveQuery

variable [Suite]

omit [Suite] in
/-- The later version that an answer to the query is of, if its name tells. -/
def candidate? (q : ActiveQuery) (f : Fragment) : Option Confirmed :=
  if f.name.startsWithLaterVersionOf q.known then Watch.candidate? q.interest f else none

omit [Suite] in
/-- The component to exclude because of an answer that is not of a later version. -/
def unwanted? (q : ActiveQuery) (f : Fragment) : Option Component :=
  if f.name.startsWithLaterVersionOf q.known then none
  else f.name.component? q.interest.name.length

/-- The query after answers were looked at. -/
def sifted (q : ActiveQuery) (fs : List Fragment) : ActiveQuery :=
  { q with interest := q.interest.excludingAll (fs.filterMap q.unwanted?) }

omit [Suite] in
theorem candidate?_eq_some_iff {q : ActiveQuery} {f : Fragment} {t : Confirmed} :
    q.candidate? f = some t ↔
      f.name.startsWithLaterVersionOf q.known = true ∧ Watch.candidate? q.interest f = some t := by
  unfold candidate?
  split
  · next h => simp [h]
  · next h => simp [h]

end ActiveQuery

namespace Watch

theorem query?_eq_some_iff {w : Watch} {g : Nat} {q : ActiveQuery} :
    w.query? g = some q ↔ w.active = some q ∧ q.generation = g := by
  rw [query?, Option.filter_eq_some_iff, beq_iff_eq]

theorem query?_of_active {w : Watch} {q : ActiveQuery} (h : w.active = some q) :
    w.query? q.generation = some q :=
  query?_eq_some_iff.mpr ⟨h, rfl⟩

theorem query?_of_generation_ne {w : Watch} {q : ActiveQuery} (h : w.active = some q) {g : Nat}
    (hg : q.generation ≠ g) : w.query? g = none := by
  simp [query?, h, Option.filter, hg]

theorem narrows_refl (q : ActiveQuery) : q.Narrows q := ⟨rfl, rfl, rfl, rfl, rfl, rfl⟩

variable [Suite]

theorem narrows_exclude (q : ActiveQuery) (exclusions : List Component) (c : Component) :
    (exclude q exclusions c).1.Narrows q := ⟨rfl, rfl, rfl, rfl, rfl, rfl⟩

theorem narrows_sifted (q : ActiveQuery) (fs : List Fragment) : (q.sifted fs).Narrows q := by
  have h : (q.sifted fs).interest = { q.interest with exclude := (q.sifted fs).interest.exclude } :=
    q.interest.eq_excludingAll _
  refine ⟨rfl, rfl, rfl, ?_, ?_, ?_⟩
  · rw [h]
  · rw [h]
  · rw [h]

omit [Suite] in
/-- A candidate has the publisher of the answer. -/
theorem publisher_of_candidate? {i : Interest} {f : Fragment} {c : Confirmed}
    (h : candidate? i f = some c) : c.publisher = f.publisher := by
  unfold candidate? at h
  split at h
  · cases h; rfl
  · obtain ⟨_, _, rfl⟩ := Option.map_eq_some_iff.mp h
    rfl

omit [Suite] in
/-- A candidate of an answer is the answer itself, as a first segment, or the version that it is
of. -/
theorem candidate?_eq {i : Interest} {f : Fragment} {v : Version} {d : Component}
    (hname : f.name = (i.name.append v.toComponent).append d) :
    candidate? i f = some (if f.name.isVersionedFirstSegment then .firstSegment f
      else .version (i.name.append v.toComponent) f.publisher) := by
  unfold candidate?
  split
  · rfl
  · rw [Interest.versionedNameOf?_eq hname]
    rfl

omit [Suite] in
theorem candidate?_cases {i : Interest} {f : Fragment} {v : Version} {d : Component}
    (hname : f.name = (i.name.append v.toComponent).append d) {t : Confirmed}
    (ht : candidate? i f = some t) :
    t = .firstSegment f ∨ t = .version (i.name.append v.toComponent) f.publisher := by
  rw [candidate?_eq hname] at ht
  split at ht
  · exact .inl (Option.some.inj ht).symm
  · exact .inr (Option.some.inj ht).symm

/-! ### Batches -/

theorem examineAll_eq (q : ActiveQuery) (exclusions : List Component) (best : Option Confirmed)
    (fs : List Fragment) : ∃ exclusions', examineAll q exclusions best fs =
      (q.sifted fs, exclusions', (fs.filterMap q.candidate?).foldl better best) := by
  induction fs generalizing q exclusions best with
  | nil => exact ⟨exclusions, rfl⟩
  | cons f fs ih =>
    rw [examineAll, examine, ActiveQuery.sifted, List.filterMap_cons, List.filterMap_cons]
    by_cases hlater : f.name.startsWithLaterVersionOf q.known = true
    · rw [if_pos hlater, ActiveQuery.unwanted?, if_pos hlater, ActiveQuery.candidate?,
        if_pos hlater]
      cases hc : candidate? q.interest f with
      | none => exact ih q exclusions best
      | some t => exact ih q exclusions (better best t)
    · rw [if_neg hlater, ActiveQuery.unwanted?, if_neg hlater, ActiveQuery.candidate?,
        if_neg hlater]
      cases hc : f.name.component? q.interest.name.length with
      | none => exact ih q exclusions best
      | some c =>
        -- The further answers are looked at with the same name and the same known name.
        exact ih (exclude q exclusions c).1 (exclude q exclusions c).2 best

/-- The best candidate of a batch is confirmed. If there is none, the components of the answers are
excluded. -/
theorem handleBatch_eq {w : Watch} {q : ActiveQuery} (h : w.active = some q)
    (fs : List Fragment) :
    (∃ t, (fs.filterMap q.candidate?).foldl better none = some t ∧ w.handleBatch q.generation fs =
      (.confirmed t, { w with active := some (q.sifted fs), exclusions := [] })) ∨
    ((fs.filterMap q.candidate?).foldl better none = none ∧ ∃ exclusions,
      w.handleBatch q.generation fs =
        (.reissue (q.sifted fs).interest,
          { w with active := some (q.sifted fs), exclusions })) := by
  obtain ⟨exclusions, hall⟩ := examineAll_eq q w.exclusions none fs
  unfold handleBatch
  simp only [query?_of_active h, hall]
  cases (fs.filterMap q.candidate?).foldl better none with
  | some t => exact .inl ⟨t, rfl, rfl⟩
  | none => exact .inr ⟨rfl, exclusions, rfl⟩

/-- Whatever a batch came to, the query was narrowed by it, and nothing else but the noted
exclusions changed. -/
theorem snd_handleBatch {w : Watch} {q : ActiveQuery} (h : w.active = some q)
    (fs : List Fragment) : ∃ exclusions,
      (w.handleBatch q.generation fs).2 = { w with active := some (q.sifted fs), exclusions } := by
  rcases handleBatch_eq h fs with ⟨t, -, hbatch⟩ | ⟨-, exclusions, hbatch⟩
  · exact ⟨[], by rw [hbatch]⟩
  · exact ⟨exclusions, by rw [hbatch]⟩

theorem handleBatch_of_stale {w : Watch} {g : Nat} (h : w.query? g = none) (fs : List Fragment) :
    w.handleBatch g fs = (.stale, w) := by
  rw [handleBatch, h]

/-! ### One answer -/

/-- The fragment of a later version is confirmed, and what was excluded is forgotten. -/
theorem handleBatch_of_candidate {w : Watch} {q : ActiveQuery} (h : w.active = some q)
    {f : Fragment} (hlater : f.name.startsWithLaterVersionOf q.known = true) {t : Confirmed}
    (ht : candidate? q.interest f = some t) : w.handleBatch q.generation [f] =
      (.confirmed t, { w with active := some q, exclusions := [] }) := by
  have hunwanted : q.unwanted? f = none := by rw [ActiveQuery.unwanted?, if_pos hlater]
  have hsifted : q.sifted [f] = q := by
    rw [ActiveQuery.sifted, List.filterMap_cons_none hunwanted]
    rfl
  have hbest : ([f].filterMap q.candidate?).foldl better none = some t := by
    simp [ActiveQuery.candidate?, hlater, ht, better, isBetter]
  rcases handleBatch_eq h [f] with ⟨t', ht', hbatch⟩ | ⟨hnone, -⟩
  · rw [hbest] at ht'
    rw [hbatch, hsifted, Option.some.inj ht']
  · rw [hbest] at hnone
    cases hnone

/-- One answer is confirmed, or the query goes on. -/
theorem handleBatch_singleton {w : Watch} {q : ActiveQuery} (h : w.active = some q)
    (f : Fragment) :
    (∃ t, w.handleBatch q.generation [f] =
      (.confirmed t, { w with active := some q, exclusions := [] }) ∧
        f.name.startsWithLaterVersionOf q.known = true ∧ candidate? q.interest f = some t) ∨
    ∃ q' exclusions, w.handleBatch q.generation [f] =
      (.reissue q'.interest, { w with active := some q', exclusions }) ∧ q'.Narrows q := by
  cases hc : q.candidate? f with
  | some t =>
    obtain ⟨hlater, ht⟩ := ActiveQuery.candidate?_eq_some_iff.mp hc
    exact .inl ⟨t, handleBatch_of_candidate h hlater ht, hlater, ht⟩
  | none =>
    rcases handleBatch_eq h [f] with ⟨t, ht, -⟩ | ⟨-, exclusions, hbatch⟩
    · rw [List.filterMap_cons_none hc] at ht
      cases ht
    · exact .inr ⟨_, exclusions, hbatch, narrows_sifted q [f]⟩

/-- The first segment of a later version is confirmed. -/
theorem handleBatch_firstSegment {w : Watch} {q : ActiveQuery} (h : w.active = some q)
    {f : Fragment} (hf : f.name.isVersionedFirstSegment = true)
    (hl : f.name.startsWithLaterVersionOf q.known = true) :
    w.handleBatch q.generation [f] =
      (.confirmed (.firstSegment f), { w with active := some q, exclusions := [] }) := by
  apply handleBatch_of_candidate h hl
  rw [candidate?, if_pos hf]

/-! ### Other calls -/

/-- A rejected version is excluded, and the query goes on. -/
theorem reject_of_active {w : Watch} {q : ActiveQuery} (h : w.active = some q) (c : Component) :
    ∃ q' exclusions, w.reject q.generation c =
      (some q'.interest, { w with active := some q', exclusions }) ∧ q'.Narrows q := by
  unfold reject
  simp only [query?_of_active h]
  exact ⟨_, _, rfl, narrows_exclude q w.exclusions c⟩

omit [Suite] in
/-- After a confirmed version a watch that is not continuous becomes idle. -/
theorem confirmed_of_oneShot {w : Watch} (h : w.continuous = false) (g : Nat) (known : Name) :
    (w.confirmed g known).1 = none := by
  unfold confirmed
  split
  · rfl
  · rw [if_neg (by simp [h])]

end Watch
end NamedContent
