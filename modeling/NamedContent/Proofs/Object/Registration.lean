import Mathlib.Data.List.Basic
import NamedContent.Proofs.Object.Opening

/-!
# Armed watches and pending interests

Any number of objects share a network. Each arming of a watch has one interest there. Whoever holds
a number of it (the table of pending interests, a watch that waits, the armed query) agrees with the
others on whose it is; no two armings share a number, and none has two (`Owns`).

`InStep` is what serving keeps (`InStep.step`, `InStep.expire`): a pending interest is that of the
armed query which it was expressed for, and the interest of an armed query is pending. The one
exception is a query right below the root. There a watch can conclude for an object that knows no
name, and then its interest is retired while the watch stays armed.
-/

namespace NamedContent

attribute [ext] Watcher

/-! ### Answers of armed watches -/

/-- A query asks for versions right below the base of the known name, and has a number. -/
structure ActiveQuery.Proper (q : ActiveQuery) : Prop where
  deep : q.interest.Deep
  name_eq : q.interest.name = q.known.base
  id_isSome : q.id.isSome = true

theorem ActiveQuery.Narrows.proper {q q' : ActiveQuery} (hq : q'.Narrows q) (h : q.Proper) :
    q'.Proper where
  deep := ⟨hq.minSuffix_eq.trans h.deep.min_eq, hq.maxSuffix_eq.trans h.deep.max_eq⟩
  name_eq := by rw [hq.name_eq, hq.known_eq, h.name_eq]
  id_isSome := by rw [hq.id_eq, h.id_isSome]

/-- What a proper query confirms is a version right below the base of its known name. -/
theorem Watch.below_of_candidate? [Suite] {q : ActiveQuery} (hq : q.Proper) {f : Fragment}
    (haccepts : q.interest.accepts f = true)
    (hlater : f.name.startsWithLaterVersionOf q.known = true) {t : Confirmed}
    (ht : candidate? q.interest f = some t) : t.Below q.known.base := by
  obtain ⟨c, d, hname, hcomp⟩ := hq.deep.name_eq haccepts
  obtain ⟨v, hv⟩ := Name.component?_of_startsWithLaterVersionOf hlater
  rw [← hq.name_eq, hcomp] at hv
  rw [Option.some.inj hv] at hname
  rw [← hq.name_eq]
  unfold candidate? at ht
  split at ht
  · next hfirst =>
    cases ht
    obtain ⟨w, hw⟩ := hq.deep.eq_of_firstSegment haccepts hfirst
    show f.name.base = q.interest.name
    rw [hw]
    exact Name.base_segmentName _ w Segment.first
  · rw [Interest.versionedNameOf?_eq hname] at ht
    cases ht
    exact ⟨v, rfl⟩

namespace Session

variable {α : Type} {s s' : Session α} {id : ObjectId} {o : VersionedObject α} {k : InterestId}
  {x : Watcher} {q : ActiveQuery} {w : Watch}

/-! ### Numbers of interests -/

/-- The query of an arming, if the arming is the armed one of an open object. -/
def query? (s : Session α) (x : Watcher) : Option ActiveQuery :=
  (s.object? x.object).bind fun o => o.watch.query? x.generation

theorem query?_eq_some_iff :
    s.query? x = some q ↔ ∃ o, s.object? x.object = some o ∧ o.watch.active = some q ∧
      q.generation = x.generation := by
  unfold query?
  rw [Option.bind_eq_some_iff]
  exact exists_congr fun o => and_congr_right fun _ => Watch.query?_eq_some_iff

theorem query?_of_object? (ho : s.object? x.object = some o) :
    s.query? x = o.watch.query? x.generation := by
  unfold query?
  rw [ho]
  rfl

theorem query?_of_object?_eq_none (ho : s.object? x.object = none) : s.query? x = none := by
  unfold query?
  rw [ho]
  rfl

/-- Queries are read off the objects. -/
theorem query?_of_objects_eq (h : s'.objects = s.objects) (x : Watcher) :
    s'.query? x = s.query? x := by
  unfold query? object?
  rw [h]

/-- The query of an arming is the active one of its object. -/
theorem active_of_query? (ho : s.object? x.object = some o) (hq : s.query? x = some q) :
    o.watch.active = some q ∧ q.generation = x.generation :=
  Watch.query?_eq_some_iff.mp (query?_of_object? ho ▸ hq)

/-- An interest of this number was expressed for an arming, as far as the session knows. -/
inductive Expresses (s : Session α) (k : InterestId) (x : Watcher) : Prop where
  | pending (p : Pending Watcher) (mem : p ∈ s.network.pending) (id_eq : p.id = k)
      (listener_eq : p.listener = x)
  | waiting (w : Waiting) (mem : w ∈ s.waiting) (id_eq : w.id = k) (watcher_eq : w.watcher = x)
  | query (q : ActiveQuery) (query_eq : s.query? x = some q) (id_eq : q.id = some k)

/-- The number belongs to an arming, and to no other; the arming has no other number. -/
structure Owns (s : Session α) (k : InterestId) (x : Watcher) : Prop where
  watcher_eq : ∀ y, s.Expresses k y → y = x
  number_eq : ∀ j, s.Expresses j x → j = k
  number_le : k.number ≤ s.network.expressed
  opened : x.object.index < s.opened
  generation_le : ∀ o, s.object? x.object = some o → x.generation ≤ o.watch.generation

/-- Objects get no earlier generation of their watches. -/
def Ages (s s' : Session α) : Prop :=
  ∀ id : ObjectId, id.index < s.opened → ∀ o', s'.object? id = some o' →
    ∃ o, s.object? id = some o ∧ o.watch.generation ≤ o'.watch.generation

/-- A number stays an arming's own while nothing new is expressed. -/
theorem Owns.mono (h : s.Owns k x) (hexpresses : ∀ j y, s'.Expresses j y → s.Expresses j y)
    (hnumber : s.network.expressed ≤ s'.network.expressed) (hopened : s.opened ≤ s'.opened)
    (hages : s.Ages s') : s'.Owns k x where
  watcher_eq y hy := h.watcher_eq y (hexpresses k y hy)
  number_eq j hj := h.number_eq j (hexpresses j x hj)
  number_le := Nat.le_trans h.number_le hnumber
  opened := Nat.lt_of_lt_of_le h.opened hopened
  generation_le o' ho' := by
    obtain ⟨o, ho, hle⟩ := hages x.object h.opened o' ho'
    exact Nat.le_trans (h.generation_le o ho) hle

/-- So it is if one interest is expressed, under the number of its arming or under a new one. -/
theorem Owns.of_added {j : InterestId} {y : Watcher} (h : s.Owns j y)
    (hadded : ∀ j' y', s'.Expresses j' y' → s.Expresses j' y' ∨ j' = k ∧ y' = x)
    (hagree : j = k ↔ y = x) (hnumber : s.network.expressed ≤ s'.network.expressed)
    (hopened : s.opened ≤ s'.opened) (hages : s.Ages s') : s'.Owns j y where
  watcher_eq y' hy' := by
    rcases hadded j y' hy' with hold | ⟨hj, rfl⟩
    · exact h.watcher_eq y' hold
    · exact (hagree.mp hj).symm
  number_eq j' hj' := by
    rcases hadded j' y hj' with hold | ⟨rfl, hy⟩
    · exact h.number_eq j' hold
    · exact (hagree.mpr hy).symm
  number_le := Nat.le_trans h.number_le hnumber
  opened := Nat.lt_of_lt_of_le h.opened hopened
  generation_le o' ho' := by
    obtain ⟨o, ho, hle⟩ := hages y.object h.opened o' ho'
    exact Nat.le_trans (h.generation_le o ho) hle

/-- The watches and the network are in step. -/
structure InStep (s : Session α) : Prop where
  numbered : s.Numbered
  owns : ∀ k x, s.Expresses k x → s.Owns k x
  /-- A pending interest is that of the armed query which it was expressed for. -/
  asked : ∀ p ∈ s.network.pending, ∃ q, s.query? p.listener = some q ∧ p.interest = q.interest
  /-- The interest of an armed query is pending, unless it is below the root. -/
  query : ∀ x q, s.query? x = some q → q.Proper ∧
    (q.known.base.isRoot = false → ∃ p ∈ s.network.pending, p.listener = x)
  /-- While a watch that is still armed waits, its interest is pending. -/
  waits : ∀ w ∈ s.waiting, ∀ q, s.query? w.watcher = some q →
    w.lack.Below q.known.base ∧ ∃ p ∈ s.network.pending, p.listener = w.watcher
  busy : ∀ w ∈ s.waiting, ∀ p ∈ s.network.pending, p.listener = w.watcher → p.standing = .busy
  apart : s.waiting.Pairwise (·.watcher ≠ ·.watcher)

theorem inStep_start (supply : Supply) : (start supply : Session α).InStep where
  numbered _ he := nomatch he
  owns k x h := by
    cases h with
    | pending p hp => cases hp
    | waiting w hw => cases hw
    | query q hq => cases hq
  asked _ hp := nomatch hp
  query _ _ hq := nomatch hq
  waits _ hw := nomatch hw
  busy _ hw := nomatch hw
  apart := .nil

/-! ### What leaves watches and interests in step -/

/-- Pending interests that are the same but for what they wait for. The ones that a watch waits for
stay as they are, or become busy. -/
structure Keeps (s s' : Session α) : Prop where
  back : ∀ p' ∈ s'.network.pending, ∃ p ∈ s.network.pending, p'.id = p.id ∧
    p'.listener = p.listener ∧ p'.interest = p.interest ∧
    (p'.standing = p.standing ∨ p'.standing = .busy ∨ ∀ w ∈ s.waiting, w.watcher ≠ p.listener)
  forth : ∀ p ∈ s.network.pending, ∃ p' ∈ s'.network.pending, p'.listener = p.listener

theorem keeps_of_eq (h : s'.network.pending = s.network.pending) : s.Keeps s' where
  back p' hp' := ⟨p', h ▸ hp', rfl, rfl, rfl, .inl rfl⟩
  forth p hp := ⟨p, h ▸ hp, rfl⟩

/-- A session in which watches, interests and waits are the same as before, or fewer wait. -/
structure Same (s s' : Session α) : Prop where
  numbered : s'.Numbered
  opened_le : s.opened ≤ s'.opened
  expressed_le : s.network.expressed ≤ s'.network.expressed
  query_eq : ∀ x, s'.query? x = s.query? x
  ages : s.Ages s'
  keeps : s.Keeps s'
  waiting : s'.waiting.Sublist s.waiting

theorem Same.expresses (h : s.Same s') (hx : s'.Expresses k x) : s.Expresses k x := by
  cases hx with
  | pending p hp hk hx =>
    obtain ⟨p₀, hp₀, hid, hlistener, _⟩ := h.keeps.back p hp
    exact .pending p₀ hp₀ (hid.symm.trans hk) (hlistener.symm.trans hx)
  | waiting w hw hk hx => exact .waiting w (h.waiting.subset hw) hk hx
  | query q hq hk => exact .query q (h.query_eq x ▸ hq) hk

theorem Same.owns (h : s.Same s') (hx : s.Owns k x) : s'.Owns k x :=
  hx.mono (fun _ _ => h.expresses) h.expressed_le h.opened_le h.ages

theorem InStep.of_same (h : s.InStep) (hs : s.Same s') : s'.InStep where
  numbered := hs.numbered
  owns k x hx := hs.owns (h.owns k x (hs.expresses hx))
  asked p' hp' := by
    obtain ⟨p, hp, _, hlistener, hinterest, _⟩ := hs.keeps.back p' hp'
    rw [hlistener, hs.query_eq, hinterest]
    exact h.asked p hp
  query x q hq := by
    rw [hs.query_eq] at hq
    obtain ⟨hproper, hpending⟩ := h.query x q hq
    refine ⟨hproper, fun hroot => ?_⟩
    obtain ⟨p, hp, rfl⟩ := hpending hroot
    exact hs.keeps.forth p hp
  waits w hw q hq := by
    rw [hs.query_eq] at hq
    obtain ⟨hbelow, p, hp, hx⟩ := h.waits w (hs.waiting.subset hw) q hq
    rw [← hx]
    exact ⟨hbelow, hs.keeps.forth p hp⟩
  busy w hw p' hp' hx := by
    obtain ⟨p, hp, _, hlistener, _, hstanding⟩ := hs.keeps.back p' hp'
    have hw' := hs.waiting.subset hw
    have hlistener' : p.listener = w.watcher := hlistener.symm.trans hx
    rcases hstanding with hsame | hbusy | hfree
    · rw [hsame]
      exact h.busy w hw' p hp hlistener'
    · exact hbusy
    · exact absurd hlistener'.symm (hfree w hw')
  apart := h.apart.sublist hs.waiting

/-- What only concerns the supply, the time and the waits. -/
theorem InStep.same_of_eq (h : s.InStep) (hobj : s'.objects = s.objects)
    (hopened : s'.opened = s.opened) (hexp : s'.network.expressed = s.network.expressed)
    (hpending : s'.network.pending = s.network.pending) (hw : s'.waiting.Sublist s.waiting) :
    s.Same s' where
  numbered := by
    unfold Numbered
    rw [hobj, hopened]
    exact h.numbered
  opened_le := Nat.le_of_eq hopened.symm
  expressed_le := Nat.le_of_eq hexp.symm
  query_eq := query?_of_objects_eq hobj
  ages id _ o' ho' := by
    unfold object? at ho'
    rw [hobj] at ho'
    exact ⟨o', ho', Nat.le_refl _⟩
  keeps := keeps_of_eq hpending
  waiting := hw

theorem InStep.withSupply (h : s.InStep) (supply : Supply) : (s.withSupply supply).InStep :=
  h.of_same (h.same_of_eq rfl rfl rfl rfl (.refl _))

theorem InStep.at_time (h : s.InStep) (t : Nat) : { s with now := t }.InStep :=
  h.of_same (h.same_of_eq rfl rfl rfl rfl (.refl _))

theorem same_with_waiting (h : s.InStep) {ws : List Waiting} (hws : ws.Sublist s.waiting) :
    s.Same { s with waiting := ws } :=
  h.same_of_eq rfl rfl rfl rfl hws

/-- The query of an arming after a watch was replaced. -/
theorem query?_setWatch (h : s.object? id = some o) (w : Watch) (x : Watcher) :
    (s.setWatch id w).query? x =
      if x.object = id then w.query? x.generation else s.query? x := by
  unfold query? setWatch
  rw [object?_modifyObject_eq]
  split
  · next hid =>
    rw [hid, h]
    rfl
  · cases s.object? x.object <;> rfl

theorem ages_setWatch (h : s.object? id = some o) {w : Watch}
    (hw : o.watch.generation ≤ w.generation) : s.Ages (s.setWatch id w) := by
  intro i _ o' ho'
  unfold setWatch at ho'
  rw [object?_modifyObject_eq, Option.map_eq_some_iff] at ho'
  obtain ⟨o₀, ho₀, rfl⟩ := ho'
  refine ⟨o₀, ho₀, ?_⟩
  split
  · next hi =>
    rw [hi, h] at ho₀
    rw [← Option.some.inj ho₀]
    exact hw
  · exact Nat.le_refl _

/-- A change of an object other than of its watch. -/
theorem InStep.modifyObject (h : s.InStep) (id : ObjectId)
    {change : VersionedObject α → VersionedObject α} (hwatch : ∀ o, (change o).watch = o.watch) :
    s.Same (s.modifyObject id change) where
  numbered := numbered_modifyObject h.numbered id change
  opened_le := Nat.le_refl _
  expressed_le := Nat.le_refl _
  query_eq x := by
    unfold query?
    rw [object?_modifyObject_eq]
    cases s.object? x.object with
    | none => rfl
    | some o => by_cases hx : x.object = id <;> simp [hx, hwatch]
  ages i _ o' ho' := by
    rw [object?_modifyObject_eq, Option.map_eq_some_iff] at ho'
    obtain ⟨o, ho, rfl⟩ := ho'
    refine ⟨o, ho, ?_⟩
    split
    · rw [hwatch]
    · exact Nat.le_refl _
  keeps := keeps_of_eq rfl
  waiting := .refl _

/-- A watch that keeps its query. -/
theorem InStep.same_setWatch (h : s.InStep) (ho : s.object? id = some o)
    (hactive : w.active = o.watch.active) (hgen : o.watch.generation ≤ w.generation) :
    s.Same (s.setWatch id w) where
  numbered := numbered_modifyObject h.numbered id _
  opened_le := Nat.le_refl _
  expressed_le := Nat.le_refl _
  query_eq x := by
    rw [query?_setWatch ho]
    split
    · next hid =>
      rw [query?_of_object? (hid ▸ ho), Watch.query?, hactive]
      rfl
    · rfl
  ages := ages_setWatch ho hgen
  keeps := keeps_of_eq rfl
  waiting := .refl _

/-! ### Replies -/

/-- An object has at most one armed query. -/
theorem eq_of_query? {y : Watcher} {q' : ActiveQuery} (hx : s.query? x = some q)
    (hy : s.query? y = some q') (hobj : y.object = x.object) : y = x ∧ q' = q := by
  obtain ⟨o, ho, hw, hg⟩ := query?_eq_some_iff.mp hx
  obtain ⟨o', ho', hw', hg'⟩ := query?_eq_some_iff.mp hy
  rw [hobj, ho] at ho'
  obtain rfl := Option.some.inj ho'
  obtain rfl := Option.some.inj (hw.symm.trans hw')
  exact ⟨Watcher.ext hobj (hg'.symm.trans hg), rfl⟩

/-- What is pending under a number is of the arming that owns the number. -/
theorem Owns.listener_eq (hk : s.Owns k x) {p : Pending Watcher} (hp : p ∈ s.network.pending)
    (hid : p.id = k) : p.listener = x :=
  hk.watcher_eq _ (.pending p hp hid rfl)

theorem Owns.id_eq (hk : s.Owns k x) {p : Pending Watcher} (hp : p ∈ s.network.pending)
    (hx : p.listener = x) : p.id = k :=
  hk.number_eq _ (.pending p hp rfl hx)

/-- The armed query has the number that its arming owns. -/
theorem InStep.expresses_of_query? (h : s.InStep) (hk : s.Owns k x) (hq : s.query? x = some q) :
    s.Expresses k x := by
  obtain ⟨j, hj⟩ := Option.isSome_iff_exists.mp (h.query x q hq).1.id_isSome
  have hx : s.Expresses j x := .query q hq hj
  rwa [hk.number_eq j hx] at hx

/-- Under the number of an arming that is no longer armed nothing is pending. -/
theorem InStep.id_ne_of_stale (h : s.InStep) (hk : s.Owns k x) (hq : s.query? x = none)
    {p : Pending Watcher} (hp : p ∈ s.network.pending) : p.id ≠ k := by
  intro hid
  obtain ⟨q, hquery, _⟩ := h.asked p hp
  rw [hk.listener_eq hp hid, hq] at hquery
  cases hquery

/-- The interest of an arming that is no longer armed is gone already. -/
theorem InStep.same_retire (h : s.InStep) (hk : s.Owns k x) (hq : s.query? x = none) (seen : Nat) :
    s.Same (s.reply k seen .retire) where
  numbered := h.numbered
  opened_le := Nat.le_refl _
  expressed_le := Nat.le_refl _
  query_eq _ := rfl
  ages _ _ o' ho' := ⟨o', ho', Nat.le_refl _⟩
  keeps :=
    { back := fun p hp => ⟨p, (List.mem_filter.mp hp).1, rfl, rfl, rfl, .inl rfl⟩
      forth := fun p hp => ⟨p, List.mem_filter.mpr
        ⟨hp, bne_iff_ne.mpr (h.id_ne_of_stale hk hq hp)⟩, rfl⟩ }
  waiting := .refl _

/-- A listener that has not replied yet keeps its interest busy. -/
theorem InStep.same_later (h : s.InStep) (k : InterestId) (seen : Nat) :
    s.Same (s.reply k seen .later) where
  numbered := h.numbered
  opened_le := Nat.le_refl _
  expressed_le := Nat.le_refl _
  query_eq _ := rfl
  ages _ _ o' ho' := ⟨o', ho', Nat.le_refl _⟩
  keeps :=
    { back := fun p' hp' => by
        obtain ⟨p, hp, rfl⟩ := List.mem_map.mp hp'
        refine ⟨p, hp, ?_⟩
        split
        · exact ⟨rfl, rfl, rfl, .inr (.inl rfl)⟩
        · exact ⟨rfl, rfl, rfl, .inl rfl⟩
      forth := fun p hp => ⟨_, List.mem_map_of_mem hp, by split <;> rfl⟩ }
  waiting := .refl _

/-- An interest that nobody waits for may be stalled. -/
theorem InStep.same_stall (h : s.InStep) (hk : s.Owns k x) (halone : ∀ w ∈ s.waiting, w.watcher ≠ x)
    (seen : Nat) : s.Same { s with network := s.network.stall k seen } where
  numbered := h.numbered
  opened_le := Nat.le_refl _
  expressed_le := Nat.le_refl _
  query_eq _ := rfl
  ages _ _ o' ho' := ⟨o', ho', Nat.le_refl _⟩
  keeps :=
    { back := fun p' hp' => by
        obtain ⟨p, hp, rfl⟩ := List.mem_map.mp hp'
        refine ⟨p, hp, ?_⟩
        split
        · next hid =>
          refine ⟨rfl, rfl, rfl, .inr (.inr ?_)⟩
          rw [hk.listener_eq hp hid]
          exact halone
        · exact ⟨rfl, rfl, rfl, .inl rfl⟩
      forth := fun p hp => ⟨_, List.mem_map_of_mem hp, by split <;> rfl⟩ }
  waiting := .refl _

/-- A watch whose queries are of one arming does not change the queries of other armings. -/
theorem query?_setWatch_of_ne (hq : s.query? x = some q) {w : Watch}
    (hw : ∀ q', w.active = some q' → q'.generation = x.generation) {y : Watcher} (hy : y ≠ x) :
    (s.setWatch x.object w).query? y = s.query? y := by
  obtain ⟨o, ho, _, _⟩ := query?_eq_some_iff.mp hq
  rw [query?_setWatch ho]
  split
  · next hobj =>
    have hnone : s.query? y = none := by
      cases hs : s.query? y with
      | none => rfl
      | some q₁ => exact absurd (eq_of_query? hq hs hobj).1 hy
    rw [hnone]
    cases hactive : w.active with
    | none =>
      rw [Watch.query?, hactive]
      rfl
    | some q' =>
      refine Watch.query?_of_generation_ne hactive fun hgen => hy ?_
      exact Watcher.ext hobj ((hw q' hactive).symm.trans hgen).symm
  · rfl

/-- A session in which only the query of one arming and its interest have changed. If the query is
still armed, then nobody waits for it. -/
structure Turns (s s' : Session α) (k : InterestId) (x : Watcher) : Prop where
  numbered : s'.Numbered
  opened_eq : s'.opened = s.opened
  expressed_eq : s'.network.expressed = s.network.expressed
  waiting_eq : s'.waiting = s.waiting
  ages : s.Ages s'
  query_eq : ∀ y, y ≠ x → s'.query? y = s.query? y
  others : ∀ p : Pending Watcher, p.listener ≠ x →
    (p ∈ s'.network.pending ↔ p ∈ s.network.pending)
  own : ∀ p ∈ s'.network.pending, p.listener = x →
    p.id = k ∧ ∃ q, s'.query? x = some q ∧ p.interest = q.interest
  query : ∀ q, s'.query? x = some q → q.id = some k ∧ q.Proper ∧
    (q.known.base.isRoot = false → ∃ p ∈ s'.network.pending, p.listener = x)
  alone : (s'.query? x).isSome = true → ∀ w ∈ s.waiting, w.watcher ≠ x

theorem Turns.expresses (ht : s.Turns s' k x) (hx : s.Expresses k x) {j : InterestId} {y : Watcher}
    (h : s'.Expresses j y) : s.Expresses j y := by
  by_cases hy : y = x
  · subst hy
    cases h with
    | pending p hp hj hl => rwa [← hj, (ht.own p hp hl).1]
    | waiting w hw hj hl => exact .waiting w (ht.waiting_eq ▸ hw) hj hl
    | query q hq hj => rwa [Option.some.inj (hj.symm.trans (ht.query q hq).1)]
  · cases h with
    | pending p hp hj hl => exact .pending p ((ht.others p (hl ▸ hy)).mp hp) hj hl
    | waiting w hw hj hl => exact .waiting w (ht.waiting_eq ▸ hw) hj hl
    | query q hq hj => exact .query q (ht.query_eq y hy ▸ hq) hj

theorem InStep.of_turns (h : s.InStep) (hx : s.Expresses k x) (ht : s.Turns s' k x) :
    s'.InStep := by
  have hforth : ∀ y, y ≠ x → (∃ p ∈ s.network.pending, p.listener = y) →
      ∃ p ∈ s'.network.pending, p.listener = y := by
    rintro y hy ⟨p, hp, rfl⟩
    exact ⟨p, (ht.others p hy).mpr hp, rfl⟩
  -- Every clause is about some arming: about `x` the turn says it, of the others nothing has
  -- changed.
  constructor
  case numbered => exact ht.numbered
  case owns =>
    exact fun j y hy => (h.owns j y (ht.expresses hx hy)).mono (fun _ _ => ht.expresses hx)
      (Nat.le_of_eq ht.expressed_eq.symm) (Nat.le_of_eq ht.opened_eq.symm) ht.ages
  case asked =>
    intro p hp
    by_cases hl : p.listener = x
    · rw [hl]
      exact (ht.own p hp hl).2
    · rw [ht.query_eq _ hl]
      exact h.asked p ((ht.others p hl).mp hp)
  case query =>
    intro y q hq
    by_cases hy : y = x
    · rw [hy] at hq ⊢
      exact (ht.query q hq).2
    · rw [ht.query_eq y hy] at hq
      exact (h.query y q hq).imp_right fun hp hroot => hforth y hy (hp hroot)
  case waits =>
    intro w hw q hq
    rw [ht.waiting_eq] at hw
    have hne : w.watcher ≠ x := by
      intro hwx
      rw [hwx] at hq
      exact ht.alone (by rw [hq]; rfl) w hw hwx
    rw [ht.query_eq _ hne] at hq
    exact (h.waits w hw q hq).imp_right (hforth _ hne)
  case busy =>
    intro w hw p hp hl
    rw [ht.waiting_eq] at hw
    have hne : p.listener ≠ x := by
      intro hpx
      obtain ⟨_, q, hq, _⟩ := ht.own p hp hpx
      exact ht.alone (by rw [hq]; rfl) w hw (hl.symm.trans hpx)
    exact h.busy w hw p ((ht.others p hne).mp hp) hl
  case apart =>
    rw [ht.waiting_eq]
    exact h.apart

/-- What a session turns into: it is in step, and every number is still owned by the same arming. -/
structure Onward (s s' : Session α) : Prop where
  inStep : s'.InStep
  owns : ∀ j y, s.Owns j y → s'.Owns j y

theorem Onward.trans {s'' : Session α} (h : s.Onward s') (h' : s'.Onward s'') : s.Onward s'' where
  inStep := h'.inStep
  owns j y hj := h'.owns j y (h.owns j y hj)

theorem InStep.onward_of_same (h : s.InStep) (hs : s.Same s') : s.Onward s' where
  inStep := h.of_same hs
  owns _ _ := hs.owns

theorem InStep.onward_of_turns (h : s.InStep) (hx : s.Expresses k x) (ht : s.Turns s' k x) :
    s.Onward s' where
  inStep := h.of_turns hx ht
  owns _ _ hj := hj.mono (fun _ _ => ht.expresses hx) (Nat.le_of_eq ht.expressed_eq.symm)
    (Nat.le_of_eq ht.opened_eq.symm) ht.ages

/-- The query of an arming that nobody waits for changes, and its interest follows. -/
theorem InStep.reissue (h : s.InStep) (hx : s.Expresses k x)
    (halone : ∀ v ∈ s.waiting, v.watcher ≠ x)
    (ho : s.object? x.object = some o) (hq : s.query? x = some q) {q' : ActiveQuery}
    (hw : w.active = some q') (hgen : w.generation = o.watch.generation)
    (hg : q'.generation = q.generation) (hid : q'.id = q.id) (hproper : q'.Proper)
    (hpending : q'.known.base.isRoot = false → ∃ p ∈ s.network.pending, p.listener = x)
    (seen : Nat) : ((s.setWatch x.object w).reply k seen (.reissue q'.interest)).InStep := by
  have hk := h.owns k x hx
  have hg' : q'.generation = x.generation := by
    obtain ⟨_, _, _, hgx⟩ := query?_eq_some_iff.mp hq
    rw [hg, hgx]
  have hqx : (s.setWatch x.object w).query? x = some q' := by
    rw [query?_setWatch ho, if_pos rfl, ← hg']
    exact Watch.query?_of_active hw
  have hnumber : q'.id = some k := by
    obtain ⟨j, hj⟩ := Option.isSome_iff_exists.mp hproper.id_isSome
    rw [hj, hk.number_eq j (.query q hq (hid ▸ hj))]
  -- The other interests stay as they are.
  have hself : ∀ p : Pending Watcher, p.id ≠ k → (if p.id = k then
      { p with
        interest := q'.interest
        standing := if q'.interest = p.interest then Standing.stalled seen else .ready }
      else p) = p := fun p hp => if_neg hp
  refine h.of_turns hx
    { numbered := numbered_modifyObject h.numbered x.object fun o => { o with watch := w }
      opened_eq := rfl, expressed_eq := rfl, waiting_eq := rfl
      ages := ages_setWatch ho (Nat.le_of_eq hgen.symm)
      query_eq := fun y hy => query?_setWatch_of_ne hq
        (fun q₁ hq₁ => by rw [← hg', Option.some.inj (hw.symm.trans hq₁)]) hy
      others := fun p hl => ⟨fun hp => ?_, fun hp => ?_⟩
      own := fun p hp hl => ?_, query := fun q₁ hq₁ => ?_, alone := fun _ => halone }
  · obtain ⟨p₀, hp₀, rfl⟩ := List.mem_map.mp hp
    by_cases hid₀ : p₀.id = k
    · rw [if_pos hid₀] at hl
      exact absurd (hk.listener_eq hp₀ hid₀) hl
    · rw [hself p₀ hid₀]
      exact hp₀
  · refine List.mem_map.mpr ⟨p, hp, hself p fun hid₀ => ?_⟩
    exact hl (hk.listener_eq hp hid₀)
  · obtain ⟨p₀, hp₀, rfl⟩ := List.mem_map.mp hp
    have hid₀ : p₀.id = k := by
      by_contra hne
      rw [hself p₀ hne] at hl
      exact hne (hk.id_eq hp₀ hl)
    rw [if_pos hid₀]
    exact ⟨hid₀, q', hqx, rfl⟩
  · obtain rfl := Option.some.inj (hqx.symm.trans hq₁)
    refine ⟨hnumber, hproper, fun hroot => ?_⟩
    obtain ⟨p, hp, hl⟩ := hpending hroot
    exact ⟨_, List.mem_map_of_mem hp, by rw [← hl]; split <;> rfl⟩

/-- An armed watch becomes idle and its interest is retired. Below the root the watch may stay
armed, unless somebody waits for it. -/
theorem InStep.retire (h : s.InStep) (hx : s.Expresses k x) (ho : s.object? x.object = some o)
    (hq : s.query? x = some q) (hgen : w.generation = o.watch.generation)
    (hw : w.active = none ∨ w.active = some q ∧ q.known.base.isRoot = true ∧
      ∀ v ∈ s.waiting, v.watcher ≠ x)
    (hobj : s'.objects = (s.setWatch x.object w).objects) (hopened : s'.opened = s.opened)
    (hnumber : s'.network.expressed = s.network.expressed) (hwaiting : s'.waiting = s.waiting)
    (hpending : s'.network.pending = s.network.pending.filter fun p => p.id != k) :
    s.Onward s' := by
  have hk := h.owns k x hx
  have hquery := query?_of_objects_eq hobj
  -- This arming has no query any more, unless it is the same one below the root.
  have hqx : ∀ q₁, s'.query? x = some q₁ →
      q₁ = q ∧ q.known.base.isRoot = true ∧ ∀ v ∈ s.waiting, v.watcher ≠ x := by
    intro q₁ hq₁
    rw [hquery, query?_setWatch ho, if_pos rfl, Watch.query?] at hq₁
    rcases hw with hnone | ⟨hsame, hroot⟩
    · rw [hnone] at hq₁
      cases hq₁
    · rw [hsame] at hq₁
      exact ⟨(Option.some.inj (Option.filter_eq_some_iff.mp hq₁).1).symm, hroot⟩
  have hmem : ∀ p, p ∈ s'.network.pending ↔ p ∈ s.network.pending ∧ p.id ≠ k := fun p => by
    rw [hpending, List.mem_filter, bne_iff_ne]
  refine h.onward_of_turns hx
    { numbered := ?_, opened_eq := hopened, expressed_eq := hnumber, waiting_eq := hwaiting
      ages := ?_, query_eq := fun y hy => ?_, others := fun p hl => ?_, own := fun p hp hl => ?_
      query := fun q₁ hq₁ => ?_, alone := fun hsome => ?_ }
  · have hn := numbered_modifyObject h.numbered x.object fun o => { o with watch := w }
    intro e he
    rw [hobj] at he
    rw [hopened]
    exact hn e he
  · intro i hi o' ho'
    unfold object? at ho'
    rw [hobj] at ho'
    exact ages_setWatch ho (Nat.le_of_eq hgen.symm) i hi o' ho'
  · rw [hquery]
    refine query?_setWatch_of_ne hq (fun q₁ hq₁ => ?_) hy
    rcases hw with hnone | ⟨hsame, _⟩
    · rw [hnone] at hq₁
      cases hq₁
    · obtain ⟨_, _, _, hgx⟩ := query?_eq_some_iff.mp hq
      rw [← Option.some.inj (hsame.symm.trans hq₁), hgx]
  · rw [hmem]
    exact and_iff_left_of_imp fun hp hid => hl (hk.listener_eq hp hid)
  · obtain ⟨hp₀, hne⟩ := (hmem p).mp hp
    exact absurd (hk.id_eq hp₀ hl) hne
  · obtain ⟨rfl, hroot, _⟩ := hqx q₁ hq₁
    have hproper := (h.query x q₁ hq).1
    obtain ⟨j, hj⟩ := Option.isSome_iff_exists.mp hproper.id_isSome
    refine ⟨by rw [hj, hk.number_eq j (.query q₁ hq hj)], hproper, fun hfalse => ?_⟩
    rw [hroot] at hfalse
    cases hfalse
  · obtain ⟨q₁, hq₁⟩ := Option.isSome_iff_exists.mp hsome
    exact (hqx q₁ hq₁).2.2

end Session
end NamedContent
