import NamedContent.Proofs.Interest.Selection
import NamedContent.Proofs.Name.Map
import NamedContent.Proofs.Name.Profile

/-!
# The most preferred answer

An interest ranks all fragments (`rank`), so the best of a list is one that none of the list is
preferred to. `Picks` says this of an answer to the interest in whatever is served. Taking the
better one of two fragments, the first one of equals, is associative (`better`), so that the best of
a list is the better one of the bests of its parts (`best_append`). To select from what was selected
from each of several lists is therefore to select from all of them (`select_filterMap`).

Of names of one base the leftmost one has the smallest component after it, and an interest with the
rightmost selector picks a name with the greatest one. For components that carry versions this is
the order of the versions.
-/

namespace NamedContent

/-! ### Names below one base -/

/-- Names compare as what follows a common prefix. -/
theorem compare_append_left (p t u : List Component) : compare (p ++ t) (p ++ u) = compare t u := by
  induction p with
  | nil => rfl
  | cons c p ih =>
    rw [List.cons_append, List.cons_append, List.compare_cons_cons, Std.ReflOrd.compare_self,
      Ordering.eq_then, ih]

/-- Names that extend one base by two components compare as the first of the two do, and then as the
second. -/
theorem Name.compare_append_append (b : Name) (c c' d d' : Component) :
    compare ((b.append c).append d) ((b.append c').append d') =
      (compare c c').then (compare d d') := by
  show compare ((b.components ++ [c]) ++ [d]) ((b.components ++ [c']) ++ [d']) = _
  rw [List.append_assoc, List.append_assoc, compare_append_left, List.singleton_append,
    List.singleton_append, List.compare_cons_cons, List.compare_cons_cons]
  cases compare d d' <;> rfl

theorem Segment.compare_toComponent_eq_lt_iff {j k : UInt64} :
    compare (toComponent j) (toComponent k) = .lt ↔ j < k := by
  rw [toComponent, toComponent, Component.compare_ofMarked, Component.compare_word,
    Nat.compare_eq_lt]
  exact UInt64.lt_iff_toNat_lt.symm

theorem Segment.isLE_compare_toComponent_iff {j k : UInt64} :
    (compare (toComponent j) (toComponent k)).isLE = true ↔ j ≤ k := by
  rw [← Ordering.ne_gt_iff_isLE, Std.OrientedCmp.gt_iff_lt, compare_toComponent_eq_lt_iff]
  exact UInt64.not_lt

namespace Interest

variable {i : Interest} {f g : Fragment} {fs gs : List Fragment}

/-! ### Ranks -/

/-- How an interest ranks two fragments, the preferred one first. -/
def rank (i : Interest) (f g : Fragment) : Ordering :=
  match i.selector with
  | .leftmost => compare f.name g.name
  | .rightmost =>
    (compareOption (g.name.component? i.name.length) (f.name.component? i.name.length)).then
      (compare f.name g.name)

theorem prefers_eq (i : Interest) (f g : Fragment) : i.prefers f g = (i.rank f g == .lt) := by
  unfold prefers rank
  cases i.selector <;> rfl

@[simp] theorem compareOption_eq (a b : Option Component) : compareOption a b = compare a b := by
  cases a <;> cases b <;> rfl

instance (i : Interest) : Std.TransCmp i.rank := by
  have hname : Std.TransCmp (compareOn Fragment.name) := inferInstance
  cases hs : i.selector with
  | leftmost =>
    have hrank : i.rank = compareOn Fragment.name := by
      funext f g
      rw [rank, hs]
      rfl
    rw [hrank]
    exact hname
  | rightmost =>
    have hcomponent : Std.TransCmp
        (compareOn fun f : Fragment => f.name.component? i.name.length) := inferInstance
    have hrank : i.rank = compareLex
        (fun f g => compareOn (fun f : Fragment => f.name.component? i.name.length) g f)
        (compareOn Fragment.name) := by
      funext f g
      rw [rank, hs]
      dsimp only
      rw [compareOption_eq]
      rfl
    rw [hrank]
    have := hcomponent.opposite
    infer_instance

theorem prefers_irrefl (i : Interest) (f : Fragment) : i.prefers f f = false :=
  prefers_of_name_eq i rfl

/-- What a fragment is preferred to does not count against what the fragment itself is not preferred
to. -/
theorem prefers_eq_false_trans {h : Fragment} (hgh : i.prefers g h = false)
    (hhf : i.prefers h f = false) : i.prefers g f = false := by
  rw [prefers_eq, beq_eq_false_iff_ne] at *
  intro hgf
  have hfh : (i.rank f h).isLE = true := by
    cases hc : (i.rank f h).isLE with
    | true => rfl
    | false =>
      rw [Bool.eq_false_iff] at hc
      exact absurd (Std.OrientedCmp.lt_of_not_isLE hc) hhf
  exact hgh (Std.TransCmp.lt_of_lt_of_isLE hgf hfh)

theorem prefers_asymm (h : i.prefers g f = true) : i.prefers f g = false := by
  rw [prefers_eq, beq_iff_eq] at h
  rw [prefers_eq, beq_eq_false_iff_ne]
  exact Std.OrientedCmp.not_lt_of_lt h

/-- Of two fragments with different names one is preferred. -/
theorem name_eq_of_prefers_eq_false (h : i.prefers f g = false) (h' : i.prefers g f = false) :
    f.name = g.name := by
  rw [prefers_eq, beq_eq_false_iff_ne] at h h'
  have heq : i.rank f g = .eq := by
    cases hr : i.rank f g with
    | lt => exact absurd hr h
    | eq => rfl
    | gt => exact absurd (Std.OrientedCmp.lt_of_gt hr) h'
  unfold rank at heq
  cases hs : i.selector with
  | leftmost =>
    rw [hs] at heq
    exact Std.LawfulEqOrd.eq_of_compare heq
  | rightmost =>
    rw [hs] at heq
    exact Std.LawfulEqOrd.eq_of_compare (Ordering.then_eq_eq.mp heq).2

/-- Of versions below one base the leftmost one is the earliest, and of one version the least
name. -/
theorem leftmost_cases {b : Name} {v w : Version} {c d : Component}
    (hleft : i.selector = .leftmost) (hf : f.name = (b.append v.toComponent).append c)
    (hg : g.name = (b.append w.toComponent).append d) (h : i.prefers g f = false) :
    v < w ∨ v = w ∧ (compare c d).isLE = true := by
  rw [prefers_eq, rank, hleft, beq_eq_false_iff_ne] at h
  dsimp only at h
  rw [hf, hg, Name.compare_append_append] at h
  by_cases hlt : v < w
  · exact .inl hlt
  · right
    rcases Version.eq_or_lt_of_le (UInt64.not_lt.mp hlt) with rfl | hgt
    · rw [Std.ReflOrd.compare_self, Ordering.eq_then] at h
      exact ⟨rfl, Ordering.ne_gt_iff_isLE.mp fun hcd => h (Std.OrientedCmp.lt_of_gt hcd)⟩
    · rw [Version.compare_toComponent_eq_lt_iff.mpr hgt] at h
      exact absurd rfl h

/-- Of versions below the name of the interest the rightmost one is the latest, and of one version
the least name. -/
theorem rightmost_cases {v w : Version} {c d : Component} (hright : i.selector = .rightmost)
    (hf : f.name = (i.name.append v.toComponent).append c)
    (hg : g.name = (i.name.append w.toComponent).append d) (h : i.prefers g f = false) :
    w < v ∨ w = v ∧ (compare c d).isLE = true := by
  rw [prefers_eq, rank, hright, beq_eq_false_iff_ne] at h
  dsimp only at h
  rw [Name.component?_of_eq hf, Name.component?_of_eq hg, compareOption_eq, hf, hg,
    Name.compare_append_append] at h
  by_cases hlt : w < v
  · exact .inl hlt
  · right
    rcases Version.eq_or_lt_of_le (UInt64.not_lt.mp hlt) with rfl | hgt
    · rw [Std.ReflOrd.compare_self, Ordering.eq_then, Std.ReflOrd.compare_self,
        Ordering.eq_then] at h
      exact ⟨rfl, Ordering.ne_gt_iff_isLE.mp fun hcd => h (Std.OrientedCmp.lt_of_gt hcd)⟩
    · have hfirst : compare (some v.toComponent) (some w.toComponent) = .lt :=
        Version.compare_toComponent_eq_lt_iff.mpr hgt
      rw [hfirst] at h
      exact absurd rfl h

/-! ### The best of a list -/

theorem prefers_foldl_eq_false (i : Interest) (fs : List Fragment) (b : Fragment) :
    ∀ g ∈ b :: fs,
      i.prefers g (fs.foldl (fun b g => if i.prefers g b then g else b) b) = false := by
  induction fs generalizing b with
  | nil =>
    intro g hg
    rw [List.mem_singleton.mp hg]
    exact i.prefers_irrefl b
  | cons f fs ih =>
    intro g hg
    rw [List.foldl_cons]
    have hnext := ih (if i.prefers f b then f else b)
    cases hfb : i.prefers f b with
    | true =>
      rw [hfb, if_pos rfl] at hnext
      rw [if_pos rfl]
      rcases List.mem_cons.mp hg with rfl | hg
      · -- `f` takes the place of `g`.
        exact prefers_eq_false_trans (prefers_asymm hfb) (hnext f List.mem_cons_self)
      · exact hnext g hg
    | false =>
      rw [hfb] at hnext
      simp only [Bool.false_eq_true, ↓reduceIte] at hnext ⊢
      rcases List.mem_cons.mp hg with rfl | hg
      · exact hnext g List.mem_cons_self
      · rcases List.mem_cons.mp hg with rfl | hg
        · exact prefers_eq_false_trans hfb (hnext b List.mem_cons_self)
        · exact hnext g (List.mem_cons_of_mem _ hg)

theorem prefers_best_eq_false {fs : List Fragment} (h : i.best fs = some f) (hg : g ∈ fs) :
    i.prefers g f = false := by
  cases fs with
  | nil => cases h
  | cons b fs =>
    rw [← Option.some.inj h]
    exact prefers_foldl_eq_false i fs b g hg

/-! ### The best of several lists -/

/-- The preferred one of two fragments, or else the first one. -/
def better (i : Interest) (f g : Fragment) : Fragment := if i.prefers g f then g else f

instance (i : Interest) : Std.Associative i.better where
  assoc f g h := by
    unfold better
    cases hgf : i.prefers g f with
    | true =>
      cases hhg : i.prefers h g with
      | true =>
        -- `h` is preferred to `g`, and so to `f`.
        have hhf : i.prefers h f = true := by
          cases hno : i.prefers h f with
          | true => rfl
          | false =>
            have hhg' := prefers_eq_false_trans hno (prefers_asymm hgf)
            rw [hhg] at hhg'
            cases hhg'
        simp [hhg, hhf]
      | false => simp [hgf, hhg]
    | false =>
      cases hhg : i.prefers h g with
      | true => simp
      | false => simp [hgf, prefers_eq_false_trans hhg hgf]

theorem best_append (i : Interest) (fs gs : List Fragment) :
    i.best (fs ++ gs) = (i.best fs).merge i.better (i.best gs) := by
  cases fs with
  | nil => simp [best]
  | cons f fs =>
    cases gs with
    | nil => simp [best]
    | cons g gs =>
      show some ((fs ++ g :: gs).foldl i.better f) =
        some (i.better (fs.foldl i.better f) (gs.foldl i.better g))
      rw [List.foldl_append, List.foldl_cons, List.foldl_assoc]

/-- The best of a list is the first one of its name. -/
theorem find?_of_best (h : i.best fs = some f) : fs.find? (fun g => g.name == f.name) = some f := by
  induction fs generalizing f with
  | nil => cases h
  | cons g fs ih =>
    rw [← List.singleton_append, best_append] at h
    cases hbest : i.best fs with
    | none =>
      rw [hbest] at h
      obtain rfl : g = f := Option.some.inj h
      simp
    | some b =>
      rw [hbest] at h
      have hf : i.better g b = f := Option.some.inj h
      unfold better at hf
      split at hf
      · next hbg =>
        have hne : (g.name == b.name) = false := by
          rw [beq_eq_false_iff_ne]
          intro hname
          rw [prefers_of_name_eq i hname.symm] at hbg
          cases hbg
        rw [← hf, List.find?_cons, hne]
        exact ih hbest
      · rw [← hf]
        simp

/-! ### Picking from what is served -/

variable [Suite]

/-- What is found answers an interest in what is served: nothing is found only if nothing that is
served is accepted, and what is found is served and accepted, and nothing like it is preferred. -/
structure Picks (i : Interest) (served : Fragment → Prop) (found : Option Fragment) : Prop where
  not_accepts : found = none → ∀ g, served g → i.accepts g = false
  served_found : ∀ f, found = some f → served f
  accepts_found : ∀ f, found = some f → i.accepts f = true
  not_prefers : ∀ f, found = some f → ∀ g, served g → i.accepts g = true → i.prefers g f = false

theorem picks_select (i : Interest) (fs : List Fragment) : i.Picks (· ∈ fs) (i.select fs) where
  not_accepts h := select_eq_none_iff.mp h
  served_found _ h := (select_eq_some h).1
  accepts_found _ h := (select_eq_some h).2
  not_prefers _ h _ hg ha := prefers_best_eq_false h (List.mem_filter.mpr ⟨hg, ha⟩)

/-- What is served matters as far as it is accepted. -/
theorem Picks.of_iff {served served' : Fragment → Prop} {found : Option Fragment}
    (h : i.Picks served found) (hsame : ∀ g, i.accepts g = true → (served g ↔ served' g)) :
    i.Picks served' found where
  not_accepts hnone g hg := by
    rw [Bool.eq_false_iff]
    intro ha
    have hno := h.not_accepts hnone g ((hsame g ha).mpr hg)
    rw [ha] at hno
    cases hno
  served_found f hf := (hsame f (h.accepts_found f hf)).mp (h.served_found f hf)
  accepts_found := h.accepts_found
  not_prefers f hf g hg ha := h.not_prefers f hf g ((hsame g ha).mpr hg) ha

/-- Where no two fragments that are served have one name, there is one pick. -/
theorem Picks.unique {served : Fragment → Prop} {found found' : Option Fragment}
    (h : i.Picks served found) (h' : i.Picks served found')
    (hnames : ∀ f g, served f → served g → f.name = g.name → f = g) : found = found' := by
  cases found with
  | none =>
    cases found' with
    | none => rfl
    | some g =>
      have hno := h.not_accepts rfl g (h'.served_found g rfl)
      rw [h'.accepts_found g rfl] at hno
      cases hno
  | some f =>
    have hf := h.served_found f rfl
    cases found' with
    | none =>
      have hno := h'.not_accepts rfl f hf
      rw [h.accepts_found f rfl] at hno
      cases hno
    | some g =>
      have hg := h'.served_found g rfl
      have hgf := h.not_prefers f rfl g hg (h'.accepts_found g rfl)
      have hfg := h'.not_prefers g rfl f hf (h.accepts_found f rfl)
      rw [hnames f g hf hg (name_eq_of_prefers_eq_false hfg hgf)]

/-! ### Selecting from several lists -/

theorem select_append (i : Interest) (fs gs : List Fragment) :
    i.select (fs ++ gs) = (i.select fs).merge i.better (i.select gs) := by
  rw [select, List.filter_append, best_append]
  rfl

/-- Nothing else would be selected from what was selected. -/
@[simp] theorem select_toList (i : Interest) (fs : List Fragment) :
    i.select (i.select fs).toList = i.select fs := by
  cases h : i.select fs with
  | none => rfl
  | some f => simp [select, best, (select_eq_some h).2]

/-- To select from what was selected from each list is to select from all of them. -/
theorem select_filterMap {β : Type} (i : Interest) (lists : List β) (held : β → List Fragment) :
    i.select (lists.filterMap fun b => i.select (held b)) = i.select (lists.flatMap held) := by
  induction lists with
  | nil => rfl
  | cons b lists ih =>
    have hcons : (b :: lists).filterMap (fun b => i.select (held b)) =
        (i.select (held b)).toList ++ lists.filterMap fun b => i.select (held b) := by
      rw [List.filterMap_cons]
      cases i.select (held b) <;> rfl
    rw [hcons, List.flatMap_cons, select_append, select_append, select_toList, ih]

/-- What is selected is the first of its name that is accepted. -/
theorem find?_of_select (h : i.select fs = some f) :
    fs.find? (fun g => g.name == f.name && i.accepts g) = some f := by
  have hfirst := find?_of_best h
  rw [List.find?_filter] at hfirst
  rw [← hfirst]
  congr 1
  funext g
  rw [Bool.eq_iff_iff]
  simp [and_comm]

end Interest
end NamedContent
