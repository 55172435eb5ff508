import NamedContent.Proofs.Interest.Versions
import NamedContent.Proofs.Network.Stored

/-!
# The latest version of a base

As long as all that is served below a base is of versions before `v` (`OnlyBefore`), an edition of
version `v` can be written to every source, and it then leads: opening the base finds its first
segment (`leads_place`, `Leads.openVersioned?_eq`). A later version can be written after it, since
everything that is served is of versions before that one (`Leads.onlyBefore`).
-/

namespace NamedContent

variable [Suite]

/-! ### The names of an edition -/

namespace Edition

variable {b n : Name} {v : Version} {key : PublicKey} {fs : List Fragment} {f : Fragment}

theorem distinct (h : Edition n key fs) : DistinctNames fs := by
  have hlen := h.length_lt
  rw [DistinctNames, List.nodup_iff_pairwise_ne, List.pairwise_map, List.pairwise_iff_getElem]
  intro i j hi hj hlt heq
  rw [h.name_eq i _ (List.getElem?_eq_getElem hi), h.name_eq j _ (List.getElem?_eq_getElem hj)]
    at heq
  have hij := StreamWrite.segmentName_injective (by omega) (by omega) heq
  omega

/-- The version is what follows the base in the names of an edition. -/
theorem component?_eq (h : Edition (b.append v.toComponent) key fs) (hf : f ∈ fs) :
    f.name.component? b.length = some v.toComponent := by
  obtain ⟨i, _, _, hname⟩ := h.getElem?_of_mem hf
  exact Name.component?_of_eq hname

theorem isPrefixOf_name (h : Edition (b.append v.toComponent) key fs) (hf : f ∈ fs) :
    b.isPrefixOf f.name = true := by
  obtain ⟨i, _, _, hname⟩ := h.getElem?_of_mem hf
  exact Name.isPrefixOf_of_eq hname

/-- The segments of an edition stand in the order of their names. -/
theorem compare_name_eq_lt (h : Edition n key fs) {i j : Nat} {g : Fragment} (hi : fs[i]? = some f)
    (hj : fs[j]? = some g) (hlt : i < j) : compare f.name g.name = .lt := by
  obtain ⟨hjlen, _⟩ := List.getElem?_eq_some_iff.mp hj
  have hlen := h.length_lt
  have hsegment : compare (Segment.toComponent (UInt64.ofNat i))
      (Segment.toComponent (UInt64.ofNat j)) = .lt := by
    rw [Segment.compare_toComponent_eq_lt_iff, UInt64.lt_iff_toNat_lt, UInt64.toNat_ofNat',
      UInt64.toNat_ofNat', Nat.mod_eq_of_lt (by omega), Nat.mod_eq_of_lt (by omega)]
    exact hlt
  rw [h.name_eq i f hi, h.name_eq j g hj]
  show compare (n.components ++ [_]) (n.components ++ [_]) = .lt
  rw [compare_append_left, List.compare_cons_cons, hsegment]
  rfl

end Edition

namespace Supply

variable {s s' : Supply} {b : Name} {v w : Version} {key : PublicKey} {fs : List Fragment}

/-! ### Versions before another one -/

omit [Suite] in
/-- Whatever is served below a base is of a version before `v`. -/
def OnlyBefore (s : Supply) (b : Name) (v : Version) : Prop :=
  ∀ g, s.Serves g → b.isPrefixOf g.name = true → ∀ c, g.name.component? b.length = some c →
    ∃ u, u < v ∧ c = u.toComponent

omit [Suite] in
theorem Alike.serves_iff (h : s.Alike s') (f : Fragment) : s'.Serves f ↔ s.Serves f := by
  unfold Serves
  rw [h.sources]
  simp only [h.holds]

omit [Suite] in
theorem OnlyBefore.of_alike (h : s.OnlyBefore b v) (ha : s.Alike s') : s'.OnlyBefore b v :=
  fun g hg => h g ((ha.serves_iff g).mp hg)

/-- Nothing of the version itself is served. -/
theorem OnlyBefore.bare (h : s.OnlyBefore b v) (hs : s.Sound) {src : Source}
    (hsrc : src ∈ s.sources) : s.Bare src (b.append v.toComponent) := by
  intro c
  cases hheld : s.holds? src ((b.append v.toComponent).append c) with
  | none => rfl
  | some g =>
    have hname := hs.name_of_holds? hheld
    rw [← hname] at hheld
    obtain ⟨u, hlt, heq⟩ := h g ⟨src, hsrc, hheld⟩ (Name.isPrefixOf_of_eq hname) _
      (Name.component?_of_eq hname)
    rw [Version.toComponent_injective heq] at hlt
    exact absurd hlt (UInt64.lt_irrefl _)

/-! ### The version that leads -/

/-- An edition of version `v` is stored, and whatever else is served below the base is of a version
before it. -/
structure Leads (s : Supply) (b : Name) (v : Version) (key : PublicKey) (fs : List Fragment) :
    Prop where
  sound : s.Sound
  stores : s.Stores (b.append v.toComponent) key fs
  others : ∀ g, s.Serves g → b.isPrefixOf g.name = true → ∀ c,
    g.name.component? b.length = some c → g ∈ fs ∨ ∃ u, u < v ∧ c = u.toComponent

theorem Leads.onlyBefore (h : s.Leads b v key fs) (hlt : v < w) : s.OnlyBefore b w := by
  intro g hg hpre c hc
  rcases h.others g hg hpre c hc with hmem | ⟨u, hu, hcu⟩
  · rw [h.stores.edition.component?_eq hmem] at hc
    exact ⟨v, hlt, (Option.some.inj hc).symm⟩
  · exact ⟨u, UInt64.lt_trans hu hlt, hcu⟩

theorem Leads.of_alike (h : s.Leads b v key fs) (ha : s.Alike s') (hs : s'.Sound) :
    s'.Leads b v key fs where
  sound := hs
  stores := h.stores.of_grows ha.grows (ha.whole (.inr ⟨key, fs, h.stores⟩))
  others g hg := h.others g ((ha.serves_iff g).mp hg)

theorem Stores.serves (h : s.Stores (b.append v.toComponent) key fs) {f : Fragment} (hf : f ∈ fs) :
    s.Serves f := by
  obtain ⟨src, hsrc, hfilled⟩ := h.filled
  obtain ⟨i, _, hi, hname⟩ := h.edition.getElem?_of_mem hf
  refine ⟨src, hsrc, ?_⟩
  rw [hname]
  exact hfilled.holds_segment h.edition hi

/-- The first segment is the best answer to the interest in the latest version. -/
theorem Leads.get_latestVersion (h : s.Leads b v key fs) (hplain : b.splitVersion? = none)
    {f : Fragment} (hf : fs[0]? = some f) : s.get (.latestVersion b) = .ok (some f) := by
  have hdeep := Interest.deep_latestVersion b none
  have hbase : (Interest.latestVersion b).name = b := Name.base_of_splitVersion?_eq_none hplain
  have hmem : f ∈ fs := List.mem_of_getElem? hf
  have hname : f.name = (b.append v.toComponent).append (Segment.toComponent (UInt64.ofNat 0)) :=
    h.stores.edition.name_eq 0 f hf
  have hcomp := h.stores.edition.component?_eq hmem
  refine get_eq_some h.sound (h.stores.serves hmem) ?_ fun g hg ha => ?_
  · have hname' : f.name = ((Interest.latestVersion b).name.append v.toComponent).append
        (Segment.toComponent (UInt64.ofNat 0)) := by rw [hbase, hname]
    exact hdeep.accepts_of_name rfl hname' rfl
  obtain ⟨c, d, _, hgc⟩ := hdeep.name_eq ha
  have hpre := Interest.prefix_of_accepts ha
  have hrank : (Interest.latestVersion b).rank f g =
      (compare (g.name.component? b.length) (some v.toComponent)).then
        (compare f.name g.name) := by
    show (Interest.compareOption (g.name.component? (Interest.latestVersion b).name.length)
      (f.name.component? (Interest.latestVersion b).name.length)).then _ = _
    rw [hbase, hcomp, Interest.compareOption_eq]
  rw [hbase] at hgc hpre
  rw [Interest.prefers_eq, hrank, hgc, beq_iff_eq]
  -- Whatever else is served below the base is of the same version or of an earlier one.
  rcases h.others g hg hpre c hgc with hgmem | ⟨u, hu, rfl⟩
  · -- Within the version the first segment has the least name.
    rw [h.stores.edition.component?_eq hgmem] at hgc
    cases hgc
    obtain ⟨i, _, hi, _⟩ := h.stores.edition.getElem?_of_mem hgmem
    rw [Std.ReflOrd.compare_self, Ordering.eq_then]
    cases i with
    | zero => exact .inl (Option.some.inj (hi.symm.trans hf))
    | succ i => exact .inr (h.stores.edition.compare_name_eq_lt hf hi (Nat.succ_pos i))
  · right
    have hlt : compare (some u.toComponent) (some v.toComponent) = .lt :=
      Version.compare_toComponent_eq_lt_iff.mpr hu
    rw [hlt]
    rfl

/-- Opening the base finds the first segment of the version that leads. -/
theorem Leads.openVersioned?_eq (h : s.Leads b v key fs) (hplain : b.splitVersion? = none) :
    s.openVersioned? b none = .ok fs[0]? := by
  have hpos := h.stores.edition.length_pos
  have hfirst : fs[0]? = some fs[0] := List.getElem?_eq_getElem hpos
  have hget := h.get_latestVersion hplain hfirst
  have hbase : (Interest.latestVersion b).name = b := Name.base_of_splitVersion?_eq_none hplain
  have hversioned : ((Interest.latestVersion b).versionedNameOf? fs[0].name).isSome = true := by
    rw [Interest.versionedNameOf?_eq (v := v) (d := Segment.toComponent (UInt64.ofNat 0))]
    · rfl
    · rw [hbase]
      exact h.stores.edition.name_eq 0 _ hfirst
  have hnone : b.versioned? = none := by
    rw [Name.versioned?, hplain]
    rfl
  rw [openVersioned?_of_unversioned hnone, findVersion, findVersionIn, hget, hfirst]
  simp only [bind, Except.bind, hversioned, ↓reduceIte]
  rfl

end Supply

/-! ### Writing a later version -/

namespace WritePath

open Supply

variable {s : Supply} {b : Name} {v : Version} {key : PublicKey} {fs : List Fragment}

/-- An edition of a version after all that is served is written to any source, and leads then. -/
theorem leads_place (h : s.Sound) {src : Source} (hsrc : src ∈ s.sources)
    (hbefore : s.OnlyBefore b v) (he : Edition (b.append v.toComponent) key fs)
    (hfs : ∀ f ∈ fs, f.Storable) :
    (place src fs s).1 = .ok () ∧ (place src fs s).2.Leads b v key fs := by
  have hhas := h.has_of_mem hsrc
  have hfree : ∀ f ∈ fs, ∀ other ∈ s.sources, s.holds? other f.name = none := by
    intro f hf other hother
    obtain ⟨i, _, _, hname⟩ := he.getElem?_of_mem hf
    rw [hname]
    exact hbefore.bare h hother _
  have hun : Uncontested s src fs := by
    refine ⟨fun f hf g hg => ?_, fun _ f hf other hother g hg => ?_⟩
    · rw [hfree f hf src hsrc] at hg
      cases hg
    · rw [hfree f hf other hother] at hg
      cases hg
  have hok : (place src fs s).1 = .ok () := by
    rcases place_cases h hhas hfs he.distinct with ⟨f, hf, _, held, hheld, _⟩ | ⟨hok, _⟩
    · rw [hfree f hf src hsrc] at hheld
      cases hheld
    · exact hok
  refine ⟨hok, (place_grows h hhas hfs).1, ?_, ?_⟩
  · exact stores_place h hhas hsrc he hfs he.distinct hun
      (.inl fun other hother => hbefore.bare h hother) hok
  · rintro g ⟨other, hother, hg⟩ hpre c hc
    rw [sources_place] at hother
    rcases holds?_of_place h hhas hfs hg with hold | ⟨_, hmem, _⟩
    · exact .inr (hbefore g ⟨other, hother, hold⟩ hpre c hc)
    · exact .inl hmem

end WritePath
end NamedContent
