import NamedContent.Proofs.Network.Edition
import NamedContent.Proofs.Network.Picking
import NamedContent.Proofs.Network.Placing

/-!
# Versions that a network stores

A version is whole if the sources hold nothing of it, or all of one edition. Its segments are found
then (`Stores.get_segment`), and it stays as it is as long as the supply grows and the version stays
whole (`Stores.of_grows`).

Writing another edition keeps all versions whole, whether it succeeds or fails, if it is
uncontested: where its own source has nothing in the way, no other source has (`whole_place`).
-/

namespace NamedContent

variable [Suite]

namespace Supply

/-- A source holds nothing right below a name. -/
def Bare (s : Supply) (src : Source) (n : Name) : Prop := ∀ c, s.holds? src (n.append c) = none

/-- A source holds exactly these fragments right below a name. -/
def Filled (s : Supply) (src : Source) (n : Name) (fs : List Fragment) : Prop :=
  ∀ c f, s.holds? src (n.append c) = some f ↔ f ∈ fs ∧ f.name = n.append c

/-- The sources hold an edition, each of them all of it or nothing. -/
structure Stores (s : Supply) (n : Name) (key : PublicKey) (fs : List Fragment) : Prop where
  edition : Edition n key fs
  filled : ∃ src ∈ s.sources, s.Filled src n fs
  others : ∀ src ∈ s.sources, s.Bare src n ∨ s.Filled src n fs

/-- The sources hold nothing of a version, or all of one edition. -/
def Whole (s : Supply) (n : Name) : Prop :=
  (∀ src ∈ s.sources, s.Bare src n) ∨ ∃ key fs, s.Stores n key fs

variable {s s' : Supply} {n : Name} {key : PublicKey} {fs : List Fragment}

/-! ### What is found -/

theorem mem_of_holds (h : s.Stores n key fs) {src : Source} (hsrc : src ∈ s.sources)
    {c : Component} {f : Fragment} (hf : s.holds? src (n.append c) = some f) : f ∈ fs := by
  rcases h.others src hsrc with hbare | hfilled
  · rw [hbare c] at hf
    cases hf
  · exact ((hfilled c f).mp hf).1

/-- What is held right below the name of a whole version is part of an edition. -/
theorem Whole.stores_of_holds (h : s.Whole n) {src : Source} (hsrc : src ∈ s.sources)
    {c : Component} {f : Fragment} (hf : s.holds? src (n.append c) = some f) :
    ∃ key fs, s.Stores n key fs ∧ f ∈ fs := by
  rcases h with hbare | ⟨key, fs, hstores⟩
  · rw [hbare src hsrc c] at hf
    cases hf
  · exact ⟨key, fs, hstores, mem_of_holds hstores hsrc hf⟩

theorem Filled.holds_segment {src : Source} (h : s.Filled src n fs) (he : Edition n key fs)
    {i : Nat} {f : Fragment} (hi : fs[i]? = some f) :
    s.holds? src (n.segmentName (UInt64.ofNat i)) = some f :=
  (h _ f).mpr ⟨List.mem_of_getElem? hi, he.name_eq i f hi⟩

/-- The segment with a number is found under its name. -/
theorem Stores.get_segment (hs : s.Sound) (h : s.Stores n key fs) {i : Nat} (hi : i < fs.length)
    {p : Option Publisher} (hp : ∀ q, p = some q → q = key.publisher) :
    s.get (.exact (n.segmentName (UInt64.ofNat i)) p) = .ok fs[i]? := by
  have hlen := h.edition.length_lt
  have hfrom : ∀ f ∈ fs, f.isFrom p = true := by
    intro f hf
    cases hq : p with
    | none => rfl
    | some q =>
      rw [Fragment.isFrom, Option.all_some, beq_iff_eq, hp q hq, h.edition.publisher_eq f hf]
  -- A source holds the segment or nothing under the name.
  have hholds : ∀ src ∈ s.sources, ∀ f, (s.holds? src (n.segmentName (UInt64.ofNat i))).filter
      (fun f => f.isFrom p) = some f → fs[i]? = some f := by
    intro src hsrc f hf
    obtain ⟨hf, _⟩ := Option.filter_eq_some_iff.mp hf
    exact h.edition.getElem?_of_name (mem_of_holds h hsrc hf) (by omega) (hs.name_of_holds? hf)
  rw [get_exact hs]
  congr 1
  obtain ⟨src, hsrc, hfilled⟩ := h.filled
  cases hfound : s.sources.findSome? fun src =>
      (s.holds? src (n.segmentName (UInt64.ofNat i))).filter fun f => f.isFrom p with
  | some f =>
    obtain ⟨src', hsrc', hf⟩ := List.exists_of_findSome?_eq_some hfound
    exact (hholds src' hsrc' f hf).symm
  | none =>
    have hnone := List.findSome?_eq_none_iff.mp hfound src hsrc
    have hheld := hfilled.holds_segment h.edition (List.getElem?_eq_getElem hi)
    rw [hheld, Option.filter_some, if_pos (hfrom _ (List.getElem_mem hi))] at hnone
    cases hnone

theorem Stores.finds (hs : s.Sound) (h : s.Stores n key fs) : ∀ f ∈ fs, s.Finds f := by
  intro f hf
  obtain ⟨i, hi, hat, hname⟩ := h.edition.getElem?_of_mem hf
  rw [Finds, hname, h.get_segment hs hi, hat]
  intro q hq
  rw [← Option.some.inj hq]
  exact h.edition.publisher_eq f hf

/-! ### What stays -/

/-- Two editions that a source holds part of are the same. -/
theorem Stores.eq_of_holds {key' : PublicKey} {gs : List Fragment} (h : Edition n key fs)
    (h' : s.Stores n key' gs) {src : Source} (hsrc : src ∈ s.sources)
    (hall : ∀ f ∈ fs, s.holds? src f.name = some f) : fs = gs := by
  have hmem : ∀ f ∈ fs, f ∈ gs := by
    intro f hf
    obtain ⟨i, _, _, hname⟩ := h.getElem?_of_mem hf
    apply mem_of_holds h' hsrc (c := Segment.toComponent (UInt64.ofNat i))
    show s.holds? src (n.segmentName _) = some f
    rw [← hname]
    exact hall f hf
  obtain ⟨f, hf⟩ := List.exists_mem_of_length_pos h.length_pos
  refine h.eq_of_agree h'.edition hf (hmem f hf) ?_
  intro a ha b hb hab
  have hlen := h'.edition.length_lt
  obtain ⟨i, hi, hib, hname⟩ := h'.edition.getElem?_of_mem hb
  have hia := h'.edition.getElem?_of_name (hmem a ha) (by omega) (hab.trans hname)
  exact Option.some.inj (hia.symm.trans hib)

/-- What is stored stays as long as the supply grows and the version stays whole. -/
theorem Stores.of_grows (h : s.Stores n key fs) (hg : s.Grows s') (hw : s'.Whole n) :
    s'.Stores n key fs := by
  obtain ⟨src, hsrc, hfilled⟩ := h.filled
  have hall : ∀ f ∈ fs, s'.holds? src f.name = some f := by
    intro f hf
    obtain ⟨i, _, _, hname⟩ := h.edition.getElem?_of_mem hf
    apply hg.holds
    rw [hname]
    exact (hfilled _ f).mpr ⟨hf, hname⟩
  have hsrc' := hg.sources src hsrc
  obtain ⟨f, hf⟩ := List.exists_mem_of_length_pos h.edition.length_pos
  obtain ⟨i, _, _, hname⟩ := h.edition.getElem?_of_mem hf
  have hheld := hall f hf
  rw [hname] at hheld
  obtain ⟨key', gs, hstores, _⟩ := hw.stores_of_holds hsrc' hheld
  have heq := Stores.eq_of_holds h.edition hstores hsrc' hall
  rw [← heq] at hstores
  exact ⟨h.edition, hstores.filled, hstores.others⟩

omit [Suite] in
theorem Bare.of_holds_eq {src : Source} (h : s.Bare src n)
    (heq : ∀ c, s'.holds? src (n.append c) = s.holds? src (n.append c)) : s'.Bare src n := by
  intro c
  rw [heq]
  exact h c

omit [Suite] in
theorem Filled.of_holds_eq {src : Source} (h : s.Filled src n fs)
    (heq : ∀ c, s'.holds? src (n.append c) = s.holds? src (n.append c)) : s'.Filled src n fs := by
  intro c f
  rw [heq]
  exact h c f

/-- A version stays as it is where nothing is added below its name. -/
theorem Whole.of_holds_eq (h : s.Whole n) (hsrc : s'.sources = s.sources)
    (heq : ∀ src ∈ s.sources, ∀ c, s'.holds? src (n.append c) = s.holds? src (n.append c)) :
    s'.Whole n := by
  rcases h with hall | ⟨key, fs, hst⟩
  · left
    rw [hsrc]
    exact fun src hmem => (hall src hmem).of_holds_eq (heq src hmem)
  · right
    obtain ⟨src, hmem, hf⟩ := hst.filled
    refine ⟨key, fs, hst.edition, ⟨src, ?_, hf.of_holds_eq (heq src hmem)⟩, ?_⟩
    · rw [hsrc]
      exact hmem
    · rw [hsrc]
      intro src' hmem'
      exact (hst.others src' hmem').imp (Bare.of_holds_eq · (heq src' hmem'))
        (Filled.of_holds_eq · (heq src' hmem'))

theorem Alike.whole (h : s.Alike s') (hw : s.Whole n) : s'.Whole n :=
  hw.of_holds_eq h.sources fun src _ _ => h.holds src _

/-- Where no source is at odds with an edition, each of them has it whole or has nothing. -/
theorem Whole.bare_or_filled (hw : s.Whole n) (he : Edition n key fs)
    (hagree : ∀ f ∈ fs, ∀ other ∈ s.sources, ∀ g, s.holds? other f.name = some g → g = f)
    {src : Source} (hsrc : src ∈ s.sources) : s.Bare src n ∨ s.Filled src n fs := by
  rcases hw with hbare | ⟨key', gs, hst⟩
  · exact .inl (hbare src hsrc)
  · -- The edition that is stored has the same segments.
    obtain ⟨src₀, hsrc₀, hfilled₀⟩ := hst.filled
    have hsame : ∀ a ∈ fs, ∀ b ∈ gs, a.name = b.name → a = b := by
      intro a ha b hb hab
      obtain ⟨i, _, hi, hname⟩ := hst.edition.getElem?_of_mem hb
      have hheld := hfilled₀.holds_segment hst.edition hi
      rw [← hname, ← hab] at hheld
      exact (hagree a ha src₀ hsrc₀ b hheld).symm
    have hpos := he.length_pos
    have hpos' := hst.edition.length_pos
    have hfirst : fs[0] = gs[0] := by
      apply hsame _ (List.getElem_mem hpos) _ (List.getElem_mem hpos')
      rw [he.name_eq 0 _ (List.getElem?_eq_getElem hpos),
        hst.edition.name_eq 0 _ (List.getElem?_eq_getElem hpos')]
    have hmem : fs[0] ∈ gs := by
      rw [hfirst]
      exact List.getElem_mem hpos'
    rw [he.eq_of_agree hst.edition (List.getElem_mem hpos) hmem hsame]
    exact hst.others src hsrc

end Supply

/-! ### Writing an edition -/

namespace WritePath

open Supply

/-- No source is at odds with a write that its own source would take, and the own source has nothing
that it cannot tell from what is written. -/
structure Uncontested (s : Supply) (src : Source) (fs : List Fragment) : Prop where
  told : ∀ f ∈ fs, ∀ g, s.holds? src f.name = some g → g.digest = f.digest → g = f
  alone : (∀ f ∈ fs, ¬ Obstructs s src f) →
    ∀ f ∈ fs, ∀ other ∈ s.sources, ∀ g, s.holds? other f.name = some g → g = f

variable {s : Supply} {src : Source} {n : Name} {key : PublicKey} {fs : List Fragment}

/-- A write of other names leaves a version as it is. -/
theorem whole_place_of_ne (h : s.Sound) (hs : s.Has src) (hfs : ∀ f ∈ fs, f.Storable) {m : Name}
    (hne : ∀ f ∈ fs, ∀ c, f.name ≠ m.append c) (hw : s.Whole m) :
    (place src fs s).2.Whole m := by
  apply hw.of_holds_eq (sources_place src fs s)
  intro other _ c
  apply Option.ext
  intro g
  constructor
  · intro hg
    rcases holds?_of_place h hs hfs hg with hold | ⟨_, hmem, hname⟩
    · exact hold
    · exact absurd hname (hne g hmem c)
  · exact (place_grows h hs hfs).2.holds other _ g

/-- A store that obstructs an edition of a whole version takes none of it: it has another edition,
so the first segment conflicts or all segments are there already. -/
theorem saveAll_of_obstructs (h : s.Sound) {id : StoreId} (hsrc : .store id ∈ s.sources)
    (he : Edition n key fs) (hfs : ∀ f ∈ fs, f.Storable) (hun : Uncontested s (.store id) fs)
    (hw : s.Whole n) {f : Fragment} (hf : f ∈ fs) (hobs : Obstructs s (.store id) f) :
    (saveAll fs (s.store id)).2 = s.store id := by
  obtain ⟨held, hheld, _⟩ := hobs
  obtain ⟨i, _, _, hname⟩ := he.getElem?_of_mem hf
  rw [hname] at hheld
  obtain ⟨key', gs, hst, _⟩ := hw.stores_of_holds hsrc hheld
  have hfilled : s.Filled (.store id) n gs := by
    refine (hst.others _ hsrc).resolve_left fun hbare => ?_
    have hnone : s.holds? (.store id) (n.segmentName (UInt64.ofNat i)) = none := hbare _
    rw [hnone] at hheld
    cases hheld
  -- The store has all of another edition, so already the first segment meets one of that.
  obtain ⟨f₀, rest, rfl⟩ := List.exists_cons_of_length_pos he.length_pos
  have hf₀ : f₀.name = n.segmentName (UInt64.ofNat 0) := he.name_eq 0 f₀ rfl
  have hpos := hst.edition.length_pos
  have hg₀ := hfilled.holds_segment hst.edition (List.getElem?_eq_getElem hpos)
  rw [← hf₀] at hg₀
  by_cases hdig : gs[0].digest = f₀.digest
  · -- The first segments are the same, so the editions have equally many.
    have hsame := hun.told f₀ List.mem_cons_self _ hg₀ hdig
    have hmem₀ : f₀ ∈ gs := by
      rw [← hsame]
      exact List.getElem_mem hpos
    have hlen := he.length_eq_of_mem hst.edition List.mem_cons_self hmem₀
    refine saveAll_of_all_held (h.store id) hfs fun x hx => ?_
    obtain ⟨j, hj, _, hxn⟩ := he.getElem?_of_mem hx
    rw [hxn]
    exact ⟨_, hfilled.holds_segment hst.edition (List.getElem?_eq_getElem (hlen ▸ hj))⟩
  · rw [saveAll_of_held rest (Store.save_of_held (h.store id) (hfs f₀ List.mem_cons_self) hg₀),
      if_neg hdig]

/-- A write that its source obstructs changes nothing, if the version was whole before. -/
theorem holds?_place_of_obstructs (h : s.Sound) (hs : s.Has src) (hsrc : src ∈ s.sources)
    (he : Edition n key fs) (hfs : ∀ f ∈ fs, f.Storable) (hun : Uncontested s src fs)
    (hw : s.Whole n) {f : Fragment} (hf : f ∈ fs) (hobs : Obstructs s src f) (other : Source)
    (m : Name) : (place src fs s).2.holds? other m = s.holds? other m := by
  cases src with
  | direct =>
    show (putDirect fs s).2.holds? other m = _
    rw [putDirect_eq]
    split
    · rfl
    · next hclash =>
      obtain ⟨held, hheld, hne⟩ := hobs
      have hno := List.find?_eq_none.mp hclash f hf
      have hheld' : s.direct.get? f.name = some held := hheld
      rw [hheld', Option.any_some, bne_iff_ne, ne_eq, Classical.not_not] at hno
      exact absurd hno hne
  | store id =>
    have hsaved := saveAll_of_obstructs h hsrc he hfs hun hw hf hobs
    have hview := (alike_setStore h hs (h.store id) fun _ => rfl).2.holds other m
    show (putStored id fs s).2.holds? other m = _
    rcases (putStored_eq id fs s).2 with hp | hp
    · rw [hp, hsaved]
      exact hview
    · rw [hp, hsaved, ← hview]
      exact holds?_of_content rfl rfl other m

theorem holds?_place_of_ne (h : s.Sound) (hs : s.Has src) (hfs : ∀ f ∈ fs, f.Storable)
    {other : Source} (hne : other ≠ src) (m : Name) :
    (place src fs s).2.holds? other m = s.holds? other m := by
  apply Option.ext
  intro g
  constructor
  · intro hg
    rcases holds?_of_place h hs hfs hg with hold | ⟨hsame, _⟩
    · exact hold
    · exact absurd hsame hne
  · exact (place_grows h hs hfs).2.holds other _ g

/-- After a write that succeeds its source holds exactly the edition. -/
theorem filled_place (h : s.Sound) (hs : s.Has src) (hsrc : src ∈ s.sources)
    (hfs : ∀ f ∈ fs, f.Storable) (hd : DistinctNames fs)
    (hagree : ∀ f ∈ fs, ∀ other ∈ s.sources, ∀ g, s.holds? other f.name = some g → g = f)
    (hbefore : s.Bare src n ∨ s.Filled src n fs)
    (hall : ∀ f ∈ fs, Holds (place src fs s).2 src f) : (place src fs s).2.Filled src n fs := by
  intro c f
  constructor
  · intro hf
    rcases holds?_of_place h hs hfs hf with hold | ⟨_, hmem, hname⟩
    · rcases hbefore with hbare | hfilled
      · rw [hbare c] at hold
        cases hold
      · exact (hfilled c f).mp hold
    · exact ⟨hmem, hname⟩
  · rintro ⟨hmem, hname⟩
    rw [← hname]
    obtain ⟨held, hheld, _⟩ := hall f hmem
    rcases holds?_of_place h hs hfs hheld with hold | ⟨_, hmem', hname'⟩
    · rw [hheld, hagree f hmem src hsrc held hold]
    · rw [hheld, hd.eq_of_name_eq hmem' hmem hname']

/-- A write that succeeds leaves its edition stored. -/
theorem stores_place (h : s.Sound) (hs : s.Has src) (hsrc : src ∈ s.sources)
    (he : Edition n key fs) (hfs : ∀ f ∈ fs, f.Storable) (hd : DistinctNames fs)
    (hun : Uncontested s src fs) (hw : s.Whole n) (hok : (place src fs s).1 = .ok ()) :
    (place src fs s).2.Stores n key fs := by
  obtain ⟨hall, hfree⟩ : (∀ f ∈ fs, Holds (place src fs s).2 src f) ∧
      ∀ f ∈ fs, ¬ Obstructs s src f := by
    rcases place_cases h hs hfs hd with ⟨f, _, herr, _⟩ | ⟨_, hall, hfree⟩
    · rw [hok] at herr
      cases herr
    · exact ⟨hall, hfree⟩
  have hagree := hun.alone hfree
  have hfilled := filled_place h hs hsrc hfs hd hagree (hw.bare_or_filled he hagree hsrc) hall
  have hsources := sources_place src fs s
  refine ⟨he, ⟨src, ?_, hfilled⟩, fun other hother => ?_⟩
  · rw [hsources]
    exact hsrc
  · rw [hsources] at hother
    by_cases heq : other = src
    · rw [heq]
      exact .inr hfilled
    · exact (hw.bare_or_filled he hagree hother).imp
        (Bare.of_holds_eq · fun _ => holds?_place_of_ne h hs hfs heq _)
        (Filled.of_holds_eq · fun _ => holds?_place_of_ne h hs hfs heq _)

/-- Writing an edition uncontested keeps all versions whole. -/
theorem whole_place (h : s.Sound) (hs : s.Has src) (hsrc : src ∈ s.sources)
    (he : Edition n key fs) (hfs : ∀ f ∈ fs, f.Storable) (hd : DistinctNames fs)
    (hun : Uncontested s src fs) (hn : s.Whole n) {m : Name} (hm : s.Whole m) :
    (place src fs s).2.Whole m := by
  by_cases hmn : m = n
  · rw [hmn]
    rcases place_cases h hs hfs hd with ⟨f, hf, _, hobs⟩ | ⟨hok, _⟩
    · apply hn.of_holds_eq (sources_place src fs s)
      intro other _ c
      exact holds?_place_of_obstructs h hs hsrc he hfs hun hn hf hobs other _
    · exact .inr ⟨key, fs, stores_place h hs hsrc he hfs hd hun hn hok⟩
  · apply whole_place_of_ne h hs hfs ?_ hm
    intro f hf c hname
    obtain ⟨i, _, _, hfn⟩ := he.getElem?_of_mem hf
    exact hmn (Name.append_inj (hname.symm.trans hfn)).1

end WritePath
end NamedContent
