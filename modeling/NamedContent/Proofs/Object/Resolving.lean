import NamedContent.Object.Reading
import NamedContent.Proofs.Network.Acknowledged
import NamedContent.Proofs.Network.Searching

/-!
# What a name resolves to

A name that carries a version resolves to the first segment of that version. A name without one
resolves to the latest version below it: to whatever is served of that version and has the least
name (`Supply.Resolves`). That is the first segment if it is there, and nothing is served under the
version with an empty component, which comes before all segments. Otherwise it is another part of
the version, with which nothing can be read (`openVersioned_resolves`, `not_always_first`).

The search that finds the latest version excludes the components beside the versions, and with more
than a hundred of them it may hide a version by mistake.
-/

namespace NamedContent

/-- Before the first segment comes the empty component only. -/
theorem Segment.isLE_compare_first_iff (c : Component) :
    (compare c (toComponent first)).isLE = true ↔ c = ⟨[]⟩ ∨ c = toComponent first := by
  obtain ⟨octets⟩ := c
  have hfirst : toComponent first = ⟨[0]⟩ := by decide
  rw [hfirst]
  show ((compare octets.length 1).then (compare octets [0])).isLE = true ↔ _
  match octets with
  | [] => decide
  | [x] =>
    have hbytes : compare [x] [0] = compare x.toNat 0 := by
      rw [Octets.compare_cons, Octets.compare_byte, show compare ([] : Octets) [] = .eq from rfl,
        Ordering.then_eq]
      rfl
    rw [show compare [x].length 1 = .eq from rfl, Ordering.eq_then, hbytes, Nat.isLE_compare,
      Nat.le_zero, ← UInt8.toNat_zero, UInt8.toNat_inj]
    simp
  | x :: y :: rest =>
    have hgt : compare (x :: y :: rest).length 1 = .gt := by
      rw [Nat.compare_eq_gt, List.length_cons, List.length_cons]
      omega
    rw [hgt]
    exact iff_of_false Bool.false_ne_true (by simp)

@[simp] theorem Name.isVersionedFirstSegment_firstSegmentName (b : Name) (v : Version) :
    (b.append v.toComponent).firstSegmentName.isVersionedFirstSegment = true := by
  simp [isVersionedFirstSegment, firstSegmentName]

section

variable [Suite]

namespace Supply

variable {s : Supply} {n : Name} {p : Option Publisher} {f : Fragment}

/-- Something of the publisher, if one is wanted, is served under the name. -/
def ServesUnder (s : Supply) (p : Option Publisher) (n : Name) : Prop :=
  ∃ g, s.Serves g ∧ g.isFrom p = true ∧ g.name = n

/-- Not more than a hundred different components stand beside the versions below a name. -/
def FewSiblings (s : Supply) (p : Option Publisher) (n : Name) : Prop :=
  ∃ siblings : List Component, siblings.length ≤ Exclude.maxExplicit ∧
    ∀ c d, s.ServesUnder p ((n.append c).append d) → Version.ofComponent? c = none → c ∈ siblings

/-- What a name without a version resolves to, in a search that excludes some components: part `d`
of version `v`. -/
structure Resolves (s : Supply) (n : Name) (p : Option Publisher) (siblings : List Component)
    (v : Version) (d : Component) (f : Fragment) : Prop where
  name_eq : f.name = (n.append v.toComponent).append d
  served : s.Serves f
  isFrom : f.isFrom p = true
  no_version : ∀ c ∈ siblings, Version.ofComponent? c = none
  beside : ∀ c ∈ siblings, ∃ e, s.ServesUnder p ((n.append c).append e)
  /-- All that is served is of an earlier version, or of the same and has no lesser name, or it is
  of a version that the exclusion of the siblings hides. -/
  greatest : ∀ u e, s.ServesUnder p ((n.append u.toComponent).append e) →
    u < v ∨ u = v ∧ (compare d e).isLE = true ∨
      v < u ∧ ((Interest.latestVersion n p).excludingAll siblings).exclude.suspects u.toComponent =
        true

/-! ### Names without a version -/

omit [Suite] in
theorem name_latestVersion [Suite] (hn : n.splitVersion? = none) (p : Option Publisher) :
    (Interest.latestVersion n p).name = n := Name.base_of_splitVersion?_eq_none hn

/-- What the search for the latest version still asks for: all that is served of the publisher, of
versions that it does not hide. -/
theorem accepts_latestVersion_iff {i : Interest} {siblings : List Component} {g : Fragment}
    {u : Version} {e : Component} (hi : i.Deep) (hclear : i.exclude.excludes u.toComponent = false)
    (hno : ∀ c ∈ siblings, Version.ofComponent? c = none)
    (hname : g.name = (i.name.append u.toComponent).append e) :
    (i.excludingAll siblings).accepts g = true ↔ g.isFrom i.publisher = true ∧
      (i.excludingAll siblings).exclude.suspects u.toComponent = false := by
  have hfresh : u.toComponent ∉ siblings := fun hmem => by
    have hv := hno _ hmem
    rw [Version.ofComponent?_toComponent] at hv
    cases hv
  rw [Interest.accepts_excludingAll_iff (Name.component?_of_eq hname) hfresh, hi.accepts_iff hname,
    and_iff_left hclear]
  rfl

/-- What the search for the latest version excludes stands beside the versions. -/
theorem Search.servesUnder_of_mem {siblings : List Component} {found : Option Fragment}
    (h : s.Search (.latestVersion n p) siblings found) (hs : s.Sound)
    (hn : n.splitVersion? = none) :
    ∀ c ∈ siblings, ∃ e, s.ServesUnder p ((n.append c).append e) := by
  intro c hmem
  have hdeep := Interest.deep_latestVersion n p
  obtain ⟨g, hg, ha, hgc⟩ := h.accepted_of_mem hs c hmem
  obtain ⟨c', e, hname, hgc'⟩ := hdeep.name_eq ha
  obtain rfl : c' = c := Option.some.inj (hgc'.symm.trans hgc)
  refine ⟨e, g, hg, ((hdeep.accepts_iff hname).mp ha).1, ?_⟩
  rw [hname, name_latestVersion hn]

/-- The search for the latest version ends at what the name resolves to. -/
theorem resolves_of_search (hs : s.Sound) (hn : n.splitVersion? = none) {siblings : List Component}
    (h : s.Search (.latestVersion n p) siblings (some f)) :
    ∃ v d, s.Resolves n p siblings v d f := by
  have hdeep := Interest.deep_latestVersion n p
  have hbase := name_latestVersion hn p
  have hpicks := picks_of_get hs h.get_excludingAll
  have haccepts := hpicks.accepts_found f rfl
  obtain ⟨c, d, hname, hc⟩ := hdeep.name_eq (Interest.accepts_of_excludingAll haccepts)
  obtain ⟨v, hv⟩ := h.version_of_found
  obtain rfl : c = v.toComponent := Option.some.inj (hc.symm.trans hv)
  have hclear : ∀ u : Version,
      (Interest.latestVersion n p).exclude.excludes u.toComponent = false := fun _ => rfl
  have hstill := fun {g : Fragment} {u : Version} {e : Component} =>
    accepts_latestVersion_iff (g := g) (e := e) hdeep (hclear u) h.no_version_of_mem
  obtain ⟨hfrom, hseen⟩ := (hstill hname).mp haccepts
  rw [hbase] at hname
  refine ⟨v, d, hname, hpicks.served_found f rfl, hfrom, h.no_version_of_mem,
    h.servesUnder_of_mem hs hn, ?_⟩
  rintro u e ⟨g, hg, hgfrom, hgname⟩
  have hsame := (Interest.latestVersion n p).eq_excludingAll siblings
  have hview : ((Interest.latestVersion n p).excludingAll siblings).name = n := by
    rw [hsame]
    exact hbase
  have hright : ((Interest.latestVersion n p).excludingAll siblings).selector = .rightmost := by
    rw [hsame]
    rfl
  -- What is served of any version is hidden by the exclusions, or it was passed over in the choice.
  cases hhidden : ((Interest.latestVersion n p).excludingAll siblings).exclude.suspects
      u.toComponent with
  | false =>
    have hga := (hstill (by rw [hbase]; exact hgname)).mpr ⟨hgfrom, hhidden⟩
    rcases Interest.rightmost_cases hright (by rw [hview]; exact hname)
        (by rw [hview]; exact hgname)
      (hpicks.not_prefers f rfl g hg hga) with hlt | hsame
    · exact .inl hlt
    · exact .inr (.inl hsame)
  | true =>
    by_cases hlt : u < v
    · exact .inl hlt
    · rcases Version.eq_or_lt_of_le (UInt64.not_lt.mp hlt) with rfl | hgt
      · rw [hseen] at hhidden
        cases hhidden
      · exact .inr (.inr ⟨hgt, rfl⟩)

/-- Up to a hundred siblings hide nothing. -/
theorem FewSiblings.not_suspects (h : s.FewSiblings p n) {siblings : List Component}
    (hno : ∀ c ∈ siblings, Version.ofComponent? c = none)
    (hbeside : ∀ c ∈ siblings, ∃ e, s.ServesUnder p ((n.append c).append e)) (c : Component) :
    ((Interest.latestVersion n p).excludingAll siblings).exclude.suspects c = false := by
  obtain ⟨all, hfew, hall⟩ := h
  refine Exclude.suspects_of_bloom (Interest.bloom_excludingAll_eq_none rfl ?_) c
  have hsub : siblings.toFinset ⊆ all.toFinset := by
    intro d hd
    have hmem := List.mem_toFinset.mp hd
    obtain ⟨e, he⟩ := hbeside d hmem
    exact List.mem_toFinset.mpr (hall d e he (hno d hmem))
  show 0 + (siblings.toFinset \ ([] : List Component).toFinset).card ≤ _
  rw [Nat.zero_add]
  calc (siblings.toFinset \ ([] : List Component).toFinset).card
      ≤ siblings.toFinset.card := Finset.card_le_card Finset.sdiff_subset
    _ ≤ all.toFinset.card := Finset.card_le_card hsub
    _ ≤ all.length := List.toFinset_card_le all
    _ ≤ Exclude.maxExplicit := hfew

namespace Resolves

variable {siblings : List Component} {v : Version} {d : Component}

theorem servesUnder (h : s.Resolves n p siblings v d f) :
    s.ServesUnder p ((n.append v.toComponent).append d) :=
  ⟨f, h.served, h.isFrom, h.name_eq⟩

/-- Nothing that is served of the version has a lesser name. -/
theorem isLE_compare (h : s.Resolves n p siblings v d f) {e : Component}
    (he : s.ServesUnder p ((n.append v.toComponent).append e)) : (compare d e).isLE = true := by
  rcases h.greatest v e he with hlt | ⟨_, hle⟩ | ⟨hlt, _⟩
  · exact absurd hlt (UInt64.lt_irrefl _)
  · exact hle
  · exact absurd hlt (UInt64.lt_irrefl _)

/-- Whether it is a first segment is up to the part alone. -/
theorem isVersionedFirstSegment_eq (h : s.Resolves n p siblings v d f) :
    f.name.isVersionedFirstSegment = true ↔ d = Segment.toComponent Segment.first := by
  constructor
  · intro hfirst
    obtain ⟨b, w, hname⟩ := Name.eq_of_isVersionedFirstSegment hfirst
    rw [h.name_eq] at hname
    exact (Name.append_inj hname).2
  · rintro rfl
    rw [h.name_eq]
    exact Name.isVersionedFirstSegment_firstSegmentName n v

/-- What a name resolves to is a first segment exactly if that is served, and nothing is under the
version with an empty component. -/
theorem isVersionedFirstSegment_iff (h : s.Resolves n p siblings v d f) :
    f.name.isVersionedFirstSegment = true ↔
      s.ServesUnder p (n.append v.toComponent).firstSegmentName ∧
        ¬ s.ServesUnder p ((n.append v.toComponent).append ⟨[]⟩) := by
  rw [h.isVersionedFirstSegment_eq]
  constructor
  · rintro rfl
    refine ⟨h.servesUnder, fun hempty => ?_⟩
    exact absurd (h.isLE_compare hempty) (by decide)
  · rintro ⟨hfirst, hnone⟩
    rcases (Segment.isLE_compare_first_iff d).mp (h.isLE_compare hfirst) with rfl | hd
    · exact absurd h.servesUnder hnone
    · exact hd

/-- Nothing can be collected from anything but a first segment, once it is verified. -/
theorem start_eq_error (h : s.Resolves n p siblings v d f)
    (hno : f.name.isVersionedFirstSegment = false) {keys : KeyRing}
    (hverified : s.verify keys f = .ok ()) : Collection.start s keys f =
      .error (.validation (.structural (f.name.toUri ++ " is not a first segment"))) := by
  have hsegment : f.segment? ≠ some Segment.first := by
    intro hfirst
    rw [Fragment.segment?, h.name_eq, Name.segment?_append] at hfirst
    rw [Bool.eq_false_iff] at hno
    exact hno (h.isVersionedFirstSegment_eq.mpr (Segment.eq_toComponent_of_ofComponent? hfirst))
  rw [Collection.start, hverified]
  simp only [bind, Except.bind]
  rw [if_pos hsegment]
  rfl

theorem readAll_eq_error (h : s.Resolves n p siblings v d f)
    (hno : f.name.isVersionedFirstSegment = false) {keys : KeyRing}
    (hverified : s.verify keys f = .ok ()) : s.readAll keys f =
      .error (.validation (.structural (f.name.toUri ++ " is not a first segment"))) := by
  rw [readAll, h.start_eq_error hno hverified]
  rfl

/-- An object does not take it for a version either, in some cases because of the name. -/
theorem ofFirst_eq_error (α : Type) [Payload α] (h : s.Resolves n p siblings v d f)
    (hno : f.name.isVersionedFirstSegment = false) {keys : KeyRing}
    (hverified : s.verify keys f = .ok ()) :
    (Reading.ofFirst s keys f : Except ObjectError (Reading α)) =
      .error (if f.name.hasVersion then
        .network (.validation (.structural (f.name.toUri ++ " is not a first segment")))
      else .unversioned f.name) := by
  rw [Reading.ofFirst, h.start_eq_error hno hverified]
  split <;> rfl

/-- With few siblings the version is the greatest of all that anything is served of. -/
theorem le_of_few (h : s.Resolves n p siblings v d f) (hfew : s.FewSiblings p n) {u : Version}
    {e : Component} (he : s.ServesUnder p ((n.append u.toComponent).append e)) : u ≤ v := by
  rcases h.greatest u e he with hlt | ⟨rfl, _⟩ | ⟨_, hhidden⟩
  · exact UInt64.le_of_lt hlt
  · exact UInt64.le_refl _
  · rw [hfew.not_suspects h.no_version h.beside] at hhidden
    cases hhidden

end Resolves

/-! ### Opening -/

theorem openVersioned_eq_ok_iff :
    s.openVersioned n p = .ok f ↔ s.openVersioned? n p = .ok (some f) := by
  unfold openVersioned
  cases s.openVersioned? n p with
  | error e => exact ⟨nofun, nofun⟩
  | ok found => cases found <;> simp [bind, Except.bind, pure, Except.pure, throw, throwThe,
      MonadExceptOf.throw]

/-- A versioned name resolves to what is served as the first segment of its version. -/
theorem exists_openVersioned_of_versioned (hs : s.Sound) {versioned : Name}
    (hn : n.versioned? = some versioned) :
    (∃ f, s.openVersioned n p = .ok f) ↔ s.ServesUnder p versioned.firstSegmentName := by
  simp only [openVersioned_eq_ok_iff, openVersioned?_of_versioned hn]
  constructor
  · rintro ⟨f, hf⟩
    have hpicks := picks_of_get hs hf
    obtain ⟨hname, hfrom⟩ :=
      Interest.accepts_exact_eq_true_iff.mp (hpicks.accepts_found f rfl)
    exact ⟨f, hpicks.served_found f rfl, hfrom, hname⟩
  · rintro ⟨g, hg, hfrom, hname⟩
    obtain ⟨found, hfound, hpicks⟩ := get_picks hs (.firstSegment versioned p)
    cases found with
    | some f => exact ⟨f, hfound⟩
    | none =>
      have hno := hpicks.not_accepts rfl g hg
      rw [show (Interest.firstSegment versioned p).accepts g = true from
        Interest.accepts_exact_eq_true_iff.mpr ⟨hname, hfrom⟩] at hno
      cases hno

/-- Whatever a name without a version resolves to is what the search for the latest version
finds. -/
theorem exists_resolves (hs : s.Sound) (hn : n.versioned? = none)
    (hf : s.openVersioned n p = .ok f) :
    ∃ siblings v d, s.Resolves n p siblings v d f := by
  rw [openVersioned_eq_ok_iff, openVersioned?_of_unversioned hn] at hf
  obtain ⟨siblings, hsearch, _⟩ := search_of_findVersionIn (Interest.deep_latestVersion n p) hf
  exact ⟨siblings, resolves_of_search hs (Option.map_eq_none_iff.mp hn) hsearch⟩

/-- With few siblings a name without a version resolves to something if anything is served of a
version. -/
theorem exists_openVersioned_of_few (hs : s.Sound) (hn : n.versioned? = none)
    (hfew : s.FewSiblings p n) {v : Version} {d : Component}
    (hv : s.ServesUnder p ((n.append v.toComponent).append d)) :
    ∃ f, s.openVersioned n p = .ok f := by
  have hsplit : n.splitVersion? = none := Option.map_eq_none_iff.mp hn
  have hdeep := Interest.deep_latestVersion n p
  have hbase := name_latestVersion hsplit p
  have hfuel : s.matching (.latestVersion n p) < s.size + 1 :=
    Nat.lt_succ_of_le (matching_le hs _)
  obtain ⟨siblings, found, hfound, hsearch⟩ := exists_search hs hdeep hfuel
  cases found with
  | some f =>
    refine ⟨f, openVersioned_eq_ok_iff.mpr ?_⟩
    rw [openVersioned?_of_unversioned hn]
    exact hfound
  | none =>
    obtain ⟨g, hg, hfrom, hname⟩ := hv
    have hno := (picks_of_get hs hsearch.get_excludingAll).not_accepts rfl g hg
    rw [(accepts_latestVersion_iff (u := v) (e := d) hdeep rfl hsearch.no_version_of_mem
      (by rw [hbase]; exact hname)).mpr
        ⟨hfrom, hfew.not_suspects hsearch.no_version_of_mem
          (hsearch.servesUnder_of_mem hs hsplit) _⟩] at hno
    cases hno

/-- What names resolve to. A versioned name resolves to something exactly if the first segment of
its version is served, and then to that. A name without a version resolves to the least part of the
latest version; with not more than a hundred siblings it does so exactly if anything is served of a
version, and this is the greatest of them. It is the first segment exactly if that is served, and
nothing is under the version with an empty component; any other part is refused by whoever reads on
from it. -/
theorem openVersioned_resolves (α : Type) [Payload α] (hs : s.Sound) (n : Name)
    (p : Option Publisher) :
    (∀ versioned, n.versioned? = some versioned →
      ((∃ f, s.openVersioned n p = .ok f) ↔ s.ServesUnder p versioned.firstSegmentName) ∧
      ∀ f, s.openVersioned n p = .ok f →
        f.name = versioned.firstSegmentName ∧ f.name.isVersionedFirstSegment = true) ∧
    (n.versioned? = none →
      (∀ f, s.openVersioned n p = .ok f → ∃ siblings v d, s.Resolves n p siblings v d f ∧
        (f.name.isVersionedFirstSegment = true ↔
          s.ServesUnder p (n.append v.toComponent).firstSegmentName ∧
            ¬ s.ServesUnder p ((n.append v.toComponent).append ⟨[]⟩)) ∧
        (f.name.isVersionedFirstSegment = false → ∀ keys, s.verify keys f = .ok () →
          s.readAll keys f =
            .error (.validation (.structural (f.name.toUri ++ " is not a first segment"))) ∧
          (Reading.ofFirst s keys f : Except ObjectError (Reading α)) =
            .error (if f.name.hasVersion then
              .network (.validation (.structural (f.name.toUri ++ " is not a first segment")))
            else .unversioned f.name)) ∧
        (s.FewSiblings p n →
          ∀ u e, s.ServesUnder p ((n.append u.toComponent).append e) → u ≤ v)) ∧
      (s.FewSiblings p n → ((∃ f, s.openVersioned n p = .ok f) ↔
        ∃ v d, s.ServesUnder p ((n.append (Version.toComponent v)).append d)))) := by
  refine ⟨fun versioned hn => ?_, fun hn => ⟨fun f hf => ?_, fun hfew => ⟨?_, ?_⟩⟩⟩
  · refine ⟨exists_openVersioned_of_versioned hs hn, fun f hf => ?_⟩
    rw [openVersioned_eq_ok_iff, openVersioned?_of_versioned hn] at hf
    obtain ⟨hname, _⟩ := Interest.accepts_exact_eq_true_iff.mp (accepts_of_get hf)
    obtain ⟨⟨b, v⟩, _, rfl⟩ := Option.map_eq_some_iff.mp hn
    refine ⟨hname, ?_⟩
    rw [hname]
    exact Name.isVersionedFirstSegment_firstSegmentName b v
  · obtain ⟨siblings, v, d, h⟩ := exists_resolves hs hn hf
    refine ⟨siblings, v, d, h, h.isVersionedFirstSegment_iff, fun hno keys hverified => ?_,
      fun hfew _ _ => h.le_of_few hfew⟩
    exact ⟨h.readAll_eq_error hno hverified, h.ofFirst_eq_error α hno hverified⟩
  · rintro ⟨f, hf⟩
    obtain ⟨siblings, v, d, h⟩ := exists_resolves hs hn hf
    exact ⟨v, d, h.servesUnder⟩
  · rintro ⟨v, d, hv⟩
    exact exists_openVersioned_of_few hs hn hfew hv

end Supply

end

/-! ### A version without its first segment -/

/-- The second segment of version 5 of some content. -/
def strayPart : Fragment :=
  { oneByte 7 with name := ((⟨[.ofText "n"]⟩ : Name).addVersion ⟨5⟩).segmentName 1 }

/-- A network on which nothing else is, and fragments are not verified. -/
def strayed : Supply := ((World.empty { verify := false }).supply.publish [strayPart]).2

theorem sound_strayed : strayed.Sound :=
  (Supply.publish_grows (World.sound_empty _).supply [strayPart]).1

theorem openVersioned_strayed : strayed.openVersioned ⟨[.ofText "n"]⟩ none = .ok strayPart := by
  decide +kernel

theorem openVersioned_resolves_strayed :
    strayed.Sound ∧ (⟨[.ofText "n"]⟩ : Name).versioned? = none ∧
      strayed.openVersioned ⟨[.ofText "n"]⟩ none = .ok strayPart ∧
      ∃ siblings v d, strayed.Resolves ⟨[.ofText "n"]⟩ none siblings v d strayPart := by
  have hn : (⟨[.ofText "n"]⟩ : Name).versioned? = none := rfl
  obtain ⟨siblings, v, d, h, _⟩ := ((Supply.openVersioned_resolves (List UInt32) sound_strayed
    ⟨[.ofText "n"]⟩ none).2 hn).1 strayPart openVersioned_strayed
  exact ⟨sound_strayed, hn, openVersioned_strayed, siblings, v, d, h⟩

/-- A name does not always resolve to a first segment, and what it resolves to may be refused
because of that. -/
theorem not_always_first :
    (¬ ∀ (s : Supply) (n : Name) (p : Option Publisher) (f : Fragment), s.Sound →
      s.openVersioned n p = .ok f → f.name.isVersionedFirstSegment = true) ∧
    ¬ ∀ (s : Supply) (n : Name) (p : Option Publisher) (f : Fragment) (keys : KeyRing), s.Sound →
      s.openVersioned n p = .ok f → s.readAll keys f ≠
        .error (.validation (.structural (f.name.toUri ++ " is not a first segment"))) := by
  refine ⟨fun h => ?_, fun h => ?_⟩
  · exact absurd (h strayed _ none strayPart sound_strayed openVersioned_strayed)
      (by decide +kernel)
  · refine h strayed _ none strayPart ⟨⟨.replicate 32 1⟩, [], []⟩ sound_strayed
      openVersioned_strayed ?_
    decide +kernel

end NamedContent
