import NamedContent.Proofs.Fragment.Validity
import NamedContent.Proofs.Network.Arriving
import NamedContent.Proofs.Object.ReadBack
import NamedContent.Proofs.Object.Release
import NamedContent.Proofs.Object.Siblings

/-!
# Versions that can be read, and versions that cannot

An issue is a version of which all fragments are there. They are of one publisher and carry the keys
to check them with, but they need not pass the check, and what they hold need not decode. Either of
this makes the version unreadable (`Issue.isReadable`).

On a network that serves an issue, and nothing else under the names of its fragments
(`Supply.Provides`), reading the issue from any of its fragments gives its value, or it is told that
the issue is unreadable (`Provides.ofCandidate`). So it is where issues are served and nothing else
below their base (`Supply.Publishes`).
-/

namespace NamedContent

/-- A version as its fragments make it up, whatever they hold. -/
structure Issue where
  version : Version
  first : Fragment
  /-- The further segments, in order of their numbers. -/
  rest : List Fragment

namespace Issue

def fragments (r : Issue) : List Fragment := r.first :: r.rest

/-- The name below which the segments are. -/
def name (r : Issue) (b : Name) : Name := b.append r.version.toComponent

def content (r : Issue) : Octets := r.fragments.flatMap Fragment.content

/-- All segments are there, of one publisher, with the keys to check them. -/
structure Whole (r : Issue) (b : Name) : Prop where
  length_eq : r.rest.length = (r.first.info.final.getD Segment.first).toNat
  name_eq : ∀ i f, r.fragments[i]? = some f → f.name = (r.name b).segmentName (UInt64.ofNat i)
  publisher_eq : ∀ f ∈ r.fragments, f.publisher = r.first.publisher
  embeds : ∀ f ∈ r.fragments, ∃ key, f.info.locator = .key key

variable {α : Type} [Payload α]

/-- The issue as it is adopted. -/
def adoption (r : Issue) (b : Name) : Adoption α :=
  ⟨b, r.version, r.first.publisher, r.first.info.locator,
    if r.first.isGone then none else Payload.decode r.content⟩

end Issue

variable [Suite] {b : Name} {r r' : Issue} {rs : List Issue} {f g : Fragment} {s : Supply}
  {keys : KeyRing}

/-! ### Checks -/

namespace Supply

/-- A fragment passes the check with the key that it carries, unless nothing is checked. -/
def passes (s : Supply) (f : Fragment) : Bool := !s.config.verify || f.validate.isOk

/-- A fragment that carries a key is checked with that key, whatever keys the reader has. -/
theorem verify_of_key (hkey : ∃ key, f.info.locator = .key key) :
    s.verify keys f = if s.config.verify then f.validate.mapError .validation else .ok () := by
  obtain ⟨key, hkey⟩ := hkey
  unfold verify
  rw [verificationKey, Fragment.validate, hkey]
  rfl

theorem verify_of_passes (hkey : ∃ key, f.info.locator = .key key) (h : s.passes f = true) :
    s.verify keys f = .ok () := by
  rw [verify_of_key hkey]
  split
  · next hv =>
    rw [passes, hv, Bool.not_true, Bool.false_or] at h
    cases hw : f.validate with
    | ok u => rfl
    | error e =>
      rw [hw] at h
      cases h
  · rfl

theorem verify_of_not_passes (keys : KeyRing) (hkey : ∃ key, f.info.locator = .key key)
    (h : s.passes f = false) :
    ∃ e, s.verify keys f = .error (.validation e) := by
  obtain ⟨hv, hw⟩ := Bool.or_eq_false_iff.mp h
  rw [verify_of_key hkey, if_pos (by simpa using hv)]
  cases hw' : f.validate with
  | ok u =>
    rw [hw'] at hw
    cases hw
  | error e => exact ⟨e, rfl⟩

end Supply

variable (α : Type) [Payload α] in
/-- All fragments pass the check, and what they hold is a value or that the content is gone. -/
def Issue.isReadable (r : Issue) (s : Supply) : Bool :=
  r.fragments.all s.passes && (r.first.isGone || (Payload.decode (α := α) r.content).isSome)

/-! ### Names -/

namespace Issue.Whole

omit [Suite] in
theorem length_le (h : r.Whole b) : r.fragments.length ≤ 2 ^ 64 := by
  have hlt := (r.first.info.final.getD Segment.first).toNat_lt
  rw [fragments, List.length_cons, h.length_eq]
  omega

omit [Suite] in
theorem getElem?_of_mem (h : r.Whole b) (hf : f ∈ r.fragments) :
    ∃ i, i < 2 ^ 64 ∧ r.fragments[i]? = some f ∧
      f.name = (r.name b).segmentName (UInt64.ofNat i) := by
  obtain ⟨i, hi⟩ := List.mem_iff_getElem?.mp hf
  obtain ⟨hlt, -⟩ := List.getElem?_eq_some_iff.mp hi
  exact ⟨i, Nat.lt_of_lt_of_le hlt h.length_le, hi, h.name_eq i f hi⟩

omit [Suite] in
theorem exists_name_eq (h : r.Whole b) (hf : f ∈ r.fragments) :
    ∃ d, f.name = (b.append r.version.toComponent).append d := by
  obtain ⟨i, -, -, hname⟩ := h.getElem?_of_mem hf
  exact ⟨_, hname⟩

omit [Suite] in
theorem component?_eq (h : r.Whole b) (hf : f ∈ r.fragments) :
    f.name.component? b.length = some r.version.toComponent := by
  obtain ⟨d, hname⟩ := h.exists_name_eq hf
  exact Name.component?_of_eq hname

omit [Suite] in
/-- A name is that of one segment only. -/
theorem eq_of_name_eq (h : r.Whole b) (hf : f ∈ r.fragments) (hg : g ∈ r.fragments)
    (hname : g.name = f.name) : g = f := by
  obtain ⟨i, hi, hat, hfname⟩ := h.getElem?_of_mem hf
  obtain ⟨j, hj, hat', hgname⟩ := h.getElem?_of_mem hg
  have hij : j = i := StreamWrite.segmentName_injective hj hi (by rw [← hgname, ← hfname, hname])
  rw [hij, hat] at hat'
  exact (Option.some.inj hat').symm

end Issue.Whole

/-! ### What is served -/

namespace Supply

/-- All fragments of a version are served, and nothing else under their names. -/
structure Provides (s : Supply) (b : Name) (r : Issue) : Prop where
  sound : s.Sound
  whole : r.Whole b
  served : ∀ f ∈ r.fragments, s.Serves f
  only : ∀ f ∈ r.fragments, ∀ g, s.Serves g → g.name = f.name → g = f

/-- All fragments of some versions of an unversioned base are served, each version given once, and
nothing else below the base. -/
structure Publishes (s : Supply) (b : Name) (rs : List Issue) : Prop where
  plain : b.splitVersion? = none
  sound : s.Sound
  whole : ∀ r ∈ rs, r.Whole b
  distinct : (rs.map Issue.version).Nodup
  served : ∀ r ∈ rs, ∀ f ∈ r.fragments, s.Serves f
  below : ∀ g, s.Serves g → b.isPrefixOf g.name = true → ∃ r ∈ rs, g ∈ r.fragments

namespace Publishes

/-- How often a supply has changed plays no part. -/
theorem of_changes (h : s.Publishes b rs) (changes : Nat) : { s with changes }.Publishes b rs where
  plain := h.plain
  sound := h.sound.of_content rfl rfl rfl
  whole := h.whole
  distinct := h.distinct
  served := h.served
  below := h.below

/-- What is served under the name of a fragment is that fragment. -/
theorem eq_of_name_eq (h : s.Publishes b rs) (hr : r ∈ rs) (hf : f ∈ r.fragments) (hg : s.Serves g)
    (hname : g.name = f.name) : g = f := by
  obtain ⟨d, hd⟩ := (h.whole r hr).exists_name_eq hf
  have hpre : b.isPrefixOf g.name = true := Name.isPrefixOf_of_eq (hname.trans hd)
  obtain ⟨r', hr', hg'⟩ := h.below g hg hpre
  have hversion : r'.version = r.version := by
    have hc := (h.whole r hr).component?_eq hf
    rw [← hname, (h.whole r' hr').component?_eq hg'] at hc
    exact Version.toComponent_injective (Option.some.inj hc)
  obtain rfl := List.inj_on_of_nodup_map h.distinct hr' hr hversion
  exact (h.whole r' hr').eq_of_name_eq hf hg' hname

theorem provides (h : s.Publishes b rs) (hr : r ∈ rs) : s.Provides b r where
  sound := h.sound
  whole := h.whole r hr
  served := h.served r hr
  only _ hf _ hg hname := h.eq_of_name_eq hr hf hg hname

end Publishes

namespace Provides

/-- A segment is found by its number and publisher. -/
theorem get_segment (h : s.Provides b r) {i : Nat} (hi : r.fragments[i]? = some f) :
    s.get (.exact ((r.name b).segmentName (UInt64.ofNat i)) (some r.first.publisher)) =
      .ok (some f) := by
  have hmem : f ∈ r.fragments := List.mem_of_getElem? hi
  rw [← h.whole.name_eq i f hi, ← h.whole.publisher_eq f hmem]
  exact finds_of_serves h.sound (h.served f hmem) fun g hg hname _ => h.only f hmem g hg hname

/-! ### Reading -/

/-- The segments of an issue are read one after the other, up to the first that does not pass. -/
theorem readNext (h : s.Provides b r) (keys : KeyRing) (todo : List Fragment) {c : Collection}
    (hfirst : c.first = r.first) (hsplit : r.rest = c.rest ++ todo)
    (hn : todo ≠ [] → c.versioned = r.name b) :
    (todo.all s.passes = true →
      Collection.readNext s keys todo.length c = .ok (c.withRest r.rest)) ∧
    (todo.all s.passes = false →
      ∃ e, Collection.readNext s keys todo.length c = .error (.validation e)) := by
  -- By induction on what is still to be read; all of it is found, so only a check can stop it.
  induction todo generalizing c with
  | nil =>
    rw [List.append_nil] at hsplit
    constructor
    · intro _
      rw [hsplit]
      rfl
    · intro hno
      cases hno
  | cons f todo ih =>
    have hat : r.fragments[c.next]? = some f := by
      rw [Issue.fragments, hsplit, Collection.next, List.getElem?_cons_succ,
        List.getElem?_append_right (Nat.le_refl _), Nat.sub_self]
      rfl
    have hget : s.get c.interest = .ok (some f) := by
      rw [Collection.interest, hn (List.cons_ne_nil f todo), hfirst]
      exact h.get_segment hat
    have hkey := h.whole.embeds f (List.mem_of_getElem? hat)
    have hrest := ih (c := c.add f) hfirst (by rw [hsplit]; simp [Collection.add])
      (fun _ => hn (List.cons_ne_nil f todo))
    rw [List.length_cons, Collection.readNext_succ hget, List.all_cons]
    cases hpass : s.passes f with
    | true =>
      rw [verify_of_passes hkey hpass]
      exact hrest
    | false =>
      obtain ⟨e, he⟩ := verify_of_not_passes keys hkey hpass
      rw [he]
      constructor
      · intro hno
        cases hno
      · exact fun _ => ⟨e, rfl⟩

end Provides
end Supply

/-- The collection that reading an issue starts with. -/
def Issue.opening (r : Issue) (b : Name) : Collection :=
  if r.first.isGone ∨ r.rest = [] then { first := r.first, versioned := r.first.name, final := 0 }
  else { first := r.first, versioned := r.name b, final := r.rest.length }

namespace Supply.Provides

theorem start (h : s.Provides b r) (keys : KeyRing) :
    (s.passes r.first = true → Collection.start s keys r.first = .ok (r.opening b)) ∧
    (s.passes r.first = false → ∃ e, Collection.start s keys r.first = .error (.validation e)) := by
  have hwhole := h.whole
  have hkey := hwhole.embeds r.first List.mem_cons_self
  have hname : r.first.name = (b.append r.version.toComponent).segmentName (UInt64.ofNat 0) :=
    hwhole.name_eq 0 r.first rfl
  have hsegment : r.first.segment? = some Segment.first := by
    simp [Fragment.segment?, hname, Segment.first]
  have hversioned : r.first.name.versioned? = some (r.name b) := by
    simp [hname, Issue.name]
  have hlast : r.first.info.final.getD Segment.first = Segment.first ↔ r.rest = [] := by
    rw [← List.length_eq_zero_iff, hwhole.length_eq, ← UInt64.toNat_inj]
    rfl
  unfold Collection.start
  constructor
  · intro hpass
    rw [verify_of_passes hkey hpass, hsegment]
    simp only [bind, Except.bind, pure, Except.pure, ne_eq, not_true_eq_false, ↓reduceIte, hlast,
      hversioned, Issue.opening, ← hwhole.length_eq]
    split <;> rfl
  · intro hpass
    obtain ⟨e, he⟩ := verify_of_not_passes keys hkey hpass
    rw [he]
    exact ⟨e, rfl⟩

end Supply.Provides

/-! ### Values -/

section

variable {α : Type} [Payload α]

/-- What reading an issue comes to. -/
inductive Issue.Read (r : Issue) (s : Supply) (b : Name) :
    Except ObjectError (Reading α) → Prop where
  | complete (readable : r.isReadable α s = true) : r.Read s b (.ok (.complete (r.adoption b)))
  | unreadable (e : ObjectError) (unreadable : e.isUnreadable = true)
      (not_readable : r.isReadable α s = false) : r.Read s b (.error e)

omit [Suite] in
/-- The name of the first segment tells base and version. -/
theorem Issue.Whole.splitVersion?_eq (h : r.Whole b) :
    r.first.name.splitVersion? = some (b, r.version) := by
  rw [h.name_eq 0 r.first rfl, Issue.name, Name.splitVersion?_segmentName]

/-- If the first segment passes the check and is a tombstone, nothing else can fail. -/
theorem Issue.Whole.rest_passes_of_gone (h : r.Whole b) (hg : r.first.isGone = true)
    (hpass : s.passes r.first = true) : r.rest.all s.passes = true := by
  cases hv : s.config.verify with
  | false => simp [Supply.passes, hv]
  | true =>
    rw [Supply.passes, hv, Bool.not_true, Bool.false_or] at hpass
    have hfinal := Fragment.isFinal_of_validate hpass hg
    unfold Fragment.isFinal Fragment.segment? at hfinal
    rw [h.name_eq 0 r.first rfl, Name.segment?_segmentName] at hfinal
    have hlength := h.length_eq
    cases hlast : r.first.info.final with
    | none =>
      rw [hlast] at hfinal
      cases hfinal
    | some n =>
      rw [hlast] at hfinal hlength
      rw [← beq_iff_eq.mp hfinal] at hlength
      rw [List.length_eq_zero_iff.mp hlength]
      rfl

omit [Suite] in
/-- What a collection of all fragments of an issue decodes to. -/
theorem Issue.Whole.decode (h : r.Whole b) {c : Collection} (hfirst : c.first = r.first)
    (hrest : r.first.isGone = false → c.rest = r.rest) :
    (Reading.decode c : Except ObjectError (Adoption α)) =
      if r.first.isGone || (Payload.decode (α := α) r.content).isSome then .ok (r.adoption b)
      else .error .decode := by
  unfold Reading.decode
  simp only [hfirst, h.splitVersion?_eq, bind, Except.bind, pure, Except.pure]
  cases hg : r.first.isGone with
  | true => simp [Issue.adoption, hg]
  | false =>
    have hpayload : c.payload = r.content := by
      rw [Collection.payload, hfirst, hg, hrest hg]
      rfl
    rw [hpayload]
    cases hd : (Payload.decode r.content : Option α) with
    | none => simp [throw, throwThe, MonadExceptOf.throw]
    | some x => simp [Issue.adoption, hg, hd]

/-- Once all that is needed has been read and passed, what it holds decides. -/
theorem Issue.Whole.read_of_collect (h : r.Whole b) (hall : r.fragments.all s.passes = true)
    {c d : Collection} (hcollect : c.collect s keys = .ok d) (hmissing : d.missing = 0)
    (hfirst : d.first = r.first) (hrest : r.first.isGone = false → d.rest = r.rest) :
    r.Read s b (Reading.goOn s keys c : Except ObjectError (Reading α)) := by
  have hread : (Reading.goOn s keys c : Except ObjectError (Reading α)) =
      (Reading.decode d).map .complete := by
    unfold Reading.goOn
    rw [hcollect]
    simp only [bind, Except.bind, mapError_ok, pure, Except.pure, hmissing]
    rfl
  have hreadable : r.isReadable α s =
      (r.first.isGone || (Payload.decode (α := α) r.content).isSome) := by
    rw [isReadable, hall, Bool.true_and]
  rw [hread, h.decode hfirst hrest, ← hreadable]
  cases hr : r.isReadable α s with
  | true => exact .complete hr
  | false => exact .unreadable .decode rfl hr

namespace Supply.Provides

/-- Once the first segment has passed, the others are read, unless it is a tombstone or the only
one. -/
theorem goOn_opening (h : s.Provides b r) (keys : KeyRing) (hfirst : s.passes r.first = true) :
    r.Read s b (Reading.goOn s keys (r.opening b) : Except ObjectError (Reading α)) := by
  have hwhole := h.whole
  unfold Issue.opening
  split
  -- The first segment is all there is: of a tombstone, or of a payload of one segment.
  · next hshort =>
    refine hwhole.read_of_collect (d := { first := r.first, versioned := r.first.name, final := 0 })
      ?_ rfl rfl rfl fun hg => ?_
    · rw [Issue.fragments, List.all_cons, hfirst, Bool.true_and]
      rcases hshort with hg | hnil
      · exact hwhole.rest_passes_of_gone hg hfirst
      · rw [hnil]
        rfl
    · rcases hshort with hg' | hnil
      · rw [hg] at hg'
        cases hg'
      · exact hnil.symm
  · let c : Collection := { first := r.first, versioned := r.name b, final := r.rest.length }
    obtain ⟨hread, hbroken⟩ := h.readNext keys r.rest (c := c) rfl rfl fun _ => rfl
    cases hall : r.rest.all s.passes with
    | true =>
      refine hwhole.read_of_collect ?_ (hread hall) (Nat.sub_self _) rfl fun _ => rfl
      rw [Issue.fragments, List.all_cons, hfirst, hall]
      rfl
    | false =>
      obtain ⟨e, he⟩ := hbroken hall
      have hgoOn : (Reading.goOn s keys c : Except ObjectError (Reading α)) =
          .error (.network (.validation e)) := by
        unfold Reading.goOn
        rw [Collection.collect, show c.missing = r.rest.length from rfl, he]
        rfl
      show r.Read s b (Reading.goOn s keys c)
      rw [hgoOn]
      refine .unreadable _ rfl ?_
      rw [Issue.isReadable, Issue.fragments, List.all_cons, hall, Bool.and_false]
      rfl

/-- Reading an issue from its first segment. -/
theorem ofFirst (h : s.Provides b r) (keys : KeyRing) :
    r.Read s b (Reading.ofFirst s keys r.first : Except ObjectError (Reading α)) := by
  have hversion : r.first.name.hasVersion = true := by
    rw [Name.hasVersion, h.whole.splitVersion?_eq]
    rfl
  obtain ⟨hpass, hfail⟩ := h.start keys
  unfold Reading.ofFirst
  rw [if_pos hversion]
  cases hfirst : s.passes r.first with
  | true =>
    rw [hpass hfirst]
    exact h.goOn_opening keys hfirst
  | false =>
    obtain ⟨e, he⟩ := hfail hfirst
    rw [he]
    refine .unreadable (.network (.validation e)) rfl ?_
    rw [Issue.isReadable, Issue.fragments, List.all_cons, hfirst]
    rfl

/-- A fragment that answers a query below the base is a candidate for its version, and what reading
this comes to does not depend on the fragment. -/
theorem ofCandidate (h : s.Provides b r) (hf : f ∈ r.fragments) (keys : KeyRing) {i : Interest}
    (hi : i.name = b) : ∃ t, Watch.candidate? i f = some t ∧ t.version? = some r.version ∧
      r.Read s b (Reading.ofConfirmed s keys t : Except ObjectError (Reading α)) := by
  have hwhole := h.whole
  unfold Watch.candidate?
  split
  · next hversioned =>
    obtain ⟨n, hlt, hat, hname⟩ := hwhole.getElem?_of_mem hf
    have hsegment : f.name.segment? = some Segment.first := by
      unfold Name.isVersionedFirstSegment at hversioned
      exact beq_iff_eq.mp (Bool.and_eq_true_iff.mp hversioned).1
    rw [hname, Name.segment?_segmentName] at hsegment
    obtain rfl : n = 0 :=
      StreamWrite.ofNat64_inj hlt (by omega) (Option.some.inj hsegment)
    obtain rfl : r.first = f := Option.some.inj hat
    refine ⟨_, rfl, ?_, h.ofFirst keys⟩
    rw [Confirmed.version?, Name.version?, hwhole.splitVersion?_eq]
    rfl
  · obtain ⟨d, hname⟩ := hwhole.exists_name_eq hf
    rw [← hi] at hname
    rw [Interest.versionedNameOf?_eq hname, hi]
    refine ⟨_, rfl, ?_, ?_⟩
    · exact Name.version?_append b r.version
    · have hget := h.get_segment (i := 0) (f := r.first) rfl
      rw [hwhole.publisher_eq f hf]
      show r.Read s b (Reading.pursue s keys (.firstSegment (r.name b) r.first.publisher))
      rw [Reading.pursue_of_found (α := α) hget]
      exact h.ofFirst keys

end Supply.Provides

end

end NamedContent
