import NamedContent.Proofs.Network.Arriving
import NamedContent.Proofs.Object.RoundTrip

/-!
# Versions that are read while they arrive

A release is a version that everybody can read as soon as all of its fragments are there: its
fragments carry the key that verifies them, and its payload can be decoded. What a participant signs
is one (`readable_ofValue`, `readable_ofTombstone`).

Where some fragments of releases are served, and nothing else below their base (`Supply.Carries`),
reading from any point gets to the end of the version, or to a fragment that is not there
(`Carries.pursue`). It never fails, and what it has read so far is part of the release.
-/

namespace NamedContent

/-- A version as its fragments make it up. Without a value it is a tombstone. -/
structure Release (α : Type) where
  version : Version
  key : PublicKey
  /-- In the order of their segments. -/
  fragments : List Fragment
  value : Option α

/-- The name below which a version of a base has its segments, or the base itself. -/
def Name.known (b : Name) : Option Version → Name
  | some v => b.append v.toComponent
  | none => b

namespace Release

variable [Suite] {α : Type}

omit [Suite] in
/-- The name below which the segments are. -/
def name (r : Release α) (b : Name) : Name := b.append r.version.toComponent

/-- The release as it is adopted. -/
def adoption (r : Release α) (b : Name) : Adoption α :=
  ⟨b, r.version, r.key.publisher, .key r.key, r.value⟩

/-- What can be lacking of a release: all of it, or what follows its first segments. -/
inductive Lacks (r : Release α) (b : Name) : Lack → Prop where
  | first : r.Lacks b (.firstSegment (r.name b) r.key.publisher)
  | segment (c : Collection) (todo : List Fragment)
      (split_eq : r.fragments = c.first :: (c.rest ++ todo))
      (final_eq : c.final = r.fragments.length - 1)
      (versioned_eq : todo ≠ [] → c.versioned = r.name b) : r.Lacks b (.segment c)

/-- A reading gets to the end of the release, or to a fragment that is not there. -/
inductive Read (r : Release α) (s : Supply) (b : Name) : Except ObjectError (Reading α) → Prop where
  | complete : r.Read s b (.ok (.complete (r.adoption b)))
  | lacking (l : Lack) (lacks : r.Lacks b l) (f : Fragment) (mem : f ∈ r.fragments)
      (missing : ¬ s.Serves f) : r.Read s b (.ok (.lacking l))

variable [Payload α]

/-- The fragments make up a version that everybody can read. -/
structure Readable (r : Release α) (b : Name) : Prop where
  edition : Edition (r.name b) r.key r.fragments
  embeds : Embeds r.key r.fragments
  tells : Tells r.fragments r.value

end Release

variable [Suite] {α : Type} [Payload α] {b : Name} {r r' : Release α} {rs : List (Release α)}
  {f g : Fragment} {v : Option Version}

/-! ### What participants sign -/

namespace Release

variable {k : Keypair}

/-- What is signed of a value that can be read back is a release, and so is a signed tombstone. -/
theorem readable_of_signs {u : Version} {fs : List Fragment} (value : Option α)
    (h : Signs (b.append u.toComponent) k (value.map Payload.encode) fs)
    (hcodec : ∀ y, value = some y → Payload.decode (Payload.encode y) = some y) :
    (⟨u, k.publicKey, fs, value⟩ : Release α).Readable b where
  edition := h.edition
  embeds := h.embeds
  tells := Session.tells_of_payloadOf hcodec h.payload_eq

/-- A value, cut into segments and signed. -/
def ofValue (b : Name) (u : Version) (y : α) (config : NetworkConfig) (clock : UInt64)
    (k : Keypair) : Release α where
  version := u
  key := k.publicKey
  fragments := (StreamWrite.drafts { name := b.append u.toComponent, payload := Payload.encode y }
    config (.key k.publicKey)).map (·.sign clock k)
  value := some y

/-- A tombstone, signed. -/
def ofTombstone (b : Name) (u : Version) (config : NetworkConfig) (clock : UInt64) (k : Keypair) :
    Release α where
  version := u
  key := k.publicKey
  fragments := [Draft.sign
    { name := (b.append u.toComponent).firstSegmentName, contentType := .gone
      final := some Segment.first, locator := some (.key k.publicKey)
      freshness := config.freshness } clock k]
  value := none

theorem readable_ofValue (hverify : Suite.VerifiesSigned) (hb : b.Versionable) (u : Version) {y : α}
    (hcodec : Payload.decode (Payload.encode y) = some y)
    (hlen : (Payload.encode y).length < 2 ^ 64) (config : NetworkConfig) (clock : UInt64) :
    (ofValue b u y config clock k).Readable b := by
  have hsigns := signs_drafts (k := k) (w :=
    { name := b.append u.toComponent, payload := Payload.encode y }) hverify hb u rfl rfl rfl hlen
    config clock
  refine readable_of_signs (some y) hsigns fun z hz => ?_
  rw [← Option.some.inj hz]
  exact hcodec

theorem readable_ofTombstone (hverify : Suite.VerifiesSigned) (hb : b.Versionable) (u : Version)
    (config : NetworkConfig) (clock : UInt64) :
    (ofTombstone b u config clock k : Release α).Readable b :=
  readable_of_signs none
    (signs_tombstone (k := k) hverify hb u rfl rfl rfl rfl rfl clock) nofun

end Release

/-! ### Interests in later versions -/

omit [Suite] in
/-- What an object under an unversioned base knows itself by. -/
theorem Name.known_eq (hplain : b.splitVersion? = none) (v : Option Version) :
    v.elim b b.addVersion = b.known v := by
  cases v with
  | none => rfl
  | some u => exact addVersion_of_splitVersion?_eq_none hplain u

omit [Suite] in
theorem Name.base_known (hplain : b.splitVersion? = none) (v : Option Version) :
    (b.known v).base = b := by
  cases v with
  | none => exact Name.base_of_splitVersion?_eq_none hplain
  | some u => exact Name.base_append b u

namespace Interest

omit [Suite] in
theorem name_nextVersion_known (hplain : b.splitVersion? = none) (v : Option Version) :
    (nextVersion (b.known v)).name = b := by
  rw [name_nextVersion, Name.base_known hplain]

/-- A query for later versions excludes those that are not later. -/
theorem excludes_nextVersion_known (hplain : b.splitVersion? = none) (v : Option Version)
    (w : Version) :
    (nextVersion (b.known v)).exclude.excludes w.toComponent = !Session.isLater (some w) v := by
  rw [← Bool.not_eq_eq_eq_not, Bool.eq_iff_iff, Bool.not_eq_true',
    excludes_nextVersion_eq_false_iff]
  cases v with
  | none => simp [Name.known, Name.version?, hplain, Session.isLater]
  | some u => simp [Name.known, Session.isLater]

end Interest

namespace Release.Readable

theorem name_eq (h : r.Readable b) (hf : f ∈ r.fragments) :
    ∃ d, f.name = (b.append r.version.toComponent).append d := by
  obtain ⟨i, _, _, hname⟩ := h.edition.getElem?_of_mem hf
  exact ⟨_, hname⟩

theorem exists_mem (h : r.Readable b) : ∃ f, f ∈ r.fragments :=
  List.exists_mem_of_length_pos h.edition.length_pos

/-- The fragments of later versions are what a query for later versions asks for. -/
theorem accepts_nextVersion_iff (h : r.Readable b) (hplain : b.splitVersion? = none)
    (hf : f ∈ r.fragments) : (Interest.nextVersion (b.known v)).accepts f = true ↔
      Session.isLater (some r.version) v = true := by
  have hname := Interest.name_nextVersion_known hplain v
  have hexcludes := Interest.excludes_nextVersion_known hplain v r.version
  constructor
  · intro ha
    have hcomp := h.edition.component?_eq hf
    rw [← hname] at hcomp
    rw [Interest.not_excludes_of_accepts ha hcomp] at hexcludes
    simpa using hexcludes.symm
  · intro hlater
    obtain ⟨d, hd⟩ := h.name_eq hf
    rw [← hname] at hd
    rw [hlater] at hexcludes
    exact (Interest.deep_nextVersion (b.known v) none).accepts_of_name rfl hd hexcludes

theorem startsWithLaterVersionOf_eq (h : r.Readable b) (hplain : b.splitVersion? = none)
    (hf : f ∈ r.fragments) :
    f.name.startsWithLaterVersionOf (b.known v) = Session.isLater (some r.version) v := by
  have hcomp := h.edition.component?_eq hf
  have hpre := h.edition.isPrefixOf_name hf
  unfold Name.startsWithLaterVersionOf
  cases v with
  | none =>
    simp [Name.known, hplain, hpre, hcomp, Session.isLater]
  | some u =>
    simp [Name.known, hpre, hcomp, Session.isLater]

end Release.Readable

/-! ### Releases of one base -/

/-- Versions of one unversioned base, each given once. -/
structure Releases (b : Name) (rs : List (Release α)) : Prop where
  plain : b.splitVersion? = none
  readable : ∀ r ∈ rs, r.Readable b
  distinct : (rs.map Release.version).Nodup

/-- A name of a release is that of one fragment only. -/
theorem Releases.eq_of_name_eq (h : Releases b rs) (hr : r ∈ rs) (hr' : r' ∈ rs)
    (hf : f ∈ r.fragments) (hg : g ∈ r'.fragments) (hname : g.name = f.name) :
    r' = r ∧ g = f := by
  have hversion : r'.version = r.version := by
    have hc := (h.readable r hr).edition.component?_eq hf
    rw [← hname, (h.readable r' hr').edition.component?_eq hg] at hc
    exact Version.toComponent_injective (Option.some.inj hc)
  obtain rfl := List.inj_on_of_nodup_map h.distinct hr' hr hversion
  exact ⟨rfl, (h.readable r' hr').edition.distinct.eq_of_name_eq hg hf hname⟩

/-! ### First segments -/

namespace Reading

variable {s : Supply} {keys : KeyRing} {n : Name} {p : Publisher}

theorem pursue_of_found (h : s.get (.firstSegment n (some p)) = .ok (some f)) :
    (pursue s keys (.firstSegment n p) : Except ObjectError (Reading α)) = ofFirst s keys f := by
  unfold pursue
  dsimp only [Lack.interest]
  rw [h]
  rfl

theorem pursue_of_missing (h : s.get (.firstSegment n (some p)) = .ok none) :
    (pursue s keys (.firstSegment n p) : Except ObjectError (Reading α)) =
      .ok (.lacking (.firstSegment n p)) := by
  unfold pursue
  dsimp only [Lack.interest]
  rw [h]
  rfl

end Reading

/-! ### What is served of the releases -/

namespace Supply

/-- Below the base nothing is served but fragments of the releases. -/
structure Carries (s : Supply) (b : Name) (rs : List (Release α)) : Prop where
  releases : Releases b rs
  sound : s.Sound
  below : ∀ g, s.Serves g → b.isPrefixOf g.name = true → ∃ r ∈ rs, g ∈ r.fragments

variable {s s' : Supply} {keys : KeyRing}

/-- What counts as a change only leaves it so. -/
theorem Carries.of_alike (h : s.Carries b rs) (ha : s.Alike s') (hs : s'.Sound) :
    s'.Carries b rs where
  releases := h.releases
  sound := hs
  below g hg := h.below g ((ha.serves_iff g).mp hg)

namespace Carries

/-- What is served under the name of a fragment is that fragment. -/
theorem eq_of_name_eq (h : s.Carries b rs) (hr : r ∈ rs) (hf : f ∈ r.fragments) (hg : s.Serves g)
    (hname : g.name = f.name) : g = f := by
  have hpre := (h.releases.readable r hr).edition.isPrefixOf_name hf
  rw [← hname] at hpre
  obtain ⟨r', hr', hg'⟩ := h.below g hg hpre
  exact (h.releases.eq_of_name_eq hr hr' hf hg' hname).2

/-- Publishing another fragment of the releases. -/
theorem publish (h : s.Carries b rs) (hr : r ∈ rs) (hf : f ∈ r.fragments) :
    (s.publish [f]).2.Carries b rs ∧
      ∀ g, (s.publish [f]).2.Serves g ↔ s.Serves g ∨ g = f := by
  have hserves : ∀ g, (s.publish [f]).2.Serves g ↔ s.Serves g ∨ g = f :=
    fun g => serves_publish_iff h.sound fun g hg hname => h.eq_of_name_eq hr hf hg hname
  refine ⟨⟨h.releases, (publish_grows h.sound [f]).1, fun g hg hpre => ?_⟩, hserves⟩
  rcases (hserves g).mp hg with hg | rfl
  · exact h.below g hg hpre
  · exact ⟨r, hr, hf⟩

/-- A segment is found as soon as it is served. -/
theorem get_segment (h : s.Carries b rs) (hr : r ∈ rs) {i : Nat} (hi : r.fragments[i]? = some f) :
    s.Serves f ∧ s.get (.exact ((r.name b).segmentName (UInt64.ofNat i)) (some r.key.publisher)) =
        .ok (some f) ∨
      ¬ s.Serves f ∧
        s.get (.exact ((r.name b).segmentName (UInt64.ofNat i)) (some r.key.publisher)) =
          .ok none := by
  have hedition := (h.releases.readable r hr).edition
  have hmem : f ∈ r.fragments := List.mem_of_getElem? hi
  have hname := hedition.name_eq i f hi
  have heq : ∀ g, s.Serves g →
      (Interest.exact ((r.name b).segmentName (UInt64.ofNat i)) (some r.key.publisher)).accepts g =
        true → g = f := by
    intro g hg ha
    apply h.eq_of_name_eq hr hmem hg
    rw [hname]
    exact (Interest.accepts_exact_iff.mp ha).1
  by_cases hserved : s.Serves f
  · refine .inl ⟨hserved, get_eq_some h.sound hserved ?_ fun g hg ha => .inl (heq g hg ha)⟩
    refine Interest.accepts_exact_iff.mpr ⟨hname, fun q hq => ?_⟩
    rw [← Option.some.inj hq]
    exact hedition.publisher_eq f hmem
  · refine .inr ⟨hserved, get_eq_none h.sound fun g hg => ?_⟩
    rw [Bool.eq_false_iff]
    intro ha
    rw [heq g hg ha] at hg
    exact hserved hg

/-! ### Reading -/

/-- The key that a fragment carries verifies it, whatever keys the reader has. -/
theorem verify (h : s.Carries b rs) (hr : r ∈ rs) (hf : f ∈ r.fragments) :
    s.verify keys f = .ok () := by
  have hread := h.releases.readable r hr
  refine verify_of_edition hread.edition hf fun _ => ?_
  rw [verificationKey, hread.embeds f hf]

/-- Segments are read one after the other, up to the first that is not there. -/
theorem readNext (h : s.Carries b rs) (hr : r ∈ rs) (keys : KeyRing) {todo : List Fragment}
    {c : Collection} (hsplit : r.fragments = c.first :: (c.rest ++ todo))
    (hn : todo ≠ [] → c.versioned = r.name b) :
    ∃ got left, todo = got ++ left ∧
      Collection.readNext s keys todo.length c = .ok (c.withRest (c.rest ++ got)) ∧
      ∀ f, left.head? = some f → ¬ s.Serves f := by
  have hsame : c.withRest (c.rest ++ []) = c := by
    rw [List.append_nil]
    rfl
  -- By induction on what is still to be read: while it is served it is read, and reading stops at
  -- the first fragment that is not.
  induction todo generalizing c with
  | nil => exact ⟨[], [], rfl, by rw [hsame]; rfl, fun f hf => nomatch hf⟩
  | cons f todo ih =>
    have hat : r.fragments[c.next]? = some f := by
      rw [hsplit, Collection.next, List.getElem?_cons_succ,
        List.getElem?_append_right (Nat.le_refl _), Nat.sub_self]
      rfl
    have hfirst : c.first.publisher = r.key.publisher := by
      apply (h.releases.readable r hr).edition.publisher_eq
      rw [hsplit]
      exact List.mem_cons_self
    have hversioned := hn (List.cons_ne_nil f todo)
    have hinterest : c.interest =
        .exact ((r.name b).segmentName (UInt64.ofNat c.next)) (some r.key.publisher) := by
      rw [Collection.interest, hversioned, hfirst]
    rcases h.get_segment hr hat with ⟨_, hget⟩ | ⟨hmissing, hget⟩
    · have hsplit' : r.fragments = (c.add f).first :: ((c.add f).rest ++ todo) := by
        rw [hsplit]
        simp [Collection.add]
      obtain ⟨got, left, rfl, hread, hleft⟩ := ih (c := c.add f) hsplit' (fun _ => hversioned) (by
        rw [List.append_nil]
        rfl)
      refine ⟨f :: got, left, rfl, ?_, hleft⟩
      rw [List.length_cons, Collection.readNext_succ (by rw [hinterest]; exact hget),
        h.verify hr (List.mem_of_getElem? hat)]
      refine hread.trans ?_
      simp [Collection.add, Collection.withRest]
    · refine ⟨[], f :: todo, rfl, ?_, fun g hg => ?_⟩
      · rw [List.length_cons, Collection.readNext, hinterest, hget, hsame]
        rfl
      · rw [← Option.some.inj hg]
        exact hmissing

/-- Reading on from the first segments of a release. -/
theorem goOn (h : s.Carries b rs) (hr : r ∈ rs) {todo : List Fragment} {c : Collection}
    (hsplit : r.fragments = c.first :: (c.rest ++ todo))
    (hfinal : c.final = r.fragments.length - 1) (hn : todo ≠ [] → c.versioned = r.name b) :
    r.Read s b (Reading.goOn s keys c) := by
  have hread := h.releases.readable r hr
  have hlength : r.fragments.length = c.rest.length + todo.length + 1 := by
    rw [hsplit, List.length_cons, List.length_append]
  have hmissing : c.missing = todo.length := by
    rw [Collection.missing, hfinal]
    omega
  obtain ⟨got, left, rfl, hnext, hleft⟩ := h.readNext hr keys hsplit hn
  have hgoOn : Reading.goOn (α := α) s keys c =
      if (c.withRest (c.rest ++ got)).missing = 0 then
        (Reading.decode (c.withRest (c.rest ++ got))).map .complete
      else .ok (.lacking (.segment (c.withRest (c.rest ++ got)))) := by
    unfold Reading.goOn Collection.collect
    rw [hmissing, hnext]
    simp only [bind, Except.bind, mapError_ok, pure, Except.pure]
    rfl
  have hrest : (c.withRest (c.rest ++ got)).missing = left.length := by
    show c.final - (c.rest ++ got).length = _
    rw [hfinal, hlength, List.length_append, List.length_append]
    omega
  -- Nothing is left if everything was served; otherwise the first that is left is what is lacking.
  rw [hgoOn, hrest]
  cases left with
  | nil =>
    have hall : r.fragments =
        (c.withRest (c.rest ++ got)).first :: (c.withRest (c.rest ++ got)).rest := by
      rw [hsplit, List.append_nil]
      rfl
    have hmem : (c.withRest (c.rest ++ got)).first ∈ r.fragments := by
      rw [hall]
      exact List.mem_cons_self
    rw [List.length_nil, if_pos rfl, Reading.decode_of_tells hread.edition hall hread.tells,
      hread.edition.publisher_eq _ hmem, hread.embeds _ hmem]
    exact Release.Read.complete (r := r)
  | cons f left =>
    rw [List.length_cons, if_neg (Nat.succ_ne_zero _)]
    refine .lacking _ (.segment _ (f :: left) ?_ hfinal fun _ => ?_) f ?_ (hleft f rfl)
    · rw [hsplit]
      show _ = c.first :: (c.rest ++ got ++ f :: left)
      rw [List.append_assoc]
    · exact hn (List.append_ne_nil_of_right_ne_nil got (List.cons_ne_nil f left))
    · rw [hsplit]
      simp

/-- Reading a release from its first segment. -/
theorem ofFirst (h : s.Carries b rs) (hr : r ∈ rs) (hf : r.fragments[0]? = some f) :
    r.Read s b (Reading.ofFirst s keys f) := by
  have hedition := (h.releases.readable r hr).edition
  have hmem : f ∈ r.fragments := List.mem_of_getElem? hf
  have hversion : f.name.hasVersion = true := by
    simp [hedition.name_eq 0 f hf, Release.name]
  have hstart : Collection.start s keys f = .ok (.ofEdition (r.name b) r.fragments f) :=
    Collection.start_of_edition hedition hf (h.verify hr hmem)
  have hofFirst : Reading.ofFirst (α := α) s keys f =
      Reading.goOn s keys (.ofEdition (r.name b) r.fragments f) := by
    unfold Reading.ofFirst
    rw [if_pos hversion, hstart]
    rfl
  have hsplit : r.fragments = (Collection.ofEdition (r.name b) r.fragments f).first ::
      ((Collection.ofEdition (r.name b) r.fragments f).rest ++ r.fragments.tail) := by
    simpa using Collection.eq_cons_tail hf
  rw [hofFirst]
  refine h.goOn hr hsplit (Collection.final_ofEdition ..) fun hne => ?_
  unfold Collection.ofEdition
  rw [if_neg]
  intro hone
  obtain ⟨g, hg⟩ := List.length_eq_one_iff.mp hone
  rw [hg] at hne
  exact hne rfl

/-- Pursuing what is lacking of a release. -/
theorem pursue (h : s.Carries b rs) (hr : r ∈ rs) {l : Lack} (hl : r.Lacks b l) :
    r.Read s b (Reading.pursue s keys l) := by
  cases hl with
  | segment c todo split_eq final_eq versioned_eq => exact h.goOn hr split_eq final_eq versioned_eq
  | first =>
    have hpos := (h.releases.readable r hr).edition.length_pos
    have hfirst : r.fragments[0]? = some r.fragments[0] := List.getElem?_eq_getElem hpos
    rcases h.get_segment hr hfirst with ⟨_, hget⟩ | ⟨hmissing, hget⟩
    · rw [Reading.pursue_of_found (α := α) hget]
      exact h.ofFirst hr hfirst
    · rw [Reading.pursue_of_missing (α := α) hget]
      exact .lacking _ .first _ (List.getElem_mem hpos) hmissing

/-- A fragment that answers a query below the base is a candidate, and reading its version gets as
far as the release is there. -/
theorem ofCandidate (h : s.Carries b rs) (hr : r ∈ rs) (hf : f ∈ r.fragments) (keys : KeyRing)
    {i : Interest} (hi : i.name = b) : ∃ t, Watch.candidate? i f = some t ∧
      r.Read s b (Reading.ofConfirmed s keys t) := by
  have hread := h.releases.readable r hr
  unfold Watch.candidate?
  split
  · next hversioned =>
    obtain ⟨n, hlt, hn, hname⟩ := hread.edition.getElem?_of_mem hf
    have hlen := hread.edition.length_lt
    have hsegment : f.name.segment? = some Segment.first := by
      unfold Name.isVersionedFirstSegment at hversioned
      exact beq_iff_eq.mp (Bool.and_eq_true_iff.mp hversioned).1
    rw [hname, Name.segment?_segmentName] at hsegment
    obtain rfl : n = 0 :=
      StreamWrite.ofNat64_inj (by omega) (by omega) (Option.some.inj hsegment)
    exact ⟨_, rfl, h.ofFirst hr hn⟩
  · obtain ⟨d, hname⟩ := hread.name_eq hf
    rw [← hi] at hname
    rw [Interest.versionedNameOf?_eq hname, hi]
    refine ⟨_, rfl, ?_⟩
    rw [hread.edition.publisher_eq f hf]
    exact h.pursue hr .first

end Carries
end Supply
end NamedContent
