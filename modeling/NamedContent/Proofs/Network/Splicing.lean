import Mathlib.Logic.Relation
import NamedContent.Network.Reader
import NamedContent.Proofs.Fragment.Validity
import NamedContent.Proofs.Network.Lookup
import NamedContent.Proofs.Network.Rejected

/-!
# Reading segments from content that nobody vouches for

Whatever is served, and however it changes while a version is being read, the fragments that are
read belong together: each one is found under its exact name and of the publisher of the first, and
verified before it is used (`Collection.Intact.add`). So a payload that is read to the end is that
of a tombstone, or of all the segments that the first one declares, in order
(`unspliced_of_readAll`).
-/

namespace NamedContent

section

variable [Suite]

/-- The reader's key for the fragment is a key of its publisher, and validates it. -/
def Fragment.VerifiedBy (keys : KeyRing) (f : Fragment) : Prop :=
  ∃ key, Supply.verificationKey keys f = .ok key ∧ key.publisher = f.publisher ∧
    f.validateWith key = .ok ()

omit [Suite] in
/-- A withdrawal as it has to be: empty, the last segment, and of some version. -/
structure Fragment.Withdraws (f : Fragment) : Prop where
  isGone_eq : f.isGone = true
  content_eq : f.content = []
  final_eq : f.info.final = some Segment.first
  hasVersion_eq : f.name.hasVersion = true

/-- The segments of the version that a first one begins, up to the last that it declares. The others
are named below its versioned name, each with its number, and are of its publisher. -/
structure Assembled (keys : KeyRing) (first : Fragment) (fs : List Fragment) : Prop where
  head?_eq : fs.head? = some first
  length_eq : fs.length = (first.info.final.getD Segment.first).toNat + 1
  name_eq : ∀ (i : UInt64) f, 0 < i → fs[i.toNat]? = some f →
    ∃ versioned, first.name.versioned? = some versioned ∧ f.name = versioned.segmentName i
  publisher_eq : ∀ f ∈ fs, f.publisher = first.publisher
  verified : ∀ f ∈ fs, f.VerifiedBy keys

/-- What may be read of the version that a first fragment begins. -/
structure Unspliced (keys : KeyRing) (first : Fragment) (bytes : Octets) : Prop where
  segment?_eq : first.segment? = some Segment.first
  verified : first.VerifiedBy keys
  bytes_eq : first.Withdraws ∧ bytes = [] ∨
    first.isGone = false ∧ ∃ fs, Assembled keys first fs ∧ bytes = fs.flatMap Fragment.content

/-! ### Validity -/

variable {s : Supply} {keys : KeyRing} {f first : Fragment}

/-- A valid tombstone with the number of a first segment is all there is of its version. -/
theorem Fragment.VerifiedBy.withdraws (h : f.VerifiedBy keys) (hg : f.isGone = true)
    (hsegment : f.segment? = some Segment.first) : f.Withdraws := by
  obtain ⟨key, -, -, hvalid⟩ := h
  have hstructure := (validateStructure_of_validateWith hvalid).1
  obtain ⟨hcontent, hfinal, hversion⟩ :=
    checkGone_eq_ok_iff.mp (checkGone_of_validateStructure hstructure hg)
  refine ⟨hg, hcontent, ?_, hversion⟩
  rw [isFinal, hsegment] at hfinal
  cases hlast : f.info.final with
  | none =>
    rw [hlast] at hfinal
    cases hfinal
  | some n =>
    rw [hlast] at hfinal
    exact congrArg some (beq_iff_eq.mp hfinal).symm

/-- What passes verification was validated with the reader's key for it. -/
theorem Supply.verifiedBy_of_verify (hverify : s.config.verify = true)
    (h : s.verify keys f = .ok ()) : f.VerifiedBy keys := by
  unfold Supply.verify at h
  rw [if_pos hverify] at h
  obtain ⟨key, hkey, h⟩ := ok_of_bind h
  have hvalid := ok_of_mapError h
  exact ⟨key, hkey, (Fragment.validateStructure_of_validateWith hvalid).2, hvalid⟩

/-! ### Collecting -/

namespace Collection

variable {c d : Collection} {count : Nat}

/-- What has been collected so far belongs to the version that the first fragment begins. -/
structure Intact (keys : KeyRing) (c : Collection) : Prop where
  segment?_eq : c.first.segment? = some Segment.first
  verified : c.first.VerifiedBy keys
  final_eq : c.final = (c.first.info.final.getD Segment.first).toNat
  length_le : c.rest.length ≤ c.final
  versioned_eq : c.final ≠ 0 → c.first.isGone = false ∧ c.first.name.versioned? = some c.versioned
  rest_eq : ∀ k f, c.rest[k]? = some f →
    f.name = c.versioned.segmentName (UInt64.ofNat (k + 1)) ∧ f.publisher = c.first.publisher ∧
      f.VerifiedBy keys

/-- One more segment is read, of what is served at that moment. -/
inductive Reads (keys : KeyRing) : Collection → Collection → Prop where
  | segment {c : Collection} {f : Fragment} (s : Supply) (verifies : s.config.verify = true)
      (lacking : c.missing ≠ 0) (found : s.get c.interest = .ok (some f))
      (verified : s.verify keys f = .ok ()) : Reads keys c (c.add f)

theorem intact_of_start (hverify : s.config.verify = true) (h : start s keys first = .ok c) :
    c.Intact keys ∧ c.first = first := by
  obtain ⟨hv, hsegment, hc⟩ := start_cases h
  have hverified := Supply.verifiedBy_of_verify hverify hv
  rcases hc with ⟨hone, rfl⟩ | ⟨hdata, versioned, hversioned, rfl⟩
  · have hfinal : first.info.final.getD Segment.first = Segment.first := by
      rcases hone with hg | hz
      · rw [(hverified.withdraws hg hsegment).final_eq]
        rfl
      · exact hz
    -- So a tombstone declares what is read of it: nothing behind the first segment.
    refine ⟨⟨hsegment, hverified, ?_, Nat.zero_le _, fun h => absurd rfl h, nofun⟩, rfl⟩
    show 0 = (first.info.final.getD Segment.first).toNat
    rw [hfinal]
    rfl
  · exact ⟨⟨hsegment, hverified, rfl, Nat.zero_le _, fun _ => ⟨hdata, hversioned⟩, nofun⟩, rfl⟩

/-- The next segment is found under its exact name, of the publisher of the first. -/
theorem Intact.add (h : c.Intact keys) (hreads : Reads keys c d) :
    d.Intact keys ∧ d.first = c.first := by
  obtain @⟨f, s, hverify, hlacking, hfound, hverified⟩ := hreads
  obtain ⟨hname, hpublisher⟩ := Interest.accepts_exact_iff.mp (Supply.accepts_of_get hfound)
  have hroom : c.rest.length < c.final := by
    unfold missing at hlacking
    omega
  refine ⟨⟨h.segment?_eq, h.verified, h.final_eq, ?_, h.versioned_eq, fun k g hg => ?_⟩, rfl⟩
  · show (c.rest ++ [f]).length ≤ c.final
    rw [List.length_append]
    exact hroom
  · have hg : (c.rest ++ [f])[k]? = some g := hg
    -- The segment that is read has the number of its place behind the first.
    rcases Nat.lt_trichotomy k c.rest.length with hlt | rfl | hgt
    · rw [List.getElem?_append_left hlt] at hg
      exact h.rest_eq k g hg
    · obtain rfl : f = g := by simpa using hg
      exact ⟨hname, hpublisher _ rfl, Supply.verifiedBy_of_verify hverify hverified⟩
    · rw [List.getElem?_eq_none (by simp; omega)] at hg
      cases hg

theorem Intact.collected (h : c.Intact keys) (hreads : Relation.ReflTransGen (Reads keys) c d) :
    d.Intact keys ∧ d.first = c.first := by
  induction hreads with
  | refl => exact ⟨h, rfl⟩
  | tail _ hstep ih =>
    obtain ⟨hd, hfirst⟩ := ih.1.add hstep
    exact ⟨hd, hfirst.trans ih.2⟩

/-- Reading further segments reads one after the other. -/
theorem reads_of_readNext (hverify : s.config.verify = true) (hcount : count ≤ c.missing)
    (h : readNext s keys count c = .ok d) : Relation.ReflTransGen (Reads keys) c d := by
  induction count generalizing c with
  | zero =>
    cases h
    exact .refl
  | succ count ih =>
    rcases readNext_cases h with ⟨rfl, _⟩ | ⟨f, hget, hv, hrest⟩
    · exact .refl
    · -- Never more is read than is missing, so there is a place for what was found.
      have hleft : count ≤ (c.add f).missing := by
        show count ≤ c.final - (c.rest ++ [f]).length
        rw [List.length_append]
        unfold missing at hcount
        simp only [List.length_singleton]
        omega
      exact .head (.segment s hverify (by omega) hget hv) (ih hleft hrest)

/-- A collection in which nothing is missing is the whole version. -/
theorem Intact.unspliced (h : c.Intact keys) (hall : c.missing = 0) :
    Unspliced keys c.first c.payload := by
  refine ⟨h.segment?_eq, h.verified, ?_⟩
  unfold payload
  cases hg : c.first.isGone with
  | true => exact .inl ⟨h.verified.withdraws hg h.segment?_eq, rfl⟩
  | false =>
    have hlength : c.rest.length = c.final := by
      have hle := h.length_le
      unfold missing at hall
      omega
    have hrest : ∀ f ∈ c.rest, f.publisher = c.first.publisher ∧ f.VerifiedBy keys := by
      intro f hf
      obtain ⟨k, hk⟩ := List.mem_iff_getElem?.mp hf
      exact (h.rest_eq k f hk).2
    -- Nothing is missing, so the segments are those up to the final one, each under its number.
    refine .inr ⟨rfl, c.first :: c.rest, ⟨rfl, ?_, fun i f hi hf => ?_, ?_, ?_⟩, rfl⟩
    · rw [List.length_cons, hlength, h.final_eq]
    · obtain ⟨k, hk⟩ : ∃ k, i.toNat = k + 1 := Nat.exists_eq_add_one.mpr hi
      rw [hk, List.getElem?_cons_succ] at hf
      obtain ⟨hlt, -⟩ := List.getElem?_eq_some_iff.mp hf
      have hname := (h.rest_eq k f hf).1
      rw [← hk, UInt64.ofNat_toNat] at hname
      exact ⟨c.versioned, (h.versioned_eq (by omega)).2, hname⟩
    · intro f hf
      rcases List.mem_cons.mp hf with rfl | hf
      · rfl
      · exact (hrest f hf).1
    · intro f hf
      rcases List.mem_cons.mp hf with rfl | hf
      · exact h.verified
      · exact (hrest f hf).2

end Collection

/-! ### Reading to the end -/

/-- Where fragments are verified, reading to the end what a first fragment begins returns nothing
that was spliced, whatever is served. It is the same if what is served changes before every segment
that is read. -/
theorem unspliced_of_readAll (hverify : s.config.verify = true) :
    (∀ bytes, s.readAll keys first = .ok bytes → Unspliced keys first bytes) ∧
      ∀ c d, Collection.start s keys first = .ok c →
        Relation.ReflTransGen (Collection.Reads keys) c d → d.missing = 0 →
        Unspliced keys first d.payload := by
  have hcourse : ∀ c d, Collection.start s keys first = .ok c →
      Relation.ReflTransGen (Collection.Reads keys) c d → d.missing = 0 →
      Unspliced keys first d.payload := by
    intro c d hstart hreads hall
    obtain ⟨hintact, hfirst⟩ := Collection.intact_of_start hverify hstart
    obtain ⟨hintact', hfirst'⟩ := hintact.collected hreads
    rw [← hfirst, ← hfirst']
    exact hintact'.unspliced hall
  refine ⟨fun bytes h => ?_, hcourse⟩
  obtain ⟨c, hstart, h⟩ := ok_of_bind h
  obtain ⟨d, hcollect, h⟩ := ok_of_bind h
  split at h
  · next hall =>
    cases h
    exact hcourse c d hstart (Collection.reads_of_readNext hverify (Nat.le_refl _) hcollect) hall
  · cases h

end

/-! ### Two publishers under one name -/

/-- A segment of an edition of two bytes, by the owner of a key. -/
def half [Suite] (k : Keypair) (i : UInt64) (b : UInt8) : Fragment where
  name := edition.segmentName i
  info := ⟨k.publisher, 0, .data, some 1, .key k.publicKey, none⟩
  content := [b]
  signature := ⟨.replicate 64 0⟩

def stranger : Keypair := ⟨.replicate 32 8⟩

/-- What is found first under the name of the second segment is a stranger's. The scribe's own one
is in a store. -/
def mixedHalves [Suite] : Supply :=
  (Supply.publish
    { stores :=
        [.memory ⟨NameMap.empty.insertNew (edition.segmentName 1) (half scribe 1 2), .empty⟩]
      attached := [⟨0⟩] }
    [half scribe 0 1, half stranger 1 9]).2

/-- The stranger's segment is not read. -/
theorem unspliced_of_readAll_twoPublishers :
    letI : Suite := { Suite.standard with verify := fun _ _ _ => .ok () }
    mixedHalves.config.verify = true ∧
      mixedHalves.readAll (.ofKeypair stranger) (half scribe 0 1) = .ok [1, 2] ∧
      Unspliced (.ofKeypair stranger) (half scribe 0 1) [1, 2] := by
  let _ : Suite := { Suite.standard with verify := fun _ _ _ => .ok () }
  have hread : mixedHalves.readAll (.ofKeypair stranger) (half scribe 0 1) = .ok [1, 2] := by
    decide +kernel
  exact ⟨rfl, hread, (unspliced_of_readAll rfl).1 _ hread⟩

end NamedContent
