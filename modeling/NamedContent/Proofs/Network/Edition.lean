import NamedContent.Network.Reader
import NamedContent.Proofs.Network.Stream

/-!
# Editions

An edition is a complete version: the segments of a payload, or a tombstone, all signed with one
key. What signing produces is an edition of what was to be signed (`edition_of_sign`,
`edition_of_tombstone`). Every fragment of an edition passes the check with its key
(`Edition.validateWith_eq`), and two editions of one name that have a fragment in common, and
otherwise no name with different fragments, are the same (`Edition.eq_of_agree`).
-/

namespace NamedContent

variable [Suite]

/-- What an identity signed passes the check with its public key. -/
def Suite.VerifiesSigned : Prop :=
  ∀ (k : Keypair) (message : Octets), k.publicKey.verify message (k.sign message) = .ok ()

/-- The fragments of a complete version, in the order of their segments. -/
structure Edition (n : Name) (key : PublicKey) (fs : List Fragment) : Prop where
  length_pos : 0 < fs.length
  length_lt : fs.length < 2 ^ 64
  name_eq : ∀ i f, fs[i]? = some f → f.name = n.segmentName (UInt64.ofNat i)
  final_eq : ∀ f ∈ fs, f.info.final = some (UInt64.ofNat (fs.length - 1))
  publisher_eq : ∀ f ∈ fs, f.publisher = key.publisher
  locator_eq : ∀ f ∈ fs, ∀ g ∈ fs, f.info.locator = g.info.locator
  verified : ∀ f ∈ fs, key.verify f.message f.signature = .ok ()
  /-- A tombstone is empty and has no other segments. -/
  alone : ∀ f ∈ fs, f.isGone = true → fs.length = 1 ∧ f.content = []

/-- The payload of a version with these fragments; a tombstone has none. -/
def payloadOf (fs : List Fragment) : Option Octets :=
  if fs.any Fragment.isGone then none else some (fs.flatMap Fragment.content)

namespace Edition

variable {n : Name} {key key' : PublicKey} {fs gs : List Fragment} {f : Fragment}

/-! ### Names -/

theorem getElem?_of_mem (hf : f ∈ fs) (h : Edition n key fs) :
    ∃ i, i < fs.length ∧ fs[i]? = some f ∧ f.name = n.segmentName (UInt64.ofNat i) := by
  obtain ⟨i, hi⟩ := List.mem_iff_getElem?.mp hf
  obtain ⟨hlt, _⟩ := List.getElem?_eq_some_iff.mp hi
  exact ⟨i, hlt, hi, h.name_eq i f hi⟩

/-- A fragment is found by the number in its name. -/
theorem getElem?_of_name (h : Edition n key fs) (hf : f ∈ fs) {i : Nat} (hi : i < 2 ^ 64)
    (hname : f.name = n.segmentName (UInt64.ofNat i)) : fs[i]? = some f := by
  obtain ⟨j, hlt, hj, hjn⟩ := h.getElem?_of_mem hf
  have hlen := h.length_lt
  have hij : i = j :=
    StreamWrite.segmentName_injective hi (by omega) (hname.symm.trans hjn)
  rw [hij]
  exact hj

/-- The number of the last segment tells how many there are. -/
theorem length_eq_of_mem (h : Edition n key fs) (h' : Edition n key' gs) (hf : f ∈ fs)
    (hg : f ∈ gs) : fs.length = gs.length := by
  have hfinal := (h.final_eq f hf).symm.trans (h'.final_eq f hg)
  have := h.length_pos
  have := h.length_lt
  have := h'.length_pos
  have := h'.length_lt
  have hlast : fs.length - 1 = gs.length - 1 :=
    StreamWrite.ofNat64_inj (by omega) (by omega) (Option.some.inj hfinal)
  omega

/-- Editions with a common fragment are the same if no name tells them apart. -/
theorem eq_of_agree (h : Edition n key fs) (h' : Edition n key' gs) (hf : f ∈ fs) (hg : f ∈ gs)
    (hagree : ∀ a ∈ fs, ∀ b ∈ gs, a.name = b.name → a = b) : fs = gs := by
  have hlen := h.length_eq_of_mem h' hf hg
  apply List.ext_getElem?
  intro i
  by_cases hi : i < fs.length
  · have ha := List.getElem?_eq_getElem hi
    have hb := List.getElem?_eq_getElem (hlen ▸ hi)
    have hname := (h.name_eq i _ ha).trans (h'.name_eq i _ hb).symm
    rw [ha, hb, hagree _ (List.getElem_mem hi) _ (List.getElem_mem _) hname]
  · rw [List.getElem?_eq_none (by omega), List.getElem?_eq_none (by omega)]

/-! ### Checking -/

theorem checkSegment_eq (h : Edition n key fs) (hf : f ∈ fs) : f.checkSegment = .ok () := by
  obtain ⟨i, hi, _, hname⟩ := h.getElem?_of_mem hf
  have hlen := h.length_lt
  have hle : ¬ UInt64.ofNat (fs.length - 1) < UInt64.ofNat i := by
    rw [UInt64.lt_iff_toNat_lt, UInt64.toNat_ofNat', UInt64.toNat_ofNat',
      Nat.mod_eq_of_lt (by omega), Nat.mod_eq_of_lt (by omega)]
    omega
  unfold Fragment.checkSegment Fragment.segment?
  rw [hname, Name.segment?_segmentName, h.final_eq f hf]
  exact if_neg hle

/-- A tombstone stands alone under the number of the first segment. -/
theorem name_of_isGone (h : Edition n key fs) (hf : f ∈ fs) (hg : f.isGone = true) :
    fs = [f] ∧ f.name = n.firstSegmentName := by
  obtain ⟨hlen, _⟩ := h.alone f hf hg
  obtain ⟨g, hfs⟩ := List.length_eq_one_iff.mp hlen
  rw [hfs, List.mem_singleton] at hf
  rw [hfs, hf]
  refine ⟨rfl, ?_⟩
  have hzero : fs[0]? = some g := by rw [hfs]; rfl
  exact h.name_eq 0 g hzero

theorem checkGone_eq {b : Name} {v : Version} (h : Edition (b.append v.toComponent) key fs)
    (hf : f ∈ fs) (hg : f.isGone = true) : f.checkGone = .ok () := by
  obtain ⟨hlen, hempty⟩ := h.alone f hf hg
  obtain ⟨_, hname⟩ := h.name_of_isGone hf hg
  have hfinal : f.isFinal = true := by
    unfold Fragment.isFinal Fragment.segment?
    rw [hname, Name.firstSegmentName, Name.segment?_segmentName, h.final_eq f hf, hlen]
    rfl
  have hversion : f.name.hasVersion = true := by simp [hname, Name.firstSegmentName]
  unfold Fragment.checkGone
  rw [hempty, hfinal, hversion]
  rfl

theorem validateStructure_eq {b : Name} {v : Version}
    (h : Edition (b.append v.toComponent) key fs) (hf : f ∈ fs) : f.validateStructure = .ok () := by
  unfold Fragment.validateStructure
  rw [h.checkSegment_eq hf]
  cases hg : f.isGone with
  | true => exact h.checkGone_eq hf hg
  | false => rfl

/-- Every fragment passes the check with the key of the edition. -/
theorem validateWith_eq {b : Name} {v : Version} (h : Edition (b.append v.toComponent) key fs)
    (hf : f ∈ fs) : f.validateWith key = .ok () := by
  unfold Fragment.validateWith
  rw [h.validateStructure_eq hf, h.verified f hf, h.publisher_eq f hf]
  simp only [bind, Except.bind, pure, Except.pure, ne_eq, not_true_eq_false, ↓reduceIte]

end Edition

/-! ### What is written -/

namespace StreamWrite

variable {w : StreamWrite} {config : NetworkConfig} {clock : UInt64} {locator : KeyLocator}
  {k : Keypair} {fs : List Fragment}

theorem SignedBy.edition (h : w.SignedBy config clock locator k fs) (hverify : Suite.VerifiesSigned)
    (hlen : w.payload.length < 2 ^ 64) (htype : w.contentType ≠ .gone) :
    Edition w.name k.publicKey fs := by
  have hsize : 0 < max config.segmentSize 1 := by omega
  refine ⟨?_, ?_, ?_, ?_, ?_, ?_, ?_, ?_⟩
  · rw [h.length_eq]
    exact List.length_pos_iff.mpr (segments_ne_nil hsize w.payload)
  · rw [h.length_eq]
    exact length_segments_lt hsize hlen
  · intro i f hf
    obtain ⟨content, _, rfl⟩ := h.eq_of_getElem? hf
    rfl
  · intro f hf
    obtain ⟨i, content, _, rfl⟩ := h.exists_of_mem hf
    rw [h.length_eq]
    rfl
  · intro f hf
    obtain ⟨i, content, _, rfl⟩ := h.exists_of_mem hf
    rfl
  · -- Both are compared to the stream's locator: comparing the drafts would unfold their names.
    intro f hf g hg
    rw [h.locator_eq f hf, h.locator_eq g hg]
  · intro f hf
    obtain ⟨i, content, _, rfl⟩ := h.exists_of_mem hf
    exact hverify k _
  · intro f hf hg
    exact absurd ((h.contentType_eq f hf).symm.trans (beq_iff_eq.mp hg)) htype

theorem SignedBy.payloadOf_eq (h : w.SignedBy config clock locator k fs)
    (htype : w.contentType ≠ .gone) : payloadOf fs = some w.payload := by
  have hany : fs.any Fragment.isGone = false := by
    rw [List.any_eq_false]
    intro f hf hg
    exact htype ((h.contentType_eq f hf).symm.trans (beq_iff_eq.mp hg))
  have hsize : 0 < max config.segmentSize 1 := by omega
  rw [payloadOf, if_neg (by simp [hany]), List.flatMap_def, h.map_content, contents,
    flatten_segments hsize]

end StreamWrite

/-- Signing a payload makes an edition that holds it. -/
theorem edition_of_sign (hverify : Suite.VerifiesSigned) {w : StreamWrite} {keys : KeyRing}
    {config : NetworkConfig} {clock : UInt64} {stream : SignedStream}
    (h : w.sign keys config clock = .ok stream) (hlen : w.payload.length < 2 ^ 64)
    (htype : w.contentType ≠ .gone) :
    ∃ key, Edition w.name key stream.fragments ∧
      payloadOf stream.fragments = some w.payload := by
  obtain ⟨keypair, hsigned⟩ := StreamWrite.signedBy_of_sign h
  exact ⟨keypair.publicKey, hsigned.edition hverify hlen htype, hsigned.payloadOf_eq htype⟩

/-- A signed tombstone is an edition that holds nothing. -/
theorem edition_of_tombstone (hverify : Suite.VerifiesSigned) (n : Name) {d : Draft}
    (hname : d.name = n.firstSegmentName) (htype : d.contentType = .gone)
    (hfinal : d.final = some Segment.first) (hcontent : d.content = []) (clock : UInt64)
    (k : Keypair) :
    Edition n k.publicKey [d.sign clock k] ∧ payloadOf [d.sign clock k] = none := by
  have hgone : (d.sign clock k).isGone = true := beq_iff_eq.mpr htype
  refine ⟨⟨Nat.one_pos, by simp, ?_, ?_, ?_, ?_, ?_, ?_⟩, ?_⟩
  · intro i f hf
    cases i with
    | zero =>
      cases hf
      exact hname
    | succ i => cases hf
  · intro f hf
    rw [List.mem_singleton.mp hf]
    exact hfinal
  · intro f hf
    rw [List.mem_singleton.mp hf]
    rfl
  · intro f hf g hg
    rw [List.mem_singleton.mp hf, List.mem_singleton.mp hg]
  · intro f hf
    rw [List.mem_singleton.mp hf]
    exact hverify k _
  · intro f hf _
    rw [List.mem_singleton.mp hf]
    exact ⟨rfl, hcontent⟩
  · rw [payloadOf, List.any_cons, hgone]
    rfl

end NamedContent
