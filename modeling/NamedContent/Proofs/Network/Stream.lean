import Mathlib.Data.List.Nodup
import NamedContent.Network.Stream
import NamedContent.Proofs.Name.Profile
import NamedContent.Proofs.Store.Holding

/-!
# The fragments of a stream

The segments of a payload are numbered from zero on, and as long as the payload's length fits into
64 bits no two of them have one name (`distinct_of_sign`).
-/

namespace NamedContent

/-! ### Pieces -/

namespace Octets

theorem length_pieces_le {α : Type} (size : Nat) (xs : List α) (hs : 0 < size) :
    (pieces size xs).length ≤ xs.length := by
  rw [pieces, List.length_map, List.length_range]
  cases hx : xs.length with
  | zero =>
    rw [Nat.zero_add, Nat.div_eq_of_lt (by omega)]
  | succ k =>
    rw [Nat.div_le_iff_le_mul_add_pred hs]
    have : k + 1 ≤ size * (k + 1) := Nat.le_mul_of_pos_left _ hs
    omega

/-- The pieces of a list make it up. -/
theorem flatten_pieces {α : Type} {size : Nat} (hs : 0 < size) (xs : List α) :
    (pieces size xs).flatten = xs := by
  have htake : ∀ k, ((List.range k).map fun i => (xs.drop (i * size)).take size).flatten =
      xs.take (k * size) := by
    intro k
    induction k with
    | zero => simp
    | succ k ih =>
      rw [List.range_succ, List.map_append, List.flatten_append, ih, List.map_singleton,
        List.flatten_singleton, Nat.succ_mul, List.take_add]
  have hcover : xs.length ≤ (xs.length + size - 1) / size * size := by
    have hdiv := Nat.div_add_mod (xs.length + size - 1) size
    have hmod := Nat.mod_lt (xs.length + size - 1) hs
    rw [Nat.mul_comm] at hdiv
    omega
  rw [pieces, htake, List.take_of_length_le hcover]

theorem length_of_mem_pieces {α : Type} {size : Nat} {xs piece : List α}
    (h : piece ∈ pieces size xs) : piece.length ≤ size ∧ piece.length ≤ xs.length := by
  obtain ⟨i, _, rfl⟩ := List.mem_map.mp h
  rw [List.length_take, List.length_drop]
  omega

end Octets

@[simp] theorem KeyRing.keypair?_ofKeypair [Suite] (k : Keypair) :
    (KeyRing.ofKeypair k).keypair? k.publisher = some k := by
  show List.lookup k.publisher [(k.publisher, k)] = some k
  rw [List.lookup_cons, beq_self_eq_true]

namespace StreamWrite

theorem length_segments_lt {size : Nat} (hs : 0 < size) {payload : Octets}
    (h : payload.length < 2 ^ 64) : (segments size payload).length < 2 ^ 64 := by
  unfold segments
  split
  · simp
  · exact Nat.lt_of_le_of_lt (Octets.length_pieces_le size _ hs) h

theorem segments_ne_nil {size : Nat} (hs : 0 < size) (payload : Octets) :
    segments size payload ≠ [] := by
  unfold segments
  split
  · exact nofun
  · next hne =>
    intro hnil
    have hflat := Octets.flatten_pieces hs payload
    rw [hnil] at hflat
    exact hne hflat.symm

/-- The segments of a payload make it up. -/
theorem flatten_segments {size : Nat} (hs : 0 < size) (payload : Octets) :
    (segments size payload).flatten = payload := by
  unfold segments
  split
  · rfl
  · exact Octets.flatten_pieces hs _

theorem length_of_mem_segments {size : Nat} {payload segment : Octets}
    (h : segment ∈ segments size payload) :
    segment.length ≤ size ∧ segment.length ≤ payload.length := by
  unfold segments at h
  split at h
  · rw [List.mem_singleton.mp h]
    exact ⟨Nat.zero_le _, Nat.le_refl _⟩
  · exact Octets.length_of_mem_pieces h

/-! ### Names of segments -/

theorem ofNat64_inj {i j : Nat} (hi : i < 2 ^ 64) (hj : j < 2 ^ 64)
    (h : UInt64.ofNat i = UInt64.ofNat j) : i = j := by
  have hn := congrArg UInt64.toNat h
  rw [UInt64.toNat_ofNat', UInt64.toNat_ofNat', Nat.mod_eq_of_lt hi, Nat.mod_eq_of_lt hj] at hn
  exact hn

theorem segmentName_injective {n : Name} {i j : Nat} (hi : i < 2 ^ 64) (hj : j < 2 ^ 64)
    (h : n.segmentName (UInt64.ofNat i) = n.segmentName (UInt64.ofNat j)) : i = j :=
  ofNat64_inj hi hj (Segment.toComponent_injective (Name.append_inj h).2)

/-! ### Signed segments -/

/-- The contents of the segments of what is to be written. -/
def contents (w : StreamWrite) (config : NetworkConfig) : List Octets :=
  segments (max config.segmentSize 1) w.payload

/-- The draft of the segment with a number. -/
def draft (w : StreamWrite) (config : NetworkConfig) (locator : KeyLocator) (i : Nat)
    (content : Octets) : Draft where
  name := w.name.segmentName (UInt64.ofNat i)
  contentType := w.contentType
  final := some (UInt64.ofNat ((w.contents config).length - 1))
  locator := some locator
  freshness := config.freshness
  content

theorem getElem?_drafts (w : StreamWrite) (config : NetworkConfig) (locator : KeyLocator)
    (i : Nat) :
    (w.drafts config locator)[i]? = (w.contents config)[i]?.map (w.draft config locator i) := by
  rw [drafts, List.getElem?_map, List.getElem?_zipIdx, contents]
  cases (segments (max config.segmentSize 1) w.payload)[i]? with
  | none => rfl
  | some content =>
    rw [Option.map_some, Option.map_some, Nat.zero_add]
    rfl

/-- All lengths in what is to be written fit. -/
structure Sized (w : StreamWrite) : Prop where
  count_lt : w.name.components.length + 1 < 2 ^ 64
  short : w.name.Short
  payload_lt : w.payload.length < 2 ^ 64
  locator : ∀ n p, w.locator = some (.named n p) → n.Sized

variable [Suite]

/-- What signing a stream produces: the signed drafts of the segments. -/
theorem fragments_of_sign {w : StreamWrite} {keys : KeyRing} {config : NetworkConfig}
    {clock : UInt64} {stream : SignedStream} (h : w.sign keys config clock = .ok stream) :
    ∃ keypair, keys.keypair? stream.publisher = some keypair ∧
      stream.publisher = w.publisher.getD keys.default ∧
      stream.locator = w.locator.getD (.key keypair.publicKey) ∧
      stream.fragments = (w.drafts config stream.locator).map (·.sign clock keypair) := by
  unfold sign at h
  dsimp only at h
  split at h
  · cases h
  · next keypair hk =>
    cases h
    exact ⟨keypair, hk, rfl, rfl, rfl⟩

/-- Whoever holds the keypair of a publisher can sign as that publisher. -/
theorem sign_eq {w : StreamWrite} {keys : KeyRing} {k : Keypair}
    (hk : keys.keypair? (w.publisher.getD keys.default) = some k) (config : NetworkConfig)
    (clock : UInt64) :
    w.sign keys config clock =
      .ok ⟨(w.drafts config (w.locator.getD (.key k.publicKey))).map (·.sign clock k),
        w.publisher.getD keys.default, w.locator.getD (.key k.publicKey)⟩ := by
  unfold sign
  simp only [hk]

/-- The fragments are the signed segments of what is to be written. -/
structure SignedBy (w : StreamWrite) (config : NetworkConfig) (clock : UInt64)
    (locator : KeyLocator) (k : Keypair) (fs : List Fragment) : Prop where
  getElem?_eq : ∀ i : Nat, fs[i]? =
    (w.contents config)[i]?.map fun content => (w.draft config locator i content).sign clock k

theorem signedBy_drafts (w : StreamWrite) (config : NetworkConfig) (clock : UInt64)
    (locator : KeyLocator) (k : Keypair) :
    w.SignedBy config clock locator k ((w.drafts config locator).map (·.sign clock k)) where
  getElem?_eq i := by
    rw [List.getElem?_map, getElem?_drafts, Option.map_map]
    rfl

theorem signedBy_of_sign {w : StreamWrite} {keys : KeyRing} {config : NetworkConfig}
    {clock : UInt64} {stream : SignedStream} (h : w.sign keys config clock = .ok stream) :
    ∃ keypair, w.SignedBy config clock stream.locator keypair stream.fragments := by
  obtain ⟨keypair, _, _, _, hfs⟩ := fragments_of_sign h
  rw [hfs]
  exact ⟨keypair, w.signedBy_drafts config clock stream.locator keypair⟩

namespace SignedBy

variable {w : StreamWrite} {config : NetworkConfig} {clock : UInt64} {locator : KeyLocator}
  {k : Keypair} {fs : List Fragment} {f : Fragment} {i : Nat}

theorem eq_of_getElem? (h : w.SignedBy config clock locator k fs) (hf : fs[i]? = some f) :
    ∃ content ∈ w.contents config, f = (w.draft config locator i content).sign clock k := by
  rw [h.getElem?_eq] at hf
  obtain ⟨content, hc, hf⟩ := Option.map_eq_some_iff.mp hf
  exact ⟨content, List.mem_of_getElem? hc, hf.symm⟩

theorem exists_of_mem (h : w.SignedBy config clock locator k fs) (hf : f ∈ fs) :
    ∃ (i : Nat), ∃ content ∈ w.contents config,
      f = (w.draft config locator i content).sign clock k := by
  obtain ⟨i, hi⟩ := List.mem_iff_getElem?.mp hf
  exact ⟨i, h.eq_of_getElem? hi⟩

theorem map_content (h : w.SignedBy config clock locator k fs) :
    fs.map Fragment.content = w.contents config := by
  apply List.ext_getElem?
  intro i
  rw [List.getElem?_map, h.getElem?_eq]
  cases (w.contents config)[i]? <;> rfl

theorem length_eq (h : w.SignedBy config clock locator k fs) :
    fs.length = (w.contents config).length := by
  rw [← h.map_content, List.length_map]

theorem locator_eq (h : w.SignedBy config clock locator k fs) :
    ∀ f ∈ fs, f.info.locator = locator := by
  intro f hf
  obtain ⟨i, content, _, rfl⟩ := h.exists_of_mem hf
  rfl

theorem contentType_eq (h : w.SignedBy config clock locator k fs) :
    ∀ f ∈ fs, f.info.contentType = w.contentType := by
  intro f hf
  obtain ⟨i, content, _, rfl⟩ := h.exists_of_mem hf
  rfl

end SignedBy

theorem distinct_of_sign {w : StreamWrite} {keys : KeyRing} {config : NetworkConfig}
    {clock : UInt64} {stream : SignedStream} (h : w.sign keys config clock = .ok stream)
    (hw : w.payload.length < 2 ^ 64) : DistinctNames stream.fragments := by
  obtain ⟨keypair, _, _, _, hf⟩ := fragments_of_sign h
  have hsize : 0 < max config.segmentSize 1 := by omega
  have hlen := length_segments_lt hsize hw
  have hnames : stream.fragments.map Fragment.name =
      ((segments (max config.segmentSize 1) w.payload).zipIdx.map Prod.snd).map fun i =>
        w.name.segmentName (UInt64.ofNat i) := by
    rw [hf, drafts, List.map_map, List.map_map, List.map_map]
    rfl
  rw [DistinctNames, hnames, List.zipIdx_map_snd]
  refine List.Nodup.map_on ?_ List.nodup_range'
  intro i hi j hj hij
  rw [List.mem_range'_1] at hi hj
  exact segmentName_injective (by omega) (by omega) hij

/-- Signed segments of a write whose lengths fit can be stored. -/
theorem SignedBy.storable {w : StreamWrite} {config : NetworkConfig} {clock : UInt64}
    {locator : KeyLocator} {k : Keypair} {fs : List Fragment}
    (h : w.SignedBy config clock locator k fs) (hw : w.Sized)
    (hl : ∀ n p, locator = .named n p → n.Sized) : ∀ f ∈ fs, f.Storable := by
  intro f hmem
  obtain ⟨i, content, hc, rfl⟩ := h.exists_of_mem hmem
  have hcontent : content.length < 2 ^ 64 :=
    Nat.lt_of_le_of_lt (length_of_mem_segments hc).2 hw.payload_lt
  have hshort : (w.name.segmentName (UInt64.ofNat i)).Short :=
    hw.short.append (Component.short_ofMarked _ _)
  refine ⟨⟨⟨?_, ?_⟩, hl, hcontent⟩, hshort⟩
  · show (w.name.components ++ [_]).length < 2 ^ 64
    rw [List.length_append]
    exact hw.count_lt
  · intro c hc
    exact Nat.lt_trans (hshort c hc) (by decide)

theorem storable_of_sign {w : StreamWrite} {keys : KeyRing} {config : NetworkConfig}
    {clock : UInt64} {stream : SignedStream} (h : w.sign keys config clock = .ok stream)
    (hw : w.Sized) : ∀ f ∈ stream.fragments, f.Storable := by
  obtain ⟨_, _, _, hl, _⟩ := fragments_of_sign h
  obtain ⟨keypair, hsigned⟩ := signedBy_of_sign h
  refine hsigned.storable hw fun n p hloc => ?_
  rw [hl] at hloc
  cases hwl : w.locator with
  | none => rw [hwl] at hloc; cases hloc
  | some l =>
    rw [hwl, Option.getD_some] at hloc
    exact hw.locator n p (by rw [hwl, hloc])

end StreamWrite
end NamedContent
