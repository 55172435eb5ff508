import Mathlib.Algebra.Order.Floor.Div
import NamedContent.Proofs.Network.Collecting
import NamedContent.Proofs.Network.Latest
import NamedContent.Suite.Standard

/-!
# Writing a payload and reading it back

A payload is cut into segments of the configured size, the last of which may be shorter; an empty
payload is one empty segment (`length_segments`). The signed segments are numbered from zero, in the
order of their names, and make up the payload. Wherever they are found under their names, and the
key that their locator stands for is known, the payload is read from the first of them
(`readAll_of_sign`).
-/

namespace NamedContent

/-! ### Locators -/

/-- A reader finds the key: it is in the locator, or the reader trusts it for its publisher. -/
def KeyLocator.Resolves [Suite] (l : KeyLocator) (reader : KeyRing) (key : PublicKey) : Prop :=
  match l with
  | .key embedded => embedded = key
  | .named _ _ => reader.publicKey? key.publisher = some key

@[simp] theorem KeyRing.publicKey?_trust [Suite] (r : KeyRing) (k : PublicKey) :
    (r.trust k).publicKey? k.publisher = some k := by
  show List.lookup k.publisher ((k.publisher, k) :: r.trusted) = some k
  rw [List.lookup_cons, beq_self_eq_true]

namespace Supply

variable [Suite] {f : Fragment} {reader : KeyRing} {key : PublicKey}

theorem verificationKey_of_resolves (h : f.info.locator.Resolves reader key)
    (hp : f.publisher = key.publisher) : verificationKey reader f = .ok key := by
  unfold KeyLocator.Resolves at h
  unfold verificationKey
  cases hl : f.info.locator with
  | key embedded =>
    rw [hl] at h
    exact congrArg Except.ok h
  | named n p =>
    rw [hl] at h
    dsimp only at h ⊢
    rw [hp, h]

end Supply

namespace StreamWrite

section

/-! ### How many segments there are -/

theorem segments_of_ne_nil {payload : Octets} (h : payload ≠ []) (size : Nat) :
    segments size payload = Octets.pieces size payload := by
  unfold segments
  split
  · exact absurd rfl h
  · rfl

theorem length_segments {size : Nat} (hs : 0 < size) (payload : Octets) :
    (segments size payload).length = max 1 (payload.length ⌈/⌉ size) := by
  by_cases hp : payload = []
  · -- Nothing at all is still one segment, where the quotient is zero.
    rw [hp, List.length_nil, zero_ceilDiv]
    rfl
  · have hpieces : (segments size payload).length = payload.length ⌈/⌉ size := by
      rw [segments_of_ne_nil hp, Octets.pieces, List.length_map, List.length_range,
        Nat.ceilDiv_eq_add_pred_div]
    have hpos := List.length_pos_iff.mpr (segments_ne_nil hs payload)
    rw [hpieces] at hpos ⊢
    exact (max_eq_right hpos).symm

variable [Suite] {w : StreamWrite} {b : Name} {v : Version} {writer reader : KeyRing} {k : Keypair}
  {config : NetworkConfig} {clock : UInt64} {locator : KeyLocator} {fs : List Fragment}

/-! ### What is signed -/

/-- The fragments are the segments of what is to be written, each of at most a size. -/
structure Segmented (w : StreamWrite) (size : Nat) (fs : List Fragment) : Prop where
  length_eq : fs.length = max 1 (w.payload.length ⌈/⌉ max 1 size)
  short : ∀ f ∈ fs, f.content.length ≤ max 1 size
  isData : ∀ f ∈ fs, f.info.contentType = .data
  /-- They are numbered from zero. -/
  segment_eq : ∀ i f, fs[i]? = some f →
    f.name = w.name.segmentName (UInt64.ofNat i) ∧ f.segment?.map UInt64.toNat = some i
  ascending : fs.Pairwise fun f g => compare f.name g.name = .lt
  /-- Each of them declares the number of the last one. -/
  final_eq : ∀ f ∈ fs, f.info.final.map UInt64.toNat = some (fs.length - 1)
  wellFormed : ∀ f ∈ fs, f.validateStructure = .ok ()
  content_eq : fs.flatMap Fragment.content = w.payload

theorem SignedBy.segmented (h : w.SignedBy config clock locator k fs)
    (hedition : Edition (b.append v.toComponent) k.publicKey fs)
    (hname : w.name = b.append v.toComponent) (hdata : w.contentType = .data) :
    w.Segmented config.segmentSize fs where
  length_eq := by
    rw [h.length_eq, contents, length_segments (by omega), max_comm config.segmentSize]
  short f hf := by
    have hmem : f.content ∈ w.contents config := by
      rw [← h.map_content]
      exact List.mem_map_of_mem hf
    rw [max_comm]
    exact (length_of_mem_segments hmem).1
  isData f hf := (h.contentType_eq f hf).trans hdata
  segment_eq i f hf := by
    have hlt := (List.getElem?_eq_some_iff.mp hf).1
    have hlength := hedition.length_lt
    have hn := hedition.name_eq i f hf
    refine ⟨hname ▸ hn, ?_⟩
    rw [Fragment.segment?, hn, Name.segment?_segmentName, Option.map_some, UInt64.toNat_ofNat',
      Nat.mod_eq_of_lt (by omega)]
  ascending := by
    rw [List.pairwise_iff_getElem]
    intro i j hi hj hlt
    exact hedition.compare_name_eq_lt
      (List.getElem?_eq_getElem hi) (List.getElem?_eq_getElem hj) hlt
  final_eq f hf := by
    have hlength := hedition.length_lt
    rw [hedition.final_eq f hf, Option.map_some, UInt64.toNat_ofNat', Nat.mod_eq_of_lt (by omega)]
  wellFormed f hf := hedition.validateStructure_eq hf
  content_eq := by
    rw [List.flatMap_def, h.map_content, contents, flatten_segments (by omega)]

/-! ### What is read -/

/-- An edition of a payload is read where its fragments are found and its key is known. -/
theorem readAll_of_finds {s : Supply} {key : PublicKey} {f : Fragment} {payload : Octets}
    (h : Edition (b.append v.toComponent) key fs) (hpayload : payloadOf fs = some payload)
    (hfinds : ∀ f ∈ fs, s.Finds f) (hresolves : ∀ f ∈ fs, f.info.locator.Resolves reader key)
    (hf : fs.head? = some f) : s.readAll reader f = .ok payload := by
  have hall : ∀ f ∈ fs, s.verify reader f = .ok () := fun f hf =>
    verify_of_edition h hf fun _ =>
      Supply.verificationKey_of_resolves (hresolves f hf) (h.publisher_eq f hf)
  rw [List.head?_eq_getElem?] at hf
  -- All that was collected is the edition, so the payload collected is the one that it holds.
  obtain ⟨c, d, hstart, hcollect, hmissing, -, hsplit⟩ :=
    Collection.exists_collected h hfinds hall hf
  have hread : d.payload = payload := by
    rw [Collection.payloadOf_of_edition h hsplit] at hpayload
    split at hpayload
    · cases hpayload
    · exact Option.some.inj hpayload
  unfold Supply.readAll
  simp only [hstart, hcollect, hmissing, hread, bind, Except.bind, pure, Except.pure, ↓reduceIte]

/-- Segmenting and reading are inverse. A payload that is written as a version, signed by whoever
holds the keypair, becomes the numbered segments of the configured size, and wherever these are
found under their names and their locator stands for the key, the payload is read from the first of
them. -/
theorem readAll_of_sign (hverify : Suite.VerifiesSigned) (hname : w.name = b.append v.toComponent)
    (hdata : w.contentType = .data) (hlen : w.payload.length < 2 ^ 64)
    (hk : writer.keypair? (w.publisher.getD writer.default) = some k) (config : NetworkConfig)
    (clock : UInt64) :
    ∃ stream, w.sign writer config clock = .ok stream ∧
      w.Segmented config.segmentSize stream.fragments ∧
      ∀ (s : Supply) (reader : KeyRing) (first : Fragment),
        (w.locator.getD (.key k.publicKey)).Resolves reader k.publicKey →
        (∀ f ∈ stream.fragments, s.Finds f) → stream.fragments.head? = some first →
        s.readAll reader first = .ok w.payload := by
  have hdata' : w.contentType ≠ .gone := by
    rw [hdata]
    exact nofun
  have hsigned := w.signedBy_drafts config clock (w.locator.getD (.key k.publicKey)) k
  have hedition := hsigned.edition hverify hlen hdata'
  rw [hname] at hedition
  refine ⟨_, sign_eq hk config clock, hsigned.segmented hedition hname hdata, ?_⟩
  intro s reader first hresolves hfinds hfirst
  refine readAll_of_finds hedition (hsigned.payloadOf_eq hdata') hfinds (fun f hf => ?_) hfirst
  rw [hsigned.locator_eq f hf]
  exact hresolves

end

/-! ### Three hundred segments -/

/-- Three hundred bytes, to be written as version 1 of some content under the name of a key. -/
def longWrite : StreamWrite where
  name := (Name.append ⟨[.ofText "n"]⟩ (Version.toComponent ⟨1⟩))
  payload := .replicate 300 7
  locator := some (.named ⟨[.ofText "key"]⟩ none)

/-- Without a segment size there are as many segments as bytes, and their numbers have one or two
bytes. They are published on an otherwise empty network and read by someone who trusts the key. -/
theorem readAll_of_sign_longWrite :
    letI : Suite := { Suite.standard with verify := fun _ _ _ => .ok () }
    let k : Keypair := ⟨.replicate 32 7⟩
    (KeyRing.ofKeypair k).keypair? k.publisher = some k ∧
    ∃ stream first, longWrite.sign (.ofKeypair k) { segmentSize := 0 } 0 = .ok stream ∧
      stream.fragments.length = 300 ∧ stream.fragments.head? = some first ∧
      (Supply.publish {} stream.fragments).2.readAll
        (KeyRing.trust (.ofKeypair ⟨.replicate 32 8⟩) k.publicKey) first =
          .ok (.replicate 300 7) := by
  let _ : Suite := { Suite.standard with verify := fun _ _ _ => .ok () }
  intro k
  have hk := KeyRing.keypair?_ofKeypair k
  have hcount : longWrite.payload.length = 300 := List.length_replicate
  have hlen : longWrite.payload.length < 2 ^ 64 := by
    rw [hcount]
    decide
  obtain ⟨stream, hsign, hsegmented, hread⟩ := readAll_of_sign (w := longWrite) (v := ⟨1⟩)
    (fun _ _ => rfl) rfl rfl hlen hk { segmentSize := 0 } 0
  have hlength : stream.fragments.length = 300 := by
    rw [hsegmented.length_eq, hcount]
    rfl
  have hdistinct := distinct_of_sign hsign hlen
  have hserves := fun f => Supply.serves_publish_new_iff {} hdistinct (f := f)
  have hfinds : ∀ f ∈ stream.fragments, (Supply.publish {} stream.fragments).2.Finds f := by
    intro f hf
    refine Supply.finds_of_serves (Supply.publish_grows (Supply.sound_new {}) _).1
      ((hserves f).mpr hf) fun g hg hname _ => ?_
    exact hdistinct.eq_of_name_eq ((hserves g).mp hg) hf hname
  obtain ⟨first, hfirst⟩ : ∃ first, stream.fragments.head? = some first := by
    cases hfs : stream.fragments with
    | nil =>
      rw [hfs] at hlength
      cases hlength
    | cons f fs => exact ⟨f, rfl⟩
  exact ⟨hk, stream, first, hsign, hlength, hfirst,
    hread _ _ first (KeyRing.publicKey?_trust _ k.publicKey) hfinds hfirst⟩

end StreamWrite
end NamedContent
