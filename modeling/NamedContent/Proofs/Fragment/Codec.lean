import NamedContent.Fragment.Codec
import NamedContent.Proofs.Cbor.Value
import NamedContent.Proofs.Outcome

/-!
# Reading back fragments

A fragment is read back from its encoding, whatever bytes come after it (`decode_encode`), if its
parts have lengths of 64 bits. The fields are read back one by one.
-/

namespace NamedContent

/-- Lengths that fit into 64 bits: the number of components, and the bytes of each. -/
structure Name.Sized (n : Name) : Prop where
  count_lt : n.components.length < 2 ^ 64
  length_lt : ∀ c ∈ n.components, c.octets.length < 2 ^ 64

namespace Fragment

open Cbor

/-- All lengths in the fragment fit into 64 bits. -/
structure Sized (f : Fragment) : Prop where
  name : f.name.Sized
  locator : ∀ n p, f.info.locator = .named n p → n.Sized
  content : f.content.length < 2 ^ 64

/-! ### What the encoding consists of -/

theorem fits_nameValue {n : Name} (h : n.Sized) (d : Nat) : Value.Fits (d + 1) (nameValue n) := by
  refine .array ?_ ?_
  · rw [List.length_map]
    exact h.count_lt
  · intro v hv
    obtain ⟨c, hc, rfl⟩ := List.mem_map.mp hv
    exact .bytes (h.length_lt c hc)

theorem fits_block {n : Nat} (b : Block n) (h : n < 2 ^ 64) (d : Nat) :
    Value.Fits d (.bytes b.octets) := by
  apply Value.Fits.bytes
  rw [b.length_eq]
  exact h

theorem fits_numberValue {o : Option Nat} (h : ∀ n ∈ o, n < 2 ^ 64) (d : Nat) :
    Value.Fits d (numberValue o) := by
  cases o with
  | none => exact .null
  | some n =>
    have hn := h n rfl
    exact .int (by omega) (by omega)

theorem fits_locatorValue {l : KeyLocator} (h : ∀ n p, l = .named n p → n.Sized) (d : Nat) :
    Value.Fits (d + 2) (locatorValue l) := by
  cases l with
  | key k =>
    refine .array (by simp) ?_
    intro v hv
    simp only [List.mem_cons, List.not_mem_nil, or_false] at hv
    rcases hv with rfl | rfl
    · exact .int (by omega) (by omega)
    · exact fits_block k.block (by omega) _
  | named n p =>
    refine .array (by simp) ?_
    intro v hv
    simp only [List.mem_cons, List.not_mem_nil, or_false] at hv
    rcases hv with rfl | rfl | rfl
    · exact .int (by omega) (by omega)
    · exact fits_nameValue (h n p rfl) d
    · cases p with
      | none => exact .null
      | some p => exact fits_block p.block (by omega) _

theorem fits_timestamp (t : Int64) (d : Nat) : Value.Fits d (.int t.toInt) := by
  have h₁ := t.le_toInt
  have h₂ := t.toInt_lt
  exact .int (by omega) (by omega)

/-- All lengths in what a signature covers fit into 64 bits. -/
structure Signable (name : Name) (info : SignedInfo) (content : Octets) : Prop where
  name : name.Sized
  locator : ∀ n p, info.locator = .named n p → n.Sized
  content : content.length < 2 ^ 64

theorem Sized.signable {f : Fragment} (h : f.Sized) : Signable f.name f.info f.content :=
  ⟨h.name, h.locator, h.content⟩

theorem fits_signedEntries {name : Name} {info : SignedInfo} {content : Octets}
    (h : Signable name info content) (d : Nat) :
    Value.Fits (d + 3) (.map (signedEntries name info content)) := by
  refine .map (by simp [signedEntries]) ?_ ?_
  · intro e he
    simp only [signedEntries, List.map_cons, List.map_nil, List.mem_cons, List.not_mem_nil,
      or_false] at he
    rcases he with rfl | rfl | rfl | rfl | rfl | rfl | rfl | rfl <;>
      exact .int (by simp [Field.key]) (by simp [Field.key])
  · intro e he
    simp only [signedEntries, List.map_cons, List.map_nil, List.mem_cons, List.not_mem_nil,
      or_false] at he
    rcases he with rfl | rfl | rfl | rfl | rfl | rfl | rfl | rfl
    · exact fits_nameValue h.name _
    · exact fits_block _ (by omega) _
    · exact fits_timestamp _ _
    · have : info.contentType.code < 3 := by cases info.contentType <;> decide
      exact .int (by omega) (by omega)
    · apply fits_numberValue
      intro n hn
      obtain ⟨k, _, rfl⟩ := Option.map_eq_some_iff.mp hn
      exact k.toNat_lt
    · exact fits_locatorValue h.locator _
    · apply fits_numberValue
      intro n hn
      obtain ⟨k, _, rfl⟩ := Option.map_eq_some_iff.mp hn
      have := k.toNat_lt
      omega
    · exact .bytes h.content

/-- The entries of a fragment's map. -/
def entries (f : Fragment) : List (Value × Value) :=
  signedEntries f.name f.info f.content ++
    [(.int Field.signature.key, .bytes f.signature.block.octets)]

theorem fits_entries {f : Fragment} (h : f.Sized) (d : Nat) :
    Value.Fits (d + 3) (.map f.entries) := by
  cases fits_signedEntries h.signable d with
  | map _ keys_fit values_fit =>
    refine .map (by simp [entries, signedEntries]) ?_ ?_
    · intro e he
      rcases List.mem_append.mp he with he | he
      · exact keys_fit e he
      · rw [List.mem_singleton.mp he]
        exact .int (by simp [Field.key]) (by simp [Field.key])
    · intro e he
      rcases List.mem_append.mp he with he | he
      · exact values_fit e he
      · rw [List.mem_singleton.mp he]
        exact fits_block _ (by omega) _

/-! ### Reading the fields back -/

theorem toUInt64?_int {n : Nat} (h : n < 2 ^ 64) :
    (Value.int n).toUInt64? = some (UInt64.ofNat n) := by
  have hn : (0 : Int) ≤ n ∧ (n : Int) < UInt64.size := by
    constructor
    · omega
    · have : UInt64.size = 2 ^ 64 := rfl
      omega
  simp only [Value.toUInt64?, if_pos hn, Int.toNat_natCast]

@[simp] theorem readName_nameValue (n : Name) : readName (nameValue n) = .ok n := by
  have h : (n.components.map fun c => Value.bytes c.octets).mapM readComponent =
      .ok n.components := by
    rw [mapM_eq_ok_iff, List.forall₂_map_left_iff, List.forall₂_same]
    exact fun _ _ => rfl
  rw [nameValue, readName, h]
  rfl

@[simp] theorem readPublisher_block (p : Publisher) :
    readPublisher (some (.bytes p.block.octets)) = .ok p := by
  simp [readPublisher, Value.toBlock?]

@[simp] theorem readTimestamp_toInt (t : Int64) : readTimestamp (some (.int t.toInt)) = .ok t := by
  have h₁ := t.le_toInt
  have h₂ := t.toInt_lt
  rw [readTimestamp, if_pos (by omega), Int64.ofInt_toInt]

@[simp] theorem readContentType_code (t : ContentType) :
    readContentType (some (.int t.code)) = .ok t := by
  cases t <;> rfl

theorem readOptional_of_number {field : Field} {v : Value} {n : UInt64} (hv : v ≠ .null)
    (h : v.toUInt64? = some n) : readOptional field (some v) = .ok (some n) := by
  unfold readOptional
  split
  · next hv' => cases hv'
  · next hv' => exact absurd (Option.some.inj hv') hv
  · next hv' =>
    cases hv'
    rw [h]

@[simp] theorem readOptional_numberValue (field : Field) (o : Option UInt64) :
    readOptional field (some (numberValue (o.map UInt64.toNat))) = .ok o := by
  cases o with
  | none => rfl
  | some n =>
    have hn := toUInt64?_int n.toNat_lt
    rw [UInt64.ofNat_toNat] at hn
    exact readOptional_of_number (by simp [numberValue]) hn

theorem readFreshness_of_number {v : Option Value} {n : UInt64}
    (hread : readOptional .freshness v = .ok (some n)) (hn : n.toNat < UInt32.size) :
    readFreshness v = .ok (some n.toUInt32) := by
  simp only [readFreshness, hread, bind, Except.bind, pure, Except.pure]
  rw [if_pos hn]

@[simp] theorem readFreshness_numberValue (o : Option UInt32) :
    readFreshness (some (numberValue (o.map UInt32.toNat))) = .ok o := by
  cases o with
  | none => rfl
  | some k =>
    have hlt : k.toNat < 2 ^ 32 := k.toNat_lt
    have hk : (UInt64.ofNat k.toNat).toNat = k.toNat := by
      rw [UInt64.toNat_ofNat', Nat.mod_eq_of_lt (by omega)]
    have hback : (UInt64.ofNat k.toNat).toUInt32 = k := by
      apply UInt32.toNat_inj.mp
      rw [UInt64.toNat_toUInt32, hk]
      exact Nat.mod_eq_of_lt hlt
    have hread : readOptional .freshness (some (numberValue (some k.toNat))) =
        .ok (some (UInt64.ofNat k.toNat)) :=
      readOptional_of_number (by simp [numberValue]) (toUInt64?_int (by omega))
    have h := readFreshness_of_number hread (by rw [hk]; exact hlt)
    rw [hback] at h
    exact h

@[simp] theorem readLocator_locatorValue (l : KeyLocator) :
    readLocator (locatorValue l) = .ok l := by
  cases l with
  | key k =>
    have h0 : (Value.int 0).toUInt64? = some 0 := toUInt64?_int (n := 0) (by omega)
    simp [locatorValue, readLocator, h0, Value.toBlock?]
  | named n p =>
    have h1 : (Value.int 1).toUInt64? = some 1 := toUInt64?_int (n := 1) (by omega)
    cases p with
    | none =>
      simp [locatorValue, readLocator, h1, readLocatorPublisher, bind, Except.bind, pure,
        Except.pure]
    | some p =>
      simp [locatorValue, readLocator, h1, readLocatorPublisher, bind, Except.bind, pure,
        Except.pure, Value.toBlock?]

@[simp] theorem readSignature_block (s : Signature) :
    readSignature (some (.bytes s.block.octets)) = .ok s := by
  simp [readSignature]

/-! ### The whole fragment -/

theorem ofEntries_of_fields {es : List (Value × Value)} {f : Fragment} {n l : Value}
    (hn : require es .name = .ok n) (hname : readName n = .ok f.name)
    (hpublisher : readPublisher (lookup es .publisher) = .ok f.info.publisher)
    (htimestamp : readTimestamp (lookup es .timestamp) = .ok f.info.timestamp)
    (htype : readContentType (lookup es .contentType) = .ok f.info.contentType)
    (hfinal : readOptional .final (lookup es .final) = .ok f.info.final)
    (hl : require es .locator = .ok l) (hlocator : readLocator l = .ok f.info.locator)
    (hfreshness : readFreshness (lookup es .freshness) = .ok f.info.freshness)
    (hcontent : readContent (lookup es .content) = .ok f.content)
    (hsignature : readSignature (lookup es .signature) = .ok f.signature) :
    ofEntries es = .ok f := by
  simp only [ofEntries, hn, hname, hpublisher, htimestamp, htype, hfinal, hl, hlocator, hfreshness,
    hcontent, hsignature, bind, Except.bind, pure, Except.pure]

@[simp] theorem ofEntries_entries (f : Fragment) : ofEntries f.entries = .ok f :=
  ofEntries_of_fields (n := nameValue f.name) (l := locatorValue f.info.locator) rfl
    (readName_nameValue _) (readPublisher_block _) (readTimestamp_toInt _)
    (readContentType_code _) (readOptional_numberValue _ _) rfl (readLocator_locatorValue _)
    (readFreshness_numberValue _) rfl (readSignature_block _)

/-- A fragment is read back from its encoding. -/
theorem decode_encode {f : Fragment} (h : f.Sized) (rest : Octets) :
    decode (f.encode ++ rest) = .ok f := by
  have hread : Value.decode (f.encode ++ rest) = some (.map f.entries) :=
    Value.decode_encode (fits_entries h 253) rest
  rw [decode, hread]
  exact ofEntries_entries f

end Fragment
end NamedContent
