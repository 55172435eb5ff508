import NamedContent.Proofs.Fragment.Codec

/-!
# Encodings that read back and bind

An encoding is read back as the fragment that was encoded, whatever bytes come after it
(`decode_encode_append`). What a signature covers is encoded in the same way, so its fields can be
read off the front of any byte string that begins with it (`read_signedBytes`). Hence

    signedBytes n i c <+: signedBytes n' i' c' ↔ n = n' ∧ i = i' ∧ c = c'

and a signature of one fragment says nothing about another one (`signedBytes_binds`).
-/

namespace NamedContent
namespace Fragment

open Cbor

variable {n n' : Name} {i i' : SignedInfo} {c c' : Octets}

/-! ### The encoding of a fragment -/

/-- A fragment is read back from its encoding, with nothing or with anything behind it. Its lengths
are numbers of 64 bits; otherwise its name, numbers, locator, content and signature are
arbitrary. -/
theorem decode_encode_append {f : Fragment} (h : f.Sized) :
    decode f.encode = .ok f ∧ ∀ rest, decode (f.encode ++ rest) = .ok f := by
  have hread : ∀ rest, decode (f.encode ++ rest) = .ok f := decode_encode h
  refine ⟨?_, hread⟩
  rw [← List.append_nil f.encode]
  exact hread []

/-- Different fragments have different encodings. -/
theorem encode_injective {f g : Fragment} (hf : f.Sized) (hg : g.Sized)
    (h : f.encode = g.encode) : f = g := by
  have hread := decode_encode hf []
  rw [h, decode_encode hg] at hread
  exact (Except.ok.inj hread).symm

/-- The entries of the map are written in the order of their encoded keys, as a canonical encoding
has them. -/
theorem ascending_entries (f : Fragment) :
    f.entries.Pairwise fun e e' => compare e.1.encode e'.1.encode = .lt := by
  have hkeys : f.entries.map Prod.fst = (List.range 9).map fun k : Nat => Value.int k := rfl
  have h : (f.entries.map Prod.fst).Pairwise fun k k' => compare k.encode k'.encode = .lt := by
    rw [hkeys]
    decide
  exact List.pairwise_map.mp h

/-- A fragment at the ends of its ranges: a name of one empty component, the least timestamp, the
greatest segment number, a key under the root name, and a content whose length needs a wider
head. -/
def extreme : Fragment where
  name := ⟨[⟨[]⟩]⟩
  info :=
    { publisher := ⟨.replicate 32 0⟩, timestamp := Int64.minValue, contentType := .key
      final := some 0xffffffffffffffff, locator := .named .root none, freshness := none }
  content := List.replicate 24 0xff
  signature := ⟨.replicate 64 0xff⟩

theorem sized_extreme : extreme.Sized where
  name := ⟨by decide, by decide⟩
  locator n p h := by
    cases h
    exact ⟨by decide, by decide⟩
  content := by decide

theorem decode_encode_append_extreme :
    extreme.Sized ∧ decode extreme.encode = .ok extreme ∧
      decode (extreme.encode ++ [0xff, 0x00]) = .ok extreme :=
  have h := decode_encode_append sized_extreme
  ⟨sized_extreme, h.1, h.2 [0xff, 0x00]⟩

/-! ### What a signature covers -/

/-- The entries that a signature covers can be read off the front of a byte string. -/
theorem read_signedBytes (h : Signable n i c) (rest : Octets) :
    Value.read Value.maxDepth (signedBytes n i c ++ rest) =
      some (.map (signedEntries n i c), rest) :=
  Value.read_encode (fits_signedEntries h 253) rest

/-- Different fields make different entries: with any signature behind them the entries are those of
a fragment, which is read back from them. -/
theorem eq_of_signedEntries_eq (h : signedEntries n i c = signedEntries n' i' c') :
    n = n' ∧ i = i' ∧ c = c' := by
  let s : Signature := ⟨.replicate 64 0⟩
  have hentries : entries ⟨n, i, c, s⟩ = entries ⟨n', i', c', s⟩ := by
    rw [entries, entries, h]
  have hread : (Except.ok ⟨n, i, c, s⟩ : Except DecodeError Fragment) = .ok ⟨n', i', c', s⟩ := by
    rw [← ofEntries_entries ⟨n, i, c, s⟩, hentries, ofEntries_entries]
  injection Except.ok.inj hread with hn hi hc _
  exact ⟨hn, hi, hc⟩

/-- A message at the front of another one is that message, and has its fields. -/
theorem signedBytes_prefix_iff (h : Signable n i c) (h' : Signable n' i' c') :
    signedBytes n i c <+: signedBytes n' i' c' ↔ n = n' ∧ i = i' ∧ c = c' := by
  constructor
  · rintro ⟨rest, hrest⟩
    have hread := read_signedBytes h rest
    have hread' := read_signedBytes h' []
    rw [hrest] at hread
    rw [List.append_nil, hread] at hread'
    have hvalue := congrArg Prod.fst (Option.some.inj hread')
    exact eq_of_signedEntries_eq (Value.map.inj hvalue)
  · rintro ⟨rfl, rfl, rfl⟩
    exact List.prefix_refl _

/-- What is signed binds every field. Equal messages have equal names, metadata and contents; no
message is a proper prefix of another one; and fragments that differ in more than their signatures
have different messages. -/
theorem signedBytes_binds (h : Signable n i c) (h' : Signable n' i' c') :
    (signedBytes n i c = signedBytes n' i' c' →
      n = n' ∧
      (i.publisher = i'.publisher ∧ i.timestamp = i'.timestamp ∧ i.contentType = i'.contentType ∧
        i.final = i'.final ∧ i.locator = i'.locator ∧ i.freshness = i'.freshness) ∧
      c = c') ∧
    (signedBytes n i c <+: signedBytes n' i' c' → signedBytes n i c = signedBytes n' i' c') ∧
    ∀ f g : Fragment, f.Sized → g.Sized → { f with signature := g.signature } ≠ g →
      f.message ≠ g.message := by
  refine ⟨?_, ?_, ?_⟩
  · intro heq
    have hpre : signedBytes n i c <+: signedBytes n' i' c' := heq ▸ List.prefix_refl _
    obtain ⟨rfl, rfl, rfl⟩ := (signedBytes_prefix_iff h h').mp hpre
    exact ⟨rfl, ⟨rfl, rfl, rfl, rfl, rfl, rfl⟩, rfl⟩
  · intro hpre
    obtain ⟨rfl, rfl, rfl⟩ := (signedBytes_prefix_iff h h').mp hpre
    rfl
  · intro f g hf hg hne heq
    apply hne
    have hpre : f.message <+: g.message := heq ▸ List.prefix_refl _
    obtain ⟨hname, hinfo, hcontent⟩ :=
      (signedBytes_prefix_iff hf.signable hg.signable).mp hpre
    cases f
    cases g
    cases hname
    cases hinfo
    cases hcontent
    rfl

/-- Metadata that say in which of two places a zero stands. -/
def zeroed (final : Option UInt64) (freshness : Option UInt32) : SignedInfo :=
  { publisher := ⟨.replicate 32 0⟩, timestamp := 0, contentType := .data, final
    locator := .key ⟨.replicate 32 0⟩, freshness }

theorem signable_zeroed (final : Option UInt64) (freshness : Option UInt32) :
    Signable .root (zeroed final freshness) [] where
  name := ⟨by decide, by decide⟩
  locator _ _ h := by cases h
  content := by decide

/-- A zero for the final segment does not pass for a zero for the freshness. -/
theorem signedBytes_binds_zeroed :
    Signable .root (zeroed (some 0) none) [] ∧ Signable .root (zeroed none (some 0)) [] ∧
      signedBytes .root (zeroed (some 0) none) [] ≠
        signedBytes .root (zeroed none (some 0)) [] := by
  refine ⟨signable_zeroed _ _, signable_zeroed _ _, fun heq => ?_⟩
  have hbinds := signedBytes_binds (signable_zeroed (some 0) none) (signable_zeroed none (some 0))
  obtain ⟨_, ⟨_, _, _, hfinal, _⟩, _⟩ := hbinds.1 heq
  exact absurd hfinal (by decide)

end Fragment
end NamedContent
