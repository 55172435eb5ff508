import NamedContent.Proofs.Network.Collecting
import NamedContent.Proofs.Object.Reading

/-!
# Reading stored versions

A stored edition is read from any of its fragments that its reading can start from, and then either
completely or not at all: a reading never finds it lacking (`complete_of_ofFirst`). What is read is
the edition's payload, or that it is a tombstone. A reader whose keys verify the fragments does read
it (`ofFirst_of_stores`).
-/

namespace NamedContent

open Supply

variable [Suite] {s : Supply} {keys : KeyRing} {b n : Name} {v : Version} {key : PublicKey}
  {fs : List Fragment} {f : Fragment}

/-! ### Values -/

variable {α : Type} [Payload α]

omit [Suite] in
/-- What a version of these fragments says: that it is gone, or a value. -/
def Tells (fs : List Fragment) (value : Option α) : Prop :=
  (payloadOf fs = none ∧ value = none) ∨
    ∃ bytes x, payloadOf fs = some bytes ∧ Payload.decode bytes = some x ∧ value = some x

namespace Reading

omit [Payload α] in
theorem splitVersion?_of_edition (h : Edition (b.append v.toComponent) key fs) {c : Collection}
    (hfs : fs = c.first :: c.rest) : c.first.name.splitVersion? = some (b, v) := by
  have hname : c.first.name = (b.append v.toComponent).segmentName (UInt64.ofNat 0) := by
    apply h.name_eq 0
    rw [hfs]
    rfl
  rw [hname, Name.splitVersion?_segmentName]

/-- What a complete collection of an edition decodes to is what the edition says. -/
theorem tells_of_decode (h : Edition (b.append v.toComponent) key fs) {c : Collection}
    (hfs : fs = c.first :: c.rest) {a : Adoption α} (ha : decode c = .ok a) :
    a.base = b ∧ a.version = v ∧ Tells fs a.payload := by
  obtain ⟨hbv, _, _, hval, hnone⟩ := decode_eq_ok ha
  rw [splitVersion?_of_edition h hfs] at hbv
  have hpair := Option.some.inj hbv
  refine ⟨(congrArg Prod.fst hpair).symm, (congrArg Prod.snd hpair).symm, ?_⟩
  unfold Tells
  rw [Collection.payloadOf_of_edition h hfs]
  cases hg : c.first.isGone with
  | true =>
    left
    rw [hg, if_pos rfl] at hval
    exact ⟨rfl, hval⟩
  | false =>
    right
    rw [hg] at hnone hval
    rw [if_neg Bool.false_ne_true] at hval
    cases hp : a.payload with
    | none =>
      rw [hp] at hnone
      cases hnone
    | some x =>
      rw [hp] at hval
      exact ⟨_, x, rfl, hval.symm, rfl⟩

theorem decode_of_tells (h : Edition (b.append v.toComponent) key fs) {c : Collection}
    (hfs : fs = c.first :: c.rest) {value : Option α} (htells : Tells fs value) :
    decode c = .ok ⟨b, v, c.first.publisher, c.first.info.locator, value⟩ := by
  unfold Tells at htells
  rw [Collection.payloadOf_of_edition h hfs] at htells
  unfold decode
  simp only [splitVersion?_of_edition h hfs, bind, Except.bind, pure, Except.pure]
  rcases htells with ⟨hnone, rfl⟩ | ⟨bytes, x, hsome, hdec, rfl⟩
  · cases hg : c.first.isGone with
    | true => rfl
    | false =>
      rw [hg] at hnone
      cases hnone
  · cases hg : c.first.isGone with
    | true =>
      rw [hg] at hsome
      cases hsome
    | false =>
      rw [hg] at hsome
      rw [if_neg Bool.false_ne_true, Option.some.injEq] at hsome
      rw [← hsome] at hdec
      simp only [hdec, Bool.false_eq_true, ↓reduceIte]

/-- A reading of a stored edition is complete, and it is what the edition says. -/
theorem complete_of_ofFirst (hs : s.Sound) (h : s.Stores (b.append v.toComponent) key fs)
    (hf : f ∈ fs) {r : Reading α} (hr : ofFirst s keys f = .ok r) :
    ∃ a, r = .complete a ∧ a.base = b ∧ a.version = v ∧ Tells fs a.payload := by
  obtain ⟨c, hstart, hgoOn⟩ := ofFirst_eq_ok hr
  obtain ⟨hfirst, hv⟩ := Collection.eq_first_of_start h.edition hf hstart
  rw [Collection.start_of_edition h.edition hfirst hv] at hstart
  have hc := Except.ok.inj hstart
  rw [← hc] at hgoOn
  have hcollect := (Collection.collect_ofEdition keys h.edition (h.finds hs) hfirst).1
  have htail := Collection.eq_cons_tail hfirst
  cases r with
  | complete a =>
    obtain ⟨d, hd, _, _, hdec⟩ := goOn_eq_complete hgoOn
    have hd' := hcollect d hd
    have hfs : fs = d.first :: d.rest := by
      rw [hd']
      simpa [Collection.withRest] using htail
    obtain ⟨hb, hv, ht⟩ := tells_of_decode h.edition hfs hdec
    exact ⟨a, rfl, hb, hv, ht⟩
  | lacking l =>
    obtain ⟨d, hd, _, hm, _⟩ := goOn_eq_lacking hgoOn
    rw [hcollect d hd] at hm
    have hm' : (Collection.ofEdition (b.append v.toComponent) fs f).final -
        fs.tail.length ≠ 0 := hm
    rw [Collection.final_ofEdition, List.length_tail] at hm'
    exact absurd (Nat.sub_self _) hm'

/-- A stored edition is read where its fragments are verified. -/
theorem ofFirst_of_stores (hs : s.Sound) (h : s.Stores (b.append v.toComponent) key fs)
    (hf : fs[0]? = some f) (hall : ∀ g ∈ fs, s.verify keys g = .ok ()) {value : Option α}
    (htells : Tells fs value) :
    ofFirst s keys f = .ok (.complete ⟨b, v, f.publisher, f.info.locator, value⟩) := by
  have hmem : f ∈ fs := List.mem_of_getElem? hf
  have hname : f.name = (b.append v.toComponent).segmentName (UInt64.ofNat 0) :=
    h.edition.name_eq 0 f hf
  have hversion : f.name.hasVersion = true := by simp [hname]
  obtain ⟨c, d, hstart, hcollect, hmissing, hfirst, hsplit⟩ :=
    Collection.exists_collected h.edition (h.finds hs) hall hf
  have hdecode := decode_of_tells h.edition hsplit htells
  rw [hfirst] at hdecode
  unfold ofFirst goOn
  rw [if_pos hversion, hstart]
  simp only [bind, Except.bind, mapError_ok, pure, Except.pure, hcollect, hmissing, hdecode,
    ↓reduceIte]

end Reading
end NamedContent
