import NamedContent.Proofs.Network.Stored

/-!
# Collecting the segments of a version

Of the fragments of an edition only the first starts a collection (`Collection.eq_first_of_start`).
Where the others are found under their names, a collection that ends without an error has all of
them (`Collection.collect_ofEdition`), and it does end like that where all of them are verified
(`Collection.exists_collected`).
-/

namespace NamedContent

open Supply

variable [Suite] {s : Supply} {keys : KeyRing} {b n : Name} {v : Version} {key : PublicKey}
  {fs : List Fragment} {f : Fragment}

/-! ### Verifying -/

/-- The key of the edition verifies its fragments. -/
theorem verify_of_edition (h : Edition (b.append v.toComponent) key fs) (hf : f ∈ fs)
    (hkey : s.config.verify = true → verificationKey keys f = .ok key) :
    s.verify keys f = .ok () := by
  unfold Supply.verify
  split
  · next hv =>
    rw [hkey hv]
    simp only [bind, Except.bind]
    rw [h.validateWith_eq hf]
    rfl
  · rfl

/-! ### Segments -/

namespace Collection

/-- The collection with these further segments. -/
def withRest (c : Collection) (rest : List Fragment) : Collection := { c with rest }

theorem readNext_succ {count : Nat} {c : Collection} (hget : s.get c.interest = .ok (some f)) :
    readNext s keys (count + 1) c =
      (s.verify keys f).bind fun _ => readNext s keys count (c.add f) := by
  rw [readNext, hget]
  rfl

/-- The segments that are still to be read are found one after the other. -/
theorem readNext_of_finds (h : Edition n key fs) (hfinds : ∀ f ∈ fs, s.Finds f)
    {todo : List Fragment} {c : Collection} (hsplit : fs = c.first :: (c.rest ++ todo))
    (hn : c.versioned = n) :
    (∀ d, readNext s keys todo.length c = .ok d → d = c.withRest (c.rest ++ todo)) ∧
      ((∀ f ∈ fs, s.verify keys f = .ok ()) →
        readNext s keys todo.length c = .ok (c.withRest (c.rest ++ todo))) := by
  -- By induction on what is still to be read; the next segment is the one whose number is the
  -- number of those that have been read.
  induction todo generalizing c with
  | nil =>
    have hsame : c.withRest (c.rest ++ []) = c := by
      rw [List.append_nil]
      rfl
    rw [hsame]
    exact ⟨fun d hd => (Except.ok.inj hd).symm, fun _ => rfl⟩
  | cons f todo ih =>
    have hfirst : c.first ∈ fs := by
      rw [hsplit]
      exact List.mem_cons_self
    have hat : fs[c.next]? = some f := by
      rw [hsplit, next, List.getElem?_cons_succ, List.getElem?_append_right (Nat.le_refl _),
        Nat.sub_self]
      rfl
    have hf : f ∈ fs := List.mem_of_getElem? hat
    have hget : s.get c.interest = .ok (some f) := by
      rw [interest, hn, ← h.name_eq c.next f hat, h.publisher_eq c.first hfirst,
        ← h.publisher_eq f hf]
      exact hfinds f hf
    have hsplit' : fs = (c.add f).first :: ((c.add f).rest ++ todo) := by
      rw [hsplit]
      simp [add]
    obtain ⟨ihOk, ihRead⟩ := ih hsplit' hn
    have hend : (c.add f).withRest ((c.add f).rest ++ todo) =
        c.withRest (c.rest ++ f :: todo) := by
      simp [add, withRest]
    rw [hend] at ihOk ihRead
    rw [List.length_cons, readNext_succ hget]
    constructor
    · intro d hd
      obtain ⟨_, _, hrest⟩ := ok_of_bind hd
      exact ihOk d hrest
    · intro hall
      rw [hall f hf]
      exact ihRead hall

omit [Suite] in
theorem eq_cons_tail (hf : fs[0]? = some f) : fs = f :: fs.tail := by
  cases fs with
  | nil => cases hf
  | cons g rest =>
    cases hf
    rfl

/-- The collection that reading an edition starts with. -/
def ofEdition (n : Name) (fs : List Fragment) (first : Fragment) : Collection :=
  if fs.length = 1 then { first, versioned := first.name, final := 0 }
  else { first, versioned := n, final := fs.length - 1 }

omit [Suite] in
@[simp] theorem first_ofEdition (n : Name) (fs : List Fragment) (f : Fragment) :
    (ofEdition n fs f).first = f := by
  unfold ofEdition
  split <;> rfl

omit [Suite] in
@[simp] theorem rest_ofEdition (n : Name) (fs : List Fragment) (f : Fragment) :
    (ofEdition n fs f).rest = [] := by
  unfold ofEdition
  split <;> rfl

omit [Suite] in
@[simp] theorem final_ofEdition (n : Name) (fs : List Fragment) (f : Fragment) :
    (ofEdition n fs f).final = fs.length - 1 := by
  unfold ofEdition
  split
  · next h => rw [h]
  · rfl

/-- Reading starts with the first fragment of an edition, if that is verified. -/
theorem start_of_edition (h : Edition (b.append v.toComponent) key fs) (hf : fs[0]? = some f)
    (hv : s.verify keys f = .ok ()) :
    start s keys f = .ok (ofEdition (b.append v.toComponent) fs f) := by
  have hmem : f ∈ fs := List.mem_of_getElem? hf
  have hname : f.name = (b.append v.toComponent).segmentName (UInt64.ofNat 0) :=
    h.name_eq 0 f hf
  have hsegment : f.segment? = some Segment.first := by
    simp [Fragment.segment?, hname, Segment.first]
  have hversioned : f.name.versioned? = some (b.append v.toComponent) := by simp [hname]
  have hpos := h.length_pos
  have hlen := h.length_lt
  have hlast : (UInt64.ofNat (fs.length - 1)).toNat = fs.length - 1 := by
    rw [UInt64.toNat_ofNat', Nat.mod_eq_of_lt (by omega)]
  -- A version of one fragment, a tombstone in particular, is complete at once.
  have hone : (f.isGone = true ∨ UInt64.ofNat (fs.length - 1) = Segment.first) ↔ fs.length = 1 := by
    constructor
    · rintro (hg | hz)
      · exact (h.alone f hmem hg).1
      · have := congrArg UInt64.toNat hz
        rw [hlast] at this
        have hzero : fs.length - 1 = 0 := this
        omega
    · intro hl
      right
      rw [hl]
      rfl
  unfold start
  rw [hv, hsegment, h.final_eq f hmem, Option.getD_some]
  simp only [bind, Except.bind, pure, Except.pure, ne_eq, not_true_eq_false, ↓reduceIte]
  unfold ofEdition
  by_cases hl : fs.length = 1
  · rw [if_pos (hone.mpr hl), if_pos hl]
  · rw [if_neg fun hc => hl (hone.mp hc), if_neg hl, hversioned]
    dsimp only
    rw [hlast]

/-- Only the first fragment of an edition starts a reading. -/
theorem eq_first_of_start (h : Edition n key fs) (hf : f ∈ fs) {c : Collection}
    (hstart : start s keys f = .ok c) : fs[0]? = some f ∧ s.verify keys f = .ok () := by
  obtain ⟨hv, hfirst, _⟩ := start_cases hstart
  refine ⟨?_, hv⟩
  obtain ⟨i, hi, hat, hname⟩ := h.getElem?_of_mem hf
  have hlen := h.length_lt
  have hsegment : f.segment? = some (UInt64.ofNat i) := by simp [Fragment.segment?, hname]
  have hz : UInt64.ofNat i = Segment.first := Option.some.inj (hsegment.symm.trans hfirst)
  have hi₀ : i = 0 := StreamWrite.ofNat64_inj (by omega) (by omega) hz
  rw [← hi₀]
  exact hat

/-- What reading an edition ends with. -/
theorem collect_ofEdition (keys : KeyRing) (h : Edition n key fs) (hfinds : ∀ f ∈ fs, s.Finds f)
    (hf : fs[0]? = some f) :
    (∀ d, (ofEdition n fs f).collect s keys = .ok d →
      d = (ofEdition n fs f).withRest fs.tail) ∧
    ((∀ f ∈ fs, s.verify keys f = .ok ()) →
      (ofEdition n fs f).collect s keys = .ok ((ofEdition n fs f).withRest fs.tail)) := by
  obtain ⟨rest, hfs⟩ : ∃ rest, fs = f :: rest := ⟨fs.tail, eq_cons_tail hf⟩
  have hmissing : (ofEdition n fs f).missing = rest.length := by
    simp [missing, hfs]
  have htail : fs.tail = (ofEdition n fs f).rest ++ rest := by simp [hfs]
  unfold collect
  rw [hmissing, htail]
  by_cases hl : fs.length = 1
  · -- There is nothing to read.
    have hnil : rest = [] := by
      rw [hfs] at hl
      simpa using hl
    have hsame : (ofEdition n fs f).withRest ((ofEdition n fs f).rest ++ []) =
        ofEdition n fs f := by
      rw [List.append_nil]
      rfl
    rw [hnil, hsame]
    exact ⟨fun d hd => (Except.ok.inj hd).symm, fun _ => rfl⟩
  · apply readNext_of_finds h hfinds
    · simpa using hfs
    · unfold ofEdition
      rw [if_neg hl]

/-- An edition is collected completely where its fragments are found and verified. -/
theorem exists_collected (h : Edition (b.append v.toComponent) key fs)
    (hfinds : ∀ f ∈ fs, s.Finds f) (hall : ∀ f ∈ fs, s.verify keys f = .ok ())
    (hf : fs[0]? = some f) :
    ∃ c d, start s keys f = .ok c ∧ c.collect s keys = .ok d ∧ d.missing = 0 ∧ d.first = f ∧
      fs = d.first :: d.rest := by
  have hfirst := first_ofEdition (b.append v.toComponent) fs f
  refine ⟨_, _, start_of_edition h hf (hall f (List.mem_of_getElem? hf)),
    (collect_ofEdition keys h hfinds hf).2 hall, ?_, hfirst, ?_⟩
  · rw [missing]
    show (ofEdition (b.append v.toComponent) fs f).final - fs.tail.length = 0
    rw [final_ofEdition, List.length_tail, Nat.sub_self]
  · show fs = (ofEdition (b.append v.toComponent) fs f).first :: fs.tail
    rw [hfirst]
    exact eq_cons_tail hf

/-- What has been collected of an edition is its payload, once it is complete. -/
theorem payloadOf_of_edition (h : Edition n key fs) {c : Collection}
    (hfs : fs = c.first :: c.rest) :
    payloadOf fs = if c.first.isGone then none else some c.payload := by
  have hmem : c.first ∈ fs := by
    rw [hfs]
    exact List.mem_cons_self
  -- If any fragment is a tombstone, the first one is.
  have hgone : fs.any Fragment.isGone = c.first.isGone := by
    cases hg : c.first.isGone with
    | true => exact List.any_eq_true.mpr ⟨_, hmem, hg⟩
    | false =>
      rw [List.any_eq_false]
      intro f hf hfg
      obtain ⟨hone, _⟩ := h.name_of_isGone hf hfg
      rw [hone, List.mem_singleton] at hmem
      rw [hmem, hfg] at hg
      cases hg
  unfold payloadOf Collection.payload
  rw [hgone, hfs]
  cases c.first.isGone <;> rfl

end Collection
end NamedContent
