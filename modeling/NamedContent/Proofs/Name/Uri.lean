import Mathlib.Data.List.DropRight
import NamedContent.Name.Uri

/-!
# Reading back the URI of a name

The escaped form of a component has no slash in it and is read back as the component
(`unescape_escape`). So the URI of a name has the components between its slashes, and reading it
undoes the writing but for one thing: slashes at the ends are trimmed, and with them the empty
components that they stand for (`trimmed`). An empty component that is left is refused
(`parse_toUri`). A name is read back as itself exactly if it has no empty component
(`parse_toUri_eq_ok_iff`).
-/

namespace NamedContent

/-! ### Hexadecimal digits -/

namespace Octets.Hex

/-- The byte that spells an uppercase digit. -/
def upperByte (k : Nat) : UInt8 := if k < 10 then UInt8.ofNat (48 + k) else UInt8.ofNat (55 + k)

theorem ofChars_upperDigit {k : Nat} (h : k < 16) : ofChars [upperDigit k] = [upperByte k] := by
  decide +revert

theorem value?_upperByte {k : Nat} (h : k < 16) : value? (upperByte k) = some k := by
  decide +revert

theorem upperDigit_ne_slash {k : Nat} (h : k < 16) : upperDigit k ≠ '/' := by
  decide +revert

/-- The two digits of a byte are read as the byte. -/
theorem decodeOctets_upperByte (b : UInt8) :
    decodeOctets [upperByte (b.toNat / 16), upperByte (b.toNat % 16)] = .ok [b] := by
  have hlt : b.toNat < 256 := b.toNat_lt
  have hhi := value?_upperByte (k := b.toNat / 16) (by omega)
  have hlo := value?_upperByte (k := b.toNat % 16) (by omega)
  have hbyte : UInt8.ofNat (16 * (b.toNat / 16) + b.toNat % 16) = b := by
    rw [Nat.div_add_mod]
    exact UInt8.ofNat_toNat
  unfold decodeOctets
  rw [if_neg (by simp)]
  simp only [decodePairs, hhi, hlo, hbyte]
  rfl

end Octets.Hex

/-! ### Components -/

namespace Component

/-- The bytes that stand for themselves are in ASCII, and the percent sign and the slash are not
among them. -/
theorem of_isUnreserved {b : UInt8} (h : isUnreserved b = true) :
    b.toNat < 128 ∧ b.toNat ≠ 37 ∧ b.toNat ≠ 47 := by
  simp only [isUnreserved, Bool.or_eq_true, Bool.and_eq_true, decide_eq_true_eq, beq_iff_eq,
    UInt8.le_iff_toNat_le, ← UInt8.toNat_inj] at h
  simp at h
  omega

theorem ofChars_ofNat {k : Nat} (h : k < 128) :
    Octets.ofChars [Char.ofNat k] = [UInt8.ofNat k] := by
  decide +revert

theorem slash_ne_ofNat {k : Nat} (h : k < 128) (hne : k ≠ 47) : '/' ≠ Char.ofNat k := by
  decide +revert

theorem escapeByte_ne_nil (b : UInt8) : escapeByte b ≠ [] := by
  unfold escapeByte
  split <;> exact nofun

theorem slash_not_mem_escapeByte (b : UInt8) : '/' ∉ escapeByte b := by
  have hlt : b.toNat < 256 := b.toNat_lt
  intro hmem
  unfold escapeByte at hmem
  split at hmem
  · next h =>
    obtain ⟨hascii, -, hslash⟩ := of_isUnreserved h
    exact slash_ne_ofNat hascii hslash (List.mem_singleton.mp hmem)
  · simp only [List.mem_cons, List.not_mem_nil, or_false] at hmem
    rcases hmem with hmem | hmem | hmem
    · exact absurd hmem (by decide)
    · exact Octets.Hex.upperDigit_ne_slash (by omega) hmem.symm
    · exact Octets.Hex.upperDigit_ne_slash (by omega) hmem.symm

theorem slash_not_mem_escape (c : Component) : '/' ∉ c.escape := by
  intro hmem
  obtain ⟨b, _, hb⟩ := List.mem_flatMap.mp hmem
  exact slash_not_mem_escapeByte b hb

theorem slash_not_mem_of_mem_map {cs : List Component} {p : List Char}
    (hp : p ∈ cs.map escape) : '/' ∉ p := by
  obtain ⟨c, _, rfl⟩ := List.mem_map.mp hp
  exact c.slash_not_mem_escape

@[simp] theorem isEmpty_escape (c : Component) : c.escape.isEmpty = c.isEmpty := by
  obtain ⟨octets⟩ := c
  cases octets with
  | nil => rfl
  | cons b octets =>
    show (escapeByte b ++ octets.flatMap escapeByte).isEmpty = false
    rw [List.isEmpty_eq_false_iff]
    exact List.append_ne_nil_of_left_ne_nil (escapeByte_ne_nil b) _

end Component

namespace Name

theorem ofChars_append (cs ds : List Char) :
    Octets.ofChars (cs ++ ds) = Octets.ofChars cs ++ Octets.ofChars ds :=
  List.flatMap_append

/-- One byte is read back, whether it stands for itself or is escaped. -/
theorem unescape_escapeByte (part : String) (b : UInt8) (rest : Octets) :
    unescape part (Octets.ofChars (Component.escapeByte b) ++ rest) =
      (unescape part rest).map (b :: ·) := by
  have hlt : b.toNat < 256 := b.toNat_lt
  unfold Component.escapeByte
  split
  · next h =>
    obtain ⟨hascii, hpercent, -⟩ := Component.of_isUnreserved h
    have hne : b ≠ 37 := by
      rintro rfl
      exact hpercent rfl
    rw [Component.ofChars_ofNat hascii, UInt8.ofNat_toNat, List.singleton_append, unescape,
      if_neg hne]
    intro hi lo tail hb
    exact absurd hb hne
  · show unescape part (Octets.ofChars (['%'] ++ ([Octets.Hex.upperDigit (b.toNat / 16)] ++
      [Octets.Hex.upperDigit (b.toNat % 16)])) ++ rest) = _
    rw [ofChars_append, ofChars_append, Octets.Hex.ofChars_upperDigit (by omega),
      Octets.Hex.ofChars_upperDigit (by omega)]
    show unescape part (37 :: _ :: _ :: rest) = _
    rw [unescape, Octets.Hex.decodeOctets_upperByte]
    rfl

theorem unescape_escape (part : String) (c : Component) :
    unescape part (Octets.ofChars c.escape) = .ok c.octets := by
  obtain ⟨octets⟩ := c
  induction octets with
  | nil => rfl
  | cons b octets ih =>
    show unescape part (Octets.ofChars (Component.escapeByte b ++ octets.flatMap
      Component.escapeByte)) = _
    rw [ofChars_append, unescape_escapeByte]
    show (unescape part (Octets.ofChars (Component.escape ⟨octets⟩))).map _ = _
    rw [ih]
    rfl

/-- The escaped form of a component is read as the component, unless it is empty. -/
theorem readPart_escape (uri : String) (c : Component) :
    readPart uri c.escape = if c.isEmpty then .error (.emptyComponent uri) else .ok c := by
  unfold readPart
  rw [Component.isEmpty_escape]
  split
  · rfl
  · rw [unescape_escape]
    rfl

/-! ### Paths -/

/-- Parts with slashes between them. -/
def joined : List (List Char) → List Char
  | [] => []
  | p :: ps => p ++ ps.flatMap ('/' :: ·)

variable {ps : List (List Char)}

theorem joined_concat {p : List Char} (hne : ps ≠ []) :
    joined (ps ++ [p]) = joined ps ++ '/' :: p := by
  cases ps with
  | nil => exact absurd rfl hne
  | cons q ps => simp [joined]

/-- The slashes in front stand for empty parts. -/
theorem dropWhile_slashes (h : ∀ p ∈ ps, '/' ∉ p) :
    (ps.flatMap ('/' :: ·)).dropWhile (· == '/') = joined (ps.dropWhile List.isEmpty) := by
  induction ps with
  | nil => rfl
  | cons p ps ih =>
    cases p with
    | nil => exact ih fun q hq => h q (List.mem_cons_of_mem _ hq)
    | cons c cs =>
      have hc : (c == '/') = false := by
        rw [beq_eq_false_iff_ne]
        rintro rfl
        exact h _ List.mem_cons_self List.mem_cons_self
      simp [joined, hc]

theorem exists_joined_concat (ps : List (List Char)) (p : List Char) :
    ∃ front, joined (ps ++ [p]) = front ++ p := by
  by_cases hne : ps = []
  · refine ⟨[], ?_⟩
    simp [hne, joined]
  · refine ⟨joined ps ++ ['/'], ?_⟩
    rw [joined_concat hne, List.append_assoc, List.singleton_append]

/-- So do those behind, if the first part is not empty. -/
theorem rdropWhile_slashes (h : ∀ p ∈ ps, '/' ∉ p) (hhead : ∀ p ∈ ps.head?, p ≠ []) :
    (joined ps).rdropWhile (· == '/') = joined (ps.rdropWhile List.isEmpty) := by
  induction ps using List.reverseRecOn with
  | nil => rfl
  | append_singleton ps p ih =>
    rw [List.rdropWhile_concat]
    by_cases hp : p = []
    · have hne : ps ≠ [] := by
        rintro rfl
        exact hhead p rfl hp
      rw [hp, joined_concat hne, List.rdropWhile_concat_pos _ _ _ rfl]
      refine ih (fun q hq => h q (List.mem_append_left _ hq)) fun q hq => hhead q ?_
      rw [List.head?_append_of_ne_nil _ hne]
      exact hq
    · rw [if_neg (by rw [List.isEmpty_iff]; exact hp), List.rdropWhile_eq_self_iff]
      intro hne
      obtain ⟨front, hfront⟩ := exists_joined_concat ps p
      simp only [hfront, List.getLast_append_of_ne_nil _ hp, beq_iff_eq]
      intro hlast
      apply h p (List.mem_append_right _ (List.mem_singleton_self p))
      rw [← hlast]
      exact List.getLast_mem hp

theorem splitAt_append {p cs : List Char} (h : '/' ∉ p) :
    splitAt '/' (p ++ '/' :: cs) = p :: splitAt '/' cs := by
  induction p with
  | nil => simp [splitAt]
  | cons c p ih => 
    rw [List.mem_cons, not_or] at h
    rw [List.cons_append, splitAt, if_neg (Ne.symm h.1), ih h.2]

theorem splitAt_of_not_mem {p : List Char} (h : '/' ∉ p) : splitAt '/' p = [p] := by
  induction p with
  | nil => rfl
  | cons c p ih =>
    rw [List.mem_cons, not_or] at h
    rw [splitAt, if_neg (Ne.symm h.1), ih h.2]

/-- Parts without slashes are found again between the slashes. -/
theorem splitAt_joined (h : ∀ p ∈ ps, '/' ∉ p) (hne : ps ≠ []) : splitAt '/' (joined ps) = ps := by
  induction ps with
  | nil => exact absurd rfl hne
  | cons p ps ih =>
    have hp := h p List.mem_cons_self
    cases ps with
    | nil =>
      rw [joined, List.flatMap_nil, List.append_nil]
      exact splitAt_of_not_mem hp
    | cons q qs =>
      show splitAt '/' (p ++ '/' :: joined (q :: qs)) = _
      rw [splitAt_append hp, ih (fun r hr => h r (List.mem_cons_of_mem _ hr)) (by simp)]

/-! ### Names -/

/-- The name without the empty components at its ends. -/
def trimmed (n : Name) : Name :=
  ⟨(n.components.dropWhile Component.isEmpty).rdropWhile Component.isEmpty⟩

/-- The name has no empty component. -/
def Solid (n : Name) : Prop := ∀ c ∈ n.components, c.isEmpty = false

instance (n : Name) : Decidable n.Solid :=
  inferInstanceAs (Decidable (∀ c ∈ n.components, c.isEmpty = false))

theorem trimmed_of_solid {n : Name} (h : n.Solid) : n.trimmed = n := by
  have hfront : n.components.dropWhile Component.isEmpty = n.components := by
    rw [List.dropWhile_eq_self_iff]
    intro hlen
    rw [h _ (List.getElem_mem hlen)]
    exact Bool.false_ne_true
  have hback : n.components.rdropWhile Component.isEmpty = n.components := by
    rw [List.rdropWhile_eq_self_iff]
    intro hne
    rw [h _ (List.getLast_mem hne)]
    exact Bool.false_ne_true
  apply Name.ext
  rw [trimmed, hfront, hback]

/-- What is left ends in a component that is not empty. -/
theorem exists_concat_of_trimmed {n : Name} (h : n.trimmed ≠ root) :
    ∃ cs c, n.trimmed.components = cs ++ [c] ∧ c.isEmpty = false := by
  have hne : (n.components.dropWhile Component.isEmpty).rdropWhile Component.isEmpty ≠ [] :=
    fun hnil => h (Name.ext hnil)
  refine ⟨_, _, (List.dropLast_append_getLast hne).symm, ?_⟩
  rw [← Bool.not_eq_true]
  exact List.rdropWhile_last_not _ _ hne

/-! ### Reading -/

/-- Trimming drops empty components. -/
theorem trimSlashes_uriChars (n : Name) :
    trimSlashes n.uriChars = joined (n.trimmed.components.map Component.escape) := by
  have hempty : List.isEmpty ∘ Component.escape = Component.isEmpty := by
    funext c
    exact c.isEmpty_escape
  have htrim : ((n.components.map Component.escape).dropWhile List.isEmpty).rdropWhile
      List.isEmpty = n.trimmed.components.map Component.escape := by
    rw [List.dropWhile_map, hempty, List.rdropWhile, ← List.map_reverse, List.dropWhile_map,
      hempty, ← List.map_reverse]
    rfl
  rw [← htrim]
  unfold uriChars
  split
  · next hroot =>
    rw [List.isEmpty_iff.mp hroot]
    rfl
  · show ((n.components.flatMap fun c => '/' :: c.escape).dropWhile (· == '/')).rdropWhile
      (· == '/') = _
    rw [← List.flatMap_map Component.escape (fun p => '/' :: p), dropWhile_slashes fun p hp =>
      Component.slash_not_mem_of_mem_map hp]
    apply rdropWhile_slashes
    · intro p hp
      exact Component.slash_not_mem_of_mem_map ((List.dropWhile_sublist _).subset hp)
    · intro p hp
      have hhead := List.head?_dropWhile_not List.isEmpty (n.components.map Component.escape)
      rw [hp] at hhead
      simpa using hhead

/-- The parts of a path are read in turn, up to an empty one. -/
theorem mapM_readPart (uri : String) (cs : List Component) :
    (cs.map Component.escape).mapM (readPart uri) =
      if (Name.mk cs).Solid then .ok cs else .error (.emptyComponent uri) := by
  induction cs with
  | nil => rfl
  | cons c cs ih =>
    rw [List.map_cons, List.mapM_cons, readPart_escape, ih]
    have hsolid : (Name.mk (c :: cs)).Solid ↔ c.isEmpty = false ∧ (Name.mk cs).Solid :=
      List.forall_mem_cons
    cases hc : c.isEmpty with
    | true =>
      have hno : ¬ (Name.mk (c :: cs)).Solid := by
        rw [hsolid, hc]
        exact fun h => nomatch h.1
      rw [if_neg hno]
      rfl
    | false =>
      by_cases hrest : (Name.mk cs).Solid
      · rw [if_pos hrest, if_pos (hsolid.mpr ⟨hc, hrest⟩)]
        rfl
      · rw [if_neg hrest, if_neg fun h => hrest (hsolid.mp h).2]
        rfl

theorem uriChars_eq_cons (n : Name) : ∃ cs, n.uriChars = '/' :: cs := by
  unfold uriChars
  split
  · exact ⟨[], rfl⟩
  · next hroot =>
    cases hn : n.components with
    | nil => exact absurd (List.isEmpty_iff.mpr hn) hroot
    | cons c cs => exact ⟨_, rfl⟩

/-- Reading the URI of a name gives the name without the empty components at its ends, unless one is
left. -/
theorem parse_toUri (n : Name) :
    parse n.toUri =
      if n.trimmed.Solid then .ok n.trimmed else .error (.emptyComponent n.toUri) := by
  obtain ⟨cs, hcs⟩ := n.uriChars_eq_cons
  have hpath : dropScheme n.toUri.toList = n.uriChars := by
    rw [toUri, String.toList_ofList, hcs]
    rfl
  unfold parse
  simp only [hpath]
  rw [if_neg (by simp [hcs]), trimSlashes_uriChars]
  by_cases hroot : n.trimmed = root
  · rw [hroot]
    rfl
  · obtain ⟨cs, c, hconcat, hc⟩ := exists_concat_of_trimmed hroot
    have hjoined : joined (n.trimmed.components.map Component.escape) ≠ [] := by
      obtain ⟨front, hfront⟩ := exists_joined_concat (cs.map Component.escape) c.escape
      rw [hconcat, List.map_append, List.map_singleton, hfront]
      apply List.append_ne_nil_of_right_ne_nil
      rw [← List.isEmpty_eq_false_iff, c.isEmpty_escape]
      exact hc
    rw [if_neg (by rw [List.isEmpty_iff]; exact hjoined),
      splitAt_joined (fun p hp => Component.slash_not_mem_of_mem_map hp) (by simp [hconcat]),
      mapM_readPart]
    show Except.map Name.mk (if n.trimmed.Solid then .ok n.trimmed.components
      else .error (UriError.emptyComponent n.toUri)) = _
    split <;> rfl

/-- A name is read back as itself exactly if it has no empty component. -/
theorem parse_toUri_eq_ok_iff {n : Name} : parse n.toUri = .ok n ↔ n.Solid := by
  rw [parse_toUri]
  constructor
  · intro h
    split at h
    · next hsolid =>
      rw [Except.ok.inj h] at hsolid
      exact hsolid
    · cases h
  · intro h
    rw [trimmed_of_solid h, if_pos h]

end Name
end NamedContent
