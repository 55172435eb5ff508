import Mathlib.Data.List.Forall2
import NamedContent.Proofs.Name.Uri
import NamedContent.Proofs.Outcome

/-!
# The grammar of name URIs

A text is the URI of a name if it is a body with slashes in front, perhaps slashes behind, and
perhaps the scheme before all (`Encloses`), and the body is the parts of the name with one slash
between two of them (`Spells`). A part is a text in which every percent sign that is met from left
to right has two hexadecimal digits behind it (`Unescapes`).

Reading is the function of this relation:

    parse uri = .ok n ↔ ∃ body, Encloses uri.toList body ∧ Spells body n

(`parse_eq_ok_iff`). The grammar is about characters and the reader works on octets. That makes no
difference, because no octet of a character outside of ASCII is a percent sign or a digit
(`utf8EncodeChar_cases`).
-/

namespace NamedContent

/-! ### Digits -/

namespace Octets.Hex

/-- The character is the hexadecimal digit `k`, in either case. -/
def IsDigit (c : Char) (k : Nat) : Prop := k < 16 ∧ (c = digit k ∨ c = upperDigit k)

theorem map_value?_of_isDigit {c : Char} {k : Nat} (h : IsDigit c k) :
    (ofChars [c]).map value? = [some k] := by
  obtain ⟨hk, rfl | rfl⟩ := h
  · decide +revert
  · decide +revert

/-- A byte that is read as a digit is an ASCII character, and that character is the digit. -/
theorem isDigit_of_value? {x : UInt8} {k : Nat} (h : value? x = some k) :
    x.toNat < 128 ∧ IsDigit (Char.ofNat x.toNat) k := by
  unfold value? at h
  simp only [UInt8.le_iff_toNat_le] at h
  split_ifs at h with hdecimal hlower hupper
  · have hk : x.toNat = 48 + k ∧ k < 10 := by
      simp at hdecimal h
      omega
    rw [hk.1]
    refine ⟨by omega, by omega, .inl ?_⟩
    rw [digit, if_pos hk.2]
  · have hk : x.toNat = 87 + k ∧ 10 ≤ k ∧ k < 16 := by
      simp at hlower h
      omega
    rw [hk.1]
    refine ⟨by omega, by omega, .inl ?_⟩
    rw [digit, if_neg (by omega)]
  · have hk : x.toNat = 55 + k ∧ 10 ≤ k ∧ k < 16 := by
      simp at hupper h
      omega
    rw [hk.1]
    refine ⟨by omega, by omega, .inr ?_⟩
    rw [upperDigit, if_neg (by omega)]

/-- Two bytes are read if both are digits. -/
theorem decodeOctets_pair_eq_ok_iff {x y : UInt8} {b : Octets} :
    decodeOctets [x, y] = .ok b ↔
      ∃ hi lo, value? x = some hi ∧ value? y = some lo ∧ b = [UInt8.ofNat (16 * hi + lo)] := by
  unfold decodeOctets
  rw [if_neg (by simp)]
  simp only [decodePairs]
  cases value? x with
  | none => simp
  | some hi =>
    cases value? y with
    | none => simp
    | some lo =>
      constructor
      · intro h
        exact ⟨hi, lo, rfl, rfl, (Except.ok.inj h).symm⟩
      · rintro ⟨_, _, hhi, hlo, rfl⟩
        cases hhi
        cases hlo
        rfl

end Octets.Hex

/-! ### Characters and their octets -/

namespace Octets

/-- A character is one octet if it is in ASCII, and otherwise octets that are not in ASCII. -/
theorem utf8EncodeChar_cases (c : Char) :
    (c.toNat < 128 ∧ String.utf8EncodeChar c = [UInt8.ofNat c.toNat]) ∨
      String.utf8EncodeChar c ≠ [] ∧ ∀ x ∈ String.utf8EncodeChar c, 128 ≤ x.toNat := by
  unfold String.utf8EncodeChar
  dsimp only
  split_ifs with hone htwo hthree
  · exact .inl ⟨Nat.lt_succ_of_le hone, rfl⟩
  all_goals
    right
    refine ⟨List.cons_ne_nil _ _, ?_⟩
    simp only [List.forall_mem_cons, UInt8.toNat_ofNat']
    simp
    omega

theorem ofChars_cons (c : Char) (cs : List Char) :
    ofChars (c :: cs) = String.utf8EncodeChar c ++ ofChars cs :=
  List.flatMap_cons

/-- An octet that is a digit is a character of the text. -/
theorem exists_digit_of_ofChars {cs : List Char} {x : UInt8} {rest : Octets} {k : Nat}
    (h : ofChars cs = x :: rest) (hx : Hex.value? x = some k) :
    ∃ c cs', cs = c :: cs' ∧ Hex.IsDigit c k ∧ ofChars cs' = rest := by
  obtain ⟨hascii, hdigit⟩ := Hex.isDigit_of_value? hx
  cases cs with
  | nil => cases h
  | cons c cs =>
    refine ⟨c, cs, rfl, ?_⟩
    rw [ofChars_cons] at h
    -- The octet is the whole first character, or belongs to one that has no octet in ASCII.
    rcases utf8EncodeChar_cases c with ⟨hc, hone⟩ | ⟨hne, hmany⟩
    · rw [hone, List.singleton_append, List.cons_eq_cons] at h
      have hx : x.toNat = c.toNat := by
        rw [← h.1, UInt8.toNat_ofNat', Nat.mod_eq_of_lt (by omega)]
      rw [hx, Char.ofNat_toNat] at hdigit
      exact ⟨hdigit, h.2⟩
    · obtain ⟨y, ys, hys⟩ := List.exists_cons_of_ne_nil hne
      rw [hys, List.cons_append, List.cons_eq_cons] at h
      have hlarge := hmany y (hys ▸ List.mem_cons_self)
      rw [h.1] at hlarge
      omega

end Octets

namespace Name

open Octets.Hex (IsDigit)

/-! ### Parts -/

/-- The text of a part and the octets that it stands for. A percent sign stands with the two digits
behind it for the octet that they spell, and any other character for itself. -/
inductive Unescapes : List Char → Octets → Prop
  | nil : Unescapes [] []
  | plain {c cs b} : c ≠ '%' → Unescapes cs b → Unescapes (c :: cs) (String.utf8EncodeChar c ++ b)
  | escape {x y hi lo cs b} : IsDigit x hi → IsDigit y lo → Unescapes cs b →
      Unescapes ('%' :: x :: y :: cs) (UInt8.ofNat (16 * hi + lo) :: b)

variable {part : String} {cs : List Char} {b : Octets}

theorem unescape_cons_of_ne {x : UInt8} (h : x ≠ 37) (rest : Octets) :
    unescape part (x :: rest) = (unescape part rest).map (x :: ·) := by
  rw [unescape, if_neg h]
  intro hi lo tail hx
  exact absurd hx h

theorem unescape_append_of_ne {bs : Octets} (h : ∀ x ∈ bs, x ≠ 37) (rest : Octets) :
    unescape part (bs ++ rest) = (unescape part rest).map (bs ++ ·) := by
  induction bs with
  | nil =>
    show unescape part rest = (unescape part rest).map id
    cases unescape part rest <;> rfl
  | cons x bs ih =>
    rw [List.cons_append, unescape_cons_of_ne (h x List.mem_cons_self),
      ih fun y hy => h y (List.mem_cons_of_mem _ hy)]
    cases unescape part rest <;> rfl

/-- Only the percent sign has the octet of the percent sign in it. -/
theorem ne_percent_of_mem {c : Char} (hc : c ≠ '%') : ∀ x ∈ String.utf8EncodeChar c, x ≠ 37 := by
  rcases Octets.utf8EncodeChar_cases c with ⟨hascii, hone⟩ | ⟨-, hmany⟩
  · rw [hone]
    intro x hx hpercent
    rw [List.mem_singleton.mp hx, ← UInt8.toNat_inj, UInt8.toNat_ofNat',
      Nat.mod_eq_of_lt (by omega)] at hpercent
    exact hc (Char.toNat_inj.mp hpercent)
  · rintro x hx rfl
    exact absurd (hmany _ hx) (by decide)

/-- What an escape is read as, and what has to follow the percent sign. -/
theorem unescape_percent_eq_ok_iff {bs : Octets} :
    unescape part (37 :: bs) = .ok b ↔ ∃ x y rest hi lo b', bs = x :: y :: rest ∧
      Octets.Hex.value? x = some hi ∧ Octets.Hex.value? y = some lo ∧
      unescape part rest = .ok b' ∧ b = UInt8.ofNat (16 * hi + lo) :: b' := by
  match bs with
  | [] => simp [unescape]
  | [x] => simp [unescape]
  | x :: y :: rest =>
    rw [unescape]
    constructor
    · intro h
      split at h
      · cases h
      · next bytes hpair =>
        obtain ⟨hi, lo, hx, hy, rfl⟩ := Octets.Hex.decodeOctets_pair_eq_ok_iff.mp hpair
        obtain ⟨b', hrest, rfl⟩ := map_eq_ok_iff.mp h
        exact ⟨x, y, rest, hi, lo, b', rfl, hx, hy, hrest, rfl⟩
    · rintro ⟨_, _, _, hi, lo, b', hbs, hx, hy, hrest, rfl⟩
      cases hbs
      rw [Octets.Hex.decodeOctets_pair_eq_ok_iff.mpr ⟨hi, lo, hx, hy, rfl⟩, hrest]
      rfl

theorem unescape_of_unescapes (h : Unescapes cs b) : unescape part (Octets.ofChars cs) = .ok b := by
  -- The reader takes the octets of one character, or of one escape, for each rule.
  induction h with
  | nil => rfl
  | plain hc _ ih =>
    rw [Octets.ofChars_cons, unescape_append_of_ne (ne_percent_of_mem hc), ih]
    rfl
  | @escape x y hi lo cs b hx hy _ ih =>
    obtain ⟨u, hu, hhi⟩ := List.map_eq_singleton_iff.mp (Octets.Hex.map_value?_of_isDigit hx)
    obtain ⟨w, hw, hlo⟩ := List.map_eq_singleton_iff.mp (Octets.Hex.map_value?_of_isDigit hy)
    show unescape part (Octets.ofChars (['%'] ++ ([x] ++ ([y] ++ cs)))) = _
    rw [ofChars_append, ofChars_append, ofChars_append, hu, hw]
    exact unescape_percent_eq_ok_iff.mpr ⟨u, w, _, hi, lo, b, rfl, hhi, hlo, ih, rfl⟩

theorem unescapes_of_unescape (h : unescape part (Octets.ofChars cs) = .ok b) :
    Unescapes cs b := by
  -- An escape takes three characters at once, so the induction is on the length.
  induction hlen : cs.length using Nat.strong_induction_on generalizing cs b with
  | _ len ih =>
    cases cs with
    | nil =>
      cases h
      exact .nil
    | cons c cs =>
      by_cases hc : c = '%'
      · subst hc
        obtain ⟨x, y, rest, hi, lo, b', hbs, hx, hy, hrest, rfl⟩ :=
          unescape_percent_eq_ok_iff.mp h
        obtain ⟨c, cs, rfl, hhi, hcs⟩ := Octets.exists_digit_of_ofChars hbs hx
        obtain ⟨d, ds, rfl, hlo, rfl⟩ := Octets.exists_digit_of_ofChars hcs hy
        refine .escape hhi hlo (ih ds.length ?_ hrest rfl)
        simp only [← hlen, List.length_cons]
        omega
      · rw [Octets.ofChars_cons, unescape_append_of_ne (ne_percent_of_mem hc)] at h
        obtain ⟨b', hrest, rfl⟩ := map_eq_ok_iff.mp h
        refine .plain hc (ih cs.length ?_ hrest rfl)
        rw [← hlen, List.length_cons]
        exact Nat.lt_succ_self _

/-- A part is read as the octets that it stands for. -/
theorem unescape_eq_ok_iff : unescape part (Octets.ofChars cs) = .ok b ↔ Unescapes cs b :=
  ⟨unescapes_of_unescape, unescape_of_unescapes⟩

theorem Unescapes.ne_nil (h : Unescapes cs b) (hne : cs ≠ []) : b ≠ [] := by
  cases h with
  | nil => exact absurd rfl hne
  | plain _ _ => exact List.append_ne_nil_of_left_ne_nil String.utf8EncodeChar_ne_nil _
  | escape _ _ _ => exact List.cons_ne_nil _ _

theorem readPart_eq_ok_iff {uri : String} {c : Component} :
    readPart uri cs = .ok c ↔ cs ≠ [] ∧ Unescapes cs c.octets := by
  unfold readPart
  split
  · next hempty =>
    simp [List.isEmpty_iff.mp hempty]
  · next hempty =>
    rw [List.isEmpty_iff] at hempty
    simp [map_eq_ok_iff, unescape_eq_ok_iff, Component.ext_iff, hempty]

/-! ### Slashes -/

/-- The text is a body with slashes in front, perhaps slashes behind, and perhaps the scheme before
all. The body neither begins nor ends with a slash. -/
def Encloses (text body : List Char) : Prop :=
  ∃ front back, (text = front ++ body ++ back ∨ text = scheme ++ (front ++ body ++ back)) ∧
    front ≠ [] ∧ (∀ c ∈ front ++ back, c = '/') ∧
    body.head? ≠ some '/' ∧ body.getLast? ≠ some '/'

variable {body front back : List Char}

theorem dropWhile_of_head? (h : body.head? ≠ some '/') : body.dropWhile (· == '/') = body := by
  cases body with
  | nil => rfl
  | cons c cs => exact List.dropWhile_cons_of_neg fun hc => h (congrArg some (beq_iff_eq.mp hc))

/-- What is trimmed away is the slashes. -/
theorem trimSlashes_append (hslashes : ∀ c ∈ front ++ back, c = '/') (hhead : body.head? ≠ some '/')
    (hlast : body.getLast? ≠ some '/') : trimSlashes (front ++ body ++ back) = body := by
  have hfront : ∀ c ∈ front, (c == '/') = true := fun c hc =>
    beq_iff_eq.mpr (hslashes c (List.mem_append_left _ hc))
  have hback : ∀ c ∈ back, (c == '/') = true := fun c hc =>
    beq_iff_eq.mpr (hslashes c (List.mem_append_right _ hc))
  unfold trimSlashes
  rw [List.append_assoc, List.dropWhile_append_of_pos hfront]
  by_cases hbody : body = []
  · rw [hbody, List.nil_append, List.dropWhile_eq_nil_iff.mpr hback]
    rfl
  · have hbegins : (body ++ back).head? ≠ some '/' := by
      rw [List.head?_append_of_ne_nil _ hbody]
      exact hhead
    have hends : body.reverse.head? ≠ some '/' := by
      rw [List.head?_reverse]
      exact hlast
    rw [dropWhile_of_head? hbegins, List.reverse_append, List.dropWhile_append_of_pos fun c hc =>
      hback c (List.mem_reverse.mp hc), dropWhile_of_head? hends, List.reverse_reverse]

/-- A text that begins with a slash is what trimming leaves, with slashes around it. -/
theorem exists_trimSlashes {path : List Char} (h : path.head? = some '/') :
    ∃ front back, path = front ++ trimSlashes path ++ back ∧ front ≠ [] ∧
      (∀ c ∈ front ++ back, c = '/') := by
  refine ⟨path.takeWhile (· == '/'), (path.dropWhile (· == '/')).rtakeWhile (· == '/'), ?_, ?_, ?_⟩
  · show path = path.takeWhile (· == '/') ++ (path.dropWhile (· == '/')).rdropWhile (· == '/') ++ _
    rw [List.append_assoc, List.rdropWhile_append_rtakeWhile, List.takeWhile_append_dropWhile]
  · obtain ⟨cs, rfl⟩ := List.head?_eq_some_iff.mp h
    exact List.cons_ne_nil _ _
  · intro c hc
    rcases List.mem_append.mp hc with hc | hc
    · have hslash : (c == '/') = true := List.mem_takeWhile_imp (p := (· == '/')) hc
      exact beq_iff_eq.mp hslash
    · have hslash : (c == '/') = true := List.mem_rtakeWhile_imp (p := (· == '/')) hc
      exact beq_iff_eq.mp hslash

theorem head?_trimSlashes (path : List Char) : (trimSlashes path).head? ≠ some '/' := by
  intro h
  have hprefix : trimSlashes path <+: path.dropWhile (· == '/') := List.rdropWhile_prefix _ _
  obtain ⟨back, hback⟩ := hprefix
  have hnot := List.head?_dropWhile_not (· == '/') path
  rw [← hback, List.head?_append, h] at hnot
  simp at hnot

theorem getLast?_trimSlashes (path : List Char) : (trimSlashes path).getLast? ≠ some '/' := by
  intro h
  have hnot := List.head?_dropWhile_not (· == '/') (path.dropWhile (· == '/')).reverse
  rw [trimSlashes, List.getLast?_reverse] at h
  rw [h] at hnot
  simp at hnot

theorem eq_dropScheme (text : List Char) :
    text = dropScheme text ∨ text = scheme ++ dropScheme text := by
  unfold dropScheme
  split
  · next h =>
    obtain ⟨rest, hrest⟩ := List.isPrefixOf_iff_prefix.mp h
    right
    rw [← hrest, List.drop_left]
  · exact .inl rfl

/-- The body of a text is what is left of it without the scheme and the slashes. -/
theorem encloses_iff {text : List Char} :
    Encloses text body ↔
      (dropScheme text).head? = some '/' ∧ trimSlashes (dropScheme text) = body := by
  constructor
  · rintro ⟨front, back, htext, hne, hslashes, hhead, hlast⟩
    obtain ⟨c, cs, rfl⟩ := List.exists_cons_of_ne_nil hne
    cases hslashes c List.mem_cons_self
    have hdrop : dropScheme text = '/' :: cs ++ body ++ back := by
      rcases htext with rfl | rfl <;> rfl
    rw [hdrop]
    exact ⟨rfl, trimSlashes_append hslashes hhead hlast⟩
  · rintro ⟨hpath, rfl⟩
    obtain ⟨front, back, htrim, hne, hslashes⟩ := exists_trimSlashes hpath
    refine ⟨front, back, ?_, hne, hslashes, head?_trimSlashes _, getLast?_trimSlashes _⟩
    rw [← htrim]
    exact eq_dropScheme text

/-! ### What is between the slashes -/

theorem splitAt_eq_splitOn (sep : Char) (cs : List Char) : splitAt sep cs = cs.splitOn sep := by
  induction cs with
  | nil => rfl
  | cons c cs ih =>
    rw [splitAt, List.splitOn_cons_eq_if_modifyHead, ih]
    simp only [beq_iff_eq]
    split
    · rfl
    · obtain ⟨p, ps, hps⟩ := List.exists_cons_of_ne_nil (List.splitOn_ne_nil sep cs)
      rw [hps]
      rfl

variable {sep : Char}

theorem head?_splitOn_eq_nil_iff :
    (cs.splitOn sep).head? = some [] ↔ cs = [] ∨ cs.head? = some sep := by
  cases cs with
  | nil => simp
  | cons c cs =>
    rw [List.splitOn_cons_eq_if_modifyHead]
    obtain ⟨p, ps, hps⟩ := List.exists_cons_of_ne_nil (List.splitOn_ne_nil sep cs)
    by_cases hc : c = sep <;> simp [hps, hc]

theorem pair_infix_cons_iff {c : Char} :
    [sep, sep] <:+: c :: cs ↔ c = sep ∧ cs.head? = some sep ∨ [sep, sep] <:+: cs := by
  have hone : [sep] <+: cs ↔ cs.head? = some sep := by
    cases cs with
    | nil => simp
    | cons d cs => simp [List.cons_prefix_cons, eq_comm]
  rw [List.infix_cons_iff, List.cons_prefix_cons, hone, eq_comm]

/-- A part behind the first one is empty exactly if there is a separator at the end or two are
adjacent. -/
theorem nil_mem_tail_splitOn_iff :
    [] ∈ (cs.splitOn sep).tail ↔ cs.getLast? = some sep ∨ [sep, sep] <:+: cs := by
  induction cs with
  | nil => simp
  | cons c cs ih =>
    rw [List.splitOn_cons_eq_if_modifyHead, pair_infix_cons_iff]
    by_cases hc : c = sep
    -- Behind a separator the first part of the rest counts, too; it is empty if the rest is, or
    -- begins with a separator.
    · have hmem : [] ∈ cs.splitOn sep ↔
          (cs.splitOn sep).head? = some [] ∨ [] ∈ (cs.splitOn sep).tail := by
        obtain ⟨p, ps, hps⟩ := List.exists_cons_of_ne_nil (List.splitOn_ne_nil sep cs)
        simp [hps, eq_comm]
      rw [if_pos (beq_iff_eq.mpr hc), List.tail_cons, hmem, head?_splitOn_eq_nil_iff, ih]
      cases cs with
      | nil => simp [hc]
      | cons d cs => simp [hc, List.getLast?_cons_cons, or_left_comm]
    · rw [if_neg (by simpa using hc), List.tail_modifyHead, ih]
      cases cs <;> simp [hc, List.getLast?_cons_cons]

/-- No part of a body is empty exactly if no two slashes in it are adjacent. -/
theorem forall_splitOn_ne_nil_iff (hne : body ≠ []) (hhead : body.head? ≠ some '/')
    (hlast : body.getLast? ≠ some '/') :
    (∀ part ∈ body.splitOn '/', part ≠ []) ↔ ¬ ['/', '/'] <:+: body := by
  obtain ⟨p, ps, hps⟩ := List.exists_cons_of_ne_nil (List.splitOn_ne_nil '/' body)
  have hfirst : p ≠ [] := by
    rintro rfl
    rcases head?_splitOn_eq_nil_iff.mp (congrArg List.head? hps) with hnil | hslash
    · exact hne hnil
    · exact hhead hslash
  have htail : [] ∈ (body.splitOn '/').tail ↔ body.getLast? = some '/' ∨ ['/', '/'] <:+: body :=
    nil_mem_tail_splitOn_iff
  rw [or_iff_right hlast, hps, List.tail_cons] at htail
  rw [← htail, hps, List.forall_mem_cons, and_iff_right hfirst]
  constructor
  · intro h hmem
    exact h [] hmem rfl
  · rintro h part hpart rfl
    exact h hpart

/-! ### Names -/

/-- The body is empty and the name is the root, or the body is the parts of the name, none of which
is empty, with one slash between two of them. -/
def Spells (body : List Char) (n : Name) : Prop :=
  body = [] ∧ n = root ∨
    body ≠ [] ∧ ¬ ['/', '/'] <:+: body ∧
      List.Forall₂ (fun part c => Unescapes part c.octets) (body.splitOn '/') n.components

variable {uri : String} {n : Name}

theorem spells_nil_iff : Spells [] n ↔ n = root := by
  simp [Spells]

/-- The parts of a body are read in turn. -/
theorem mapM_readPart_eq_ok_iff (uri : String) (hne : body ≠ []) (hhead : body.head? ≠ some '/')
    (hlast : body.getLast? ≠ some '/') :
    (splitAt '/' body).mapM (readPart uri) = .ok n.components ↔ Spells body n := by
  simp only [mapM_eq_ok_iff, readPart_eq_ok_iff, splitAt_eq_splitOn, List.forall₂_and_left,
    forall_splitOn_ne_nil_iff hne hhead hlast]
  constructor
  · intro h
    exact .inr ⟨hne, h⟩
  · rintro (⟨hnil, -⟩ | ⟨-, h⟩)
    · exact absurd hnil hne
    · exact h

/-- A text is read as the name that its body spells, and as nothing else. -/
theorem parse_eq_ok_iff :
    parse uri = .ok n ↔ ∃ body, Encloses uri.toList body ∧ Spells body n := by
  unfold parse
  dsimp only
  by_cases hpath : (dropScheme uri.toList).head? = some '/'
  · have hbody : (∃ body, Encloses uri.toList body ∧ Spells body n) ↔
        Spells (trimSlashes (dropScheme uri.toList)) n := by
      simp only [encloses_iff, hpath, true_and, exists_eq_left']
    rw [if_neg (not_not.mpr hpath), hbody]
    split
    · next hempty =>
      rw [List.isEmpty_iff] at hempty
      rw [hempty, spells_nil_iff, Except.ok.injEq, eq_comm]
    · next hempty =>
      rw [List.isEmpty_iff] at hempty
      rw [← mapM_readPart_eq_ok_iff uri hempty (head?_trimSlashes _) (getLast?_trimSlashes _),
        map_eq_ok_iff]
      simp [Name.ext_iff]
  · rw [if_pos hpath]
    simp [encloses_iff, hpath]

/-- Parts that are not empty stand for components that are not empty. -/
theorem solid_of_spells {text : List Char} (hbody : Encloses text body) (h : Spells body n) :
    n.Solid := by
  obtain ⟨-, -, -, -, -, hhead, hlast⟩ := hbody
  rcases h with ⟨-, rfl⟩ | ⟨hne, hadjacent, hparts⟩
  · exact nofun
  · have hfull := (forall_splitOn_ne_nil_iff hne hhead hlast).mpr hadjacent
    have hcomponents : List.Forall₂ (fun c _ => c.isEmpty = false ∧ True) n.components
        (body.splitOn '/') := by
      refine (List.Forall₂.imp ?_ ((List.forall₂_and_left _ _).mpr ⟨hfull, hparts⟩)).flip
      rintro part c ⟨hpart, hc⟩
      exact ⟨List.isEmpty_eq_false_iff.mpr (hc.ne_nil hpart), trivial⟩
    exact ((List.forall₂_and_left _ _).mp hcomponents).1

theorem exists_forall₂_iff {α β : Type} {R : α → β → Prop} {xs : List α} :
    (∃ ys, List.Forall₂ R xs ys) ↔ ∀ x ∈ xs, ∃ y, R x y := by
  induction xs with
  | nil => simp
  | cons x xs ih =>
    rw [List.forall_mem_cons, ← ih]
    simp only [List.forall₂_cons_left_iff]
    constructor
    · rintro ⟨_, y, ys, hy, hys, -⟩
      exact ⟨⟨y, hy⟩, ys, hys⟩
    · rintro ⟨⟨y, hy⟩, ys, hys⟩
      exact ⟨_, y, ys, hy, hys, rfl⟩

/-- A body spells a name exactly if it is empty, or has no two adjacent slashes and what is between
them are parts. -/
theorem exists_spells_iff :
    (∃ n, Spells body n) ↔ body = [] ∨ ¬ ['/', '/'] <:+: body ∧
      ∀ part ∈ body.splitOn '/', ∃ b, Unescapes part b := by
  by_cases hbody : body = []
  · simp [hbody, spells_nil_iff]
  · have hcomponents : (∃ n : Name, List.Forall₂ (fun part c => Unescapes part c.octets)
        (body.splitOn '/') n.components) ↔ ∀ part ∈ body.splitOn '/', ∃ b, Unescapes part b := by
      rw [← exists_forall₂_iff]
      constructor
      · rintro ⟨n, h⟩
        exact ⟨n.components.map Component.octets, List.forall₂_map_right_iff.mpr h⟩
      · rintro ⟨bs, h⟩
        refine ⟨⟨bs.map Component.mk⟩, List.forall₂_map_right_iff.mpr h⟩
    simp [Spells, hbody, hcomponents]

/-- A name without empty components is read back from its URI, so that no other such name has the
same one. A text can be read exactly if it is a body with slashes in front, perhaps slashes behind,
and perhaps the scheme before all, and the body is empty, or has no two adjacent slashes and in each
part two digits behind every percent sign. It is then read as the name of its parts, which has no
empty component and is read back from its own URI. -/
theorem parse_spells :
    (∀ n : Name, n.Solid → parse n.toUri = .ok n) ∧
    (∀ n m : Name, n.Solid → m.Solid → n.toUri = m.toUri → n = m) ∧
    ∀ uri : String,
      ((∃ n, parse uri = .ok n) ↔ ∃ body, Encloses uri.toList body ∧
        (body = [] ∨ ¬ ['/', '/'] <:+: body ∧
          ∀ part ∈ body.splitOn '/', ∃ b, Unescapes part b)) ∧
      ∀ n, parse uri = .ok n →
        (∃ body, Encloses uri.toList body ∧ Spells body n) ∧ n.Solid ∧ parse n.toUri = .ok n := by
  refine ⟨fun n hn => parse_toUri_eq_ok_iff.mpr hn, fun n m hn hm huri => ?_, fun uri => ⟨?_, ?_⟩⟩
  · have hread := parse_toUri_eq_ok_iff.mpr hn
    rw [huri, parse_toUri_eq_ok_iff.mpr hm] at hread
    exact (Except.ok.inj hread).symm
  · simp only [parse_eq_ok_iff, ← exists_spells_iff]
    rw [exists_comm]
    simp only [exists_and_left]
  · intro n hread
    obtain ⟨body, hbody, hspells⟩ := parse_eq_ok_iff.mp hread
    have hsolid := solid_of_spells hbody hspells
    exact ⟨⟨body, hbody, hspells⟩, hsolid, parse_toUri_eq_ok_iff.mpr hsolid⟩

/-- Components that look like the scheme, a slash and an escape, and one outside of ASCII. -/
def disguised : Name := ⟨[.ofText "ccnx:", .ofText "/", .ofText "%2f", .ofText "é"]⟩

theorem parse_spells_disguised :
    disguised.Solid ∧ parse disguised.toUri = .ok disguised ∧
      parse "ccnx://ccnx:/%2f/%252f/é//" = .ok disguised ∧
      ∃ body, Encloses "ccnx://ccnx:/%2f/%252f/é//".toList body ∧ Spells body disguised := by
  have hsolid : disguised.Solid := by decide
  have hread : parse "ccnx://ccnx:/%2f/%252f/é//" = .ok disguised := by decide +kernel
  exact ⟨hsolid, parse_spells.1 disguised hsolid, hread,
    ((parse_spells.2.2 _).2 disguised hread).1⟩

end Name
end NamedContent
