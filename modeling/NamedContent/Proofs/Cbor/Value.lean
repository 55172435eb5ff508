import Mathlib.Algebra.Group.Int.Defs
import NamedContent.Cbor.Value
import NamedContent.Proofs.Cbor.Head

/-!
# Reading back values

A value made of numbers, byte strings, arrays, maps, truth values and null is read back from its
encoding, whatever comes after it, if it is nested no deeper than the reader goes (`read_encode`).
-/

namespace NamedContent.Cbor.Value

/-- Values that a reader of some depth reads back: lengths and numbers are of 64 bits. -/
inductive Fits : Nat → Value → Prop where
  | int {d : Nat} {n : Int} (low : -(2 ^ 64) ≤ n) (high : n < 2 ^ 64) : Fits d (.int n)
  | bytes {d : Nat} {b : Octets} (length_lt : b.length < 2 ^ 64) : Fits d (.bytes b)
  | bool {d : Nat} (b : Bool) : Fits d (.bool b)
  | null {d : Nat} : Fits d .null
  | array {d : Nat} {items : List Value} (length_lt : items.length < 2 ^ 64)
      (items_fit : ∀ v ∈ items, Fits d v) : Fits (d + 1) (.array items)
  | map {d : Nat} {entries : List (Value × Value)} (length_lt : entries.length < 2 ^ 64)
      (keys_fit : ∀ e ∈ entries, Fits d e.1) (values_fit : ∀ e ∈ entries, Fits d e.2) :
      Fits (d + 1) (.map entries)

/-! ### Encodings of sequences -/

theorem encodeItems_eq (vs : List Value) : encodeItems vs = vs.flatMap encode := by
  induction vs with
  | nil => simp [encodeItems]
  | cons v vs ih => simp [encodeItems, ih]

theorem encodeEntries_eq (es : List (Value × Value)) :
    encodeEntries es = es.flatMap fun e => encode e.1 ++ encode e.2 := by
  induction es with
  | nil => simp [encodeEntries]
  | cons e es ih =>
    obtain ⟨k, v⟩ := e
    simp [encodeEntries, ih]

/-! ### One value -/

theorem readWith_int (nested : Option (Reader Value)) {n : Int} (low : -(2 ^ 64) ≤ n)
    (high : n < 2 ^ 64) (rest : Octets) :
    readWith nested (encode (.int n) ++ rest) = some (.int n, rest) := by
  unfold readWith
  rw [encode]
  split
  · next hn =>
    have harg : (-1 - n).toNat < 2 ^ 64 := by omega
    have hread := readHead_writeHead 1 (by omega) harg rest
    simp [hread, Head.of?, bind, pure]
    omega
  · next hn =>
    have harg : n.toNat < 2 ^ 64 := by omega
    have hread := readHead_writeHead 0 (by omega) harg rest
    have hback : (n.toNat : Int) = n := by omega
    simp [hread, Head.of?, bind, pure, hback]

theorem readWith_bytes (nested : Option (Reader Value)) {b : Octets} (h : b.length < 2 ^ 64)
    (rest : Octets) : readWith nested (encode (.bytes b) ++ rest) = some (.bytes b, rest) := by
  have hread := readHead_writeHead 2 (by omega) h (b ++ rest)
  unfold readWith
  rw [encode, List.append_assoc]
  simp [hread, Head.of?, bind, pure, readBytes_append]

theorem readWith_bool (nested : Option (Reader Value)) (b : Bool) (rest : Octets) :
    readWith nested (encode (.bool b) ++ rest) = some (.bool b, rest) := by
  cases b <;> rfl

theorem readWith_null (nested : Option (Reader Value)) (rest : Octets) :
    readWith nested (encode .null ++ rest) = some (.null, rest) := by
  rfl

theorem readWith_array {nested : Reader Value} {items : List Value} (h : items.length < 2 ^ 64)
    (hitems : ∀ v ∈ items, ∀ rest, nested (encode v ++ rest) = some (v, rest)) (rest : Octets) :
    readWith (some nested) (encode (.array items) ++ rest) = some (.array items, rest) := by
  have hread := readHead_writeHead 4 (by omega) h (encodeItems items ++ rest)
  have hcount := readCount_flatMap nested hitems rest
  rw [← encodeItems_eq] at hcount
  unfold readWith
  rw [encode, List.append_assoc]
  simp [hread, Head.of?, bind, pure, readItems, hcount]

/-- Read two values in a row, as a key and what it stands for. -/
def readEntry (item : Reader Value) : Reader (Value × Value) := fun b => do
  let (k, b) ← item b
  let (v, b) ← item b
  return ((k, v), b)

theorem readWith_map {nested : Reader Value} {entries : List (Value × Value)}
    (h : entries.length < 2 ^ 64)
    (hkeys : ∀ e ∈ entries, ∀ rest, nested (encode e.1 ++ rest) = some (e.1, rest))
    (hvalues : ∀ e ∈ entries, ∀ rest, nested (encode e.2 ++ rest) = some (e.2, rest))
    (rest : Octets) :
    readWith (some nested) (encode (.map entries) ++ rest) = some (.map entries, rest) := by
  have hread := readHead_writeHead 5 (by omega) h (encodeEntries entries ++ rest)
  have hentry : ∀ e ∈ entries, ∀ rest,
      readEntry nested ((encode e.1 ++ encode e.2) ++ rest) = some (e, rest) := by
    intro e he rest
    unfold readEntry
    rw [List.append_assoc, hkeys e he]
    simp only [bind, Option.bind, hvalues e he, pure]
  have hcount := readCount_flatMap (readEntry nested) hentry rest
  rw [← encodeEntries_eq] at hcount
  unfold readEntry at hcount
  unfold readWith
  rw [encode, List.append_assoc]
  simp only [hread, Head.of?, bind, Option.bind, pure, readItems, Option.map] at hcount ⊢
  rw [hcount]

/-- What was written is read back. -/
theorem read_encode {d : Nat} {v : Value} (h : Fits d v) (rest : Octets) :
    read d (v.encode ++ rest) = some (v, rest) := by
  induction h generalizing rest with
  | @int d n low high =>
    cases d with
    | zero => exact readWith_int none low high rest
    | succ d => exact readWith_int (some (read d)) low high rest
  | @bytes d b hlen =>
    cases d with
    | zero => exact readWith_bytes none hlen rest
    | succ d => exact readWith_bytes (some (read d)) hlen rest
  | @bool d b =>
    cases d with
    | zero => exact readWith_bool none b rest
    | succ d => exact readWith_bool (some (read d)) b rest
  | @null d =>
    cases d with
    | zero => exact readWith_null none rest
    | succ d => exact readWith_null (some (read d)) rest
  | array hlen _ ih => exact readWith_array hlen ih rest
  | map hlen _ _ ihk ihv => exact readWith_map hlen ihk ihv rest

theorem decode_encode {v : Value} (h : Fits maxDepth v) (rest : Octets) :
    decode (v.encode ++ rest) = some v := by
  rw [decode, read_encode h]
  rfl

end NamedContent.Cbor.Value
