import NamedContent.Cbor.Head

/-!
# CBOR values

The generic data model of CBOR, its deterministic writer and a liberal reader. Written values use
the shortest heads and known lengths; map entries go out in the order in which they are listed. The
reader takes one value from the front of a byte string and leaves the rest alone; it also accepts
longer heads and open forms, and limits how deeply arrays, maps and tags may be nested.
-/

namespace NamedContent.Cbor

/-- A CBOR value. Undefined is read as null; integers cover `-2^64 … 2^64 - 1`. -/
inductive Value where
  | int (n : Int)
  | bytes (b : Octets)
  | text (s : String)
  | array (items : List Value)
  | map (entries : List (Value × Value))
  | bool (b : Bool)
  | null
  | float (raw : Octets)
  | tagged (tag : Nat) (value : Value)

namespace Value

/-! ### Writing -/

mutual

def encode : Value → Octets
  | .int n => if n < 0 then writeHead 1 (-1 - n).toNat else writeHead 0 n.toNat
  | .bytes b => writeHead 2 b.length ++ b
  | .text s => writeHead 3 (Octets.ofText s).length ++ Octets.ofText s
  | .array items => writeHead 4 items.length ++ encodeItems items
  | .map entries => writeHead 5 entries.length ++ encodeEntries entries
  | .bool b => [if b then 0xf5 else 0xf4]
  | .null => [0xf6]
  | .float raw => (if raw.length = 2 then 0xf9 else if raw.length = 4 then 0xfa else 0xfb) :: raw
  | .tagged t v => writeHead 6 t ++ encode v

def encodeItems : List Value → Octets
  | [] => []
  | v :: vs => encode v ++ encodeItems vs

def encodeEntries : List (Value × Value) → Octets
  | [] => []
  | (k, v) :: es => encode k ++ encode v ++ encodeEntries es

end

/-! ### Reading -/

/-- The value of a byte string of at most sixteen bytes behind the tag of a positive (2) or
negative (3) big number. A magnitude that is no 64-bit number stays tagged; one of `2 ^ 127` or
more behind the negative tag is refused. -/
def ofBignum (tag : Nat) (b : Octets) : Option Value :=
  let n := Octets.toNat b
  if tag = 3 ∧ 1 <<< 127 ≤ n then none
  else if UInt64.size ≤ n then some (.tagged tag (.bytes b))
  else if tag = 2 then some (.int n)
  else some (.int (-1 - n))

def readTagged (nested : Option (Reader Value)) (tag : Nat) : Reader Value := fun b =>
  let generic : Option (Value × Octets) := do
    let (v, b) ← (← nested) b
    return (.tagged tag v, b)
  if tag = 2 ∨ tag = 3 then
    match readHead b with
    | some (.bytes (some n), rest) =>
      if n ≤ 16 then do
        let (raw, rest) ← take n rest
        return (← ofBignum tag raw, rest)
      else generic
    | _ => generic
  else generic

/-- Read a value, with `nested` as the reader for what stands inside it; without one, only values
that hold no others can be read. -/
def readWith (nested : Option (Reader Value)) : Reader Value := fun b => do
  let (h, b) ← readHead b
  match h with
  | .unsigned n => return (.int n, b)
  | .negative n => return (.int (-1 - n), b)
  | .bytes length => do
    let (s, b) ← readBytes length b
    return (.bytes s, b)
  | .text length => do
    let (s, b) ← readText length b
    return (.text s, b)
  | .array count => do
    let (items, b) ← readItems (← nested) count b
    return (.array items, b)
  | .map count => do
    let item ← nested
    let entry : Reader (Value × Value) := fun b => do
      let (k, b) ← item b
      let (v, b) ← item b
      return ((k, v), b)
    let (entries, b) ← readItems entry count b
    return (.map entries, b)
  | .tag t => readTagged nested t b
  | .simple 20 => return (.bool false, b)
  | .simple 21 => return (.bool true, b)
  | .simple 22 => return (.null, b)
  | .simple 23 => return (.null, b)
  | .simple _ => none
  | .float raw => return (.float raw, b)
  | .stop => none

/-- Read a value in which arrays, maps and tags are nested at most `depth` deep. -/
def read : (depth : Nat) → Reader Value
  | 0 => readWith none
  | depth + 1 => readWith (some (read depth))

def maxDepth : Nat := 256

def decode (b : Octets) : Option Value := (read maxDepth b).map Prod.fst

/-! ### Views -/

/-- The number that a value is, if it is one of 64 bits without sign. -/
def toUInt64? : Value → Option UInt64
  | .int n => if 0 ≤ n ∧ n < UInt64.size then some (UInt64.ofNat n.toNat) else none
  | _ => none

def toBlock? (n : Nat) : Value → Option (Block n)
  | .bytes b => Block.ofOctets? n b
  | _ => none

end Value

end NamedContent.Cbor
