import NamedContent.Cbor.Head

/-!
# Reading values of a known type

Where the type of a value is known, it is read without building a generic value first: tags in
front of it mean nothing, a number may be written as a big number, and a byte string may stand for
an array of small numbers.
-/

namespace NamedContent.Cbor

/-- Read a head, skipping at most `fuel` tags in front of it. -/
def skipTags : (fuel : Nat) → Reader Head
  | 0, _ => none
  | fuel + 1, b => do
    match ← readHead b with
    | (.tag _, b) => skipTags fuel b
    | found => return found

/-- Read a head, skipping the tags in front of it; each of them takes at least one byte. -/
def readUntagged : Reader Head := fun b => skipTags (b.length + 1) b

def readTextValue : Reader String := fun b => do
  match ← readUntagged b with
  | (.text length, b) => readText length b
  | _ => none

/-! ### Numbers -/

/-- Most bytes of a big number, without leading zeros. -/
def maxMagnitude : Nat := 16

def readMagnitude : Reader Nat := fun b => do
  match ← readHead b with
  | (.bytes length, b) =>
    let (raw, b) ← readBytes length b
    let digits := raw.dropWhile (· == 0)
    if digits.length ≤ maxMagnitude then return (Octets.toNat digits, b) else none
  | _ => none

/-- Read a number, skipping at most `fuel` tags that do not announce a big number. -/
def readIntegerIn : (fuel : Nat) → Reader Int
  | 0, _ => none
  | fuel + 1, b => do
    match ← readHead b with
    | (.unsigned n, b) => return (n, b)
    | (.negative n, b) => return (-1 - n, b)
    | (.tag 2, b) =>
      let (n, b) ← readMagnitude b
      return (n, b)
    | (.tag 3, b) =>
      let (n, b) ← readMagnitude b
      return (-1 - n, b)
    | (.tag _, b) => readIntegerIn fuel b
    | _ => none

def readInteger : Reader Int := fun b => readIntegerIn (b.length + 1) b

def readUInt32 : Reader UInt32 := fun b => do
  let (n, b) ← readInteger b
  if 0 ≤ n ∧ n < UInt32.size then return (UInt32.ofNat n.toNat, b) else none

def readInt64 : Reader Int64 := fun b => do
  let (n, b) ← readInteger b
  if -0x8000000000000000 ≤ n ∧ n < 0x8000000000000000 then return (Int64.ofInt n, b) else none

/-! ### Sequences and maps -/

/-- Read an array of numbers; a byte string stands for the array of its bytes. -/
def readUInt32s : Reader (List UInt32) := fun b => do
  match ← readUntagged b with
  | (.array count, b) => readItems readUInt32 count b
  | (.bytes length, b) =>
    let (raw, b) ← readBytes length b
    return (raw.map UInt8.toUInt32, b)
  | _ => none

def readTextEntry : Reader (String × Int64) := fun b => do
  let (key, b) ← readTextValue b
  let (value, b) ← readInt64 b
  return ((key, value), b)

/-- Read the entries of a map from texts to numbers. -/
def readTextEntries : Reader (List (String × Int64)) := fun b => do
  match ← readUntagged b with
  | (.map count, b) => readItems readTextEntry count b
  | _ => none

/-- Read a text, or null for none. -/
def readOptionalText : Reader (Option String) := fun b => do
  match ← readHead b with
  | (.simple 22, b) => return (none, b)
  | (.simple 23, b) => return (none, b)
  | _ =>
    let (s, b) ← readTextValue b
    return (some s, b)

end NamedContent.Cbor
