import NamedContent.Octets

/-!
# CBOR heads

Every CBOR item starts with a head: three bits of major type and an argument, which is a number, a
length or a count. `write` produces the shortest head. `read` accepts every width, and for strings,
arrays and maps also the open form, whose end is marked by a stop head.

A `Reader` takes what it needs from the front of a byte string and returns the rest.
-/

namespace NamedContent.Cbor

/-- Reads a value from the front of a byte string and returns it with the rest. -/
abbrev Reader (α : Type) := Octets → Option (α × Octets)

def take (n : Nat) : Reader Octets := fun b =>
  let chunk := b.take n
  if chunk.length = n then some (chunk, b.drop n) else none

/-! ### Writing -/

/-- The shortest head of a major type with an argument below `2 ^ 64`. -/
def writeHead (major arg : Nat) : Octets :=
  let lead (minor : Nat) : UInt8 := UInt8.ofNat (major * 32 + minor)
  if arg < 24 then [lead arg]
  else if arg < UInt8.size then lead 24 :: Octets.ofNat 1 arg
  else if arg < UInt16.size then lead 25 :: Octets.ofNat 2 arg
  else if arg < UInt32.size then lead 26 :: Octets.ofNat 4 arg
  else lead 27 :: Octets.ofNat 8 arg

/-! ### Reading -/

/-- What a head announces. Lengths and counts are absent in the open form. -/
inductive Head where
  | unsigned (n : Nat)
  /-- The number `-1 - n`. -/
  | negative (n : Nat)
  | bytes (length : Option Nat)
  | text (length : Option Nat)
  | array (count : Option Nat)
  | map (count : Option Nat)
  | tag (number : Nat)
  /-- A simple value: false, true, null, undefined or an unassigned one. -/
  | simple (number : Nat)
  /-- A floating-point number of two, four or eight bytes. -/
  | float (raw : Octets)
  /-- The end of an open string, array or map. -/
  | stop
  deriving DecidableEq

/-- Read the argument that the low five bits of a head announce; `none` is the open form. -/
def readArgument (minor : Nat) : Reader (Option Nat) := fun b =>
  let wide (width : Nat) : Option (Option Nat × Octets) := do
    let (digits, rest) ← take width b
    return (some (Octets.toNat digits), rest)
  if minor < 24 then some (some minor, b)
  else
    match minor with
    | 24 => wide 1
    | 25 => wide 2
    | 26 => wide 4
    | 27 => wide 8
    | 31 => some (none, b)
    | _ => none

def readSpecial (minor : Nat) : Reader Head := fun b =>
  let float (width : Nat) : Option (Head × Octets) := do
    let (raw, rest) ← take width b
    return (.float raw, rest)
  if minor < 24 then some (.simple minor, b)
  else
    match minor with
    | 24 => do
      let (raw, rest) ← take 1 b
      return (.simple (Octets.toNat raw), rest)
    | 25 => float 2
    | 26 => float 4
    | 27 => float 8
    | 31 => some (.stop, b)
    | _ => none

/-- The head of a major type and argument; numbers and tags have no open form. -/
def Head.of? (major : Nat) (arg : Option Nat) : Option Head :=
  match major, arg with
  | 0, some n => some (.unsigned n)
  | 1, some n => some (.negative n)
  | 2, _ => some (.bytes arg)
  | 3, _ => some (.text arg)
  | 4, _ => some (.array arg)
  | 5, _ => some (.map arg)
  | 6, some n => some (.tag n)
  | _, _ => none

def readHead : Reader Head
  | [] => none
  | lead :: b =>
    let major := lead.toNat / 32
    let minor := lead.toNat % 32
    if major = 7 then readSpecial minor b
    else do
      let (arg, rest) ← readArgument minor b
      return (← Head.of? major arg, rest)

/-! ### Sequences and strings -/

def readCount {α : Type} (item : Reader α) : Nat → Reader (List α)
  | 0, b => some ([], b)
  | n + 1, b => do
    let (x, b) ← item b
    let (xs, b) ← readCount item n b
    return (x :: xs, b)

/-- Read items up to a stop head; `fuel` bounds their number. -/
def readUntilStop {α : Type} (item : Reader α) : (fuel : Nat) → Reader (List α)
  | 0, _ => none
  | fuel + 1, b =>
    match readHead b with
    | some (.stop, rest) => some ([], rest)
    | _ => do
      let (x, b) ← item b
      let (xs, b) ← readUntilStop item fuel b
      return (x :: xs, b)

/-- Read the items of an array or map, whose number is known or ended by a stop head. Every item
takes at least one byte, so the length of the input bounds their number. -/
def readItems {α : Type} (item : Reader α) : Option Nat → Reader (List α)
  | some n, b => readCount item n b
  | none, b => readUntilStop item (b.length + 1) b

/-- Read the chunks of an open string. Open strings inside it are flattened: `nested` counts those
that are still to be closed. -/
def readChunks (sized : Head → Option (Option Nat)) : (fuel nested : Nat) → Reader (List Octets)
  | 0, _, _ => none
  | fuel + 1, nested, b => do
    let (h, b) ← readHead b
    match h, nested with
    | .stop, 0 => return ([], b)
    | .stop, outer + 1 => readChunks sized fuel outer b
    | h, _ =>
      match ← sized h with
      | none => readChunks sized fuel (nested + 1) b
      | some n =>
        let (chunk, b) ← take n b
        let (chunks, b) ← readChunks sized fuel nested b
        return (chunk :: chunks, b)

def Head.bytesLength? : Head → Option (Option Nat)
  | .bytes length => some length
  | _ => none

def Head.textLength? : Head → Option (Option Nat)
  | .text length => some length
  | _ => none

/-- Read the chunks of a string, one if its length is known. -/
def readString (sized : Head → Option (Option Nat)) : Option Nat → Reader (List Octets)
  | some n, b => do
    let (chunk, b) ← take n b
    return ([chunk], b)
  | none, b => readChunks sized (b.length + 1) 0 b

def readBytes (length : Option Nat) : Reader Octets := fun b => do
  let (chunks, b) ← readString Head.bytesLength? length b
  return (chunks.flatten, b)

/-- Read a text of which the head has been read. Every chunk is valid UTF-8 on its own. -/
def readText (length : Option Nat) : Reader String := fun b => do
  let (chunks, b) ← readString Head.textLength? length b
  let texts ← chunks.mapM Octets.toText?
  return (String.join texts, b)

end NamedContent.Cbor
