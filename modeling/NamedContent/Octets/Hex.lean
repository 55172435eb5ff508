import NamedContent.Octets

/-!
# Hexadecimal text

`encode` writes two lowercase digits for each byte. `decode` reads either case and says what is
wrong with a text that is not hexadecimal: first whether its length is odd, then the first
character that is no digit.
-/

namespace NamedContent.Octets.Hex

/-- Why a text is not the hexadecimal form of the wanted bytes. -/
inductive Error where
  | oddLength
  /-- The byte at a position of the text is no hexadecimal digit. -/
  | invalidDigit (byte : UInt8) (position : Nat)
  /-- The text spells a byte string of another length than the one wanted. -/
  | invalidLength
  deriving DecidableEq, Repr

def digit (n : Nat) : Char := if n < 10 then Char.ofNat (48 + n) else Char.ofNat (87 + n)

def upperDigit (n : Nat) : Char := if n < 10 then Char.ofNat (48 + n) else Char.ofNat (55 + n)

def byteDigits (b : UInt8) : List Char := [digit (b.toNat / 16), digit (b.toNat % 16)]

def encode (b : Octets) : String := String.ofList (b.flatMap byteDigits)

/-- The number a digit stands for, the digit given as its ASCII byte. -/
def value? (x : UInt8) : Option Nat :=
  if 48 ≤ x ∧ x ≤ 57 then some (x.toNat - 48)
  else if 97 ≤ x ∧ x ≤ 102 then some (x.toNat - 87)
  else if 65 ≤ x ∧ x ≤ 70 then some (x.toNat - 55)
  else none

/-- Read an even number of digits, the first of which stands at `position`. -/
def decodePairs (position : Nat) : Octets → Except Error Octets
  | [] => .ok []
  | [_] => .error .oddLength
  | hi :: lo :: rest =>
    match value? hi, value? lo with
    | none, _ => .error (.invalidDigit hi position)
    | some _, none => .error (.invalidDigit lo (position + 1))
    | some h, some l => do
      let bytes ← decodePairs (position + 2) rest
      return UInt8.ofNat (16 * h + l) :: bytes

def decodeOctets (text : Octets) : Except Error Octets :=
  if text.length % 2 = 1 then .error .oddLength else decodePairs 0 text

def decode (text : String) : Except Error Octets := decodeOctets (ofText text)

def decodeBlock (n : Nat) (text : String) : Except Error (Block n) := do
  match Block.ofOctets? n (← decode text) with
  | some b => return b
  | none => throw .invalidLength

/-! ### Wording -/

/-- The shortest hexadecimal numeral of a code point below 256. -/
def codePoint (n : Nat) : List Char :=
  if n < 16 then [digit n] else [digit (n / 16), digit (n % 16)]

/-- A byte as a quoted character of the first 256 code points: control characters, the quote, the
backslash and other unprintable characters are escaped. -/
def quoted (b : UInt8) : String :=
  let body : List Char :=
    match b.toNat with
    | 0 => ['\\', '0']
    | 9 => ['\\', 't']
    | 10 => ['\\', 'n']
    | 13 => ['\\', 'r']
    | 39 => ['\\', Char.ofNat 39]
    | 92 => ['\\', '\\']
    | n =>
      if n < 32 ∨ (127 ≤ n ∧ n ≤ 160) ∨ n = 173 then
        ['\\', 'u', Char.ofNat 123] ++ codePoint n ++ [Char.ofNat 125]
      else [Char.ofNat n]
  String.ofList ([Char.ofNat 39] ++ body ++ [Char.ofNat 39])

def Error.message : Error → String
  | .oddLength => "Odd number of digits"
  | .invalidDigit byte position =>
    "Invalid character " ++ quoted byte ++ " at position " ++ toString position
  | .invalidLength => "Invalid string length"

end NamedContent.Octets.Hex
