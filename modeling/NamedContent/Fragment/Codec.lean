import NamedContent.Fragment.Basic
import NamedContent.Cbor.Value

/-!
# The encoded form of fragments

A fragment is a CBOR map with small numbers as keys, in ascending order. The signature covers the
encoding of the same map without the signature itself, so every other field is bound by it. The
reader looks each key up, the first entry with that key deciding, and ignores keys that it does not
know and bytes after the map.
-/

namespace NamedContent

namespace Fragment

open Cbor

/-! ### Fields -/

inductive Field where
  | name
  | publisher
  | timestamp
  | contentType
  | final
  | locator
  | freshness
  | content
  | signature
  deriving DecidableEq, Repr

def Field.key : Field → Nat
  | .name => 0
  | .publisher => 1
  | .timestamp => 2
  | .contentType => 3
  | .final => 4
  | .locator => 5
  | .freshness => 6
  | .content => 7
  | .signature => 8

def Field.describe : Field → String
  | .name => "name"
  | .publisher => "publisher"
  | .timestamp => "timestamp"
  | .contentType => "content type"
  | .final => "final segment"
  | .locator => "key locator"
  | .freshness => "freshness"
  | .content => "content"
  | .signature => "signature"

/-! ### Writing -/

def nameValue (n : Name) : Value := .array (n.components.map fun c => .bytes c.octets)

def numberValue : Option Nat → Value
  | some n => .int n
  | none => .null

/-- A key locator as an array that starts with its kind: 0 for a key, 1 for a key's name. -/
def locatorValue : KeyLocator → Value
  | .key k => .array [.int 0, .bytes k.block.octets]
  | .named name publisher =>
    .array [.int 1, nameValue name,
      match publisher with
      | some p => .bytes p.block.octets
      | none => .null]

/-- The entries that the signature covers. -/
def signedEntries (name : Name) (info : SignedInfo) (content : Octets) : List (Value × Value) :=
  [(Field.name, nameValue name),
   (.publisher, .bytes info.publisher.block.octets),
   (.timestamp, .int info.timestamp.toInt),
   (.contentType, .int info.contentType.code),
   (.final, numberValue (info.final.map UInt64.toNat)),
   (.locator, locatorValue info.locator),
   (.freshness, numberValue (info.freshness.map UInt32.toNat)),
   (.content, .bytes content)].map fun (field, v) => (.int field.key, v)

/-- The bytes that the signature of a fragment covers. -/
def signedBytes (name : Name) (info : SignedInfo) (content : Octets) : Octets :=
  (Value.map (signedEntries name info content)).encode

def message (f : Fragment) : Octets := signedBytes f.name f.info f.content

def encode (f : Fragment) : Octets :=
  (Value.map (signedEntries f.name f.info f.content ++
    [(.int Field.signature.key, .bytes f.signature.block.octets)])).encode

/-! ### Reading -/

/-- Why a byte string is not the encoding of a fragment. -/
inductive DecodeError where
  | unreadable
  | notAMap
  /-- A field is absent, or of a kind that cannot stand for it. -/
  | missing (field : Field)
  | invalid (field : Field)
  | nameNotArray
  | componentNotBytes
  /-- The timestamp is no 64-bit number with sign. -/
  | timestampRange
  | signatureLength
  deriving DecidableEq, Repr

def DecodeError.detail : DecodeError → String
  | .unreadable => "not readable"
  | .notAMap => "expected map"
  | .missing field => "missing " ++ field.describe
  | .invalid field => "invalid " ++ field.describe
  | .nameNotArray => "name must be an array"
  | .componentNotBytes => "name component must be bytes"
  | .timestampRange => "timestamp out of range"
  | .signatureLength => "invalid signature length"

def DecodeError.toCore (e : DecodeError) : CoreError :=
  if e = .unreadable then .decoding e.detail else .malformedFragment e.detail

/-- The value of the first entry with a field's key. -/
def lookup (entries : List (Value × Value)) (field : Field) : Option Value :=
  (entries.find? fun e => e.1.toUInt64? == some (UInt64.ofNat field.key)).map Prod.snd

def readComponent : Value → Except DecodeError Component
  | .bytes b => .ok ⟨b⟩
  | _ => .error .componentNotBytes

def readName : Value → Except DecodeError Name
  | .array items => (items.mapM readComponent).map Name.mk
  | _ => .error .nameNotArray

def readPublisher (v : Option Value) : Except DecodeError Publisher :=
  match v.bind (Value.toBlock? 32) with
  | some p => .ok ⟨p⟩
  | none => .error (.invalid .publisher)

def readTimestamp : Option Value → Except DecodeError Int64
  | some (.int n) =>
    if -0x8000000000000000 ≤ n ∧ n < 0x8000000000000000 then .ok (Int64.ofInt n)
    else .error .timestampRange
  | _ => .error (.missing .timestamp)

def readContentType (v : Option Value) : Except DecodeError ContentType :=
  match (v.bind Value.toUInt64?).bind fun n => ContentType.ofCode? n.toNat with
  | some t => .ok t
  | none => .error (.invalid .contentType)

/-- A number of a field in which null and absence stand for none. -/
def readOptional (field : Field) : Option Value → Except DecodeError (Option UInt64)
  | none => .ok none
  | some .null => .ok none
  | some v =>
    match v.toUInt64? with
    | some n => .ok (some n)
    | none => .error (.invalid field)

def readFreshness (v : Option Value) : Except DecodeError (Option UInt32) := do
  match ← readOptional .freshness v with
  | none => return none
  | some n => if n.toNat < UInt32.size then return some n.toUInt32 else throw (.invalid .freshness)

/-- The publisher of a key's name, where null and absence stand for none. -/
def readLocatorPublisher : Option Value → Except DecodeError (Option Publisher)
  | none => .ok none
  | some .null => .ok none
  | some v =>
    match v.toBlock? 32 with
    | some p => .ok (some ⟨p⟩)
    | none => .error (.invalid .locator)

def readLocator : Value → Except DecodeError KeyLocator
  | .array items =>
    match items.head?.bind Value.toUInt64?, items[1]? with
    | some 0, some v =>
      match v.toBlock? 32 with
      | some k => .ok (.key ⟨k⟩)
      | none => .error (.invalid .locator)
    | some 1, some v => do
      let name ← readName v
      return .named name (← readLocatorPublisher items[2]?)
    | _, _ => .error (.invalid .locator)
  | _ => .error (.invalid .locator)

def readContent : Option Value → Except DecodeError Octets
  | some (.bytes b) => .ok b
  | _ => .error (.missing .content)

def readSignature : Option Value → Except DecodeError Signature
  | some (.bytes b) =>
    match Block.ofOctets? 64 b with
    | some s => .ok ⟨s⟩
    | none => .error .signatureLength
  | _ => .error (.missing .signature)

def require (entries : List (Value × Value)) (field : Field) : Except DecodeError Value :=
  match lookup entries field with
  | some v => .ok v
  | none => .error (.missing field)

/-- The fragment that the entries of a map make up. Fields are read in the order of their keys, so
the first faulty one decides the fault. -/
def ofEntries (entries : List (Value × Value)) : Except DecodeError Fragment := do
  let name ← readName (← require entries .name)
  let publisher ← readPublisher (lookup entries .publisher)
  let timestamp ← readTimestamp (lookup entries .timestamp)
  let contentType ← readContentType (lookup entries .contentType)
  let final ← readOptional .final (lookup entries .final)
  let locator ← readLocator (← require entries .locator)
  let freshness ← readFreshness (lookup entries .freshness)
  let content ← readContent (lookup entries .content)
  let signature ← readSignature (lookup entries .signature)
  return ⟨name, ⟨publisher, timestamp, contentType, final, locator, freshness⟩, content, signature⟩

def decode (b : Octets) : Except DecodeError Fragment :=
  match Value.decode b with
  | none => .error .unreadable
  | some (.map entries) => ofEntries entries
  | some _ => .error .notAMap

end Fragment

end NamedContent
