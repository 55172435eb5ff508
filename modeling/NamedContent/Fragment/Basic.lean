import NamedContent.Suite
import NamedContent.Name.Profile

/-!
# Fragments

A fragment is a named, signed, immutable piece of content. A version of some content is published
as a sequence of fragments, its segments; each carries the metadata that its signature covers. A
version can also be a *tombstone*: a single empty fragment that says the content is gone.
-/

namespace NamedContent

/-- What the bytes of a fragment stand for. -/
inductive ContentType where
  | data
  /-- A withdrawal: no bytes, and the only segment of its version. -/
  | gone
  | key
  deriving DecidableEq, Repr

namespace ContentType

def code : ContentType → Nat
  | .data => 0
  | .gone => 1
  | .key => 2

def ofCode? : Nat → Option ContentType
  | 0 => some .data
  | 1 => some .gone
  | 2 => some .key
  | _ => none

def describe : ContentType → String
  | .data => "Data"
  | .gone => "Gone"
  | .key => "Key"

end ContentType

/-- Where to find the key that verifies a fragment. -/
inductive KeyLocator where
  | key (key : PublicKey)
  /-- The name under which the key is published, perhaps with its publisher. -/
  | named (name : Name) (publisher : Option Publisher)
  deriving DecidableEq

def KeyLocator.key? : KeyLocator → Option PublicKey
  | .key k => some k
  | .named _ _ => none

/-- The metadata that a signature covers. -/
structure SignedInfo where
  /-- Digest of the signing key. -/
  publisher : Publisher
  /-- Signing time in milliseconds since the epoch, as the publisher claims it. -/
  timestamp : Int64
  contentType : ContentType
  /-- Number of the last segment of the version, when known. -/
  final : Option UInt64
  locator : KeyLocator
  /-- How many seconds a cache may hold the fragment for fresh. -/
  freshness : Option UInt32
  deriving DecidableEq

structure Fragment where
  name : Name
  info : SignedInfo
  content : Octets
  signature : Signature
  deriving DecidableEq

namespace Fragment

/-- The publisher that the fragment claims. -/
def publisher (f : Fragment) : Publisher := f.info.publisher

def isGone (f : Fragment) : Bool := f.info.contentType == .gone

def segment? (f : Fragment) : Option UInt64 := f.name.segment?

/-- Whether the fragment is the last of its version. -/
def isFinal (f : Fragment) : Bool :=
  match f.segment?, f.info.final with
  | some segment, some last => segment == last
  | _, _ => false

def describe (f : Fragment) : String :=
  let final :=
    match f.info.final with
    | none => "None"
    | some n => "Some(" ++ toString n ++ ")"
  "Fragment \x7b name: " ++ f.name.describe ++ ", type: " ++ f.info.contentType.describe ++
    ", publisher: " ++ f.publisher.describe ++ ", final_segment: " ++ final ++
    ", content_len: " ++ toString f.content.length ++ " \x7d"

end Fragment

end NamedContent
