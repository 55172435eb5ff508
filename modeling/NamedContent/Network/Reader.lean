import NamedContent.Fragment.Validation
import NamedContent.Interest.Versions
import NamedContent.Network.Keys
import NamedContent.Network.Supply

/-!
# Reading versions

A version is read by finding its first segment and then fetching the segments after it, one by one,
up to the final one that the first declares. Every fragment is verified before use. A segment that
is not there yet does not spoil what has been read: `collect` returns the collection as far as it
got, and can go on from there later.
-/

namespace NamedContent

namespace Supply

variable [Suite]

/-! ### Verifying -/

/-- The key that is to have signed a fragment: the one in its locator, or the one that the key ring
trusts for its publisher. -/
def verificationKey (keys : KeyRing) (f : Fragment) : Except NetworkError PublicKey :=
  match f.info.locator with
  | .key k => .ok k
  | .named _ _ =>
    match keys.publicKey? f.publisher with
    | some k => .ok k
    | none => .error (.unknownPublisher f.publisher)

/-- Verify a fragment, unless the configuration says not to. -/
def verify (s : Supply) (keys : KeyRing) (f : Fragment) : Except NetworkError Unit :=
  if s.config.verify then do
    let key ← verificationKey keys f
    (f.validateWith key).mapError .validation
  else .ok ()

/-! ### Finding versions -/

/-- Ask for a version, excluding answers that are not versions until one is; `fuel` bounds the
number of questions. -/
def findVersionIn (s : Supply) : (fuel : Nat) → Interest → Except NetworkError (Option Fragment)
  | 0, _ => .ok none
  | fuel + 1, i => do
    match ← s.get i with
    | none => return none
    | some f =>
      if (i.versionedNameOf? f.name).isSome then return some f
      else
        match f.name.component? i.name.length with
        | none => return none
        | some c =>
          if i.exclude.excludes c then return none
          else findVersionIn s fuel (i.excluding c)

/-- The best answer to an interest that is a version. Every question after the first excludes one
more component of the served names, so there is at most one question more than there are served
fragments. -/
def findVersion (s : Supply) (i : Interest) : Except NetworkError (Option Fragment) :=
  s.findVersionIn (s.size + 1) i

/-- The interest that opens a name: the first segment of the version that it names, or else the
latest version. -/
def opening (n : Name) (publisher : Option Publisher) : Interest :=
  match n.versioned? with
  | some versioned => .firstSegment versioned publisher
  | none => .latestVersion n publisher

/-- The first fragment of the version that a name stands for, if it is there. -/
def openVersioned? (s : Supply) (n : Name) (publisher : Option Publisher) :
    Except NetworkError (Option Fragment) :=
  if n.hasVersion then s.get (opening n publisher) else s.findVersion (opening n publisher)

def openVersioned (s : Supply) (n : Name) (publisher : Option Publisher) :
    Except NetworkError Fragment := do
  match ← s.openVersioned? n publisher with
  | some f => return f
  | none => throw (.noMatchingContent (opening n publisher).name)

end Supply

/-! ### Collecting segments -/

/-- The segments of a version that have been read, of which the first is always there. -/
structure Collection where
  first : Fragment
  /-- The name below which the further segments are, if there are any. -/
  versioned : Name
  final : Nat
  /-- The segments after the first, in order of their numbers. -/
  rest : List Fragment := []
  deriving DecidableEq

namespace Collection

def next (c : Collection) : Nat := c.rest.length + 1

def missing (c : Collection) : Nat := c.final - c.rest.length

/-- The interest in the next segment: its exact name, from the publisher of the first. -/
def interest (c : Collection) : Interest :=
  .exact (c.versioned.segmentName (UInt64.ofNat c.next)) (some c.first.publisher)

/-- The payload as far as it has been read; that of a tombstone is empty. -/
def payload (c : Collection) : Octets :=
  if c.first.isGone then [] else c.first.content ++ c.rest.flatMap Fragment.content

def add (c : Collection) (f : Fragment) : Collection := { c with rest := c.rest ++ [f] }

variable [Suite]

/-- Read up to `count` more segments, stopping at the first that is not there. -/
def readNext (s : Supply) (keys : KeyRing) : (count : Nat) → Collection →
    Except NetworkError Collection
  | 0, c => .ok c
  | count + 1, c => do
    match ← s.get c.interest with
    | none => return c
    | some f =>
      s.verify keys f
      readNext s keys count (c.add f)

/-- Read as many of the missing segments as are there. -/
def collect (s : Supply) (keys : KeyRing) (c : Collection) : Except NetworkError Collection :=
  readNext s keys c.missing c

/-- Start a collection with the first fragment of a version, which is verified. A tombstone and a
version without further segments are complete at once. -/
def start (s : Supply) (keys : KeyRing) (first : Fragment) : Except NetworkError Collection := do
  s.verify keys first
  if first.segment? ≠ some Segment.first then
    throw (.validation (.structural (first.name.toUri ++ " is not a first segment")))
  let final := first.info.final.getD Segment.first
  if first.isGone ∨ final = Segment.first then
    return { first, versioned := first.name, final := 0 }
  match first.name.versioned? with
  | none => throw (.validation (.structural (first.name.toUri ++ " carries no version")))
  | some versioned => return { first, versioned, final := final.toNat }

end Collection

namespace Supply

variable [Suite]

def readAll (s : Supply) (keys : KeyRing) (first : Fragment) : Except NetworkError Octets := do
  let c ← (← Collection.start s keys first).collect s keys
  if c.missing = 0 then return c.payload
  else throw (.noMatchingContent c.interest.name)

end Supply

end NamedContent
