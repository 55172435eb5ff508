import NamedContent.Network.Reader
import NamedContent.Object.Payload
import NamedContent.Object.State
import NamedContent.Object.Watch

/-!
# Reading a version of an object

A version is read from its first segment on, until it is complete and its payload is decoded, or
something is lacking. What is lacking can be pursued later; the segments read so far are kept.
-/

namespace NamedContent

/-- What is lacking of a version. -/
inductive Lack where
  | firstSegment (versioned : Name) (publisher : Publisher)
  | segment (collection : Collection)
  deriving DecidableEq

namespace Lack

def interest : Lack → Interest
  | .firstSegment versioned publisher => .firstSegment versioned (some publisher)
  | .segment c => c.interest

/-- The name to go on from if what is lacking does not arrive. -/
def fallback : Lack → Name
  | .firstSegment versioned _ => versioned
  | .segment c => c.first.name.base

end Lack

/-- How far a version was read. -/
inductive Reading (α : Type) where
  | complete (version : Adoption α)
  | lacking (lack : Lack)

namespace Reading

variable {α : Type} [Payload α]

/-- The version that a complete collection makes up. -/
def decode (c : Collection) : Except ObjectError (Adoption α) := do
  let (base, version) ←
    match c.first.name.splitVersion? with
    | some split => pure split
    | none => throw (.unversioned c.first.name)
  let payload ←
    if c.first.isGone then pure none
    else
      match Payload.decode c.payload with
      | some x => pure (some x)
      | none => throw .decode
  return ⟨base, version, c.first.publisher, c.first.info.locator, payload⟩

variable [Suite]

/-- Read on from a collection. -/
def goOn (s : Supply) (keys : KeyRing) (c : Collection) : Except ObjectError (Reading α) := do
  let c ← (c.collect s keys).mapError .network
  if c.missing = 0 then return .complete (← decode c) else return .lacking (.segment c)

def ofFirst (s : Supply) (keys : KeyRing) (first : Fragment) : Except ObjectError (Reading α) := do
  if first.name.hasVersion then
    goOn s keys (← (Collection.start s keys first).mapError .network)
  else throw (.unversioned first.name)

/-- Pursue what is lacking. -/
def pursue (s : Supply) (keys : KeyRing) : Lack → Except ObjectError (Reading α)
  | .segment c => goOn s keys c
  | .firstSegment versioned publisher => do
    match ← (s.get (Lack.firstSegment versioned publisher).interest).mapError .network with
    | some first => ofFirst s keys first
    | none => return .lacking (.firstSegment versioned publisher)

def ofConfirmed (s : Supply) (keys : KeyRing) : Confirmed → Except ObjectError (Reading α)
  | .firstSegment first => ofFirst s keys first
  | .version versioned publisher => pursue s keys (.firstSegment versioned publisher)

end Reading

end NamedContent
