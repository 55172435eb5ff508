import NamedContent.Fragment.Codec

/-!
# Content stores

A store keeps fragments by name and never replaces one: saving a fragment under a name that holds a
different one is a conflict, and the stored one stays. This module has what every store shares: the
outcome of saving, the digest that tells contents apart, and the faults.
-/

namespace NamedContent

/-- What became of a fragment that was to be saved. -/
inductive SaveOutcome where
  | inserted
  | exists
  /-- A different fragment, with this digest, holds the name. -/
  | conflict (existing : Digest)
  deriving DecidableEq

inductive StoreError where
  | database (detail : String)
  /-- A stored fragment or name cannot be read. -/
  | codec (cause : CoreError)
  | invalidData (detail : String)
  /-- The schema is of a version that this library does not know. -/
  | migration (detail : String)
  deriving DecidableEq, Repr

def StoreError.message : StoreError → String
  | .database detail => "database error: " ++ detail
  | .codec cause => "codec error: " ++ cause.message
  | .invalidData detail => "invalid data: " ++ detail
  | .migration detail => "migration error: " ++ detail

def StoreError.labels : StoreError → List String
  | .database _ => ["Database"]
  | .codec cause => ["Codec", cause.label]
  | .invalidData _ => ["InvalidData"]
  | .migration _ => ["Migration"]

def Fragment.digest [Suite] (f : Fragment) : Digest := Suite.digest f.encode

end NamedContent
