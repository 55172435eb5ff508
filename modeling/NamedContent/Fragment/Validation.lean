import NamedContent.Fragment.Codec

/-!
# Validating fragments

A fragment is well formed when its segment number does not exceed the final segment it declares
and, if it is a tombstone, when it is empty, final and versioned. It is valid under a key when it is
well formed, the key's digest is its publisher, and its signature verifies.
-/

namespace NamedContent

namespace Fragment

/-- The segment number does not exceed the declared final segment. -/
def checkSegment (f : Fragment) : Except ValidationError Unit :=
  match f.segment?, f.info.final with
  | some segment, some final =>
    if final < segment then .error (.pastFinalSegment segment final) else .ok ()
  | _, _ => .ok ()

/-- A tombstone is empty, final and versioned. -/
def checkGone (f : Fragment) : Except ValidationError Unit :=
  if f.content.length ≠ 0 then .error (.goneWithContent f.content.length)
  else if !f.isFinal then .error .goneNotTerminal
  else if !f.name.hasVersion then .error (.structural "gone fragment must carry a version")
  else .ok ()

/-- Check the structure of a fragment, without its signature. -/
def validateStructure (f : Fragment) : Except ValidationError Unit := do
  f.checkSegment
  if f.isGone then f.checkGone

variable [Suite]

def validateWith (f : Fragment) (key : PublicKey) : Except ValidationError Unit := do
  f.validateStructure
  if key.publisher ≠ f.publisher then throw .publisherMismatch
  match key.verify f.message f.signature with
  | .ok _ => return
  | .error _ => throw .signatureFailed

/-- Check a fragment with the key in its own locator. -/
def validate (f : Fragment) : Except ValidationError Unit :=
  match f.info.locator.key? with
  | some key => f.validateWith key
  | none => .error .noVerificationKey

end Fragment

end NamedContent
