import NamedContent.Name.Uri

/-!
# Faults of names, keys and fragments

`CoreError` is what can go wrong when a name, a key or a fragment is read or checked on its own.
`ValidationError` says why a fragment is not acceptable. A fault of the first kind that comes up
during validation becomes one of the second: `ValidationError.ofCore`.

Every kind of fault has a wording, `message`, and a `label` that tells its constructor to a program.
A fault that has another one as its cause puts its own label in front of that of the cause.
-/

namespace NamedContent

/-- Faults of single names, keys, signatures and encodings. -/
inductive CoreError where
  | invalidSignature
  | invalidPublicKey
  | invalidName (detail : String)
  | notAVersion (component : String)
  | notASegment (component : String)
  | malformedFragment (detail : String)
  | encoding (detail : String)
  | decoding (detail : String)
  deriving DecidableEq, Repr

def CoreError.message : CoreError → String
  | .invalidSignature => "invalid signature"
  | .invalidPublicKey => "invalid public key"
  | .invalidName detail => "invalid name: " ++ detail
  | .notAVersion component => "not a version component: " ++ component
  | .notASegment component => "not a segment component: " ++ component
  | .malformedFragment detail => "malformed fragment: " ++ detail
  | .encoding detail => "encoding error: " ++ detail
  | .decoding detail => "decoding error: " ++ detail

def CoreError.label : CoreError → String
  | .invalidSignature => "InvalidSignature"
  | .invalidPublicKey => "InvalidPublicKey"
  | .invalidName _ => "InvalidName"
  | .notAVersion _ => "NotAVersion"
  | .notASegment _ => "NotASegment"
  | .malformedFragment _ => "MalformedFragment"
  | .encoding _ => "EncodingError"
  | .decoding _ => "DecodingError"

/-- A text that is no name, as a fault of the name. -/
def CoreError.ofUri (e : Name.UriError) : CoreError := .invalidName e.message

inductive ValidationError where
  | signatureFailed
  | publisherMismatch
  | goneWithContent (size : Nat)
  | goneNotTerminal
  | pastFinalSegment (segment final : UInt64)
  | noVerificationKey
  | structural (detail : String)
  deriving DecidableEq, Repr

def ValidationError.message : ValidationError → String
  | .signatureFailed => "signature verification failed"
  | .publisherMismatch => "publisher digest does not match the signing key"
  | .goneWithContent size => "gone fragment must be empty, found " ++ toString size ++ " bytes"
  | .goneNotTerminal => "gone fragment must be the final segment"
  | .pastFinalSegment segment final =>
    "segment " ++ toString segment ++ " is past the final segment " ++ toString final
  | .noVerificationKey => "key locator does not carry a verifiable key"
  | .structural detail => "structural error: " ++ detail

def ValidationError.label : ValidationError → String
  | .signatureFailed => "SignatureFailed"
  | .publisherMismatch => "PublisherMismatch"
  | .goneWithContent _ => "GoneWithContent"
  | .goneNotTerminal => "GoneNotTerminal"
  | .pastFinalSegment _ _ => "PastFinalSegment"
  | .noVerificationKey => "NoVerificationKey"
  | .structural _ => "StructuralError"

/-- A core fault seen as a validation fault: keys and signatures fail the signature, everything
else is a fault of structure and keeps its detail. -/
def ValidationError.ofCore : CoreError → ValidationError
  | .invalidSignature => .signatureFailed
  | .invalidPublicKey => .signatureFailed
  | .invalidName detail => .structural detail
  | .notAVersion component => .structural component
  | .notASegment component => .structural component
  | .malformedFragment detail => .structural detail
  | .encoding detail => .structural detail
  | .decoding detail => .structural detail

end NamedContent
