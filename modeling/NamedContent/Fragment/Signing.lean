import NamedContent.Fragment.Codec

/-!
# Signing fragments

A draft is a fragment before it is signed. Signing fills in the publisher, takes the clock for a
missing timestamp and the signing key for a missing locator, and signs the rest.
-/

namespace NamedContent

/-- What a fragment says, before it is signed. -/
structure Draft where
  name : Name
  timestamp : Option Int64 := none
  contentType : ContentType := .data
  final : Option UInt64 := none
  /-- Where the key is found; the signing key itself if absent. -/
  locator : Option KeyLocator := none
  freshness : Option UInt32 := none
  content : Octets := []

namespace Draft

variable [Suite]

def info (d : Draft) (clock : UInt64) (k : Keypair) : SignedInfo where
  publisher := k.publisher
  timestamp := d.timestamp.getD clock.toInt64
  contentType := d.contentType
  final := d.final
  locator := d.locator.getD (.key k.publicKey)
  freshness := d.freshness

def sign (d : Draft) (clock : UInt64) (k : Keypair) : Fragment :=
  let info := d.info clock k
  ⟨d.name, info, d.content, k.sign (Fragment.signedBytes d.name info d.content)⟩

end Draft

end NamedContent
