import NamedContent.Fragment.Signing
import NamedContent.Interest.Basic
import NamedContent.Network.Config
import NamedContent.Network.Error
import NamedContent.Network.Keys

/-!
# Streams

A version's payload is written as a stream: it is cut into segments of at most the configured size,
and each becomes a signed fragment under the versioned name. Every fragment declares the number of
the last segment. An empty payload is one empty segment.
-/

namespace NamedContent

/-- A payload to be written as a version. -/
structure StreamWrite where
  /-- The versioned name; segments go below it. -/
  name : Name
  payload : Octets
  contentType : ContentType := .data
  /-- Whom to sign as; the default of the key ring if absent. -/
  publisher : Option Publisher := none
  /-- The locator of every fragment; the signing key if absent. -/
  locator : Option KeyLocator := none
  /-- An interest received earlier that this write should answer. -/
  outstanding : Option Interest := none

structure SignedStream where
  fragments : List Fragment
  publisher : Publisher
  locator : KeyLocator

namespace StreamWrite

def segments (size : Nat) : Octets → List Octets
  | [] => [[]]
  | payload => Octets.pieces size payload

/-- The drafts of the segments, in order of their numbers. -/
def drafts (w : StreamWrite) (config : NetworkConfig) (locator : KeyLocator) : List Draft :=
  let contents := segments (max config.segmentSize 1) w.payload
  contents.zipIdx.map fun (content, i) =>
    { name := w.name.segmentName (UInt64.ofNat i), contentType := w.contentType
      final := some (UInt64.ofNat (contents.length - 1)), locator := some locator
      freshness := config.freshness, content }

variable [Suite]

/-- Sign the segments of a payload at the time of the clock. -/
def sign (w : StreamWrite) (keys : KeyRing) (config : NetworkConfig) (clock : UInt64) :
    Except NetworkError SignedStream :=
  let publisher := w.publisher.getD keys.default
  match keys.keypair? publisher with
  | none => .error (.unknownPublisher publisher)
  | some keypair =>
    let locator := w.locator.getD (.key keypair.publicKey)
    .ok ⟨(w.drafts config locator).map (·.sign clock keypair), publisher, locator⟩

end StreamWrite

end NamedContent
