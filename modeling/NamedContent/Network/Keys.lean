import NamedContent.Fragment.Basic

/-!
# Key rings

A key ring has the identities that a participant signs with, one of them by default, and the keys
that it trusts for verification. Both are found by publisher. Whoever can sign is also trusted.
-/

namespace NamedContent

/-- Signing identities and trusted keys, by publisher. -/
structure KeyRing where
  /-- The publisher to sign as when none is named. -/
  default : Publisher
  keypairs : List (Publisher × Keypair)
  trusted : List (Publisher × PublicKey)

namespace KeyRing

def keypair? (r : KeyRing) (p : Publisher) : Option Keypair := r.keypairs.lookup p

def publicKey? (r : KeyRing) (p : Publisher) : Option PublicKey := r.trusted.lookup p

/-- The locator to stamp on what a publisher signs. -/
def locator? (r : KeyRing) (p : Publisher) : Option KeyLocator := (r.publicKey? p).map .key

variable [Suite]

/-- Trust a key. -/
def trust (r : KeyRing) (k : PublicKey) : KeyRing :=
  { r with trusted := (k.publisher, k) :: r.trusted }

def addKeypair (r : KeyRing) (k : Keypair) : KeyRing :=
  let key := k.publicKey
  let publisher := key.publisher
  { r with keypairs := (publisher, k) :: r.keypairs, trusted := (publisher, key) :: r.trusted }

def ofKeypair (k : Keypair) : KeyRing :=
  let key := k.publicKey
  let publisher := key.publisher
  ⟨publisher, [(publisher, k)], [(publisher, key)]⟩

end KeyRing

end NamedContent
