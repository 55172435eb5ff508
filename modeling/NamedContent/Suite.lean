import NamedContent.Error
import NamedContent.Octets.Hex

/-!
# Digests, keys and signatures

A `Suite` is a hash function together with a signature scheme; everything above this module works
for any suite. A publisher is known by the digest of its public key: interests filter on that
digest, and a key locator may carry it in place of the key.
-/

namespace NamedContent

structure Digest where
  block : Block 32
  deriving DecidableEq

/-- A public key of 32 bytes, which need not be valid. -/
structure PublicKey where
  block : Block 32
  deriving DecidableEq

structure Signature where
  block : Block 64
  deriving DecidableEq

/-- The digest that identifies a publisher. -/
structure Publisher where
  block : Block 32
  deriving DecidableEq

/-- A signing identity, given by its secret seed. -/
structure Keypair where
  seed : Block 32
  deriving DecidableEq

/-- A hash function and a signature scheme. -/
class Suite where
  digest : Octets → Digest
  publicKey : Keypair → PublicKey
  sign : Keypair → Octets → Signature
  /-- Check a signature; the fault is a bad key or a bad signature. -/
  verify : PublicKey → Octets → Signature → Except CoreError Unit

/-! ### Text forms -/

namespace Block

def toHex {n : Nat} (b : Block n) : String := Octets.Hex.encode b.octets

/-- The hexadecimal form of the first eight bytes. -/
def toShortHex {n : Nat} (b : Block n) : String := Octets.Hex.encode (b.octets.take 8)

end Block

namespace Publisher

def toText (p : Publisher) : String := p.block.toShortHex

instance : ToString Publisher := ⟨toText⟩

def describe (p : Publisher) : String := "Publisher(" ++ p.toText ++ ")"

end Publisher

/-! ### Publishers -/

variable [Suite]

/-- The publisher that a key belongs to. -/
def PublicKey.publisher (k : PublicKey) : Publisher := ⟨(Suite.digest k.block.octets).block⟩

namespace Keypair

def publicKey (k : Keypair) : PublicKey := Suite.publicKey k

def publisher (k : Keypair) : Publisher := k.publicKey.publisher

def sign (k : Keypair) (message : Octets) : Signature := Suite.sign k message

/-- The labelled short form of an identity, which shows its publisher only. -/
def describe (k : Keypair) : String := "Keypair(" ++ k.publisher.describe ++ ")"

end Keypair

def PublicKey.verify (k : PublicKey) (message : Octets) (s : Signature) : Except CoreError Unit :=
  Suite.verify k message s

end NamedContent
