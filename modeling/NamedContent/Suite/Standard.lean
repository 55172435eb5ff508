import NamedContent.Suite
import NamedContent.Hash.Blake3
import NamedContent.Signature.Ed25519

/-!
# The standard suite

BLAKE3 digests and Ed25519 signatures.
-/

namespace NamedContent

def Ed25519.Refusal.toCore : Ed25519.Refusal → CoreError
  | .badKey => .invalidPublicKey
  | .badSignature => .invalidSignature

instance Suite.standard : Suite where
  digest b := ⟨Blake3.hash b⟩
  publicKey k := ⟨Ed25519.publicKey k.seed⟩
  sign k message := ⟨Ed25519.sign k.seed message⟩
  verify k message s := (Ed25519.verify k.block message s.block).mapError (·.toCore)

def Digest.describe (d : Digest) : String := "Blake3(" ++ d.block.toShortHex ++ ")"

def PublicKey.describe (k : PublicKey) : String := "Ed25519Pub(" ++ k.block.toShortHex ++ ")"

def Signature.describe (s : Signature) : String := "Ed25519Sig(" ++ s.block.toShortHex ++ ")"

end NamedContent
