import NamedContent.Hash.Sha512
import NamedContent.Signature.Edwards

/-!
# Ed25519 signatures

Keys and signatures over the Edwards curve with SHA-512. A signature `(R, s)` of a message under
the key `A` is accepted when `s` is below the group order and the encoding of `s·B - k·A` is `R`,
where `k` is the hash of `R`, `A` and the message. Keys of small order are not refused.
-/

namespace NamedContent.Ed25519

open Edwards

/-- The order of the base point. -/
def order : Nat := (1 <<< 252) + 27742317777372353535851937790883648493

inductive Refusal where
  /-- The key bytes are not those of a point. -/
  | badKey
  | badSignature
  deriving DecidableEq, Repr

/-- The hash of a seed, whose halves are the secret scalar and the nonce key. -/
def expand (seed : Block 32) : Octets := (Sha512.hash seed.octets).octets

/-- The secret scalar: the lower half with its bits fixed as the scheme demands. -/
def secretScalar (seed : Block 32) : Nat :=
  let n := Octets.toNatLE ((expand seed).take 32)
  (1 <<< 254) + (n % (1 <<< 254) - n % 8)

def publicKey (seed : Block 32) : Block 32 := (Point.base.mul (secretScalar seed)).encode

def hashScalar (b : Octets) : Nat := Octets.toNatLE (Sha512.hash b).octets % order

def sign (seed : Block 32) (message : Octets) : Block 64 :=
  let r := hashScalar ((expand seed).drop 32 ++ message)
  let commitment := (Point.base.mul r).encode
  let k := hashScalar (commitment.octets ++ (publicKey seed).octets ++ message)
  let s := (k * secretScalar seed + r) % order
  ⟨commitment.octets ++ Octets.ofNatLE 32 s, by
    simp [commitment.length_eq, Octets.length_ofNatLE]⟩

def verify (key : Block 32) (message : Octets) (signature : Block 64) : Except Refusal Unit :=
  match Point.decode? key with
  | none => .error .badKey
  | some a =>
    let commitment := signature.octets.take 32
    let s := Octets.toNatLE (signature.octets.drop 32)
    if order ≤ s then .error .badSignature
    else
      let k := hashScalar (commitment ++ key.octets ++ message)
      let expected := (Point.base.mul s).add (a.neg.mul k)
      if expected.encode.octets = commitment then .ok () else .error .badSignature

end NamedContent.Ed25519
