import ImpliedFinality.Sha2
import ImpliedFinality.Ed25519.Curve

/-! # Ed25519 signatures

A signature is a commitment of 32 bytes and a scalar of 32 bytes below the group order. It
verifies if the commitment recomputed from the scalar has exactly the same bytes. -/

namespace ImpliedFinality

namespace Ed25519

/-- The scalar that binds a commitment, a key and a message together. -/
def challenge (commitment key message : Bytes) : Nat :=
  Bytes.toNatLE (Sha2.sha512.digest (commitment ++ key ++ message)) % Point.order

/-- The scalar of a seed, with its three low bits cleared and its length fixed to 255 bits. -/
def secretScalar (digest : Bytes) : Nat :=
  let n := Bytes.toNatLE (digest.take 32) % (1 <<< 254)
  n - n % 8 + (1 <<< 254)

theorem length_toBytes (p : Point) : p.toBytes.length = 32 := Bytes.length_ofNatLE ..

/-- The key that belongs to a secret seed. -/
def publicKey (seed : Octets 32) : GeneratorKey :=
  ⟨(Point.mul (secretScalar (Sha2.sha512.digest seed.bytes)) Point.base).toBytes, length_toBytes _⟩

/-- The signature of a message with a secret seed. The nonce is derived from both, so that the same
message always has the same signature. -/
def sign (seed : Octets 32) (message : Bytes) : Bytes :=
  let digest := Sha2.sha512.digest seed.bytes
  let nonce := Bytes.toNatLE (Sha2.sha512.digest (digest.drop 32 ++ message)) % Point.order
  let commitment := (Point.mul nonce Point.base).toBytes
  let scalar := nonce + challenge commitment (publicKey seed).bytes message * secretScalar digest
  commitment ++ Bytes.ofNatLE 32 (scalar % Point.order)

/-- Whether the bytes of a key are those of a point. -/
def isKey (key : GeneratorKey) : Bool := (Point.ofBytes? key).isSome

/-- Whether a signature of 64 bytes belongs to a message and a key. A scalar that is not below the
group order is refused, so that a scalar has one form only. -/
def verify (key : GeneratorKey) (message signature : Bytes) : Bool :=
  match Point.ofBytes? key with
  | none => false
  | some point =>
    let commitment := signature.take 32
    let scalar := Bytes.toNatLE (signature.drop 32)
    let k := challenge commitment key.bytes message
    signature.length == 64 && decide (scalar < Point.order)
      && ((Point.mul scalar Point.base).add (Point.mul k point.neg)).toBytes == commitment

end Ed25519

end ImpliedFinality
