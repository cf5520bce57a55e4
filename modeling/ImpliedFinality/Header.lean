import ImpliedFinality.Ed25519.Signing
import ImpliedFinality.Validator

/-! # Block headers

A header carries what its generator implies about earlier blocks, and at most one aggregate
commit: the signature of a validator set over a certificate of an earlier block. A block is named
by the digest of its whole header, and its generator signs the header without the signature. -/

namespace ImpliedFinality

/-- An Ed25519 signature of a block or an aggregate BLS signature of a certificate, as its bytes. -/
structure Signature where
  bytes : Bytes
deriving DecidableEq

namespace Signature

/-- The signature of a block that is not signed yet, and of a commit without signers. -/
def empty : Signature := ⟨[]⟩

instance : Inhabited Signature := ⟨empty⟩

def isEmpty (s : Signature) : Bool := s.bytes.isEmpty

/-- A signature is written with its length, which its kind decides. -/
def codec : Codec Signature := Codec.bytes.iso Signature.mk Signature.bytes

theorem codec_lawful : codec.Lawful :=
  Codec.iso_lawful Codec.bytes_lawful (fun _ => rfl) (fun _ => rfl)

end Signature

/-- The signature of a certificate of an earlier block. The bits say which validators have signed,
in BLS key order. -/
structure AggregateCommit where
  height : Height
  bits : Bitmap
  signature : Signature
deriving DecidableEq

namespace AggregateCommit

/-- The commit of a block that reports no signatures. Its height counts for nothing. -/
def empty (height : Height) : AggregateCommit := ⟨height, .empty, .empty⟩

/-- A commit without signers and without signature reports nothing. -/
def isEmpty (c : AggregateCommit) : Bool := c.bits.isEmpty && c.signature.isEmpty

/-- Commits that report nothing differ in their height only. -/
theorem isEmpty_iff {c : AggregateCommit} : c.isEmpty = true ↔ c = empty c.height := by
  obtain ⟨h, ⟨b⟩, ⟨s⟩⟩ := c
  simp [isEmpty, empty, Bitmap.isEmpty, Bitmap.empty, Signature.isEmpty, Signature.empty]

def codec : Codec AggregateCommit :=
  (Codec.height.pair <| Codec.bitmap.pair Signature.codec).iso
    (fun (h, b, s) => ⟨h, b, s⟩) (fun c => (c.height, c.bits, c.signature))

theorem codec_lawful : codec.Lawful :=
  Codec.iso_lawful
    (Codec.pair_lawful Codec.height_lawful <|
      Codec.pair_lawful Codec.bitmap_lawful Signature.codec_lawful)
    (fun _ => rfl) (fun _ => rfl)

end AggregateCommit

/-- `maxHeightPrevoted` is the prevoted height that the generator saw, and `maxHeightGenerated`
the height of the generator's block before this one. `validatorsHash` names the set that is active
one height above. -/
structure Header where
  version : UInt32
  height : Height
  timestamp : UInt32
  previousBlock : Digest
  generator : Address
  maxHeightPrevoted : Height
  maxHeightGenerated : Height
  stateRoot : Digest
  validatorsHash : Digest
  commit : AggregateCommit
  signature : Signature
deriving DecidableEq

namespace Header

/-- A header is written in the order of its fields. -/
def codec : Codec Header :=
  (Codec.word.pair <| Codec.height.pair <| Codec.word.pair <| (Codec.octets 32).pair <|
    (Codec.octets 20).pair <| Codec.height.pair <| Codec.height.pair <| (Codec.octets 32).pair <|
    (Codec.octets 32).pair <| AggregateCommit.codec.pair Signature.codec).iso
    (fun (v, h, t, p, g, mp, mg, s, vh, c, sig) => ⟨v, h, t, p, g, mp, mg, s, vh, c, sig⟩)
    (fun b => (b.version, b.height, b.timestamp, b.previousBlock, b.generator, b.maxHeightPrevoted,
      b.maxHeightGenerated, b.stateRoot, b.validatorsHash, b.commit, b.signature))

/-- Headers are read back as they were written, so that a header is all that its bytes say. -/
theorem codec_lawful : codec.Lawful :=
  Codec.iso_lawful
    (Codec.pair_lawful Codec.word_lawful <| Codec.pair_lawful Codec.height_lawful <|
      Codec.pair_lawful Codec.word_lawful <| Codec.pair_lawful (Codec.octets_lawful 32) <|
      Codec.pair_lawful (Codec.octets_lawful 20) <| Codec.pair_lawful Codec.height_lawful <|
      Codec.pair_lawful Codec.height_lawful <| Codec.pair_lawful (Codec.octets_lawful 32) <|
      Codec.pair_lawful (Codec.octets_lawful 32) <|
      Codec.pair_lawful AggregateCommit.codec_lawful Signature.codec_lawful)
    (fun _ => rfl) (fun _ => rfl)

/-- The header without the signature of its generator. -/
def unsigned (h : Header) : Header := { h with signature := .empty }

/-- The bytes that the generator signs. -/
def signingBytes (h : Header) : Bytes := codec.encode h.unsigned

/-- The digest that names a block. It covers the signature too. -/
def id (h : Header) : Digest := .ofBytes (codec.encode h)

/-- Signs a header with the key of a secret seed, in place of any signature it has. -/
def sign (h : Header) (seed : Octets 32) : Header :=
  { h with signature := ⟨Ed25519.sign seed h.signingBytes⟩ }

/-- Whether the generator with a given key has signed the header. -/
def isSignedBy (h : Header) (key : GeneratorKey) : Bool :=
  Ed25519.verify key h.signingBytes h.signature.bytes

/-- Signing changes nothing but the signature. -/
@[simp] theorem unsigned_sign (h : Header) (seed : Octets 32) :
    (h.sign seed).unsigned = h.unsigned := rfl

@[simp] theorem signingBytes_sign (h : Header) (seed : Octets 32) :
    (h.sign seed).signingBytes = h.signingBytes := rfl

end Header

end ImpliedFinality
