import ImpliedFinality.Failure
import ImpliedFinality.Header

/-! # Certificates

A certificate tells another chain about a block. Its body is derived from the header of the block,
and an aggregate commit adds the signature over the body and the bitmap of the signers. -/

namespace ImpliedFinality

/-- What a certificate says of a block. `validatorsHash` names the set that is active one height
above it, as in the header. -/
structure CertificateBody where
  block : Digest
  height : Height
  stateRoot : Digest
  validatorsHash : Digest
  timestamp : UInt32
deriving DecidableEq

namespace CertificateBody

/-- The fields of a body one behind the other, all of them of a fixed width. -/
def codec : Codec CertificateBody :=
  ((Codec.octets 32).pair <| Codec.height.pair <| (Codec.octets 32).pair <|
    (Codec.octets 32).pair Codec.word).iso
    (fun (b, h, s, v, t) => ⟨b, h, s, v, t⟩)
    (fun c => (c.block, c.height, c.stateRoot, c.validatorsHash, c.timestamp))

theorem codec_lawful : codec.Lawful :=
  Codec.iso_lawful
    (Codec.pair_lawful (Codec.octets_lawful 32) <| Codec.pair_lawful Codec.height_lawful <|
      Codec.pair_lawful (Codec.octets_lawful 32) <|
      Codec.pair_lawful (Codec.octets_lawful 32) Codec.word_lawful)
    (fun _ => rfl) (fun _ => rfl)

/-- The body of the certificate of a block says nothing that its header does not. -/
def ofHeader (h : Header) : CertificateBody :=
  ⟨h.id, h.height, h.stateRoot, h.validatorsHash, h.timestamp⟩

/-- The bytes that validators sign. -/
def signingBytes (c : CertificateBody) : Bytes := codec.encode c

end CertificateBody

/-- The body of a certificate with the aggregate signature of those whose bit is set. -/
structure Certificate where
  body : CertificateBody
  bits : Bitmap
  signature : Signature
deriving DecidableEq

/-- What a receiving chain remembers of the last certificate it accepted. -/
structure LastCertificate where
  height : Height
  validatorsHash : Digest
deriving DecidableEq

namespace LastCertificate

def codec : Codec LastCertificate :=
  (Codec.height.pair (Codec.octets 32)).iso (fun (h, v) => ⟨h, v⟩)
    (fun c => (c.height, c.validatorsHash))

theorem codec_lawful : codec.Lawful :=
  Codec.iso_lawful (Codec.pair_lawful Codec.height_lawful (Codec.octets_lawful 32))
    (fun _ => rfl) (fun _ => rfl)

end LastCertificate

namespace Certificate

/-- A certificate is its body, followed by the bitmap and the signature. -/
def codec : Codec Certificate :=
  (CertificateBody.codec.pair <| Codec.bitmap.pair Signature.codec).iso
    (fun (c, b, s) => ⟨c, b, s⟩) (fun c => (c.body, c.bits, c.signature))

/-- Certificates are read back as they were written, and read from nothing else. -/
theorem codec_lawful : codec.Lawful :=
  Codec.iso_lawful
    (Codec.pair_lawful CertificateBody.codec_lawful <|
      Codec.pair_lawful Codec.bitmap_lawful Signature.codec_lawful)
    (fun _ => rfl) (fun _ => rfl)

/-- The certificate of a block from the commit to it. -/
def ofCommit (commit : AggregateCommit) (header : Header) : Except Failure Certificate :=
  if header.height = commit.height then
    .ok ⟨.ofHeader header, commit.bits, commit.signature⟩
  else .error (.commitMismatch header.height commit.height)

/-- A commit and a header make a certificate if they are about the same height. -/
theorem ofCommit_eq_ok {commit : AggregateCommit} {header : Header} {c : Certificate} :
    ofCommit commit header = .ok c ↔
      header.height = commit.height ∧ c = ⟨.ofHeader header, commit.bits, commit.signature⟩ := by
  unfold ofCommit
  split <;> rename_i h <;> simp [h, eq_comm]

/-- What a receiving chain remembers of a certificate once it has accepted it. -/
def last (c : Certificate) : LastCertificate := ⟨c.body.height, c.body.validatorsHash⟩

end Certificate

end ImpliedFinality
