import ImpliedFinality.Certificate
import ImpliedFinality.Ledger.Basic
import ImpliedFinality.Relay.Client
import ImpliedFinality.Rotation

/-!
# The wire format is canonical

A value has a written form if all lists in it are short enough to be counted in four bytes. Such a
value is read back from its written form whatever follows it, and nothing else is ever read as it.
So the bytes of a record or message determine it, and the bytes that a generator signs determine
the whole header but its signature.
-/

namespace ImpliedFinality

/-- A list that can be counted in four bytes: it has fewer than `2 ^ 32` items. -/
def Short {α : Type} (items : List α) : Prop := items.length < 4294967296

namespace Codec

variable {α β : Type}

/-! ## Which values have a written form -/

@[simp] theorem fits_octets {width : Nat} (o : Octets width) : (octets width).fits o = true := rfl

@[simp] theorem fits_word (w : UInt32) : word.fits w = true := rfl

@[simp] theorem fits_height (h : Height) : height.fits h = true := rfl

@[simp] theorem fits_weight (w : Weight) : weight.fits w = true := rfl

@[simp] theorem fits_bytes (bs : Bytes) : bytes.fits bs = true ↔ Short bs := decide_eq_true_iff

@[simp] theorem fits_bitmap (b : Bitmap) : bitmap.fits b = true ↔ Short b.bytes := fits_bytes b.bytes

@[simp] theorem fits_list (c : Codec α) (vs : List α) :
    c.list.fits vs = true ↔ Short vs ∧ ∀ v ∈ vs, c.fits v = true := by
  show (decide (vs.length < Bytes.capacity 4) && vs.all c.fits) = true ↔ _
  rw [Bool.and_eq_true, decide_eq_true_iff, List.all_eq_true]
  rfl

@[simp] theorem fits_pair (a : Codec α) (b : Codec β) (v : α × β) :
    (a.pair b).fits v = true ↔ a.fits v.1 = true ∧ b.fits v.2 = true := by
  show (a.fits v.1 && b.fits v.2) = true ↔ _
  rw [Bool.and_eq_true]

@[simp] theorem fits_iso (c : Codec α) (into : α → β) (back : β → α) (v : β) :
    (c.iso into back).fits v = c.fits (back v) := rfl

/-- A codec is canonical for some values if it writes these only, reads them from their written
forms, and reads nothing else. -/
structure Canonical (c : Codec α) (short : α → Prop) : Prop where
  write_eq_ok : ∀ v bytes, c.write v = .ok bytes ↔ short v ∧ c.encode v = bytes
  decode_encode : ∀ v, short v → ∀ rest, c.decode (c.encode v ++ rest) = some (v, rest)
  eq_encode_of_decode : ∀ bytes v rest, c.decode bytes = some (v, rest) →
    short v ∧ bytes = c.encode v ++ rest
  readAll_eq_ok : ∀ bytes v, c.readAll bytes = .ok v ↔ short v ∧ bytes = c.encode v

theorem Lawful.canonical {c : Codec α} (h : c.Lawful) {short : α → Prop}
    (fits_iff : ∀ v, c.fits v = true ↔ short v) : c.Canonical short where
  write_eq_ok v bytes := by rw [Codec.write_eq_ok, fits_iff]
  decode_encode v hv rest := h.decode_encode rest ((fits_iff v).mpr hv)
  eq_encode_of_decode bytes v rest hread := by
    obtain ⟨hfits, hbytes⟩ := h.eq_encode_of_decode hread
    exact ⟨(fits_iff v).mp hfits, hbytes⟩
  readAll_eq_ok bytes v := by
    rw [h.readAll_eq_ok, Codec.write_eq_ok, fits_iff, eq_comm (a := bytes)]

end Codec

/-! ## Records and messages -/

def Validator.IsShort (v : Validator) : Prop := Short v.blsKey.bytes

theorem Validator.fits_iff (v : Validator) : codec.fits v = true ↔ v.IsShort := by
  simp [codec, BlsKey.codec, IsShort]

def Validators.IsShort (vs : Validators) : Prop := Short vs ∧ ∀ v ∈ vs, v.IsShort

theorem Validators.fits_iff (vs : Validators) : codec.fits vs = true ↔ vs.IsShort := by
  simp only [codec, Codec.fits_list, Validator.fits_iff, IsShort]

def Snapshot.IsShort (s : Snapshot) : Prop := s.validators.IsShort

theorem Snapshot.fits_iff (s : Snapshot) : codec.fits s = true ↔ s.IsShort := by
  simp [codec, Validators.fits_iff, IsShort]

def Parameters.IsShort (p : Parameters) : Prop := p.validators.IsShort

theorem Parameters.fits_iff (p : Parameters) : codec.fits p = true ↔ p.IsShort := by
  simp [codec, Validators.fits_iff, IsShort]

theorem Watermarks.fits_eq_true (w : Watermarks) : codec.fits w = true := rfl

def Ledger.IsShort (l : Ledger) : Prop := Short l.window ∧ Short l.voters

theorem Ledger.fits_iff (l : Ledger) : codec.fits l = true ↔ l.IsShort := by
  simp [codec, BlockVotes.codec, Voter.codec, Watermarks.fits_eq_true, IsShort]

theorem Generators.fits_iff (gs : Generators) : codec.fits gs = true ↔ Short gs := by
  simp [codec, Generator.codec]

@[simp] theorem Signature.fits_iff (s : Signature) : codec.fits s = true ↔ Short s.bytes :=
  Codec.fits_bytes s.bytes

def AggregateCommit.IsShort (c : AggregateCommit) : Prop :=
  Short c.bits.bytes ∧ Short c.signature.bytes

theorem AggregateCommit.fits_iff (c : AggregateCommit) : codec.fits c = true ↔ c.IsShort := by
  simp [codec, IsShort]

def Header.IsShort (h : Header) : Prop := h.commit.IsShort ∧ Short h.signature.bytes

theorem Header.fits_iff (h : Header) : codec.fits h = true ↔ h.IsShort := by
  simp [codec, AggregateCommit.fits_iff, IsShort]

theorem CertificateBody.fits_eq_true (c : CertificateBody) : codec.fits c = true := rfl

def Certificate.IsShort (c : Certificate) : Prop :=
  Short c.bits.bytes ∧ Short c.signature.bytes

theorem Certificate.fits_iff (c : Certificate) : codec.fits c = true ↔ c.IsShort := by
  simp [codec, CertificateBody.fits_eq_true, IsShort]

theorem LastCertificate.fits_eq_true (c : LastCertificate) : codec.fits c = true := rfl

def KeyWeights.IsShort (vs : KeyWeights) : Prop := Short vs ∧ ∀ v ∈ vs, Short v.1.bytes

theorem KeyWeights.fits_iff (vs : KeyWeights) : codec.fits vs = true ↔ vs.IsShort := by
  simp [codec, BlsKey.codec, IsShort]

def CrossChainUpdate.IsShort (u : CrossChainUpdate) : Prop :=
  Short u.certificate ∧ u.validators.IsShort

theorem CrossChainUpdate.fits_iff (u : CrossChainUpdate) : codec.fits u = true ↔ u.IsShort := by
  simp [codec, KeyWeights.fits_iff, IsShort]

/-! ## Signed bytes -/

/-- The bytes that a generator signs determine all of a header but the signature. -/
theorem Header.signingBytes_eq_iff {a b : Header} (ha : a.commit.IsShort) (hb : b.commit.IsShort) :
    a.signingBytes = b.signingBytes ↔ { a with signature := b.signature } = b := by
  have hunsigned : ∀ h : Header, h.commit.IsShort → codec.fits h.unsigned = true := by
    intro h hh
    have hempty : Short Signature.empty.bytes := Nat.zero_lt_succ _
    exact (fits_iff h.unsigned).mpr ⟨hh, hempty⟩
  constructor
  · intro h
    have heq : a.unsigned = b.unsigned := codec_lawful.encode_inj (hunsigned a ha) (hunsigned b hb) h
    calc
      { a with signature := b.signature } = { a.unsigned with signature := b.signature } := rfl
      _ = { b.unsigned with signature := b.signature } := by rw [heq]
  · intro h
    rw [← h]
    rfl

/-- The wire format of every record and message is canonical. Two headers with commits that can be
written have the same signed bytes exactly if they agree in every field but the signature. -/
theorem wire_format_canonical :
    Validator.codec.Canonical Validator.IsShort ∧
      Snapshot.codec.Canonical Snapshot.IsShort ∧
      Parameters.codec.Canonical Parameters.IsShort ∧
      Ledger.codec.Canonical Ledger.IsShort ∧
      Watermarks.codec.Canonical (fun _ => True) ∧
      Generators.codec.Canonical (fun gs => Short gs) ∧
      AggregateCommit.codec.Canonical AggregateCommit.IsShort ∧
      Header.codec.Canonical Header.IsShort ∧
      CertificateBody.codec.Canonical (fun _ => True) ∧
      Certificate.codec.Canonical Certificate.IsShort ∧
      LastCertificate.codec.Canonical (fun _ => True) ∧
      CrossChainUpdate.codec.Canonical CrossChainUpdate.IsShort ∧
      ∀ a b : Header, a.commit.IsShort → b.commit.IsShort →
        (a.signingBytes = b.signingBytes ↔ { a with signature := b.signature } = b) :=
  ⟨Validator.codec_lawful.canonical Validator.fits_iff,
    Snapshot.codec_lawful.canonical Snapshot.fits_iff,
    Parameters.codec_lawful.canonical Parameters.fits_iff,
    Ledger.codec_lawful.canonical Ledger.fits_iff,
    Watermarks.codec_lawful.canonical fun _ => iff_of_true rfl trivial,
    Generators.codec_lawful.canonical Generators.fits_iff,
    AggregateCommit.codec_lawful.canonical AggregateCommit.fits_iff,
    Header.codec_lawful.canonical Header.fits_iff,
    CertificateBody.codec_lawful.canonical fun _ => iff_of_true rfl trivial,
    Certificate.codec_lawful.canonical Certificate.fits_iff,
    LastCertificate.codec_lawful.canonical fun _ => iff_of_true rfl trivial,
    CrossChainUpdate.codec_lawful.canonical CrossChainUpdate.fits_iff,
    fun _ _ ha hb => Header.signingBytes_eq_iff ha hb⟩

end ImpliedFinality
