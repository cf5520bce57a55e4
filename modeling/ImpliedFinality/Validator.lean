import ImpliedFinality.Sorting
import ImpliedFinality.Wire

/-! # Validators

A validator list has two orders. In address order it is stored and takes turns at generating
blocks. In BLS key order it is indexed by bitmaps and named by its hash. Keys of zero bytes only
are placeholders of validators without a BLS key, and are exempt from the rule that keys differ.
-/

namespace ImpliedFinality

/-- A BLS public key as its bytes, of which there may be any number. -/
structure BlsKey where
  bytes : Bytes
deriving DecidableEq

namespace BlsKey

instance : Inhabited BlsKey := ⟨⟨[]⟩⟩

instance : Ord BlsKey := ⟨fun a b => compare a.bytes b.bytes⟩

theorem compare_def (a b : BlsKey) : compare a b = compare a.bytes b.bytes := rfl

instance : Std.TransOrd BlsKey where
  eq_swap {a b} := by simpa only [compare_def] using Std.OrientedOrd.eq_swap
  isLE_trans {a b c} := by simpa only [compare_def] using Std.TransOrd.isLE_trans

instance : Std.LawfulEqOrd BlsKey where
  compare_self := Std.ReflOrd.compare_self (α := Bytes)
  eq_of_compare {a b} h := by
    cases a; cases b
    exact congrArg BlsKey.mk (Std.LawfulEqOrd.eq_of_compare (α := Bytes) h)

/-- A key is as long as a compressed BLS12-381 public key, 48 bytes. -/
def placeholder : BlsKey := ⟨List.replicate 48 0⟩

/-- Whether all bytes of a key are zero. A key without bytes counts as one of these. -/
def isPlaceholder (key : BlsKey) : Bool := key.bytes.all (· == 0)

theorem isPlaceholder_placeholder : placeholder.isPlaceholder = true := by
  simp [isPlaceholder, placeholder]

def codec : Codec BlsKey := Codec.bytes.iso BlsKey.mk BlsKey.bytes

theorem codec_lawful : codec.Lawful :=
  Codec.iso_lawful Codec.bytes_lawful (fun _ => rfl) (fun _ => rfl)

end BlsKey

/-- A member of a validator set. A validator of weight zero has no vote and generates no blocks. -/
structure Validator where
  address : Address
  generatorKey : GeneratorKey
  blsKey : BlsKey
  weight : Weight
deriving DecidableEq

namespace Validator

def codec : Codec Validator :=
  ((Codec.octets 20).pair <| (Codec.octets 32).pair <| BlsKey.codec.pair Codec.weight).iso
    (fun (a, g, b, w) => ⟨a, g, b, w⟩) (fun v => (v.address, v.generatorKey, v.blsKey, v.weight))

theorem codec_lawful : codec.Lawful :=
  Codec.iso_lawful
    (Codec.pair_lawful (Codec.octets_lawful 20) <| Codec.pair_lawful (Codec.octets_lawful 32) <|
      Codec.pair_lawful BlsKey.codec_lawful Codec.weight_lawful)
    (fun _ => rfl) (fun _ => rfl)

end Validator

/-- A list of validators, in any order. -/
abbrev Validators := List Validator

namespace Validators

/-- The order of a list is part of its written form. -/
def codec : Codec Validators := Validator.codec.list

/-- Lists that can be counted in four bytes are read back as they were written. -/
theorem codec_lawful : codec.Lawful := Codec.list_lawful Validator.codec_lawful

/-- The validators in the order in which they are stored and take turns. -/
def byAddress (vs : Validators) : Validators := sortBy Validator.address vs

/-- The validators in the order in which bitmaps index them. -/
def byBlsKey (vs : Validators) : Validators := sortBy Validator.blsKey vs

/-- The keys that the bits of a bitmap stand for. -/
def blsKeys (vs : Validators) : List BlsKey := vs.byBlsKey.map Validator.blsKey

/-- The validators that have registered a BLS key. -/
def registered (vs : Validators) : Validators := vs.filter fun v => !v.blsKey.isPlaceholder

/-- The weight of all validators together, unless it is too large for a weight. -/
def aggregateWeight? (vs : Validators) : Option Weight := Weight.sum? (vs.map Validator.weight)

/-- An aggregate weight is the exact sum of the weights. -/
theorem aggregateWeight?_eq_some {vs : Validators} {w : Weight} :
    vs.aggregateWeight? = some w ↔ Weight.total (vs.map Validator.weight) = w.toNat :=
  Weight.sum?_eq_some

/-- The weight of all validators together, or the largest weight if that is less. -/
def cappedWeight (vs : Validators) : Weight := Weight.sum (vs.map Validator.weight)

/-- Whether two validators have the same address. -/
def hasDuplicateAddress (vs : Validators) : Bool := !decide (vs.map Validator.address).Nodup

theorem hasDuplicateAddress_eq_false {vs : Validators} :
    vs.hasDuplicateAddress = false ↔ (vs.map Validator.address).Nodup := by
  simp [hasDuplicateAddress]

/-- Whether two validators have registered the same BLS key. -/
def hasDuplicateBlsKey (vs : Validators) : Bool :=
  !decide (vs.registered.map Validator.blsKey).Nodup

/-- Placeholders may be repeated. -/
theorem hasDuplicateBlsKey_eq_false {vs : Validators} :
    vs.hasDuplicateBlsKey = false ↔ (vs.registered.map Validator.blsKey).Nodup := by
  simp [hasDuplicateBlsKey]

/-- The weight of the first validator with a given address. -/
def weightOf? (vs : Validators) (address : Address) : Option Weight :=
  (vs.find? fun v => v.address = address).map Validator.weight

/-- The validators whose bit is set, with the list in BLS key order. -/
def signers (vs : Validators) (bits : Bitmap) : Validators :=
  (vs.byBlsKey.zipIdx.filter fun (_, i) => bits.isSet i).map (·.1)

/-- The weight of the validators whose bit is set. -/
def signersWeight (vs : Validators) (bits : Bitmap) : Weight := (vs.signers bits).cappedWeight

end Validators

/-- The record of a validator set that outlives the parameters it came with. It is named by the
hash of the set. -/
structure Snapshot where
  validators : Validators
  certificateThreshold : Weight
  validatorsHash : Digest
  activeFrom : Height
deriving DecidableEq

namespace Snapshot

/-- The validators come first, then the threshold, the name of the set and a height. -/
def codec : Codec Snapshot :=
  (Validators.codec.pair <| Codec.weight.pair <| (Codec.octets 32).pair Codec.height).iso
    (fun (v, t, h, a) => ⟨v, t, h, a⟩)
    (fun s => (s.validators, s.certificateThreshold, s.validatorsHash, s.activeFrom))

/-- Snapshots are read back as they were written. -/
theorem codec_lawful : codec.Lawful :=
  Codec.iso_lawful
    (Codec.pair_lawful Validators.codec_lawful <| Codec.pair_lawful Codec.weight_lawful <|
      Codec.pair_lawful (Codec.octets_lawful 32) Codec.height_lawful)
    (fun _ => rfl) (fun _ => rfl)

end Snapshot

end ImpliedFinality
