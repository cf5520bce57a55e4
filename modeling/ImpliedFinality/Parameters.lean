import ImpliedFinality.Sha2
import ImpliedFinality.Ed25519.Signing
import ImpliedFinality.Validator

/-! # Finality parameters

The parameters of a block are the validators that vote on it and three thresholds on their weight.
With `w` the aggregate weight, the prevote threshold is `2 * w / 3 + 1`, and the two others are
proposed within `w / 3 + 1` and `w`. A proposal is checked before it becomes parameters. -/

namespace ImpliedFinality

/-- Two sets of validators of this weight each share more than a third of the aggregate weight. -/
def prevoteThreshold (aggregate : Weight) : Weight :=
  ⟨2 * aggregate.toNat / 3 + 1, by have := aggregate.isLt; omega⟩

@[simp] theorem toNat_prevoteThreshold (w : Weight) :
    (prevoteThreshold w).toNat = 2 * w.toNat / 3 + 1 := rfl

/-- The least threshold that may be proposed. -/
def minimumThreshold (aggregate : Weight) : Weight :=
  ⟨aggregate.toNat / 3 + 1, by have := aggregate.isLt; omega⟩

@[simp] theorem toNat_minimumThreshold (w : Weight) :
    (minimumThreshold w).toNat = w.toNat / 3 + 1 := rfl

/-- Whether a threshold may be proposed for validators of a given weight. -/
def isThreshold (aggregate threshold : Weight) : Bool :=
  minimumThreshold aggregate ≤ threshold ∧ threshold ≤ aggregate

/-- A threshold is more than a third of the aggregate weight and at most all of it. -/
theorem isThreshold_iff {aggregate threshold : Weight} :
    isThreshold aggregate threshold = true ↔
      aggregate.toNat / 3 + 1 ≤ threshold.toNat ∧ threshold.toNat ≤ aggregate.toNat := by
  simp [isThreshold, Weight.le_iff]

/-- The registered key and weight of each validator, as other chains learn them. -/
abbrev KeyWeights := List (BlsKey × Weight)

namespace KeyWeights

def codec : Codec KeyWeights := (BlsKey.codec.pair Codec.weight).list

theorem codec_lawful : codec.Lawful :=
  Codec.list_lawful (Codec.pair_lawful BlsKey.codec_lawful Codec.weight_lawful)

end KeyWeights

namespace Validators

/-- Key and weight of each validator, in BLS key order. -/
def keyWeights (vs : Validators) : KeyWeights := vs.byBlsKey.map fun v => (v.blsKey, v.weight)

/-- The bytes that the hash of a validator set commits to. -/
def hashInput (vs : Validators) (certificateThreshold : Weight) : Bytes :=
  (KeyWeights.codec.pair Codec.weight).encode (vs.keyWeights, certificateThreshold)

/-- The hash that names a validator set together with its certificate threshold. -/
def hash (vs : Validators) (certificateThreshold : Weight) : Digest :=
  .ofBytes (vs.hashInput certificateThreshold)

end Validators

/-- The validators that vote on a block, and the weights that their votes have to reach. -/
structure Parameters where
  prevoteThreshold : Weight
  precommitThreshold : Weight
  certificateThreshold : Weight
  validators : Validators
  validatorsHash : Digest
deriving DecidableEq

namespace Parameters

/-- The three thresholds come before the validators and their hash. -/
def codec : Codec Parameters :=
  (Codec.weight.pair <| Codec.weight.pair <| Codec.weight.pair <|
    Validators.codec.pair (Codec.octets 32)).iso
    (fun (pv, pc, c, v, h) => ⟨pv, pc, c, v, h⟩)
    (fun p => (p.prevoteThreshold, p.precommitThreshold, p.certificateThreshold, p.validators,
      p.validatorsHash))

/-- Parameters are read back as they were written. -/
theorem codec_lawful : codec.Lawful :=
  Codec.iso_lawful
    (Codec.pair_lawful Codec.weight_lawful <| Codec.pair_lawful Codec.weight_lawful <|
      Codec.pair_lawful Codec.weight_lawful <|
      Codec.pair_lawful Validators.codec_lawful (Codec.octets_lawful 32))
    (fun _ => rfl) (fun _ => rfl)

/-- The weight of all validators together. Accepted parameters have one that needs no cap. -/
def aggregateWeight (p : Parameters) : Weight := p.validators.cappedWeight

/-- The weight of the vote of a validator, if there is one with this address. -/
def weightOf? (p : Parameters) (address : Address) : Option Weight := p.validators.weightOf? address

/-- The record of the validators that remains when the parameters are gone. -/
def snapshot (p : Parameters) (activeFrom : Height) : Snapshot :=
  ⟨p.validators, p.certificateThreshold, p.validatorsHash, activeFrom⟩

end Parameters

/-- Why a proposal is rejected. -/
inductive Rejection
  | tooManyValidators (count batchSize : Nat)
  | weightOverflow
  | precommitThreshold (threshold aggregate : Weight)
  | certificateThreshold (threshold aggregate : Weight)
  | duplicateAddress
  | duplicateBlsKey
  | invalidGeneratorKey (address : Address)
deriving DecidableEq

namespace Rejection

/-- The name of a reason with its details between braces. -/
def withDetails (name : String) (details : List String) : String :=
  name ++ " \x7b " ++ ", ".intercalate details ++ " \x7d"

/-- A threshold that was proposed, beside the weight that it does not go with. -/
def thresholdDetails (threshold aggregate : Weight) : List String :=
  ["threshold: BFTWeight(" ++ toString threshold ++ ")",
    "aggregate_weight: BFTWeight(" ++ toString aggregate ++ ")"]

def describe : Rejection → String
  | tooManyValidators count batchSize =>
    withDetails "TooManyValidators"
      ["count: " ++ toString count, "batch_size: " ++ toString batchSize]
  | weightOverflow => "AggregateWeightOverflow"
  | precommitThreshold threshold aggregate =>
    withDetails "InvalidPrecommitThreshold" (thresholdDetails threshold aggregate)
  | certificateThreshold threshold aggregate =>
    withDetails "InvalidCertificateThreshold" (thresholdDetails threshold aggregate)
  | duplicateAddress => "DuplicateAddress"
  | duplicateBlsKey => "DuplicateBlsKey"
  | invalidGeneratorKey address =>
    withDetails "InvalidGeneratorKey" ["address: " ++ Bytes.decimalList address.bytes]

end Rejection

/-- A validator set and the thresholds to use with it. -/
structure Proposal where
  precommitThreshold : Weight
  certificateThreshold : Weight
  validators : Validators
deriving DecidableEq

namespace Proposal

/-- The proposal with its validators in address order. -/
def sorted (p : Proposal) : Proposal := { p with validators := p.validators.byAddress }

/-- The aggregate weight of an acceptable proposal, or the first reason against it. -/
def check (batchSize : Nat) (p : Proposal) : Except Rejection Weight :=
  if batchSize < p.validators.length then
    .error (.tooManyValidators p.validators.length batchSize)
  else match p.validators.aggregateWeight? with
  | none => .error .weightOverflow
  | some aggregate =>
    if !isThreshold aggregate p.precommitThreshold then
      .error (.precommitThreshold p.precommitThreshold aggregate)
    else if !isThreshold aggregate p.certificateThreshold then
      .error (.certificateThreshold p.certificateThreshold aggregate)
    else if p.validators.hasDuplicateAddress then .error .duplicateAddress
    else if p.validators.hasDuplicateBlsKey then .error .duplicateBlsKey
    else match p.validators.find? fun v => !Ed25519.isKey v.generatorKey with
    | some v => .error (.invalidGeneratorKey v.address)
    | none => .ok aggregate

/-- A proposal is accepted with its aggregate weight exactly if every rule holds. -/
theorem check_eq_ok {batchSize : Nat} {p : Proposal} {w : Weight} :
    p.check batchSize = .ok w ↔
      p.validators.length ≤ batchSize ∧ p.validators.aggregateWeight? = some w
        ∧ isThreshold w p.precommitThreshold = true ∧ isThreshold w p.certificateThreshold = true
        ∧ p.validators.hasDuplicateAddress = false ∧ p.validators.hasDuplicateBlsKey = false
        ∧ ∀ v ∈ p.validators, Ed25519.isKey v.generatorKey = true := by
  unfold check
  split
  · simp only [reduceCtorEq, false_iff]
    omega
  split
  · simp_all
  rename_i hlen _ aggregate hw
  split
  · rename_i h
    simp only [reduceCtorEq, false_iff]
    rintro ⟨-, hw', ht, -⟩
    simp_all
  split
  · rename_i h
    simp only [reduceCtorEq, false_iff]
    rintro ⟨-, hw', -, ht, -⟩
    simp_all
  split
  · simp_all
  split
  · simp_all
  split
  · rename_i v hv
    simp only [reduceCtorEq, false_iff]
    rintro ⟨-, -, -, -, -, -, hall⟩
    have hbad := List.find?_some hv
    rw [hall v (List.mem_of_find?_eq_some hv)] at hbad
    contradiction
  · rename_i hnone
    rw [List.find?_eq_none] at hnone
    simp only [Except.ok.injEq]
    constructor
    · rintro rfl
      refine ⟨Nat.le_of_not_lt hlen, hw, ?_, ?_, ?_, ?_, ?_⟩ <;> simp_all
    · rintro ⟨-, hw', -⟩
      rw [hw] at hw'
      exact Option.some.inj hw'

/-- Whether parameters already say what a proposal asks for. -/
def isIn (p : Proposal) (current : Parameters) : Bool :=
  current.validators = p.validators ∧ current.precommitThreshold = p.precommitThreshold
    ∧ current.certificateThreshold = p.certificateThreshold

/-- The parameters that an acceptable proposal of a given weight leads to. -/
def parameters (p : Proposal) (aggregate : Weight) : Parameters where
  prevoteThreshold := ImpliedFinality.prevoteThreshold aggregate
  precommitThreshold := p.precommitThreshold
  certificateThreshold := p.certificateThreshold
  validators := p.validators
  validatorsHash := p.validators.hash p.certificateThreshold

end Proposal

end ImpliedFinality
