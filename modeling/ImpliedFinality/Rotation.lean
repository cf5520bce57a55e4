import ImpliedFinality.Header

/-! # Turns at generating blocks

Time is divided into slots of equal length. The validators that have weight take turns, in address
order, one slot each. The index of their keys is kept beside the parameters of the set. -/

namespace ImpliedFinality

/-- The address of a validator and the key that its blocks are signed with. -/
structure Generator where
  address : Address
  key : GeneratorKey
deriving DecidableEq

def Generator.codec : Codec Generator :=
  ((Codec.octets 20).pair (Codec.octets 32)).iso (fun (a, k) => ⟨a, k⟩)
    (fun g => (g.address, g.key))

theorem Generator.codec_lawful : Generator.codec.Lawful :=
  Codec.iso_lawful (Codec.pair_lawful (Codec.octets_lawful 20) (Codec.octets_lawful 32))
    (fun _ => rfl) (fun _ => rfl)

/-- The generators of a validator set, in the order of their turns. -/
abbrev Generators := List Generator

namespace Generators

def codec : Codec Generators := Generator.codec.list

theorem codec_lawful : codec.Lawful := Codec.list_lawful Generator.codec_lawful

/-- The key of the generator with a given address. -/
def keyOf? (gs : Generators) (address : Address) : Option GeneratorKey :=
  (gs.find? fun g => g.address = address).map Generator.key

end Generators

/-- What a validator is as a generator. -/
def Validator.generator (v : Validator) : Generator := ⟨v.address, v.generatorKey⟩

namespace Validators

/-- The validators that take turns. -/
def voting (vs : Validators) : Validators := vs.filter fun v => !v.weight.isZero

/-- A validator takes turns exactly if its weight is not zero. -/
theorem mem_voting {vs : Validators} {v : Validator} :
    v ∈ vs.voting ↔ v ∈ vs ∧ v.weight.toNat ≠ 0 := by
  simp [voting, Weight.isZero]

def generators (vs : Validators) : Generators := vs.voting.map Validator.generator

/-- The validator whose turn a slot is. -/
def atSlot? (vs : Validators) (slot : Nat) : Option Validator := vs.voting[slot % vs.voting.length]?

/-- A slot is nobody's turn only if no validator has weight. -/
theorem atSlot?_eq_none {vs : Validators} {slot : Nat} :
    vs.atSlot? slot = none ↔ vs.voting = [] := by
  rw [atSlot?, List.getElem?_eq_none_iff]
  constructor
  · intro h
    cases hv : vs.voting with
    | nil => rfl
    | cons v rest =>
      rw [hv] at h
      exact absurd (Nat.mod_lt slot (Nat.succ_pos rest.length)) (Nat.not_lt.mpr h)
  · intro h
    simp [h]

end Validators

/-- The slot of a time, with slots of `blockTime` seconds. A slot lasts at least one second. -/
def slotAt (timestamp : UInt32) (blockTime : Nat) : Nat := timestamp.toNat / max blockTime 1

end ImpliedFinality
