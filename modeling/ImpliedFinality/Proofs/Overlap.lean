import Mathlib.Algebra.BigOperators.Group.Finset.Basic
import Mathlib.Algebra.Order.BigOperators.Group.Finset
import ImpliedFinality.Proofs.Lag

/-!
# How much quorums share

Two groups of validators weigh together no more than all validators and what the groups share. So
thresholds that add up to more than the aggregate weight force every two groups that reach them to
share the excess. The thresholds of an acceptable proposal do, up to the greatest weight of all:
with `w` the aggregate weight, two prevote quorums share `w / 3 + 1`, and a prevote quorum shares
something with every group that reaches one of the proposed thresholds.
-/

namespace ImpliedFinality

namespace Validators

/-- The exact weight of a group of validators. -/
def groupWeight (group : Finset Validator) : Nat := ∑ v ∈ group, v.weight.toNat

variable {all a b : Finset Validator} {vs : Validators}

theorem groupWeight_mono (h : a ⊆ b) : groupWeight a ≤ groupWeight b :=
  Finset.sum_le_sum_of_subset h

/-- What two groups weigh beyond the weight of all they share. -/
theorem groupWeight_add_le (ha : a ⊆ all) (hb : b ⊆ all) :
    groupWeight a + groupWeight b ≤ groupWeight all + groupWeight (a ∩ b) :=
  calc
    groupWeight a + groupWeight b
    _ = groupWeight (a ∪ b) + groupWeight (a ∩ b) := Finset.sum_union_inter.symm
    _ ≤ groupWeight all + groupWeight (a ∩ b) :=
      Nat.add_le_add_right (groupWeight_mono (Finset.union_subset ha hb)) _

/-- A list without repetitions weighs as much as the group of its members. -/
theorem groupWeight_toFinset (h : vs.Nodup) :
    groupWeight vs.toFinset = Weight.total (vs.map Validator.weight) := by
  rw [groupWeight, List.sum_toFinset _ h, Weight.total, List.map_map]
  rfl

end Validators

/-- The prevote threshold as it is computed in words. The product has 128 bits and everything else
has 64. -/
def prevoteThresholdWord (w : BitVec 64) : BitVec 64 := ((w.setWidth 128 * 2) / 3).setWidth 64 + 1

/-- Nothing wraps around on the way to the prevote threshold. -/
theorem toNat_prevoteThresholdWord (w : Weight) :
    (prevoteThresholdWord (.ofNat 64 w.toNat)).toNat = (prevoteThreshold w).toNat := by
  have hlt := w.isLt
  have hweight : w.toNat % 2 ^ 64 = w.toNat := Nat.mod_eq_of_lt hlt
  have hwide : w.toNat % 2 ^ 128 = w.toNat := Nat.mod_eq_of_lt (by omega)
  have hproduct : w.toNat * 2 % 2 ^ 128 = w.toNat * 2 := Nat.mod_eq_of_lt (by omega)
  have hquotient : w.toNat * 2 / 3 % 2 ^ 64 = w.toNat * 2 / 3 := Nat.mod_eq_of_lt (by omega)
  have hsum : (w.toNat * 2 / 3 + 1) % 2 ^ 64 = w.toNat * 2 / 3 + 1 := Nat.mod_eq_of_lt (by omega)
  calc
    (prevoteThresholdWord (.ofNat 64 w.toNat)).toNat
    _ = (w.toNat % 2 ^ 64 % 2 ^ 128 * 2 % 2 ^ 128 / 3 % 2 ^ 64 + 1) % 2 ^ 64 := by
      rw [prevoteThresholdWord, BitVec.toNat_add, BitVec.toNat_setWidth, BitVec.toNat_udiv,
        BitVec.toNat_mul, BitVec.toNat_setWidth, BitVec.toNat_ofNat]
      rfl
    _ = w.toNat * 2 / 3 + 1 := by rw [hweight, hwide, hproduct, hquotient, hsum]
    _ = (prevoteThreshold w).toNat := by rw [toNat_prevoteThreshold, Nat.mul_comm]

namespace Proposal

open Validators

variable {batchSize : Nat} {p : Proposal} {w : Weight}

section Accepted

variable (accepted : p.check batchSize = .ok w)
include accepted

theorem groupWeight_validators : groupWeight p.validators.toFinset = w.toNat := by
  obtain ⟨-, haggregate, -, -, hunique, -⟩ := check_eq_ok.mp accepted
  have hnodup : p.validators.Nodup := .of_map _ (hasDuplicateAddress_eq_false.mp hunique)
  rw [groupWeight_toFinset hnodup, aggregateWeight?_eq_some.mp haggregate]

/-- Groups that reach two numbers share what these exceed the aggregate weight by. -/
theorem add_le_shared {a b : Finset Validator} (ha : a ⊆ p.validators.toFinset)
    (hb : b ⊆ p.validators.toFinset) {m n : Nat} (hm : m ≤ groupWeight a)
    (hn : n ≤ groupWeight b) : m + n ≤ w.toNat + groupWeight (a ∩ b) := by
  rw [← groupWeight_validators accepted]
  exact Nat.le_trans (Nat.add_le_add hm hn) (groupWeight_add_le ha hb)

/-- A threshold that may be proposed exceeds the aggregate weight together with that for
prevotes. -/
theorem shared_pos {threshold : Weight} (hthreshold : isThreshold w threshold = true)
    {a b : Finset Validator} (ha : a ⊆ p.validators.toFinset) (hb : b ⊆ p.validators.toFinset)
    (hprevotes : (prevoteThreshold w).toNat ≤ groupWeight a)
    (hreached : threshold.toNat ≤ groupWeight b) : 0 < groupWeight (a ∩ b) := by
  have hshared := add_le_shared accepted ha hb hprevotes hreached
  have hlow := (isThreshold_iff.mp hthreshold).1
  rw [toNat_prevoteThreshold] at hshared
  omega

/-- The prevote threshold of an acceptable proposal is computed without wrapping around, and it is
at least one and at most the aggregate weight. Two groups of validators that reach it share more
than a third of the aggregate weight. One group that reaches it and one that reaches the
precommit or the certificate threshold share some weight. -/
theorem quorums_overlap :
    groupWeight p.validators.toFinset = w.toNat ∧
    (prevoteThresholdWord (.ofNat 64 w.toNat)).toNat = 2 * w.toNat / 3 + 1 ∧
    (prevoteThreshold w).toNat = 2 * w.toNat / 3 + 1 ∧
    1 ≤ (prevoteThreshold w).toNat ∧ (prevoteThreshold w).toNat ≤ w.toNat ∧
    ∀ a ⊆ p.validators.toFinset, (prevoteThreshold w).toNat ≤ groupWeight a →
      ∀ b ⊆ p.validators.toFinset,
        ((prevoteThreshold w).toNat ≤ groupWeight b →
          w.toNat / 3 + 1 ≤ groupWeight (a ∩ b)) ∧
        (p.precommitThreshold.toNat ≤ groupWeight b → 0 < groupWeight (a ∩ b)) ∧
        (p.certificateThreshold.toNat ≤ groupWeight b → 0 < groupWeight (a ∩ b)) := by
  obtain ⟨-, -, hprecommit, hcertificate, -⟩ := check_eq_ok.mp accepted
  have hpositive : 0 < w.toNat := by
    obtain ⟨hlow, hhigh⟩ := isThreshold_iff.mp hprecommit
    omega
  refine ⟨groupWeight_validators accepted, toNat_prevoteThresholdWord w, rfl, Nat.succ_pos _, ?_,
    fun a ha hprevotes b hb => ⟨fun hreached => ?_, ?_, ?_⟩⟩
  · rw [toNat_prevoteThreshold]
    omega
  · have hshared := add_le_shared accepted ha hb hprevotes hreached
    rw [toNat_prevoteThreshold] at hshared
    omega
  · exact shared_pos accepted hprecommit ha hb hprevotes
  · exact shared_pos accepted hcertificate ha hb hprevotes

end Accepted

end Proposal

namespace Quartet

/-- One of four validators, with about a quarter of the greatest weight. -/
def quarter (n : UInt8) (extra : Weight) : Validator :=
  { Solo.validator with
    address := address n
    weight := ⟨4611686018427387903, by decide⟩ + extra }

/-- Four validators whose aggregate weight is the greatest one, with the least precommit threshold
and the greatest certificate threshold. -/
def heaviest : Proposal where
  precommitThreshold := minimumThreshold .top
  certificateThreshold := .top
  validators := [quarter 1 .zero, quarter 2 .zero, quarter 3 .zero, quarter 4 (Solo.weight 3)]

end Quartet

namespace Proposal

open Validators
open Quartet (heaviest quarter)

/-- The two quorums without the first and without the last validator share the two in between. -/
theorem quorums_overlap_heaviest :
    heaviest.check 4 = .ok .top ∧
      (prevoteThreshold .top).toNat
        ≤ groupWeight {quarter 1 .zero, quarter 2 .zero, quarter 3 .zero} ∧
      (prevoteThreshold .top).toNat
        ≤ groupWeight {quarter 2 .zero, quarter 3 .zero, quarter 4 (Solo.weight 3)} ∧
      Weight.top.toNat / 3 + 1
        ≤ groupWeight ({quarter 1 .zero, quarter 2 .zero, quarter 3 .zero} ∩
          {quarter 2 .zero, quarter 3 .zero, quarter 4 (Solo.weight 3)}) := by
  have haccepted : heaviest.check 4 = .ok .top := by decide +kernel
  have hfirst : (prevoteThreshold .top).toNat
      ≤ groupWeight {quarter 1 .zero, quarter 2 .zero, quarter 3 .zero} := by decide +kernel
  have hlast : (prevoteThreshold .top).toNat
      ≤ groupWeight {quarter 2 .zero, quarter 3 .zero, quarter 4 (Solo.weight 3)} := by
    decide +kernel
  obtain ⟨-, -, -, -, -, hshared⟩ := quorums_overlap haccepted
  exact ⟨haccepted, hfirst, hlast,
    (hshared _ (by decide +kernel) hfirst _ (by decide +kernel)).1 hlast⟩

end Proposal

end ImpliedFinality
