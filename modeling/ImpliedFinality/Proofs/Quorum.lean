import Mathlib.Algebra.Order.BigOperators.Group.List
import Mathlib.Algebra.Order.Group.Nat
import Mathlib.Data.List.Nodup
import Mathlib.Data.List.Perm.Subperm
import ImpliedFinality.Parameters

/-!
# The weight behind a list of addresses

The support of a list of addresses is the exact weight of the validators that it names. Listing
nobody twice, it is at most the aggregate weight. So two such lists whose supports together exceed
the aggregate weight have an address in common, as those of a prevote and of a precommit quorum do.
-/

namespace ImpliedFinality

namespace Weight

/-- Whatever is listed again is at least as heavy. -/
theorem total_le_of_subperm {a b : List Weight} (h : a.Subperm b) : total a ≤ total b := by
  obtain ⟨c, hperm, hsub⟩ := h
  rw [total, ← (hperm.map toNat).sum_nat]
  exact (hsub.map toNat).sum_le_sum fun _ _ => Nat.zero_le _

theorem total_eq_length {ws : List Weight} (h : ∀ w ∈ ws, w.toNat = 1) :
    total ws = ws.length := by
  rw [total, List.sum_eq_card_nsmul _ 1 (List.forall_mem_map.mpr h), List.length_map]
  exact Nat.mul_one ws.length

/-- A weight of one is added in full to one that is below another. -/
theorem toNat_add_one {a b c : Weight} (hb : b.toNat = 1) (hac : a.toNat < c.toNat) :
    (a + b).toNat = a.toNat + 1 := by
  have hlt := c.isLt
  rw [toNat_add, hb]
  omega

theorem capped_le_capped {m n : Nat} (h : m ≤ n) : capped m ≤ capped n := by
  rw [le_iff, toNat_capped, toNat_capped]
  omega

theorem capped_add (n : Nat) (w : Weight) : capped n + w = capped (n + w.toNat) := by
  apply ext
  simp only [toNat_add, toNat_capped]
  omega

end Weight

namespace Validators

variable {vs : Validators} {a b voters : List Address}

/-- The exact weight of the validators with given addresses, as often as they are listed. -/
def support (vs : Validators) (voters : List Address) : Nat :=
  Weight.total (voters.filterMap vs.weightOf?)

/-- The validators with given addresses, each of them once. -/
def among (vs : Validators) (voters : List Address) : Validators :=
  vs.filter fun v => v.address ∈ voters

theorem support_cons (vs : Validators) (x : Address) (voters : List Address) :
    vs.support (x :: voters) = vs.support voters + ((vs.weightOf? x).getD .zero).toNat := by
  unfold support
  cases hx : vs.weightOf? x with
  | none =>
    rw [List.filterMap_cons_none hx, Option.getD_none]
    rfl
  | some w =>
    rw [List.filterMap_cons_some hx, Option.getD_some, Nat.add_comm, Weight.total, List.map_cons,
      List.sum_cons, ← Weight.total]

theorem support_append (vs : Validators) (a b : List Address) :
    vs.support (a ++ b) = vs.support a + vs.support b := by
  rw [support, List.filterMap_append, Weight.total, List.map_append, List.sum_append_nat]
  rfl

/-- The voters that count are those that are found, in the order of the list. -/
theorem support_eq_found (vs : Validators) (voters : List Address) :
    vs.support voters = Weight.total
      ((voters.filterMap fun x => vs.find? fun v => v.address = x).map Validator.weight) := by
  rw [support, List.map_filterMap]
  rfl

/-- Each voter is found under its own address. -/
theorem nodup_found (hvoters : voters.Nodup) :
    (voters.filterMap fun x => vs.find? fun v => v.address = x).Nodup := by
  apply hvoters.filterMap
  intro x y v hx hy
  have hvx : v.address = x := by simpa using List.find?_some hx
  have hvy : v.address = y := by simpa using List.find?_some hy
  exact hvx.symm.trans hvy

/-- More voters have at least as much weight. -/
theorem support_le_of_subset (ha : a.Nodup) (hsub : a ⊆ b) : vs.support a ≤ vs.support b := by
  obtain ⟨c, hperm, hsublist⟩ := ha.subperm hsub
  apply Weight.total_le_of_subperm
  exact ⟨c.filterMap vs.weightOf?, hperm.filterMap _, hsublist.filterMap _⟩

/-- Voters who are listed once have at most the weight of all validators. -/
theorem support_le_total (vs : Validators) (hvoters : voters.Nodup) :
    vs.support voters ≤ Weight.total (vs.map Validator.weight) := by
  have hsub : (voters.filterMap fun x => vs.find? fun v => v.address = x) ⊆ vs := by
    intro v hv
    obtain ⟨x, -, hx⟩ := List.mem_filterMap.mp hv
    exact List.mem_of_find?_eq_some hx
  obtain ⟨c, hperm, hsublist⟩ := (nodup_found hvoters).subperm hsub
  rw [support_eq_found]
  apply Weight.total_le_of_subperm
  exact ⟨c.map Validator.weight, hperm.map _, hsublist.map _⟩

/-- The first validator with an address is the only one if no address is listed twice. -/
theorem find?_eq_some_iff (hvs : (vs.map Validator.address).Nodup) {x : Address} {v : Validator} :
    vs.find? (fun v => v.address = x) = some v ↔ v ∈ vs ∧ v.address = x := by
  constructor
  · intro h
    exact ⟨List.mem_of_find?_eq_some h, by simpa using List.find?_some h⟩
  · rintro ⟨hv, rfl⟩
    cases hfound : vs.find? fun u => u.address = v.address with
    | none =>
      have hnone := List.find?_eq_none.mp hfound v hv
      simp at hnone
    | some u =>
      have huv : u.address = v.address := by simpa using List.find?_some hfound
      exact congrArg some
        (List.inj_on_of_nodup_map hvs (List.mem_of_find?_eq_some hfound) hv huv)

/-- The support of voters who are listed once is the weight of the validators among them. -/
theorem support_eq_among (hvs : (vs.map Validator.address).Nodup) (hvoters : voters.Nodup) :
    vs.support voters = Weight.total ((vs.among voters).map Validator.weight) := by
  rw [support_eq_found, Weight.total, Weight.total]
  apply List.Perm.sum_nat
  apply List.Perm.map
  apply List.Perm.map
  have hamong : (vs.among voters).Nodup := (List.Nodup.of_map _ hvs).filter _
  rw [List.perm_ext_iff_of_nodup (nodup_found hvoters) hamong]
  intro v
  simp only [List.mem_filterMap, among, List.mem_filter, find?_eq_some_iff hvs, decide_eq_true_eq]
  constructor
  · rintro ⟨x, hx, hv, rfl⟩
    exact ⟨hv, hx⟩
  · rintro ⟨hv, hx⟩
    exact ⟨v.address, hx, hv, rfl⟩

/-- Two groups that are together heavier than all validators have a member in common. -/
theorem exists_common (vs : Validators) (ha : a.Nodup) (hb : b.Nodup)
    (h : Weight.total (vs.map Validator.weight) < vs.support a + vs.support b) :
    ∃ x ∈ a, x ∈ b := by
  apply Decidable.byContradiction
  intro hnone
  have hdisjoint : ∀ x ∈ a, ∀ y ∈ b, x ≠ y := by
    rintro x hx y hy rfl
    exact hnone ⟨x, hx, hy⟩
  have hboth := support_le_total vs (List.nodup_append.mpr ⟨ha, hb, hdisjoint⟩)
  rw [support_append] at hboth
  exact absurd h (Nat.not_lt.mpr hboth)

end Validators

namespace Parameters

/-- Parameters that come from an acceptable proposal. -/
def Accepted (batchSize : Nat) (p : Parameters) : Prop :=
  ∃ proposal aggregate, Proposal.check batchSize proposal = .ok aggregate ∧
    p = proposal.parameters aggregate

namespace Accepted

variable {batchSize : Nat} {p : Parameters}

theorem nodup (h : p.Accepted batchSize) : (p.validators.map Validator.address).Nodup := by
  obtain ⟨proposal, aggregate, hcheck, rfl⟩ := h
  obtain ⟨-, -, -, -, hunique, -⟩ := Proposal.check_eq_ok.mp hcheck
  exact Validators.hasDuplicateAddress_eq_false.mp hunique

/-- The aggregate weight of accepted parameters is exact. -/
theorem toNat_aggregateWeight (h : p.Accepted batchSize) :
    p.aggregateWeight.toNat = Weight.total (p.validators.map Validator.weight) := by
  obtain ⟨proposal, aggregate, hcheck, rfl⟩ := h
  obtain ⟨-, haggregate, -⟩ := Proposal.check_eq_ok.mp hcheck
  have htotal := Validators.aggregateWeight?_eq_some.mp haggregate
  have hlt := aggregate.isLt
  rw [aggregateWeight, Validators.cappedWeight, Weight.toNat_sum]
  simp only [Proposal.parameters, htotal]
  omega

theorem support_le (h : p.Accepted batchSize) {voters : List Address} (hvoters : voters.Nodup) :
    p.validators.support voters ≤ p.aggregateWeight.toNat := by
  rw [h.toNat_aggregateWeight]
  exact Validators.support_le_total p.validators hvoters

/-- The weight of voters who are listed once is not cut off. -/
theorem toNat_capped_support (h : p.Accepted batchSize) {voters : List Address}
    (hvoters : voters.Nodup) :
    (Weight.capped (p.validators.support voters)).toNat = p.validators.support voters := by
  have hle := h.support_le hvoters
  have hlt := p.aggregateWeight.isLt
  rw [Weight.toNat_capped]
  omega

theorem toNat_prevoteThreshold (h : p.Accepted batchSize) :
    p.prevoteThreshold.toNat = 2 * p.aggregateWeight.toNat / 3 + 1 := by
  rw [h.toNat_aggregateWeight]
  obtain ⟨proposal, aggregate, hcheck, rfl⟩ := h
  obtain ⟨-, haggregate, -⟩ := Proposal.check_eq_ok.mp hcheck
  have htotal := Validators.aggregateWeight?_eq_some.mp haggregate
  simp only [Proposal.parameters, htotal, ImpliedFinality.toNat_prevoteThreshold]

theorem le_precommitThreshold (h : p.Accepted batchSize) :
    p.aggregateWeight.toNat / 3 + 1 ≤ p.precommitThreshold.toNat := by
  rw [h.toNat_aggregateWeight]
  obtain ⟨proposal, aggregate, hcheck, rfl⟩ := h
  obtain ⟨-, haggregate, hthreshold, -⟩ := Proposal.check_eq_ok.mp hcheck
  have htotal := Validators.aggregateWeight?_eq_some.mp haggregate
  simp only [Proposal.parameters, htotal]
  exact (isThreshold_iff.mp hthreshold).1

theorem precommitThreshold_le (h : p.Accepted batchSize) :
    p.precommitThreshold.toNat ≤ p.aggregateWeight.toNat := by
  rw [h.toNat_aggregateWeight]
  obtain ⟨proposal, aggregate, hcheck, rfl⟩ := h
  obtain ⟨-, haggregate, hthreshold, -⟩ := Proposal.check_eq_ok.mp hcheck
  have htotal := Validators.aggregateWeight?_eq_some.mp haggregate
  simp only [Proposal.parameters, htotal]
  exact (isThreshold_iff.mp hthreshold).2

theorem length_le (h : p.Accepted batchSize) : p.validators.length ≤ batchSize := by
  obtain ⟨proposal, aggregate, hcheck, rfl⟩ := h
  exact (Proposal.check_eq_ok.mp hcheck).1

/-- Nothing is accepted if there may not be any validators. -/
theorem batchSize_pos (h : p.Accepted batchSize) : 0 < batchSize := by
  have hlow := h.le_precommitThreshold
  have hhigh := h.precommitThreshold_le
  apply Nat.lt_of_lt_of_le _ h.length_le
  apply List.length_pos_of_ne_nil
  intro hnil
  have hzero : p.aggregateWeight.toNat = 0 := by
    rw [h.toNat_aggregateWeight, hnil]
    rfl
  omega

theorem prevoteThreshold_pos (h : p.Accepted batchSize) : 0 < p.prevoteThreshold.toNat := by
  rw [h.toNat_prevoteThreshold]
  exact Nat.succ_pos _

theorem precommitThreshold_pos (h : p.Accepted batchSize) : 0 < p.precommitThreshold.toNat :=
  Nat.lt_of_lt_of_le (Nat.succ_pos _) h.le_precommitThreshold

/-- A quorum of prevotes and one of precommits have a validator in common. -/
theorem quorums_meet (h : p.Accepted batchSize) {a b : List Address} (ha : a.Nodup) (hb : b.Nodup)
    (hprecommits : p.precommitThreshold.toNat ≤ p.validators.support a)
    (hprevotes : p.prevoteThreshold.toNat ≤ p.validators.support b) : ∃ x ∈ a, x ∈ b := by
  apply p.validators.exists_common ha hb
  have hprecommit := h.le_precommitThreshold
  rw [h.toNat_prevoteThreshold] at hprevotes
  rw [← h.toNat_aggregateWeight]
  omega

end Accepted

end Parameters

end ImpliedFinality
