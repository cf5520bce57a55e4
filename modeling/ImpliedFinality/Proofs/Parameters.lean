import Mathlib.Algebra.GroupWithZero.Nat
import ImpliedFinality.Proofs.Course
import ImpliedFinality.Proofs.Retention

/-!
# What stored parameters look like

Only accepted proposals become parameters, and these are sorted before they are checked. So each
stored record obeys the rules for a validator set and its thresholds, and is named by its hash. Its
snapshot is stored under that name, since a proposal takes away no snapshot that a stored record
other than the replaced one names. Only pruning snapshots may leave a record without one.
-/

namespace ImpliedFinality

namespace Parameters

/-- The exact weight of all validators. -/
def totalWeight (p : Parameters) : Nat := Weight.total (p.validators.map Validator.weight)

/-- The rules for parameters over at most `batchSize` validators. -/
structure WellFormed (batchSize : Nat) (p : Parameters) : Prop where
  ascending : p.validators.Pairwise fun a b => compare a.address b.address = .lt
  length_le : p.validators.length ≤ batchSize
  /-- Validators share no BLS key but a placeholder. -/
  distinct : p.validators.Pairwise fun a b => a.blsKey = b.blsKey → a.blsKey.isPlaceholder = true
  totalWeight_lt : p.totalWeight < 2 ^ 64
  prevotes : p.prevoteThreshold.toNat = 2 * p.totalWeight / 3 + 1
  precommits : p.totalWeight / 3 + 1 ≤ p.precommitThreshold.toNat ∧
    p.precommitThreshold.toNat ≤ p.totalWeight
  certificates : p.totalWeight / 3 + 1 ≤ p.certificateThreshold.toNat ∧
    p.certificateThreshold.toNat ≤ p.totalWeight
  named : p.validatorsHash = p.validators.hash p.certificateThreshold

/-- Each validator of well-formed parameters has its own address. -/
theorem WellFormed.nodup {batchSize : Nat} {p : Parameters} (h : p.WellFormed batchSize) :
    (p.validators.map Validator.address).Nodup := by
  rw [List.Nodup, List.pairwise_map]
  apply h.ascending.imp
  intro a b hab heq
  rw [heq, Std.ReflOrd.compare_self] at hab
  contradiction

end Parameters

namespace Validators

/-- Sorted validators with different addresses are in strictly ascending order. -/
theorem ascending_byAddress {vs : Validators} (h : (vs.byAddress.map Validator.address).Nodup) :
    vs.byAddress.Pairwise fun a b => compare a.address b.address = .lt := by
  apply ascending_sortBy
  exact (((sortBy_perm Validator.address vs).map Validator.address).nodup_iff).mp h

/-- Without duplicates among the registered keys, only placeholders are shared. -/
theorem distinct_of_nodup {vs : Validators} (h : (vs.registered.map Validator.blsKey).Nodup) :
    vs.Pairwise fun a b => a.blsKey = b.blsKey → a.blsKey.isPlaceholder = true := by
  rw [List.Nodup, List.pairwise_map, registered, List.pairwise_filter] at h
  apply h.imp
  intro a b hab heq
  cases hkey : a.blsKey.isPlaceholder with
  | true => rfl
  | false => exact absurd heq (hab (by rw [hkey]; rfl) (by rw [← heq, hkey]; rfl))

end Validators

/-- An accepted proposal becomes well-formed parameters. -/
theorem Proposal.wellFormed_of_check {batchSize : Nat} {proposal : Proposal} {aggregate : Weight}
    (accepted : proposal.sorted.check batchSize = .ok aggregate) :
    (proposal.sorted.parameters aggregate).WellFormed batchSize := by
  obtain ⟨hlength, haggregate, hprecommit, hcertificate, haddress, hkeys, -⟩ :=
    check_eq_ok.mp accepted
  have htotal : (proposal.sorted.parameters aggregate).totalWeight = aggregate.toNat :=
    Validators.aggregateWeight?_eq_some.mp haggregate
  constructor
  case ascending =>
    exact Validators.ascending_byAddress (Validators.hasDuplicateAddress_eq_false.mp haddress)
  case length_le => exact hlength
  case distinct =>
    exact Validators.distinct_of_nodup (Validators.hasDuplicateBlsKey_eq_false.mp hkeys)
  case totalWeight_lt =>
    rw [htotal]
    exact aggregate.isLt
  case prevotes =>
    rw [htotal]
    exact toNat_prevoteThreshold aggregate
  case precommits =>
    rw [htotal]
    exact isThreshold_iff.mp hprecommit
  case certificates =>
    rw [htotal]
    exact isThreshold_iff.mp hcertificate
  case named => rfl

namespace Contents

variable {c : Contents}

/-- All stored parameters are well formed. -/
def WellFormed (batchSize : Nat) (c : Contents) : Prop :=
  ∀ k p, c.parameters.get? k = some p → p.WellFormed batchSize

/-- Stored parameters have a snapshot of a set with their hash. -/
def Documented (c : Contents) : Prop :=
  ∀ k p, c.parameters.get? k = some p → ∃ s, c.snapshots.get? p.validatorsHash = some s ∧
    s.validatorsHash = p.validatorsHash ∧
    s.validators.hash s.certificateThreshold = p.validatorsHash

/-- New parameters bring their snapshot, and take away none that another record names. -/
theorem Documented.proposalChanges (h : c.Documented) (l : Ledger) (height : Height)
    {new : Parameters}
    (hnamed : new.validatorsHash = new.validators.hash new.certificateThreshold) :
    (c.applyAll (c.proposalChanges l height new)).Documented := by
  intro k p hp
  rw [(c.applyAll_proposalChanges l height new).2.1, Table.get?_insert_ite] at hp
  rw [get?_snapshots_proposalChanges]
  by_cases hsame : new.validatorsHash = p.validatorsHash
  · rw [if_pos hsame]
    exact ⟨_, rfl, hsame, hnamed.symm.trans hsame⟩
  · rw [if_neg hsame]
    split at hp
    case isTrue => exact absurd (congrArg Parameters.validatorsHash (Option.some.inj hp)) hsame
    case isFalse hother =>
      rw [if_neg]
      · exact h k p hp
      · intro horphaned
        exact hother ((Timeline.orphaned?_eq_some.mp horphaned).2.2 k p hp rfl).symm

end Contents

namespace Course

variable {batchSize : Nat} {s s' : Course} {r : Request}

theorem Step.wellFormed (hstep : Step batchSize s r s') (h : s.contents.WellFormed batchSize) :
    s'.contents.WellFormed batchSize := by
  cases hstep with
  | unchanged => exact h
  | @parametersSet proposal aggregate height accepted starts =>
    rw [Contents.WellFormed, (s.contents.applyAll_proposalChanges s.ledger height _).2.1]
    exact Table.forall_get?_insert h (Proposal.wellFormed_of_check accepted)
  | blockTaken follows processed =>
    rw [Contents.WellFormed, Contents.applyAll_blockChanges]
    exact Table.forall_get?_eraseAll h
  | snapshotsPruned => exact h

/-- Only pruning snapshots takes away one that stored parameters name. -/
theorem Step.documented (hstep : Step batchSize s r s') (hr : ∀ k, r ≠ .pruneSnapshots k)
    (h : s.contents.Documented) : s'.contents.Documented := by
  cases hstep with
  | unchanged => exact h
  | @parametersSet proposal aggregate height accepted starts =>
    exact h.proposalChanges s.ledger height (Proposal.wellFormed_of_check accepted).named
  | blockTaken follows processed =>
    rw [Contents.Documented, Contents.applyAll_blockChanges]
    exact Table.forall_get?_eraseAll h
  | snapshotsPruned => exact absurd rfl (hr _)

end Course

namespace Gadget

open Solo (weighing recurrence)

/-- Wherever a run leads to, the parameters that are stored are well formed. In a run that prunes no
snapshots, each record has a snapshot under its hash, of a set with that hash. -/
theorem stored_parameters_sound (config : GadgetConfig) (height : Height)
    (requests : List Request) :
    ∃ schedule, ((genesis config height).run requests).1.store.parameters = .ok schedule ∧
      ∀ k p, (k, p) ∈ schedule → p.WellFormed config.batchSize ∧
        ((∀ n, .pruneSnapshots n ∉ requests) →
          ∃ s, ((genesis config height).run requests).1.snapshot? p.validatorsHash = .ok (some s) ∧
            s.validatorsHash = p.validatorsHash ∧
            s.validators.hash s.certificateThreshold = p.validatorsHash) := by
  have hobeys : (genesis config height).Obeys (fun _ r => True ∧ r ∈ requests) requests :=
    Obeys.and_mem (.of_forall fun _ _ => trivial)
  obtain ⟨s, hat, -, -, -, hwellFormed, hdocumented⟩ := hobeys.course_induction
    (P := fun s => s.contents.WellFormed config.batchSize ∧
      ((∀ n, .pruneSnapshots n ∉ requests) → s.contents.Documented))
    (by
      rintro g s s' r ⟨-, hr⟩ hstep ⟨hwellFormed, hdocumented⟩
      refine ⟨hstep.wellFormed hwellFormed, fun hnone => ?_⟩
      exact hstep.documented (fun n hn => hnone n (hn ▸ hr)) (hdocumented hnone))
    (isAt_genesis config height) rfl ⟨nofun, fun _ => nofun⟩
  refine ⟨_, hat.holds.parameters, fun k p hp => ?_⟩
  have hget := Table.get?_eq_some.mpr hp
  refine ⟨hwellFormed k p hget, fun hnone => ?_⟩
  obtain ⟨snapshot, hsnapshot, hnamed⟩ := hdocumented hnone k p hget
  exact ⟨snapshot, (snapshot?_eq_ok hat.holds).mpr hsnapshot, hnamed⟩

/-- A set that recurs after its record was pruned is replaced at once. -/
theorem stored_parameters_sound_recurrence :
    let requests := recurrence ++ [.setParameters (weighing 3)]
    ∃ schedule, ((genesis Solo.config .zero).run requests).1.store.parameters = .ok schedule ∧
      schedule.length = 2 ∧ ∀ k p, (k, p) ∈ schedule → p.WellFormed 1 ∧
        ∃ s, ((genesis Solo.config .zero).run requests).1.snapshot? p.validatorsHash
          = .ok (some s) := by
  intro requests
  obtain ⟨schedule, hread, hall⟩ := stored_parameters_sound Solo.config .zero requests
  have hlength : ((genesis Solo.config .zero).run requests).1.store.parameters.map List.length
      = .ok 2 := by decide +kernel
  have hnone : ∀ n, Request.pruneSnapshots n ∉ requests := by
    intro n
    simp [requests, recurrence, Solo.reweighing]
  rw [hread] at hlength
  refine ⟨schedule, hread, Except.ok.inj hlength, fun k p hp => ?_⟩
  obtain ⟨hwellFormed, hdocumented⟩ := hall k p hp
  obtain ⟨s, hs, -⟩ := hdocumented hnone
  exact ⟨hwellFormed, s, hs⟩

end Gadget

end ImpliedFinality
