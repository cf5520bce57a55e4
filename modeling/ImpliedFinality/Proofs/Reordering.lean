import ImpliedFinality.Proofs.Lag
import ImpliedFinality.Proofs.Parameters

/-!
# The order in which validators are proposed

Validators are put into address order before anything else is done with a proposal. If their
addresses differ there is one such order, so the rest sees the same proposal. If an address occurs
twice the proposal is rejected, and up to this check only the number of validators, their weight and
the thresholds have an effect. So neither the answer nor the store depends on the order of a
proposal, and what has just been set is recognised in any order.
-/

namespace ImpliedFinality

theorem Validators.hasDuplicateAddress_of_perm {vs ws : Validators} (h : vs.Perm ws) :
    vs.hasDuplicateAddress = ws.hasDuplicateAddress :=
  congrArg Bool.not (decide_eq_decide.mpr (h.map Validator.address).nodup_iff)

namespace Proposal

/-- Two proposals of the same validators, each in its own order, and of the same thresholds. -/
structure Reorders (p q : Proposal) : Prop where
  validators : p.validators.Perm q.validators
  precommitThreshold : p.precommitThreshold = q.precommitThreshold
  certificateThreshold : p.certificateThreshold = q.certificateThreshold

variable {p q : Proposal} {batchSize : Nat}

namespace Reorders

/-- If no address occurs twice, sorting leaves no difference. -/
theorem sorted_eq (h : p.Reorders q) (distinct : p.validators.hasDuplicateAddress = false) :
    p.sorted = q.sorted := by
  have hsorted : p.validators.byAddress = q.validators.byAddress :=
    sortBy_eq_of_perm h.validators (Validators.hasDuplicateAddress_eq_false.mp distinct)
  rw [sorted, sorted, hsorted, h.precommitThreshold, h.certificateThreshold]

/-- The first rule that is broken with a repeated address is the same in any order. -/
theorem check_eq_of_duplicate (h : p.Reorders q)
    (duplicate : p.validators.hasDuplicateAddress = true) :
    p.check batchSize = q.check batchSize := by
  have hweight : p.validators.aggregateWeight? = q.validators.aggregateWeight? :=
    Weight.sum?_perm (h.validators.map Validator.weight)
  have hduplicate := Validators.hasDuplicateAddress_of_perm h.validators
  rw [duplicate] at hduplicate
  rw [check, check, h.validators.length_eq, hweight, h.precommitThreshold, h.certificateThreshold,
    duplicate, ← hduplicate]
  rfl

theorem sorted_reorders (h : p.Reorders q) : p.sorted.Reorders q.sorted where
  validators := (sortBy_perm Validator.address p.validators).trans
    (h.validators.trans (sortBy_perm Validator.address q.validators).symm)
  precommitThreshold := h.precommitThreshold
  certificateThreshold := h.certificateThreshold

/-- A proposal is accepted, or rejected for one reason, in any order. -/
theorem check_sorted_eq (h : p.Reorders q) :
    p.sorted.check batchSize = q.sorted.check batchSize := by
  cases hduplicate : p.validators.hasDuplicateAddress with
  | false => rw [h.sorted_eq hduplicate]
  | true =>
    apply h.sorted_reorders.check_eq_of_duplicate
    rw [← hduplicate]
    exact Validators.hasDuplicateAddress_of_perm (sortBy_perm Validator.address p.validators)

end Reorders

/-- Parameters are recognised as what the proposal asked for that they come from. -/
theorem isIn_parameters (p : Proposal) (aggregate : Weight) :
    p.isIn (p.parameters aggregate) = true := by
  simp [isIn, parameters]

end Proposal

namespace Store

variable {p q : Proposal} {batchSize : Nat}

theorem planParameters_of_rejected (s : Store) {reason : Rejection}
    (rejected : p.sorted.check batchSize = .error reason) :
    s.planParameters batchSize p = .error (.rejected reason) := by
  simp only [planParameters, rejected]
  rfl

/-- The plan for a proposal does not depend on the order of its validators. -/
theorem planParameters_of_reorders (s : Store) (h : p.Reorders q) :
    s.planParameters batchSize p = s.planParameters batchSize q := by
  cases hcheck : q.sorted.check batchSize with
  | error reason =>
    rw [s.planParameters_of_rejected hcheck,
      s.planParameters_of_rejected (h.check_sorted_eq.trans hcheck)]
  | ok aggregate =>
    obtain ⟨-, -, -, -, hdistinct, -⟩ :=
      Proposal.check_eq_ok.mp (h.check_sorted_eq.trans hcheck)
    have hdistinct' : p.validators.hasDuplicateAddress = false :=
      (Validators.hasDuplicateAddress_of_perm (sortBy_perm _ p.validators)).symm.trans hdistinct
    simp only [planParameters, h.sorted_eq hdistinct']

end Store

namespace Gadget

variable {g : Gadget} {c : Contents} {l : Ledger} {p q : Proposal}

theorem setParameters_of_reorders (g : Gadget) (h : p.Reorders q) :
    g.setParameters p = g.setParameters q := by
  rw [setParameters, setParameters, g.store.planParameters_of_reorders h, h.validators.length_eq,
    h.precommitThreshold, h.certificateThreshold]

/-- What has just been set applies already from the next height on. -/
theorem setParameters_again (h : g.store.Holds c) (hl : c.ledger = some l)
    {answer : Option ParametersUpdate} (succeeds : (g.setParameters p).answer = .ok answer) :
    (g.setParameters p).gadget.setParameters p
      = (g.setParameters p).gadget.unchanged (.ok none) := by
  rcases setParameters_cases h hl p with ⟨e, he⟩ | ⟨hsame, -⟩ |
    ⟨aggregate, height, store, haccepted, hstarts, hdone, hstore⟩
  · rw [he] at succeeds
    cases succeeds
  · rw [hsame]
    exact hsame
  · obtain ⟨hledger, hparameters, -⟩ :=
      c.applyAll_proposalChanges l height (p.sorted.parameters aggregate)
    have happlies : (c.parameters.insert height (p.sorted.parameters aggregate)).timeline.effective?
        height = some (p.sorted.parameters aggregate) := by
      apply Timeline.effective?_eq_some.mpr
      exact ⟨height, by rw [Table.get?_insert_ite, if_pos rfl], Nat.le_refl _,
        fun _ _ _ hle => hle⟩
    have hnext : (l.track height (p.sorted.parameters aggregate).validators
        (c.parameters.timeline.outgoing height)).nextHeight = .ok height := hstarts
    have hplan : store.planParameters g.config.batchSize p = .ok none := by
      rw [hstore.planParameters hledger, haccepted]
      dsimp only
      rw [hnext]
      dsimp only
      rw [hparameters, happlies, Option.any_some, Proposal.isIn_parameters, if_pos rfl]
    rw [hdone, setParameters, hplan]

/-- Wherever a run leads to, a proposal in another order has the same answer and the same effects.
Right after it was accepted, it changes nothing in any order. -/
theorem setParameters_reordered (config : GadgetConfig) (height : Height) (requests : List Request)
    (proposal again : Proposal) (h : again.Reorders proposal) :
    let g := ((genesis config height).run requests).1
    g.setParameters again = g.setParameters proposal ∧
      ∀ answer, (g.setParameters proposal).answer = .ok answer →
        (g.setParameters proposal).gadget.setParameters again =
          (g.setParameters proposal).gadget.unchanged (.ok none) := by
  intro g
  refine ⟨g.setParameters_of_reorders h, fun answer succeeds => ?_⟩
  obtain ⟨s, hat, -⟩ := exists_course (P := fun _ => True) config height requests
    (fun _ _ => trivial) trivial
  rw [setParameters_of_reorders _ h]
  exact setParameters_again hat.holds hat.ledger succeeds

/-- Four validators are set in one order and recognised in the opposite one. -/
theorem setParameters_reordered_quartet :
    let backwards := { Quartet.proposal with validators := Quartet.proposal.validators.reverse }
    let set := (genesis Quartet.config .zero).setParameters Quartet.proposal
    backwards.validators ≠ Quartet.proposal.validators ∧
      ∃ update, set.answer = .ok (some update) ∧
        ((genesis Quartet.config .zero).setParameters backwards).answer = .ok (some update) ∧
        (set.gadget.setParameters backwards).answer = .ok none := by
  intro backwards set
  obtain ⟨hsame, hagain⟩ := setParameters_reordered Quartet.config .zero [] Quartet.proposal
    backwards ⟨List.reverse_perm _, rfl, rfl⟩
  have hset : set.answer.map Option.isSome = .ok true := by decide +kernel
  cases hanswer : set.answer with
  | error e =>
    rw [hanswer] at hset
    cases hset
  | ok answer =>
    rw [hanswer] at hset
    obtain ⟨update, rfl⟩ := Option.isSome_iff_exists.mp (Except.ok.inj hset)
    refine ⟨by decide, update, rfl, ?_, ?_⟩
    · exact (congrArg GadgetStep.answer hsame).trans hanswer
    · exact congrArg GadgetStep.answer (hagain (some update) hanswer)

end Gadget

end ImpliedFinality
