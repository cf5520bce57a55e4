import ImpliedFinality.Gadget.Run
import ImpliedFinality.Proofs.Contents

/-!
# What a request does

Each request either leaves the store as it is or changes its contents in one described way. The
ledger and the parameters by height are all that votes and watermarks depend on. `Core.Step` says
what one request does to these two, and `Gadget.Shows.step` that no request does anything else.
-/

namespace ImpliedFinality

namespace Contents

/-- The changes that put new parameters into effect at a height. -/
def proposalChanges (c : Contents) (l : Ledger) (height : Height) (new : Parameters) :
    List Change :=
  ((c.parameters.timeline.orphaned? height new.validatorsHash).map Change.deleteSnapshot).toList ++
    [.setParameters height new, .setSnapshot (new.snapshot height),
      .setGenerators height new.validators.generators,
      .setLedger (l.track height new.validators (c.parameters.timeline.outgoing height))]

/-- What is answered to a block which leads to the ledger `next`. -/
def blockOutcome (c : Contents) (l next : Ledger) (header : Header) : BlockOutcome :=
  ⟨l.watermarks, next.watermarks, c.parameters.timeline.stale (next.neededFrom header.height)⟩

/-- The changes that follow a block which leads to the ledger `next`. -/
def blockChanges (c : Contents) (next : Ledger) (header : Header) : List Change :=
  let needed := next.neededFrom header.height
  (c.parameters.timeline.stale needed).map .deleteParameters ++
    (c.generators.timeline.stale needed).map .deleteGenerators ++ [.setLedger next]

theorem applyAll_proposalChanges (c : Contents) (l : Ledger) (height : Height)
    (new : Parameters) :
    (c.applyAll (c.proposalChanges l height new)).ledger
        = some (l.track height new.validators (c.parameters.timeline.outgoing height)) ∧
      (c.applyAll (c.proposalChanges l height new)).parameters
        = c.parameters.insert height new ∧
      (c.applyAll (c.proposalChanges l height new)).generators
        = c.generators.insert height new.validators.generators := by
  rw [proposalChanges, applyAll_append]
  cases c.parameters.timeline.orphaned? height new.validatorsHash with
  | none => exact ⟨rfl, rfl, rfl⟩
  | some hash => exact ⟨rfl, rfl, rfl⟩

theorem applyAll_blockChanges (c : Contents) (next : Ledger) (header : Header) :
    c.applyAll (c.blockChanges next header) =
      { c with
        ledger := some next
        parameters :=
          c.parameters.eraseAll (c.parameters.timeline.stale (next.neededFrom header.height))
        generators := c.generators.eraseAll
          (c.generators.timeline.stale (next.neededFrom header.height)) } := by
  rw [blockChanges, applyAll_append, applyAll_append, applyAll_deleteParameters,
    applyAll_deleteGenerators]
  rfl

end Contents

namespace Store

variable {s : Store} {c : Contents} {l : Ledger}

/-- The plan for a proposal depends on the contents of the store only. -/
theorem Holds.planParameters (h : s.Holds c) (hl : c.ledger = some l) (batchSize : Nat)
    (proposal : Proposal) :
    s.planParameters batchSize proposal =
      match proposal.sorted.check batchSize with
      | .error reason => .error (.rejected reason)
      | .ok aggregate =>
        match l.nextHeight with
        | .error e => .error e
        | .ok height =>
          if (c.parameters.timeline.effective? height).any proposal.sorted.isIn then .ok none
          else
            let new := proposal.sorted.parameters aggregate
            .ok (some (⟨height, new.validatorsHash⟩, c.proposalChanges l height new)) := by
  simp only [Store.planParameters, h.ledger hl, h.parameters, Failure.ofStore]
  cases proposal.sorted.check batchSize with
  | error reason => rfl
  | ok aggregate =>
    cases hnext : l.nextHeight with
    | error e => simp only [bind, Except.bind, hnext]
    | ok height => simp only [bind, Except.bind, hnext, Contents.proposalChanges]

/-- The plan for a block depends on the contents of the store only. -/
theorem Holds.planBlock (h : s.Holds c) (hl : c.ledger = some l) (batchSize : Nat)
    (header : Header) :
    s.planBlock batchSize header =
      match l.checkFollows header with
      | .error e => .error e
      | .ok () =>
        match l.process c.parameters.timeline header (3 * batchSize) with
        | .error e => .error e
        | .ok next =>
          .ok (c.blockOutcome l next header, c.blockChanges next header) := by
  simp only [Store.planBlock, h.ledger hl, h.parameters, h.generators, Failure.ofStore]
  cases hfollows : l.checkFollows header with
  | error e => simp only [bind, Except.bind, hfollows]
  | ok _ =>
    cases hprocess : l.process c.parameters.timeline header (3 * batchSize) with
    | error e => simp only [bind, Except.bind, hfollows, hprocess]
    | ok next =>
      simp only [bind, Except.bind, hfollows, hprocess, Contents.blockOutcome,
        Contents.blockChanges]

/-- Only an acceptable proposal has a plan, and the plan is empty where it applies already. -/
theorem Holds.of_planParameters (h : s.Holds c) (hl : c.ledger = some l) {batchSize : Nat}
    {proposal : Proposal} {plan : Option (ParametersUpdate × List Change)}
    (planned : s.planParameters batchSize proposal = .ok plan) :
    ∃ aggregate height, proposal.sorted.check batchSize = .ok aggregate ∧
      l.nextHeight = .ok height ∧
      plan = if (c.parameters.timeline.effective? height).any proposal.sorted.isIn then none
        else
          let new := proposal.sorted.parameters aggregate
          some (⟨height, new.validatorsHash⟩, c.proposalChanges l height new) := by
  rw [h.planParameters hl] at planned
  split at planned
  case h_1 => contradiction
  case h_2 aggregate haccepted =>
    split at planned
    case h_1 => contradiction
    case h_2 height hstarts =>
      refine ⟨aggregate, height, haccepted, hstarts, ?_⟩
      split at planned
      case isTrue hsame => rw [if_pos hsame, Except.ok.inj planned]
      case isFalse hsame => rw [if_neg hsame, Except.ok.inj planned]

/-- Only a block that follows the newest one and goes into the ledger has a plan. -/
theorem Holds.of_planBlock (h : s.Holds c) (hl : c.ledger = some l) {batchSize : Nat}
    {header : Header} {outcome : BlockOutcome} {changes : List Change}
    (planned : s.planBlock batchSize header = .ok (outcome, changes)) :
    ∃ next, l.checkFollows header = .ok () ∧
      l.process c.parameters.timeline header (3 * batchSize) = .ok next ∧
      outcome = c.blockOutcome l next header ∧ changes = c.blockChanges next header := by
  rw [h.planBlock hl] at planned
  split at planned
  case h_1 => contradiction
  case h_2 hfollows =>
    split at planned
    case h_1 => contradiction
    case h_2 next hprocess =>
      obtain ⟨houtcome, hchanges⟩ := Prod.mk.inj (Except.ok.inj planned)
      exact ⟨next, hfollows, hprocess, houtcome.symm, hchanges.symm⟩

end Store

namespace Gadget

variable {g : Gadget} {c : Contents} {l : Ledger}

/-- A batch of changes is either written, with the answer and the events that belong to it, or
nothing happens. -/
theorem commit_eq {α : Type} (g : Gadget) (changes : List Change) (answer : α)
    (events : List GadgetEvent) :
    (∃ e, g.commit changes answer events = g.unchanged (.error (.store e))) ∨
      ∃ store, g.store.write changes = .ok store ∧
        g.commit changes answer events = ⟨.ok answer, { g with store }, events⟩ := by
  unfold commit
  cases g.store.write changes with
  | error e => exact .inl ⟨e, rfl⟩
  | ok store => exact .inr ⟨store, rfl, rfl⟩

/-- The events about parameters that were set. -/
def proposalEvents (proposal : Proposal) (update : ParametersUpdate) : List GadgetEvent :=
  [.parametersSet update.height update.validatorsHash proposal.validators.length
    proposal.precommitThreshold proposal.certificateThreshold]

/-- A proposal that has no plan, or one that is empty or cannot be written, changes nothing. Every
other plan is carried out, and one event tells of it. -/
theorem setParameters_eq (g : Gadget) (proposal : Proposal) :
    (∃ e, g.setParameters proposal = g.unchanged (.error e) ∧
        (g.store.planParameters g.config.batchSize proposal = .error e ∨ ∃ e', e = .store e')) ∨
      (g.store.planParameters g.config.batchSize proposal = .ok none ∧
        g.setParameters proposal = g.unchanged (.ok none)) ∨
      ∃ update changes store,
        g.store.planParameters g.config.batchSize proposal = .ok (some (update, changes)) ∧
        g.store.write changes = .ok store ∧
        g.setParameters proposal
          = ⟨.ok (some update), { g with store }, proposalEvents proposal update⟩ := by
  unfold setParameters
  split
  case h_1 e hplan => exact .inl ⟨e, rfl, .inl hplan⟩
  case h_2 hplan => exact .inr (.inl ⟨hplan, rfl⟩)
  case h_3 update changes hplan =>
    rcases commit_eq g changes (some update) (proposalEvents proposal update) with
      ⟨e, he⟩ | ⟨store, hwrite, hcommit⟩
    · exact .inl ⟨.store e, he, .inr ⟨e, rfl⟩⟩
    · exact .inr (.inr ⟨update, changes, store, hplan, hwrite, hcommit⟩)

/-- A block that has no plan, or one that cannot be written, changes nothing. Every other plan is
carried out, and events tell of its outcome. -/
theorem processBlock_eq (g : Gadget) (header : Header) :
    (∃ e, g.processBlock header = g.unchanged (.error e) ∧
        (g.store.planBlock g.config.batchSize header = .error e ∨ ∃ e', e = .store e')) ∨
      ∃ outcome changes store,
        g.store.planBlock g.config.batchSize header = .ok (outcome, changes) ∧
        g.store.write changes = .ok store ∧
        g.processBlock header = ⟨.ok outcome, { g with store }, blockEvents header outcome⟩ := by
  unfold processBlock
  split
  case h_1 e hplan => exact .inl ⟨e, rfl, .inl hplan⟩
  case h_2 outcome changes hplan =>
    rcases commit_eq g changes outcome (blockEvents header outcome) with
      ⟨e, he⟩ | ⟨store, hwrite, hcommit⟩
    · exact .inl ⟨.store e, he, .inr ⟨e, rfl⟩⟩
    · exact .inr ⟨outcome, changes, store, hplan, hwrite, hcommit⟩

/-- Pruning snapshots fails or finds none to delete, and changes nothing, or it deletes some, and
one event tells of them. -/
theorem pruneSnapshots_eq (g : Gadget) (height : Height) :
    (∃ e, g.pruneSnapshots height = g.unchanged (.error e)) ∨
      g.pruneSnapshots height = g.unchanged (.ok []) ∨
      ∃ unused store, unused ≠ [] ∧
        g.store.write (unused.map .deleteSnapshot) = .ok store ∧
        g.pruneSnapshots height
          = ⟨.ok unused, { g with store }, [.snapshotsPruned unused]⟩ := by
  unfold pruneSnapshots
  split
  case h_1 e _ => exact .inl ⟨e, rfl⟩
  case h_2 => exact .inr (.inl rfl)
  case h_3 unused hsome _ =>
    rcases commit_eq g (unused.map .deleteSnapshot) unused [.snapshotsPruned unused] with
      ⟨e, he⟩ | ⟨store, hwrite, hcommit⟩
    · exact .inl ⟨.store e, he⟩
    · exact .inr (.inr ⟨unused, store, hsome, hwrite, hcommit⟩)

/-- A proposal is refused, or says what applies already, or it is acceptable and applies from the
next height on. -/
theorem setParameters_cases (h : g.store.Holds c) (hl : c.ledger = some l) (proposal : Proposal) :
    (∃ e, g.setParameters proposal = g.unchanged (.error e)) ∨
      (g.setParameters proposal = g.unchanged (.ok none) ∧
        ∃ height, (c.parameters.timeline.effective? height).any proposal.sorted.isIn = true) ∨
      ∃ aggregate height, ∃ store : Store,
        let new := proposal.sorted.parameters aggregate
        proposal.sorted.check g.config.batchSize = .ok aggregate ∧ l.nextHeight = .ok height ∧
        g.setParameters proposal = ⟨.ok (some ⟨height, new.validatorsHash⟩), { g with store },
          proposalEvents proposal ⟨height, new.validatorsHash⟩⟩ ∧
        store.Holds (c.applyAll (c.proposalChanges l height new)) := by
  rcases setParameters_eq g proposal with
    ⟨e, he, -⟩ | ⟨hplan, hsame⟩ | ⟨update, changes, store, hplan, hwrite, hdone⟩
  · exact .inl ⟨e, he⟩
  · obtain ⟨aggregate, height, -, -, hnone⟩ := h.of_planParameters hl hplan
    refine .inr (.inl ⟨hsame, height, ?_⟩)
    split at hnone
    case isTrue happlies => exact happlies
    case isFalse => contradiction
  · obtain ⟨aggregate, height, haccepted, hstarts, hsome⟩ := h.of_planParameters hl hplan
    split at hsome
    case isTrue => contradiction
    case isFalse =>
      obtain ⟨rfl, rfl⟩ := Prod.mk.inj (Option.some.inj hsome)
      exact .inr (.inr ⟨aggregate, height, store, haccepted, hstarts, hdone, h.write hwrite⟩)

/-- A block changes nothing, or it follows the newest one and the ledger takes it in. -/
theorem processBlock_cases (h : g.store.Holds c) (hl : c.ledger = some l) (header : Header) :
    (∃ e, g.processBlock header = g.unchanged (.error e)) ∨
      ∃ next, ∃ store : Store, l.checkFollows header = .ok () ∧
        l.process c.parameters.timeline header (3 * g.config.batchSize) = .ok next ∧
        g.processBlock header = ⟨.ok (c.blockOutcome l next header), { g with store },
          blockEvents header (c.blockOutcome l next header)⟩ ∧
        store.Holds (c.applyAll (c.blockChanges next header)) := by
  rcases processBlock_eq g header with
    ⟨e, he, -⟩ | ⟨outcome, changes, store, hplan, hwrite, hdone⟩
  · exact .inl ⟨e, he⟩
  · obtain ⟨next, hfollows, hprocess, rfl, rfl⟩ := h.of_planBlock hl hplan
    exact .inr ⟨next, store, hfollows, hprocess, hdone, h.write hwrite⟩

/-- Deleting snapshots leaves everything else alone. -/
theorem pruneSnapshots_cases (h : g.store.Holds c) (height : Height) :
    (∃ answer, g.pruneSnapshots height = g.unchanged answer) ∨
      ∃ unused, ∃ store : Store,
        g.pruneSnapshots height = ⟨.ok unused, { g with store }, [.snapshotsPruned unused]⟩ ∧
        store.Holds { c with snapshots := c.snapshots.eraseAll unused } := by
  rcases pruneSnapshots_eq g height with ⟨e, he⟩ | hnone | ⟨unused, store, -, hwrite, hdone⟩
  · exact .inl ⟨.error e, he⟩
  · exact .inl ⟨.ok [], hnone⟩
  · refine .inr ⟨unused, store, hdone, ?_⟩
    rw [← Contents.applyAll_deleteSnapshot]
    exact h.write hwrite

end Gadget

/-! ## The core of a gadget -/

/-- The part of the contents that votes and watermarks depend on. -/
structure Core where
  ledger : Ledger
  schedule : Table Height Parameters

namespace Core

/-- The core of a gadget over an empty store. -/
def genesis (height : Height) : Core := ⟨.genesis height, .empty⟩

/-- What a request may do to the core, with the header that it makes part of the chain. -/
inductive Step (batchSize : Nat) (s : Core) : Request → Option Header → Core → Prop
  | unchanged {r : Request} : Step batchSize s r none s
  | parametersSet {proposal : Proposal} {aggregate : Weight} {height : Height}
      (accepted : proposal.sorted.check batchSize = .ok aggregate)
      (starts : s.ledger.nextHeight = .ok height) :
      Step batchSize s (.setParameters proposal) none
        ⟨s.ledger.track height proposal.sorted.validators (s.schedule.timeline.outgoing height),
          s.schedule.insert height (proposal.sorted.parameters aggregate)⟩
  | blockTaken {header : Header} {next : Ledger}
      (follows : s.ledger.checkFollows header = .ok ())
      (processed : s.ledger.process s.schedule.timeline header (3 * batchSize) = .ok next) :
      Step batchSize s (.processBlock header) (some header)
        ⟨next, s.schedule.eraseAll (s.schedule.timeline.stale (next.neededFrom header.height))⟩

end Core

namespace Gadget

/-- The store of a gadget holds a core. -/
def Shows (g : Gadget) (s : Core) : Prop :=
  ∃ c, g.store.Holds c ∧ c.ledger = some s.ledger ∧ c.parameters = s.schedule

/-- The header that a request makes part of the chain, if it makes any. -/
def taken? (g : Gadget) : Request → Option Header
  | .processBlock header => if (g.processBlock header).answer.isOk then some header else none
  | .setParameters _ => none
  | .pruneSnapshots _ => none

/-- The store of a gadget begins with a ledger and nothing else. -/
theorem holds_genesis (config : GadgetConfig) (height : Height) :
    (genesis config height).store.Holds { Contents.empty with ledger := some (.genesis height) } :=
  Store.holds_empty.write (Store.write_genesis .empty height)

theorem shows_genesis (config : GadgetConfig) (height : Height) :
    (genesis config height).Shows (.genesis height) :=
  ⟨_, holds_genesis config height, rfl, rfl⟩

namespace Shows

variable {g : Gadget} {s : Core} (h : g.Shows s)
include h

theorem ledger : g.store.ledger = .ok s.ledger := by
  obtain ⟨c, hc, hledger, -⟩ := h
  exact hc.ledger hledger

theorem schedule : g.store.parameters = .ok s.schedule.timeline := by
  obtain ⟨c, hc, -, hschedule⟩ := h
  rw [hc.parameters, hschedule]

theorem watermarks : g.watermarks = .ok s.ledger.watermarks := by
  rw [Gadget.watermarks, h.ledger]
  rfl

theorem contradictedBy (header : Header) :
    g.contradictedBy header = .ok (s.ledger.contradictedBy header) := by
  rw [Gadget.contradictedBy, h.ledger]
  rfl

theorem parameters_eq_ok {height : Height} {p : Parameters} :
    g.parameters height = .ok p ↔ s.schedule.timeline.effective? height = some p := by
  rw [Gadget.parameters, h.schedule]
  change s.schedule.timeline.require height = .ok p ↔ _
  unfold Timeline.require
  cases s.schedule.timeline.effective? height <;> simp

/-- Every request does to the core what `Core.Step` says, and takes in what it says. -/
theorem step (r : Request) :
    ∃ s', (g.step r).1.Shows s' ∧ Core.Step g.config.batchSize s r (g.taken? r) s' := by
  have hsame := h
  obtain ⟨c, hc, hledger, hschedule⟩ := h
  cases r with
  | setParameters proposal =>
    rcases setParameters_cases hc hledger proposal with
      ⟨e, he⟩ | ⟨hsame', -⟩ | ⟨aggregate, height, store, haccepted, hstarts, hdone, hstore⟩
    · refine ⟨s, ?_, .unchanged⟩
      rw [Gadget.step, he]
      exact hsame
    · refine ⟨s, ?_, .unchanged⟩
      rw [Gadget.step, hsame']
      exact hsame
    · obtain ⟨hledger', hschedule', -⟩ := c.applyAll_proposalChanges s.ledger height
        (proposal.sorted.parameters aggregate)
      rw [hschedule] at hledger' hschedule'
      refine ⟨_, ?_, .parametersSet haccepted hstarts⟩
      rw [Gadget.step, hdone]
      exact ⟨_, hstore, hledger', hschedule'⟩
  | processBlock header =>
    rcases processBlock_cases hc hledger header with
      ⟨e, he⟩ | ⟨next, store, hfollows, hprocess, hdone, hstore⟩
    · refine ⟨s, ?_, ?_⟩
      · rw [Gadget.step, he]
        exact hsame
      · rw [taken?, he]
        exact .unchanged
    · rw [Contents.applyAll_blockChanges] at hstore
      rw [hschedule] at hprocess hstore
      rw [taken?, hdone]
      refine ⟨_, ?_, .blockTaken hfollows hprocess⟩
      rw [Gadget.step, hdone]
      exact ⟨_, hstore, rfl, rfl⟩
  | pruneSnapshots height =>
    refine ⟨s, ?_, .unchanged⟩
    rcases pruneSnapshots_cases hc height with ⟨answer, hsame'⟩ | ⟨unused, store, hdone, hstore⟩
    · rw [Gadget.step, hsame']
      exact hsame
    · rw [Gadget.step, hdone]
      exact ⟨_, hstore, hledger, hschedule⟩

end Shows

/-! ## Requests leave the configuration alone -/

theorem config_step (g : Gadget) (r : Request) : (g.step r).1.config = g.config := by
  cases r with
  | setParameters proposal =>
    rcases setParameters_eq g proposal with ⟨e, he, -⟩ | ⟨-, hsame⟩ | ⟨_, _, store, -, -, hdone⟩
    · rw [step, he]
      rfl
    · rw [step, hsame]
      rfl
    · rw [step, hdone]
  | processBlock header =>
    rcases processBlock_eq g header with ⟨e, he, -⟩ | ⟨_, _, store, -, -, hdone⟩
    · rw [step, he]
      rfl
    · rw [step, hdone]
  | pruneSnapshots height =>
    rcases pruneSnapshots_eq g height with ⟨e, he⟩ | hsame | ⟨_, store, -, -, hdone⟩
    · rw [step, he]
      rfl
    · rw [step, hsame]
      rfl
    · rw [step, hdone]

end Gadget

end ImpliedFinality
