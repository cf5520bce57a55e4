import ImpliedFinality.Gadget.Basic
import ImpliedFinality.Gadget.Event

/-! # Runs of the gadget

Three requests change the store. Each is carried out as a whole or fails and changes nothing, and
events are published only for what was written. A run is a fold of requests. -/

namespace ImpliedFinality

/-- What became of a request: the answer, the gadget after it, and the events it published. -/
structure GadgetStep (α : Type) where
  answer : Except Failure α
  gadget : Gadget
  events : List GadgetEvent

namespace Gadget

/-- A request that changes nothing. -/
def unchanged {α : Type} (g : Gadget) (answer : Except Failure α) : GadgetStep α := ⟨answer, g, []⟩

/-- A request that is carried out by a batch of changes. -/
def commit {α : Type} (g : Gadget) (changes : List Change) (answer : α)
    (events : List GadgetEvent) : GadgetStep α :=
  match g.store.write changes with
  | .error e => g.unchanged (.error (.store e))
  | .ok store => ⟨.ok answer, { g with store }, events⟩

/-- Proposes other parameters for the blocks to come. -/
def setParameters (g : Gadget) (proposal : Proposal) : GadgetStep (Option ParametersUpdate) :=
  match g.store.planParameters g.config.batchSize proposal with
  | .error e => g.unchanged (.error e)
  | .ok none => g.unchanged (.ok none)
  | .ok (some (update, changes)) =>
    g.commit changes (some update) [.parametersSet update.height update.validatorsHash
      proposal.validators.length proposal.precommitThreshold proposal.certificateThreshold]

/-- The events about a block that was taken in. -/
def blockEvents (header : Header) (outcome : BlockOutcome) : List GadgetEvent :=
  .blockProcessed header.height header.generator
    :: (if outcome.current = outcome.previous then [] else [.watermarksRaised outcome.current])
    ++ (if outcome.pruned.isEmpty then [] else [.parametersPruned outcome.pruned])

/-- Takes in the block that comes next on the chain. -/
def processBlock (g : Gadget) (header : Header) : GadgetStep BlockOutcome :=
  match g.store.planBlock g.config.batchSize header with
  | .error e => g.unchanged (.error e)
  | .ok (outcome, changes) => g.commit changes outcome (blockEvents header outcome)

/-- Deletes the snapshots that went out of use before a height. -/
def pruneSnapshots (g : Gadget) (height : Height) : GadgetStep (List Digest) :=
  match g.store.unusedSnapshots height with
  | .error e => g.unchanged (.error e)
  | .ok [] => g.unchanged (.ok [])
  | .ok unused => g.commit (unused.map .deleteSnapshot) unused [.snapshotsPruned unused]

end Gadget

/-- The three requests that change the store. -/
inductive Request
  | setParameters (proposal : Proposal)
  | processBlock (header : Header)
  | pruneSnapshots (height : Height)
deriving DecidableEq

namespace Gadget

/-- The gadget after a request and the events of the request. -/
def step (g : Gadget) : Request → Gadget × List GadgetEvent
  | .setParameters proposal => let s := g.setParameters proposal; (s.gadget, s.events)
  | .processBlock header => let s := g.processBlock header; (s.gadget, s.events)
  | .pruneSnapshots height => let s := g.pruneSnapshots height; (s.gadget, s.events)

/-- The gadget after a list of requests and all their events, in order. -/
def run (g : Gadget) : List Request → Gadget × List GadgetEvent
  | [] => (g, [])
  | r :: rest =>
    let (next, events) := g.step r
    let (last, later) := next.run rest
    (last, events ++ later)

/-- A run can be interrupted at any request and go on from there. -/
theorem run_append (g : Gadget) (first second : List Request) :
    g.run (first ++ second)
      = (((g.run first).1.run second).1, (g.run first).2 ++ ((g.run first).1.run second).2) := by
  induction first generalizing g with
  | nil => simp [run]
  | cons r rest ih => simp [run, ih]

end Gadget

end ImpliedFinality
