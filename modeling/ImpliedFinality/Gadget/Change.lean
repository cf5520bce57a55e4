import ImpliedFinality.Ledger.Finality
import ImpliedFinality.Store

/-! # What a request changes

A request to the gadget is answered from the store together with the batch of changes that carries
it out. A request that fails has no batch, so it changes nothing. -/

namespace ImpliedFinality

/-- Passes on what is wrong with the store. -/
def Failure.ofStore {α : Type} : Except StoreError α → Except Failure α
  | .ok v => .ok v
  | .error e => .error (.store e)

/-- The parameters record that an accepted proposal leads to. -/
structure ParametersUpdate where
  height : Height
  validatorsHash : Digest
deriving DecidableEq

/-- What processing a block did. -/
structure BlockOutcome where
  previous : Watermarks
  current : Watermarks
  pruned : List Height
deriving DecidableEq

namespace Timeline

/-- The record that starts at exactly this height. -/
def exactly? {α : Type} (t : Timeline α) (h : Height) : Option α :=
  (t.find? fun r => r.1 = h).map (·.2)

/-- The validators that are active right below a height. -/
def outgoing (schedule : Timeline Parameters) (height : Height) : Validators :=
  match height.sub? 1 with
  | none => []
  | some below => ((schedule.effective? below).map Parameters.validators).getD []

/-- The snapshot that goes when parameters are replaced: that of the old ones, unless the new ones
or a record at another height name the same set. -/
def orphaned? (schedule : Timeline Parameters) (height : Height) (validatorsHash : Digest) :
    Option Digest :=
  match schedule.exactly? height with
  | none => none
  | some old =>
    if old.validatorsHash = validatorsHash
        ∨ schedule.any fun r => r.1 ≠ height ∧ r.2.validatorsHash = old.validatorsHash then none
    else some old.validatorsHash

end Timeline

namespace Store

/-- New parameters apply from the height above the newest block. A proposal of what applies there
already has no update. -/
def planParameters (s : Store) (batchSize : Nat) (proposal : Proposal) :
    Except Failure (Option (ParametersUpdate × List Change)) := do
  let proposal := proposal.sorted
  let aggregate ← match proposal.check batchSize with
    | .ok aggregate => .ok aggregate
    | .error reason => .error (.rejected reason)
  let ledger ← Failure.ofStore s.ledger
  let height ← ledger.nextHeight
  let schedule ← Failure.ofStore s.parameters
  if (schedule.effective? height).any proposal.isIn then .ok none
  else
    let new := proposal.parameters aggregate
    let orphan := (schedule.orphaned? height new.validatorsHash).map Change.deleteSnapshot
    .ok (some (⟨height, new.validatorsHash⟩, orphan.toList ++ [
      .setParameters height new,
      .setSnapshot (new.snapshot height),
      .setGenerators height new.validators.generators,
      .setLedger (ledger.track height new.validators (schedule.outgoing height))]))

/-- A block goes into the ledger, which keeps three times `batchSize` blocks, and the parameters and
generators that no retained or uncertified block needs any more are dropped. -/
def planBlock (s : Store) (batchSize : Nat) (header : Header) :
    Except Failure (BlockOutcome × List Change) := do
  let ledger ← Failure.ofStore s.ledger
  ledger.checkFollows header
  let schedule ← Failure.ofStore s.parameters
  let next ← ledger.process schedule header (3 * batchSize)
  let needed := next.neededFrom header.height
  let keys ← Failure.ofStore s.generators
  let pruned := schedule.stale needed
  .ok (⟨ledger.watermarks, next.watermarks, pruned⟩,
    pruned.map .deleteParameters ++ (keys.stale needed).map .deleteGenerators ++ [.setLedger next])

/-- The snapshots up to a height that are not in use there or above. Where the parameters that
apply at the height are gone, the newest of the snapshots stands for them. -/
def unusedSnapshots (s : Store) (height : Height) : Except Failure (List Digest) := do
  let schedule ← Failure.ofStore s.parameters
  let all ← Failure.ofStore s.snapshots
  let old := (all.filter fun d => d.activeFrom ≤ height).map Snapshot.validatorsHash
  let later := (schedule.filter fun r => height < r.1).map fun r => r.2.validatorsHash
  match schedule.effective? height with
  | some current => .ok (old.filter fun h => h ∉ current.validatorsHash :: later)
  | none => .ok (old.dropLast.filter fun h => h ∉ old.getLast?.toList ++ later)

end Store

end ImpliedFinality
