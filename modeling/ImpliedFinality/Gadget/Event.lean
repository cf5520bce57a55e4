import ImpliedFinality.Base64
import ImpliedFinality.Ledger.Basic
import ImpliedFinality.Log

/-! # Events of the gadget

An event says that a change is in the store. -/

namespace ImpliedFinality

/-- What is told of a change. `parametersPruned` lists the heights of the records that went, and
`snapshotsPruned` the names of the snapshots. -/
inductive GadgetEvent
  | parametersSet (height : Height) (validatorsHash : Digest) (validators : Nat)
      (precommitThreshold certificateThreshold : Weight)
  | blockProcessed (height : Height) (generator : Address)
  | watermarksRaised (watermarks : Watermarks)
  | parametersPruned (heights : List Height)
  | snapshotsPruned (validatorsHashes : List Digest)
deriving DecidableEq

namespace GadgetEvent

/-- The line about an event that happened at a time. -/
def logLine (time : String) : GadgetEvent → LogLine
  | parametersSet height validatorsHash validators precommit certificate =>
    .ofValues .info ["SetBFTParameters", time, toString height, Base64.short validatorsHash.bytes,
      toString validators, toString precommit, toString certificate]
  | blockProcessed height generator =>
    .ofValues .info ["ProcessBlock", time, toString height, Base64.short generator.bytes]
  | watermarksRaised w =>
    .ofValues .info ["UpdateBFTHeights", time, toString w.prevoted, toString w.precommitted,
      toString w.certified]
  | parametersPruned heights =>
    .ofValues .info ["PruneBFTParameters", time, toString heights.length,
      (heights.getLast?.map toString).getD "-"]
  | snapshotsPruned validatorsHashes =>
    .ofValues .info ["PruneValidatorSnapshots", time, toString validatorsHashes.length]

/-- The kinds of events that somebody has asked to be told of. -/
structure Subscription where
  parametersSet : Bool := false
  blockProcessed : Bool := false
  watermarksRaised : Bool := false
  parametersPruned : Bool := false
  snapshotsPruned : Bool := false
deriving DecidableEq

/-- Whether an event is of a kind that was asked for. -/
def isIn (subscription : Subscription) : GadgetEvent → Bool
  | .parametersSet .. => subscription.parametersSet
  | .blockProcessed .. => subscription.blockProcessed
  | .watermarksRaised .. => subscription.watermarksRaised
  | .parametersPruned .. => subscription.parametersPruned
  | .snapshotsPruned .. => subscription.snapshotsPruned

end GadgetEvent

end ImpliedFinality
