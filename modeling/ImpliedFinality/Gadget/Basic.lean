import ImpliedFinality.Gadget.Change
import ImpliedFinality.Ledger.Contradiction

/-! # The finality gadget

The gadget keeps the finality state of one chain in a store. This module holds what can be asked
of it. -/

namespace ImpliedFinality

/-- A validator set has at most `batchSize` members, and a slot lasts `blockTime` seconds. -/
structure GadgetConfig where
  batchSize : Nat
  blockTime : Nat
  logEvents : Bool
deriving DecidableEq

/-- All that a gadget knows is in its store. -/
structure Gadget where
  config : GadgetConfig
  store : Store
deriving DecidableEq

/-- A block that was processed, as told to relays. -/
structure NewBlock where
  header : Header
  watermarks : Watermarks
  snapshot : Option Snapshot
deriving DecidableEq

namespace Gadget

/-- A gadget over an empty store, with the genesis block at a height. -/
def genesis (config : GadgetConfig) (height : Height) : Gadget :=
  ⟨config, Store.beginAt .empty height⟩

/-- The parameters that apply at a height. It is a failure if there are none. -/
def parameters (g : Gadget) (height : Height) : Except Failure Parameters := do
  let schedule ← Failure.ofStore g.store.parameters
  schedule.require height

/-- Whether there is a record that starts at exactly this height. -/
def hasParameters (g : Gadget) (height : Height) : Except Failure Bool := do
  let found ← Failure.ofStore (g.store.parametersAt? height)
  .ok found.isSome

/-- The next height above a given one from which other parameters apply. -/
def nextParameters (g : Gadget) (height : Height) : Except Failure Height :=
  match g.store.nextParameters? height with
  | some next => .ok next
  | none => .error (.parametersNotFound height)

/-- The stored record of the validator set with a given hash. -/
def snapshot? (g : Gadget) (validatorsHash : Digest) : Except Failure (Option Snapshot) :=
  Failure.ofStore (g.store.snapshot? validatorsHash)

def watermarks (g : Gadget) : Except Failure Watermarks := do
  let ledger ← Failure.ofStore g.store.ledger
  .ok ledger.watermarks

def contradictedBy (g : Gadget) (header : Header) : Except Failure Bool := do
  let ledger ← Failure.ofStore g.store.ledger
  .ok (ledger.contradictedBy header)

/-- Whether a header that comes next prevotes for every block it may. -/
def impliesMaximalPrevotes (g : Gadget) (header : Header) : Except Failure Bool := do
  let ledger ← Failure.ofStore g.store.ledger
  ledger.impliesMaximalPrevotes header

/-- What relays are told of a block that has just been processed. -/
def newBlock (g : Gadget) (header : Header) : Except Failure NewBlock := do
  let watermarks ← g.watermarks
  let snapshot ← g.snapshot? header.validatorsHash
  .ok ⟨header, watermarks, snapshot⟩

/-! ## Generators -/

/-- The slot of a time, by the block time of the gadget. -/
def slotAt (g : Gadget) (timestamp : UInt32) : Nat :=
  ImpliedFinality.slotAt timestamp g.config.blockTime

/-- The generator whose turn it is at a time, among the validators that vote on a height. -/
def generatorAt (g : Gadget) (height : Height) (timestamp : UInt32) : Except Failure Generator := do
  let p ← g.parameters height
  match p.validators.atSlot? (g.slotAt timestamp) with
  | some v => .ok v.generator
  | none => .error (.parametersNotFound height)

def generators (g : Gadget) (height : Height) : Except Failure Generators := do
  let records ← Failure.ofStore g.store.generators
  match records.effective? height with
  | some gs => .ok gs
  | none => .error (.parametersNotFound height)

/-- Whether a header was made in its slot by the right generator, and signed by it. -/
def verifyGenerator (g : Gadget) (header : Header) : Except Failure Bool := do
  let expected ← g.generatorAt header.height header.timestamp
  if expected.address ≠ header.generator then return false
  let gs ← g.generators header.height
  return header.isSignedBy ((gs.keyOf? header.generator).getD expected.key)

end Gadget

end ImpliedFinality
