import ImpliedFinality.Ledger.Votes

/-! # Raising the watermarks

A watermark rises to the newest retained block whose votes reach the threshold in effect at its
height. The certified height rises to that of an aggregate commit with enough signers, among the
precommitted heights. -/

namespace ImpliedFinality

/-- The parameters that apply at a height, which must exist. -/
def Timeline.require (schedule : Timeline Parameters) (h : Height) : Except Failure Parameters :=
  match schedule.effective? h with
  | some p => .ok p
  | none => .error (.parametersNotFound h)

namespace Ledger

/-- The height of the first block above a watermark whose votes reach the threshold, or the
watermark. -/
def raise (schedule : Timeline Parameters) (threshold : Parameters → Weight)
    (votes : BlockVotes → Weight) (mark : Height) : List BlockVotes → Except Failure Height
  | [] => .ok mark
  | b :: older =>
    if b.height ≤ mark then .ok mark
    else do
      let p ← schedule.require b.height
      if threshold p ≤ votes b then .ok b.height
      else raise schedule threshold votes mark older

/-- Raises the prevoted height to the newest block with a prevote quorum. -/
def raisePrevoted (l : Ledger) (schedule : Timeline Parameters) : Except Failure Ledger := do
  let height ←
    raise schedule Parameters.prevoteThreshold BlockVotes.prevotes l.watermarks.prevoted l.window
  .ok { l with watermarks := { l.watermarks with prevoted := height } }

/-- Raises the precommitted height to the newest block with enough precommits. -/
def raisePrecommitted (l : Ledger) (schedule : Timeline Parameters) : Except Failure Ledger := do
  let height ←
    raise schedule Parameters.precommitThreshold BlockVotes.precommits l.watermarks.precommitted
      l.window
  .ok { l with watermarks := { l.watermarks with precommitted := height } }

/-- Raises the certified height to that of a commit with enough signers. A commit changes nothing if
it is empty, certifies no greater height, or is about a height that is not precommitted. -/
def raiseCertified (l : Ledger) (schedule : Timeline Parameters) (commit : AggregateCommit) :
    Except Failure Ledger :=
  if commit.isEmpty ∨ commit.height ≤ l.watermarks.certified
      ∨ l.watermarks.precommitted < commit.height then
    .ok l
  else do
    let p ← schedule.require commit.height
    if p.certificateThreshold ≤ p.validators.signersWeight commit.bits then
      .ok { l with watermarks := { l.watermarks with certified := commit.height } }
    else .ok l

/-- Takes in a block that follows the newest one. -/
def process (l : Ledger) (schedule : Timeline Parameters) (header : Header) (limit : Nat) :
    Except Failure Ledger :=
  match (l.append header limit).castVotes? schedule with
  | none => .error .heightOutOfRange
  | some l => do
    let l ← l.raisePrevoted schedule
    let l ← l.raisePrecommitted schedule
    l.raiseCertified schedule header.commit

/-- The least height whose parameters are still needed: that of the oldest retained block, or the
first one that is not certified. With no retained block the height of the newest one stands for
it. -/
def neededFrom (l : Ledger) (newest : Height) : Height :=
  let oldest := match l.window.getLast? with
    | some b => b.height
    | none => newest
  match l.watermarks.certified.succ? with
  | some uncertified => min oldest uncertified
  | none => oldest

end Ledger

end ImpliedFinality
