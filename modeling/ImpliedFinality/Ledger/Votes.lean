import ImpliedFinality.Ledger.Basic

/-! # Implied votes

A block prevotes for every retained block above the height that its generator generated last,
itself included. It precommits those blocks that are prevoted and that its generator prevoted for,
unless the generator precommitted that high before. -/

namespace ImpliedFinality

/-- Applies a function to the items up to the first one that fails a test. -/
def mapWhile {α : Type} (p : α → Bool) (f : α → α) (items : List α) : List α :=
  (items.takeWhile p).map f ++ items.dropWhile p

@[simp] theorem length_mapWhile {α : Type} (p : α → Bool) (f : α → α) (items : List α) :
    (mapWhile p f items).length = items.length := by
  rw [mapWhile, List.length_append, List.length_map, ← List.length_append,
    List.takeWhile_append_dropWhile]

namespace BlockVotes

/-- The weight that a generator's prevote adds to a block: none unless it votes on that height. -/
def prevoteOf? (schedule : Timeline Parameters) (generator : Address) (b : BlockVotes) :
    Option Weight := do
  let p ← schedule.effective? b.height
  p.weightOf? generator

/-- The weight that a generator's precommit adds to a block, which must be prevoted. -/
def precommitOf? (schedule : Timeline Parameters) (generator : Address) (b : BlockVotes) :
    Option Weight := do
  let p ← schedule.effective? b.height
  if p.prevoteThreshold ≤ b.prevotes then p.weightOf? generator else none

/-- Counts a generator's prevote for a block, if the generator votes on that height. -/
def addPrevote (schedule : Timeline Parameters) (generator : Address) (b : BlockVotes) :
    BlockVotes :=
  match b.prevoteOf? schedule generator with
  | some w => { b with prevotes := b.prevotes + w }
  | none => b

/-- Counts a generator's precommit for a block, if the block is prevoted and the generator votes on
that height. -/
def addPrecommit (schedule : Timeline Parameters) (generator : Address) (b : BlockVotes) :
    BlockVotes :=
  match b.precommitOf? schedule generator with
  | some w => { b with precommits := b.precommits + w }
  | none => b

end BlockVotes

namespace Ledger

/-- The height below the window, or a height that a walk ended on, if that is above. -/
def belowWindow (l : Ledger) (newest : BlockVotes) (height : Height) : Height :=
  max (newest.height.below l.window.length) height

/-- Walks back from `height` along the blocks of a generator, each of which reports the height of
the one before. The walk ends below the window, at a block of somebody else, or at one that does
not report a lower height. It has no result if it takes more than `steps` steps or leaves the
range of heights. -/
def walkBack? (l : Ledger) (newest : BlockVotes) : Nat → Height → Option Height
  | 0, _ => none
  | steps + 1, height =>
    if height ≤ newest.height then do
      let offset ← newest.height.gap? height
      if offset < l.window.length then
        let block ← l.window[offset]?
        if block.generator ≠ newest.generator ∨ height ≤ block.maxHeightGenerated then some height
        else l.walkBack? newest steps block.maxHeightGenerated
      else some (l.belowWindow newest height)
    else some (l.belowWindow newest height)

/-- The greatest height that the generator of the newest block has not prevoted for. -/
def notPrevoted? (l : Ledger) : Option Height :=
  match l.newest? with
  | none => some .zero
  | some newest => l.walkBack? newest (l.window.length + 1) newest.maxHeightGenerated

/-- The least height that a voter may precommit, unless it is above all heights. -/
def precommitFrom? (voter : Voter) (notPrevoted : Height) : Option Height := do
  let unvoted ← notPrevoted.succ?
  let next ← voter.lastPrecommit.succ?
  some (max (max voter.activeFrom unvoted) next)

/-- Adds the precommits of a generator from a height on, and notes the greatest height it
precommits. -/
def precommit (l : Ledger) (schedule : Timeline Parameters) (generator : Address)
    (lowest : Height) : Ledger :=
  let inReach := fun b : BlockVotes => decide (lowest ≤ b.height)
  let greatest :=
    (l.window.takeWhile inReach).find? fun b => (b.precommitOf? schedule generator).isSome
  { l with
    window := mapWhile inReach (BlockVotes.addPrecommit schedule generator) l.window
    voters := match greatest with
      | none => l.voters
      | some b => l.voters.modify (l.voters.findIdx fun v => v.address = generator)
          fun v => { v with lastPrecommit := b.height } }

/-- Adds the prevotes of a generator from a height on. -/
def prevote (l : Ledger) (schedule : Timeline Parameters) (generator : Address)
    (lowest : Height) : Ledger :=
  let inReach := fun b : BlockVotes => decide (lowest ≤ b.height)
  { l with window := mapWhile inReach (BlockVotes.addPrevote schedule generator) l.window }

/-- Adds the votes that the newest block implies, if its generator is a voter. It has no result if
the votes lead out of the range of heights. -/
def castVotes? (l : Ledger) (schedule : Timeline Parameters) : Option Ledger :=
  match l.newest? with
  | none => some l
  | some newest =>
    match l.voter? newest.generator with
    | none => some l
    | some voter => do
      let notPrevoted ← l.notPrevoted?
      let precommitted := match precommitFrom? voter notPrevoted with
        | none => l
        | some lowest => l.precommit schedule newest.generator lowest
      let unreported ← newest.maxHeightGenerated.succ?
      some (precommitted.prevote schedule newest.generator (max unreported voter.activeFrom))

end Ledger

end ImpliedFinality
