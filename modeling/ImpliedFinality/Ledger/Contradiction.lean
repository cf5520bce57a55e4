import ImpliedFinality.Ledger.Basic

/-! # Contradicting headers

An honest generator only extends a chain that is prevoted further, or as far and longer, than the
one it extended before, and truthfully reports its greatest height. Two different headers of a
generator contradict each other if no such generator made both. -/

namespace ImpliedFinality

namespace BlockVotes

/-- Whether one block comes after another in the order of their generator's reports. -/
def reportedAfter (a b : BlockVotes) : Bool :=
  b.maxHeightGenerated < a.maxHeightGenerated
    ∨ (a.maxHeightGenerated = b.maxHeightGenerated ∧ b.height < a.height)

/-- The rule for two blocks of a generator, the first of which was made first. -/
def breaksRule (earlier later : BlockVotes) : Bool :=
  (earlier.maxHeightPrevoted = later.maxHeightPrevoted ∧ later.height ≤ earlier.height)
    ∨ later.maxHeightGenerated < earlier.height
    ∨ later.maxHeightPrevoted < earlier.maxHeightPrevoted

/-- Whether two different blocks contradict each other. -/
def contradicts (a b : BlockVotes) : Bool :=
  a.generator = b.generator && if a.reportedAfter b then breaksRule b a else breaksRule a b

variable {a b : BlockVotes}

/-- Blocks of a generator are ordered by the greatest height that they report, and those that report
the same by their own height. -/
theorem reportedAfter_eq_true : a.reportedAfter b = true ↔
    b.maxHeightGenerated < a.maxHeightGenerated ∨
      a.maxHeightGenerated = b.maxHeightGenerated ∧ b.height < a.height :=
  decide_eq_true_iff

/-- The three ways in which the later of two blocks breaks the rule: it stays at the same prevoted
height without getting longer, it does not report the earlier block, or it goes back below a
prevoted height. -/
theorem breaksRule_eq_true : breaksRule a b = true ↔
    (a.maxHeightPrevoted = b.maxHeightPrevoted ∧ b.height ≤ a.height) ∨
      b.maxHeightGenerated < a.height ∨ b.maxHeightPrevoted < a.maxHeightPrevoted :=
  decide_eq_true_iff

/-- Of two blocks of one generator, the one that comes later in the order of reports has to keep the
rule. -/
theorem contradicts_of_own (own : a.generator = b.generator) :
    a.contradicts b = if a.reportedAfter b then breaksRule b a else breaksRule a b := by
  rw [contradicts, decide_eq_true own, Bool.true_and]

/-- Blocks of different generators do not contradict each other. -/
theorem contradicts_of_foreign (foreign : a.generator ≠ b.generator) :
    a.contradicts b = false := by
  rw [contradicts, decide_eq_false foreign, Bool.false_and]

end BlockVotes

/-- Whether two different headers contradict each other. A header does not contradict itself. -/
def Header.contradicts (a b : Header) : Bool :=
  a.id ≠ b.id && (BlockVotes.ofHeader a).contradicts (BlockVotes.ofHeader b)

theorem Header.contradicts_of_ne {a b : Header} (different : a.id ≠ b.id) :
    a.contradicts b = (BlockVotes.ofHeader a).contradicts (.ofHeader b) := by
  rw [contradicts, decide_eq_true different, Bool.true_and]

namespace Ledger

/-- Whether a header contradicts a retained block of its generator. -/
def contradictedBy (l : Ledger) (header : Header) : Bool :=
  l.window.any fun block => block.contradicts (BlockVotes.ofHeader header)

theorem contradictedBy_eq_false {l : Ledger} {header : Header} :
    l.contradictedBy header = false ↔
      ∀ b ∈ l.window, b.contradicts (.ofHeader header) = false := by
  simp [contradictedBy]

/-- Whether a header that follows the newest block prevotes for every block it may: the block at
the height that it reports as its generator's greatest must be retained as that generator's, or
not be retained. -/
def impliesMaximalPrevotes (l : Ledger) (header : Header) : Except Failure Bool := do
  l.checkFollows header
  if header.height ≤ header.maxHeightGenerated then return false
  match (header.height.sub? 1).bind fun newest => newest.gap? header.maxHeightGenerated with
  | none => .error .heightOutOfRange
  | some offset =>
    match l.window[offset]? with
    | none => return true
    | some block => return block.generator = header.generator

end Ledger

end ImpliedFinality
