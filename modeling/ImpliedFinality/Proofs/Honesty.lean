import ImpliedFinality.Proofs.Chronicle

/-!
# When an honest generator contradicts itself

A generator that follows the fork choice makes each block on a chain that is prevoted further than
the one of its last block, or as far and longer, and reports the greatest height it made. A later
block then reports no less than an earlier one, and at least its height, so the order by reports is
the order in which the blocks were made, except among blocks that report the same. Among these the
lower one is taken for the earlier one, although a chain that is prevoted further may be shorter.
-/

namespace ImpliedFinality

namespace Header

/-- The order of the fork choice: a chain that is prevoted further, or as far and longer, is
preferred. -/
def Precedes (earlier later : Header) : Prop :=
  earlier.maxHeightPrevoted < later.maxHeightPrevoted ∨
    (earlier.maxHeightPrevoted = later.maxHeightPrevoted ∧ earlier.height < later.height)

instance (earlier later : Header) : Decidable (earlier.Precedes later) :=
  inferInstanceAs (Decidable (_ ∨ _))

theorem Precedes.trans {a b c : Header} (hab : a.Precedes b) (hbc : b.Precedes c) :
    a.Precedes c := by
  rcases hab with hab | ⟨hab, hlow⟩ <;> rcases hbc with hbc | ⟨hbc, hlow'⟩
  · exact .inl (Nat.lt_trans hab hbc)
  · exact .inl (hbc ▸ hab)
  · exact .inl (hab ▸ hbc)
  · exact .inr ⟨hab.trans hbc, Nat.lt_trans hlow hlow'⟩

/-- What an honest generator that made some blocks, the newest one first, keeps to with the next
one. -/
structure MadeAfter (made : List Header) (next : Header) : Prop where
  own : ∀ e ∈ made, e.generator = next.generator
  first : made = [] → next.maxHeightGenerated ≤ next.height
  reported : made ≠ [] → ∃ e ∈ made, e.height = next.maxHeightGenerated
  greatest : ∀ e ∈ made, e.height ≤ next.maxHeightGenerated
  preferred : ∀ e, made.head? = some e → e.Precedes next

/-- The blocks of one honest generator, the newest one first. -/
inductive MadeHonestly : List Header → Prop
  | nil : MadeHonestly []
  | cons {made : List Header} {next : Header} (rest : MadeHonestly made)
      (after : MadeAfter made next) : MadeHonestly (next :: made)

namespace MadeHonestly

variable {headers made : List Header} {next : Header}

theorem tail (h : MadeHonestly headers) : MadeHonestly headers.tail := by
  cases h with
  | nil => exact .nil
  | cons rest _ => exact rest

/-- Each report is a height that the generator made, or below its first block. -/
theorem exists_reported_le (h : MadeHonestly headers) :
    ∀ e ∈ headers, ∃ x ∈ headers, e.maxHeightGenerated ≤ x.height := by
  induction h with
  | nil => exact fun e he => absurd he List.not_mem_nil
  | @cons made next rest after ih =>
    intro e he
    rcases List.mem_cons.mp he with rfl | he
    · by_cases hfirst : made = []
      · exact ⟨e, List.mem_cons_self, after.first hfirst⟩
      · obtain ⟨x, hx, hheight⟩ := after.reported hfirst
        exact ⟨x, List.mem_cons_of_mem _ hx, Nat.le_of_eq (congrArg Height.toNat hheight.symm)⟩
    · obtain ⟨x, hx, hle⟩ := ih e he
      exact ⟨x, List.mem_cons_of_mem _ hx, hle⟩

/-- A generator never reports less than it did before. -/
theorem reported_le (rest : MadeHonestly made) (after : MadeAfter made next) :
    ∀ e ∈ made, e.maxHeightGenerated ≤ next.maxHeightGenerated := by
  intro e he
  obtain ⟨x, hx, hle⟩ := rest.exists_reported_le e he
  exact Nat.le_trans hle (after.greatest x hx)

/-- A generator prefers the chain of its next block to that of every block it made before. -/
theorem precedes (rest : MadeHonestly made) (after : MadeAfter made next) :
    ∀ e ∈ made, e.Precedes next := by
  induction rest generalizing next with
  | nil => exact fun e he => absurd he List.not_mem_nil
  | @cons older last rest lastAfter ih =>
    intro e he
    have hlast : last.Precedes next := after.preferred last rfl
    rcases List.mem_cons.mp he with rfl | he
    · exact hlast
    · exact (ih lastAfter e he).trans hlast

end MadeHonestly

section Pair

variable {earlier later : Header} (own : earlier.generator = later.generator)
  (greatest : earlier.height ≤ later.maxHeightGenerated) (preferred : earlier.Precedes later)
include greatest preferred

/-- The rule finds nothing if it is told which block was made first. -/
theorem not_breaksRule : BlockVotes.breaksRule (.ofHeader earlier) (.ofHeader later) = false := by
  apply decide_eq_false
  rintro (⟨hsame, hlow⟩ | hreported | hprevoted)
  · rcases preferred with hless | ⟨-, hless⟩
    · exact Nat.ne_of_lt hless (congrArg Height.toNat hsame)
    · exact Nat.lt_irrefl _ (Nat.lt_of_lt_of_le hless hlow)
  · exact Nat.lt_irrefl _ (Nat.lt_of_le_of_lt greatest hreported)
  · rcases preferred with hless | ⟨hsame, -⟩
    · exact Nat.lt_irrefl _ (Nat.lt_trans hless hprevoted)
    · exact Nat.ne_of_lt hprevoted (congrArg Height.toNat hsame.symm)

omit greatest in
/-- The rule finds a fault if it is told the wrong order of two blocks that do not rise. -/
theorem breaksRule_swap (falls : later.height ≤ earlier.height) :
    BlockVotes.breaksRule (.ofHeader later) (.ofHeader earlier) = true := by
  apply decide_eq_true
  rcases preferred with hless | ⟨-, hless⟩
  · exact .inr (.inr hless)
  · exact absurd hless (Nat.not_lt.mpr falls)

include own

theorem contradicts_earlier_iff (reported : earlier.maxHeightGenerated ≤ later.maxHeightGenerated) :
    later.contradicts earlier = true ↔ later.id ≠ earlier.id ∧
      later.maxHeightGenerated = earlier.maxHeightGenerated ∧ later.height ≤ earlier.height := by
  have howner : (BlockVotes.ofHeader later).generator = (BlockVotes.ofHeader earlier).generator :=
    own.symm
  rw [contradicts, BlockVotes.contradicts_of_own howner, Bool.and_eq_true, decide_eq_true_iff]
  refine and_congr_right fun _ => ?_
  cases hafter : (BlockVotes.ofHeader later).reportedAfter (.ofHeader earlier) with
  | true =>
    rw [if_pos rfl, not_breaksRule greatest preferred]
    refine iff_of_false Bool.false_ne_true ?_
    rintro ⟨hsame, hfalls⟩
    rcases BlockVotes.reportedAfter_eq_true.mp hafter with hless | ⟨-, hless⟩
    · exact Nat.ne_of_lt hless (congrArg Height.toNat hsame.symm)
    · exact Nat.lt_irrefl _ (Nat.lt_of_lt_of_le hless hfalls)
  | false =>
    obtain ⟨hreported, hheight⟩ := not_or.mp (of_decide_eq_false hafter)
    have hsame : later.maxHeightGenerated = earlier.maxHeightGenerated :=
      Height.ext (Nat.le_antisymm (Nat.not_lt.mp hreported) reported)
    have hfalls : later.height ≤ earlier.height := Height.not_lt.mp fun h => hheight ⟨hsame, h⟩
    rw [if_neg Bool.false_ne_true, breaksRule_swap preferred hfalls]
    exact iff_of_true rfl ⟨hsame, hfalls⟩

theorem contradicts_later_iff (reported : earlier.maxHeightGenerated ≤ later.maxHeightGenerated) :
    earlier.contradicts later = true ↔ earlier.id ≠ later.id ∧
      later.maxHeightGenerated = earlier.maxHeightGenerated ∧ later.height < earlier.height := by
  have howner : (BlockVotes.ofHeader earlier).generator = (BlockVotes.ofHeader later).generator :=
    own
  rw [contradicts, BlockVotes.contradicts_of_own howner, Bool.and_eq_true, decide_eq_true_iff]
  refine and_congr_right fun _ => ?_
  cases hafter : (BlockVotes.ofHeader earlier).reportedAfter (.ofHeader later) with
  | true =>
    rcases BlockVotes.reportedAfter_eq_true.mp hafter with hless | ⟨hsame, hfalls⟩
    · exact absurd reported (Height.not_le.mpr hless)
    · rw [if_pos rfl, breaksRule_swap preferred (Nat.le_of_lt hfalls)]
      exact iff_of_true rfl ⟨hsame.symm, hfalls⟩
  | false =>
    rw [if_neg Bool.false_ne_true, not_breaksRule greatest preferred]
    refine iff_of_false Bool.false_ne_true ?_
    rintro ⟨hsame, hfalls⟩
    exact of_decide_eq_false hafter (.inr ⟨hsame.symm, hfalls⟩)

end Pair

namespace MadeHonestly

variable {headers : List Header}

/-- Two blocks of an honest generator contradict each other exactly if they report the same height
and the later one is the lower one. At equal heights only the later one contradicts the earlier
one, and not the other way round. -/
theorem contradicts_iff (h : MadeHonestly headers) :
    headers.Pairwise fun later earlier =>
      (later.contradicts earlier = true ↔ later.id ≠ earlier.id ∧
        later.maxHeightGenerated = earlier.maxHeightGenerated ∧ later.height ≤ earlier.height) ∧
      (earlier.contradicts later = true ↔ earlier.id ≠ later.id ∧
        later.maxHeightGenerated = earlier.maxHeightGenerated ∧ later.height < earlier.height) := by
  induction h with
  | nil => exact .nil
  | @cons made next rest after ih =>
    refine List.pairwise_cons.mpr ⟨fun e he => ?_, ih⟩
    have hown := after.own e he
    have hgreatest := after.greatest e he
    have hpreferred := rest.precedes after e he
    have hreported := rest.reported_le after e he
    exact ⟨contradicts_earlier_iff hown hgreatest hpreferred hreported,
      contradicts_later_iff hown hgreatest hpreferred hreported⟩

end MadeHonestly

end Header

namespace Solo

/-- A validator made height 10, and then changes twice to a shorter chain that is prevoted
further. Both blocks report height 10. -/
def switches : List Header :=
  [header ⟨7, by decide⟩ ⟨10, by decide⟩ ⟨6, by decide⟩ 0,
    header ⟨8, by decide⟩ ⟨10, by decide⟩ ⟨5, by decide⟩ 0,
    header ⟨10, by decide⟩ .zero ⟨3, by decide⟩ 0]

theorem madeHonestly_switches : Header.MadeHonestly switches := by
  refine .cons (.cons (.cons .nil ?first) ?second) ?third
  case first => exact ⟨by decide, by decide, by decide, by decide, nofun⟩
  case second =>
    refine ⟨by decide, by decide, by decide, by decide, ?_⟩
    rintro e ⟨⟩
    decide
  case third =>
    refine ⟨by decide, by decide, by decide, by decide, ?_⟩
    rintro e ⟨⟩
    decide

end Solo

namespace Header

open Solo (switches madeHonestly_switches)

/-- The blocks of an honest generator that changes chains twice contradict each other. -/
theorem madeHonestly_contradicts :
    MadeHonestly switches ∧ ∃ later ∈ switches, ∃ earlier ∈ switches,
      later.contradicts earlier = true ∧ earlier.contradicts later = true :=
  ⟨madeHonestly_switches, switches[0], by decide, switches[1], by decide, by decide +kernel,
    by decide +kernel⟩

theorem contradicts_iff_switches :
    MadeHonestly switches ∧ switches.Pairwise fun later earlier =>
      (later.contradicts earlier = true ↔ later.id ≠ earlier.id ∧
        later.maxHeightGenerated = earlier.maxHeightGenerated ∧ later.height ≤ earlier.height) ∧
      (earlier.contradicts later = true ↔ earlier.id ≠ later.id ∧
        later.maxHeightGenerated = earlier.maxHeightGenerated ∧ later.height < earlier.height) :=
  ⟨madeHonestly_switches, madeHonestly_switches.contradicts_iff⟩

end Header

end ImpliedFinality
