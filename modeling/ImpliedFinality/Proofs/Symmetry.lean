import ImpliedFinality.Proofs.Honesty

/-!
# When the order of two headers matters

Whether two headers contradict each other is asked of them in either order. The order by reports
puts two blocks of a generator into the same order either way, unless they have the same height and
report the same one. Then the first one named is taken for the earlier one, and the rule finds a
fault in one order only if all that is wrong is that the later chain is prevoted less far.
-/

namespace ImpliedFinality

namespace BlockVotes

variable {a b : BlockVotes}

/-- Two blocks at one height that the order by reports does not tell apart. They are on chains that
are prevoted differently far, and neither is above the height that both report. -/
structure Tie (a b : BlockVotes) : Prop where
  own : a.generator = b.generator
  height : a.height = b.height
  reported : a.maxHeightGenerated = b.maxHeightGenerated
  notAbove : a.height ≤ a.maxHeightGenerated
  prevoted : a.maxHeightPrevoted ≠ b.maxHeightPrevoted

theorem Tie.symm (h : Tie a b) : Tie b a where
  own := h.own.symm
  height := h.height.symm
  reported := h.reported.symm
  notAbove := h.height ▸ h.reported ▸ h.notAbove
  prevoted := h.prevoted.symm

theorem reportedAfter_asymm (h : a.reportedAfter b = true) : b.reportedAfter a = false := by
  rw [← Bool.not_eq_true]
  intro hback
  rw [reportedAfter_eq_true, ← Height.toNat_inj, Height.lt_iff, Height.lt_iff] at h hback
  omega

/-- Blocks are in no order exactly if they have the same height and report the same one. -/
theorem not_reportedAfter_iff : a.reportedAfter b = false ∧ b.reportedAfter a = false ↔
    a.height = b.height ∧ a.maxHeightGenerated = b.maxHeightGenerated := by
  simp only [← Bool.not_eq_true, reportedAfter_eq_true, ← Height.toNat_inj, Height.lt_iff]
  omega

/-- Blocks that are in an order are compared in that order either way. -/
theorem contradicts_comm_of_reportedAfter (h : a.reportedAfter b = true) :
    a.contradicts b = b.contradicts a := by
  by_cases own : a.generator = b.generator
  · rw [contradicts_of_own own, contradicts_of_own own.symm, h, reportedAfter_asymm h,
      if_pos rfl, if_neg Bool.false_ne_true]
  · rw [contradicts_of_foreign own, contradicts_of_foreign (Ne.symm own)]

/-- Blocks in no order are compared as if the first one named was made first. -/
theorem contradicts_of_unordered (own : a.generator = b.generator) (height : a.height = b.height)
    (reported : a.maxHeightGenerated = b.maxHeightGenerated) :
    a.contradicts b = true ↔ a.maxHeightPrevoted = b.maxHeightPrevoted ∨
      a.maxHeightGenerated < a.height ∨ b.maxHeightPrevoted < a.maxHeightPrevoted := by
  rw [contradicts_of_own own, (not_reportedAfter_iff.mpr ⟨height, reported⟩).1,
    if_neg Bool.false_ne_true, breaksRule_eq_true, ← height, ← reported]
  exact or_congr_left (and_iff_left (Nat.le_refl _))

/-- Of two blocks that tie the first one named contradicts the other one if it is prevoted
further. -/
theorem Tie.contradicts_eq_true (h : Tie a b) :
    a.contradicts b = true ↔ b.maxHeightPrevoted < a.maxHeightPrevoted := by
  rw [contradicts_of_unordered h.own h.height h.reported, or_iff_right h.prevoted,
    or_iff_right (Height.not_lt.mpr h.notAbove)]

/-- Two blocks that tie contradict each other in exactly one order. -/
theorem Tie.contradicts_swap (h : Tie a b) : b.contradicts a = !a.contradicts b := by
  have hne : a.maxHeightPrevoted.toNat ≠ b.maxHeightPrevoted.toNat := mt Height.ext h.prevoted
  rw [Bool.eq_iff_iff, Bool.not_eq_true', ← Bool.not_eq_true, h.contradicts_eq_true,
    h.symm.contradicts_eq_true, Height.lt_iff, Height.lt_iff]
  omega

theorem contradicts_comm_of_not_tie (h : ¬ Tie a b) : a.contradicts b = b.contradicts a := by
  by_cases hab : a.reportedAfter b = true
  · exact contradicts_comm_of_reportedAfter hab
  by_cases hba : b.reportedAfter a = true
  · exact (contradicts_comm_of_reportedAfter hba).symm
  by_cases own : a.generator = b.generator
  · rw [Bool.not_eq_true] at hab hba
    obtain ⟨height, reported⟩ := not_reportedAfter_iff.mp ⟨hab, hba⟩
    -- without a tie the rule finds a fault that does not depend on the order
    have hfault : a.maxHeightPrevoted = b.maxHeightPrevoted ∨ a.maxHeightGenerated < a.height := by
      apply Decidable.byContradiction
      intro hnone
      rw [not_or, Height.not_lt] at hnone
      exact h ⟨own, height, reported, hnone.2, hnone.1⟩
    rw [Bool.eq_iff_iff, contradicts_of_unordered own height reported,
      contradicts_of_unordered own.symm height.symm reported.symm, ← height, ← reported]
    rcases hfault with hsame | habove
    · exact iff_of_true (.inl hsame) (.inl hsame.symm)
    · exact iff_of_true (.inr (.inl habove)) (.inr (.inl habove))
  · rw [contradicts_of_foreign own, contradicts_of_foreign (Ne.symm own)]

end BlockVotes

namespace Header

/-- Two headers give the same answer in both orders, unless they are different and tie. Then one of
them contradicts the other one and not the other way round, namely that which is prevoted
further. -/
theorem contradicts_comm_iff (a b : Header) :
    (a.contradicts b = b.contradicts a ↔
      a.id = b.id ∨ ¬ BlockVotes.Tie (.ofHeader a) (.ofHeader b)) ∧
    (a.contradicts b = true ∧ b.contradicts a = false ↔
      a.id ≠ b.id ∧ BlockVotes.Tie (.ofHeader a) (.ofHeader b) ∧
        b.maxHeightPrevoted < a.maxHeightPrevoted) := by
  by_cases hid : a.id = b.id
  · simp [contradicts, hid]
  rw [contradicts_of_ne hid, contradicts_of_ne (Ne.symm hid), or_iff_right hid, and_iff_right hid]
  by_cases htie : BlockVotes.Tie (.ofHeader a) (.ofHeader b)
  · rw [htie.contradicts_swap, Bool.not_eq_false', and_self, htie.contradicts_eq_true]
    exact ⟨iff_of_false (by simp) (not_not_intro htie), (and_iff_right htie).symm⟩
  · rw [BlockVotes.contradicts_comm_of_not_tie htie]
    refine ⟨iff_of_true rfl htie, iff_of_false ?_ fun h => htie h.1⟩
    rintro ⟨htrue, hfalse⟩
    exact Bool.false_ne_true (hfalse.symm.trans htrue)

end Header

namespace Solo

/-- A validator that has changed to a chain of height 7 leaves it again for one of the same height
that is prevoted further. Both of its blocks there have height 8 and report height 10. -/
def rebuilds : List Header :=
  header (height 8) (height 10) (height 6) 0 :: switches.tail

theorem madeHonestly_rebuilds : Header.MadeHonestly rebuilds := by
  refine .cons madeHonestly_switches.tail ⟨by decide, by decide, by decide, by decide, ?_⟩
  rintro e ⟨⟩
  decide

end Solo

namespace Header

open Solo (rebuilds madeHonestly_rebuilds)

/-- An honest generator is accused in one order of its headers and not in the other. -/
theorem contradicts_not_comm :
    MadeHonestly rebuilds ∧ ∃ later ∈ rebuilds, ∃ earlier ∈ rebuilds,
      later.contradicts earlier = true ∧ earlier.contradicts later = false :=
  ⟨madeHonestly_rebuilds, rebuilds[0], by decide, rebuilds[1], by decide, by decide +kernel,
    by decide +kernel⟩

end Header

end ImpliedFinality
