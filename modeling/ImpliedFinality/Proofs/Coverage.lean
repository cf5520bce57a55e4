import Mathlib.Order.Bounds.Defs
import ImpliedFinality.Proofs.Lag

/-!
# What the walk along the reports finds

A block covers the heights above the one that it reports, up to its own. The walk only looks at
the blocks that it passes, and still finds the greatest height that no block of the generator
covers. The heights that it passes over are covered by the blocks it comes from. Another block
that covers the height at which it ends would lie above that height and report less, and so
contradict the block that reports the height.
-/

namespace ImpliedFinality

namespace BlockVotes

/-- The heights for which a block is a prevote. -/
def Covers (b : BlockVotes) (k : Height) : Prop := b.maxHeightGenerated < k ∧ k ≤ b.height

/-- Of two blocks of a generator that do not contradict each other, one that reports more reports
at least the height of the other. -/
theorem height_le_reported {a b : BlockVotes} (own : a.generator = b.generator)
    (agree : a.contradicts b = false) (less : a.maxHeightGenerated < b.maxHeightGenerated) :
    a.height ≤ b.maxHeightGenerated := by
  have hafter : ¬ a.reportedAfter b = true := by
    rw [reportedAfter_eq_true]
    rintro (hmore | ⟨hsame, -⟩)
    · exact Nat.lt_asymm less hmore
    · exact Nat.ne_of_lt less (congrArg Height.toNat hsame)
  rw [contradicts_of_own own, if_neg hafter, ← Bool.not_eq_true, breaksRule_eq_true] at agree
  apply Height.not_lt.mp
  intro habove
  exact agree (.inr (.inl habove))

end BlockVotes

namespace Ledger

variable {l : Ledger} {newest b : BlockVotes} {steps : Nat} {reported found k : Height}

/-- No two retained blocks of a generator contradict each other. -/
def Agrees (l : Ledger) (generator : Address) : Prop :=
  ∀ a ∈ l.window, ∀ b ∈ l.window, a.generator = generator → b.generator = generator → a ≠ b →
    a.contradicts b = false

instance (l : Ledger) (generator : Address) : Decidable (l.Agrees generator) :=
  inferInstanceAs (Decidable (∀ _ ∈ _, ∀ _ ∈ _, _))

/-- The heights from right below the window up to the newest block that the generator of that
block has not prevoted for. What it did below the window is not known. -/
def NotPrevoted (l : Ledger) (newest : BlockVotes) (k : Height) : Prop :=
  newest.height.below l.window.length ≤ k ∧ k ≤ newest.height ∧
    (k.toNat + l.window.length = newest.height.toNat ∨
      ∀ b ∈ l.window, b.generator = newest.generator → ¬ b.Covers k)

/-- A reported height is covered by no block of the generator but one at that height. -/
theorem height_eq_of_covers (agree : l.Agrees newest.generator) (hb : b ∈ l.window)
    (own : b.generator = newest.generator) {x : BlockVotes} (hx : x ∈ l.window)
    (hown : x.generator = newest.generator) (covers : x.Covers b.maxHeightGenerated) :
    x.height = b.maxHeightGenerated := by
  obtain ⟨hless, habove⟩ := covers
  have hne : x ≠ b := by
    rintro rfl
    exact Nat.lt_irrefl _ hless
  have hagree := agree x hx b hb hown own hne
  have hle := BlockVotes.height_le_reported (hown.trans own.symm) hagree hless
  exact Height.ext (Nat.le_antisymm hle habove)

/-- A reported height is not prevoted for if the block there is another generator's, or does not
report a lower one. -/
theorem notPrevoted_of_stop (hw : Consecutive l.window) (agree : l.Agrees newest.generator)
    (hb : b ∈ l.window) (own : b.generator = newest.generator) {prior : BlockVotes}
    (hprior : prior ∈ l.window) (hheight : prior.height = b.maxHeightGenerated)
    (within : newest.height.below l.window.length ≤ b.maxHeightGenerated)
    (hle : b.maxHeightGenerated ≤ newest.height)
    (stop : prior.generator ≠ newest.generator ∨ b.maxHeightGenerated ≤ prior.maxHeightGenerated) :
    l.NotPrevoted newest b.maxHeightGenerated := by
  refine ⟨within, hle, .inr fun x hx hown covers => ?_⟩
  have hx' := height_eq_of_covers agree hb own hx hown covers
  obtain rfl := hw.eq_of_height hx hprior (hx'.trans hheight.symm)
  rcases stop with hforeign | hnoless
  · exact hforeign hown
  · exact Height.not_lt.mpr hnoless covers.1

/-- A walk that leaves the window ends right below it. -/
theorem notPrevoted_belowWindow
    (hout : reported.toNat + l.window.length ≤ newest.height.toNat) :
    l.NotPrevoted newest (l.belowWindow newest reported) := by
  have hend : (l.belowWindow newest reported).toNat + l.window.length = newest.height.toNat := by
    rw [belowWindow, Height.toNat_max, Height.toNat_below]
    omega
  refine ⟨?_, ?_, .inl hend⟩
  · rw [Height.le_iff, Height.toNat_below]
    omega
  · rw [Height.le_iff]
    omega

/-- A walk that starts on a reported height ends on one that is not prevoted for. -/
theorem notPrevoted_of_walkBack? (hw : Consecutive l.window) (hnewest : l.newest? = some newest)
    (agree : l.Agrees newest.generator) (hb : b ∈ l.window) (own : b.generator = newest.generator)
    (hle : b.maxHeightGenerated ≤ newest.height)
    (h : l.walkBack? newest steps b.maxHeightGenerated = some found) :
    l.NotPrevoted newest found := by
  -- by induction on the steps, as the next one starts from the block that `b` reports
  induction steps generalizing b with
  | zero => contradiction
  | succ steps ih =>
    rw [walkBack?, if_pos hle] at h
    simp only [Option.bind_eq_bind, Option.bind_eq_some_iff, Height.gap?_eq_some] at h
    obtain ⟨offset, hoffset, h⟩ := h
    split at h
    case isFalse hout =>
      obtain rfl := Option.some.inj h
      apply notPrevoted_belowWindow
      omega
    case isTrue hin =>
      simp only [Option.bind_eq_some_iff] at h
      obtain ⟨prior, hprior, h⟩ := h
      have hmem : prior ∈ l.window := List.mem_of_getElem? hprior
      have hheight : prior.height = b.maxHeightGenerated := by
        have hnewestHeight := hw.height_eq_of_newest hnewest hprior
        apply Height.ext
        omega
      split at h
      case isTrue hstop =>
        obtain rfl := Option.some.inj h
        apply notPrevoted_of_stop hw agree hb own hmem hheight ?within hle hstop
        case within =>
          rw [Height.le_iff, Height.toNat_below]
          omega
      case isFalse hgoes =>
        obtain ⟨hown, hlower⟩ := not_or.mp hgoes
        apply ih hmem (Decidable.not_not.mp hown) ?lower h
        case lower => exact Nat.le_trans (Nat.le_of_lt (Height.not_le.mp hlower)) hle

/-- Every height above the one that a walk ends on is prevoted for. -/
theorem le_of_walkBack? (hw : Consecutive l.window) (hnewest : l.newest? = some newest)
    (h : l.walkBack? newest steps newest.maxHeightGenerated = some found)
    (hfound : newest.height.below l.window.length ≤ found) (hk : l.NotPrevoted newest k) :
    k ≤ found := by
  obtain ⟨-, hle, hunvoted⟩ := hk
  apply Height.not_lt.mp
  intro habove
  rcases hunvoted with hbelow | hfree
  · rw [Height.le_iff, Height.toNat_below] at hfound
    rw [Height.lt_iff] at habove
    omega
  · have hmem : newest ∈ l.window := List.mem_of_head? hnewest
    have hleads := leadsBelow_of_walkBack? hw hnewest h habove hmem rfl rfl hle
    obtain ⟨x, hx, hown, hcovers⟩ := hleads.exists_prevoting
    obtain ⟨y, hy, rfl⟩ := List.mem_map.mp hx
    exact hfree y hy hown hcovers

/-- The walk has a result in every ledger, so it never looks outside the window. If the heights of
the window are consecutive, the newest block reports no height above its own, and no two blocks of
its generator contradict each other, it finds the greatest height that the generator has not
prevoted for. -/
theorem notPrevoted?_isGreatest (l : Ledger) :
    ∃ found, l.notPrevoted? = some found ∧
      ∀ newest, l.newest? = some newest → Consecutive l.window →
        newest.maxHeightGenerated ≤ newest.height → l.Agrees newest.generator →
        IsGreatest {k | l.NotPrevoted newest k} found := by
  obtain ⟨found, hfound⟩ := l.exists_notPrevoted?
  refine ⟨found, hfound, fun newest hnewest hw hle agree => ?_⟩
  rw [notPrevoted?, hnewest] at hfound
  have hmem : newest ∈ l.window := List.mem_of_head? hnewest
  have hunvoted := notPrevoted_of_walkBack? hw hnewest agree hmem rfl hle hfound
  exact ⟨hunvoted, fun k hk => le_of_walkBack? hw hnewest hfound hunvoted.1 hk⟩

end Ledger

namespace Quartet

/-- The newest block reports height 7, and the block there reports height 5, which is another
generator's. -/
def handedBack : Ledger :=
  { Ledger.genesis (Solo.height 4) with
    window := [block 9 7 1, block 8 5 2, block 7 5 1, block 6 0 3, block 5 0 2].map .ofHeader }

theorem consecutive_handedBack : Consecutive handedBack.window := by
  refine .cons (.cons (.cons (.cons (.cons .nil nofun) ?_) ?_) ?_) ?_ <;>
    · rintro _ ⟨⟩
      rfl

end Quartet

namespace Ledger

open Quartet (handedBack consecutive_handedBack)

theorem notPrevoted?_isGreatest_handedBack :
    handedBack.notPrevoted? = some (Solo.height 5) ∧
      IsGreatest {k | handedBack.NotPrevoted (.ofHeader (Quartet.block 9 7 1)) k}
        (Solo.height 5) := by
  obtain ⟨found, hfound, hgreatest⟩ := handedBack.notPrevoted?_isGreatest
  obtain rfl : Solo.height 5 = found := Option.some.inj (Eq.trans (by decide) hfound)
  exact ⟨hfound, hgreatest _ rfl consecutive_handedBack (by decide) (by decide)⟩

end Ledger

end ImpliedFinality
