import Mathlib.Order.Bounds.Defs
import ImpliedFinality.Proofs.Pruning

/-!
# What the watermarks rise to

The prevoted height of a ledger is the greatest one that was prevoted before or that is retained
with enough prevotes, and the precommitted height likewise. The scan for them goes from the newest
block down and stops early, which misses nothing as heights fall along the window. The certified
height moves to that of the commit which a block carries, if the commit certifies its height, or
stays.
-/

namespace ImpliedFinality

/-- A watermark is raised to the greatest height at hand. -/
theorem Ledger.Raised.isGreatest {schedule : Timeline Parameters}
    {threshold : Parameters → Weight} {votes : BlockVotes → Weight} {window : List BlockVotes}
    {mark height : Height} (h : Raised schedule threshold votes window mark height) :
    IsGreatest {k | k = mark ∨ ∃ b ∈ window, b.height = k ∧ b.Reaches schedule threshold votes}
      height := by
  refine ⟨h.witness, ?_⟩
  rintro k (rfl | ⟨b, hb, rfl, hreaches⟩)
  · exact h.le
  · exact h.maximal b hb hreaches

namespace Gadget

section Watermarks

variable {g : Gadget} {s : Core} {threshold : Parameters → Weight} {votes : BlockVotes → Weight}
  {window : List BlockVotes} {mark height k certified precommitted : Height}
  {commit : AggregateCommit}

/-- A retained height whose votes reach the threshold in effect there. -/
def Reached (g : Gadget) (threshold : Parameters → Weight) (votes : BlockVotes → Weight)
    (window : List BlockVotes) (k : Height) : Prop :=
  ∃ b ∈ window, b.height = k ∧ ∃ p, g.parameters k = .ok p ∧ threshold p ≤ votes b

/-- A commit that is not empty, for a height above the certified one and not above the precommitted
one, whose signers reach the certificate threshold in effect at that height. -/
def Accepts (g : Gadget) (certified precommitted : Height) (commit : AggregateCommit) : Prop :=
  commit.isEmpty = false ∧ certified < commit.height ∧ commit.height ≤ precommitted ∧
    ∃ p, g.parameters commit.height = .ok p ∧
      p.certificateThreshold ≤ p.validators.signersWeight commit.bits

theorem Shows.reached_iff (h : g.Shows s) : g.Reached threshold votes window k ↔
    ∃ b ∈ window, b.height = k ∧ b.Reaches s.schedule.timeline threshold votes := by
  unfold Reached
  refine exists_congr fun b => and_congr_right fun _ => and_congr_right fun hheight => ?_
  rw [← hheight]
  exact exists_congr fun p => and_congr_left' h.parameters_eq_ok

theorem Shows.accepts_iff (h : g.Shows s) : g.Accepts certified precommitted commit ↔
    commit.Advances s.schedule.timeline certified precommitted := by
  unfold Accepts
  simp only [h.parameters_eq_ok]
  exact ⟨fun ⟨reports, above, within, certifies⟩ => ⟨reports, above, within, certifies⟩,
    fun advances => ⟨advances.reports, advances.above, advances.within, advances.certifies⟩⟩

theorem Shows.isGreatest (h : g.Shows s)
    (raised : Ledger.Raised s.schedule.timeline threshold votes window mark height) :
    IsGreatest {k | k = mark ∨ g.Reached threshold votes window k} height := by
  simp only [h.reached_iff]
  exact raised.isGreatest

/-- A block that is taken in leaves the prevoted and the precommitted height at the greatest one
that was so before or has enough votes now, by the parameters in effect before the block. The
certified height becomes that of its commit if the commit is accepted, and stays otherwise. -/
theorem watermarks_exact (config : GadgetConfig) (height : Height) (requests : List Request)
    (header : Header)
    (taken : (((genesis config height).run requests).1.processBlock header).answer.isOk = true) :
    let g := ((genesis config height).run requests).1
    ∃ l next, g.store.ledger = .ok l ∧ (g.processBlock header).gadget.store.ledger = .ok next ∧
      IsGreatest {k | k = l.watermarks.prevoted ∨
        g.Reached Parameters.prevoteThreshold BlockVotes.prevotes next.window k}
        next.watermarks.prevoted ∧
      IsGreatest {k | k = l.watermarks.precommitted ∨
        g.Reached Parameters.precommitThreshold BlockVotes.precommits next.window k}
        next.watermarks.precommitted ∧
      (g.Accepts l.watermarks.certified next.watermarks.precommitted header.commit →
        next.watermarks.certified = header.commit.height) ∧
      (¬ g.Accepts l.watermarks.certified next.watermarks.precommitted header.commit →
        next.watermarks.certified = l.watermarks.certified) := by
  intro g
  obtain ⟨s, hshows, -, hsound⟩ := exists_sound config height requests
  obtain ⟨s', hshows', hstep⟩ := hshows.step (.processBlock header)
  have htaken : g.taken? (.processBlock header) = some header := if_pos taken
  rw [htaken] at hstep
  have hnext : (g.processBlock header).gadget.store.ledger = .ok s'.ledger := hshows'.ledger
  refine ⟨s.ledger, s'.ledger, hshows.ledger, hnext, ?_⟩
  cases hstep with
  | blockTaken follows processed =>
    have htakes := Ledger.takes_of_process hsound.consecutive follows processed
    refine ⟨hshows.isGreatest htakes.prevoted, hshows.isGreatest htakes.precommitted, ?_⟩
    rcases Ledger.certified_of_process hsound.consecutive follows processed with
      ⟨advances, hheight⟩ | ⟨hstays, hsame⟩
    · exact ⟨fun _ => hheight, fun refused => absurd (hshows.accepts_iff.mpr advances) refused⟩
    · exact ⟨fun accepted => absurd (hshows.accepts_iff.mp accepted) hstays, fun _ => hsame⟩

end Watermarks

open Solo (height confirming renewal) in
/-- The last of six blocks raises all watermarks, by the parameters that replaced the first ones. -/
theorem watermarks_exact_renewal :
    let g := ((genesis Solo.config .zero).run renewal.dropLast).1
    (g.processBlock (confirming 6)).answer.isOk = true ∧
    g.watermarks = .ok ⟨height 5, height 4, height 4⟩ ∧
    ∃ next, (g.processBlock (confirming 6)).gadget.store.ledger = .ok next ∧
      next.watermarks = ⟨height 6, height 5, height 5⟩ ∧
      IsGreatest {k | k = height 5 ∨
        g.Reached Parameters.prevoteThreshold BlockVotes.prevotes next.window k} (height 6) ∧
      IsGreatest {k | k = height 4 ∨
        g.Reached Parameters.precommitThreshold BlockVotes.precommits next.window k} (height 5) ∧
      g.Accepts (height 4) (height 5) (confirming 6).commit := by
  obtain ⟨taken, hbefore, hafter⟩ :
      (((genesis Solo.config .zero).run renewal.dropLast).1.processBlock
        (confirming 6)).answer.isOk = true ∧
      ((genesis Solo.config .zero).run renewal.dropLast).1.watermarks =
        .ok ⟨height 5, height 4, height 4⟩ ∧
      (((genesis Solo.config .zero).run renewal.dropLast).1.processBlock
        (confirming 6)).gadget.watermarks = .ok ⟨height 6, height 5, height 5⟩ := by
    decide +kernel
  obtain ⟨l, next, hledger, hnext, hprevoted, hprecommitted, -, hstays⟩ :=
    watermarks_exact Solo.config .zero renewal.dropLast (confirming 6) taken
  generalize ((genesis Solo.config .zero).run renewal.dropLast).1 = g
    at taken hbefore hafter hledger hnext hprevoted hprecommitted hstays ⊢
  have hl : l.watermarks = ⟨height 5, height 4, height 4⟩ := by
    rw [Gadget.watermarks, hledger] at hbefore
    exact Except.ok.inj hbefore
  have hn : next.watermarks = ⟨height 6, height 5, height 5⟩ := by
    rw [Gadget.watermarks, hnext] at hafter
    exact Except.ok.inj hafter
  rw [hl, hn] at hprevoted hprecommitted hstays
  refine ⟨taken, hbefore, next, hnext, hn, hprevoted, hprecommitted, ?_⟩
  by_contra refused
  exact absurd (hstays refused) (by decide)

end Gadget

end ImpliedFinality
