import ImpliedFinality.Proofs.Intake
import ImpliedFinality.Proofs.Chronicle
import ImpliedFinality.Proofs.Quorum

/-!
# The watermarks stay in order and never fall

Nothing compares the precommitted height with the prevoted one. They stay in order because a block
gets precommits only after its prevotes reached the threshold, and because no such block stays above
the prevoted height. Both facts are invariants: later requests do not change the parameters in
effect at retained heights, and thresholds are positive.
-/

namespace ImpliedFinality

/-- Certified heights are precommitted, and precommitted heights are prevoted. -/
structure Watermarks.Ordered (w : Watermarks) : Prop where
  certified_le : w.certified ≤ w.precommitted
  precommitted_le : w.precommitted ≤ w.prevoted

/-- No watermark is lower afterwards. -/
structure Watermarks.RisesTo (w later : Watermarks) : Prop where
  prevoted_le : w.prevoted ≤ later.prevoted
  precommitted_le : w.precommitted ≤ later.precommitted
  certified_le : w.certified ≤ later.certified

theorem Watermarks.RisesTo.refl (w : Watermarks) : w.RisesTo w :=
  ⟨Nat.le_refl _, Nat.le_refl _, Nat.le_refl _⟩

theorem BlockVotes.Reaches.congr {s t : Timeline Parameters} {threshold : Parameters → Weight}
    {votes : BlockVotes → Weight} {b : BlockVotes}
    (same : s.effective? b.height = t.effective? b.height) (h : b.Reaches s threshold votes) :
    b.Reaches t threshold votes := by
  obtain ⟨p, hp, hle⟩ := h
  exact ⟨p, same ▸ hp, hle⟩

namespace Core

variable {batchSize : Nat} {s next : Core} {r : Request} {taken : Option Header}

/-- No retained block is below the heights whose parameters are needed. -/
theorem neededFrom_le {l : Ledger} (hw : Consecutive l.window) {newest : Height} {b : BlockVotes}
    (hb : b ∈ l.window) : l.neededFrom newest ≤ b.height := by
  obtain ⟨oldest, holdest⟩ : ∃ oldest, l.window.getLast? = some oldest := by
    cases hlast : l.window.getLast? with
    | some oldest => exact ⟨oldest, rfl⟩
    | none =>
      rw [List.getLast?_eq_none_iff.mp hlast] at hb
      contradiction
  have hle := hw.getLast_le holdest hb
  rw [Height.le_iff] at hle ⊢
  simp only [Ledger.neededFrom, holdest]
  split
  · rw [Height.toNat_min]
    omega
  · exact hle

namespace Step

theorem consecutive (h : Step batchSize s r taken next) (hw : Consecutive s.ledger.window) :
    Consecutive next.ledger.window := by
  cases h with
  | unchanged => exact hw
  | parametersSet accepted starts => exact hw
  | blockTaken follows processed =>
    exact (Ledger.takes_of_process hw follows processed).consecutive hw follows

/-- A request does not change the parameters that apply at retained heights. -/
theorem effective?_eq (h : Step batchSize s r taken next) (hw : Consecutive s.ledger.window)
    {b : BlockVotes} (hb : b ∈ next.ledger.window) :
    next.schedule.timeline.effective? b.height = s.schedule.timeline.effective? b.height := by
  have hnext := h.consecutive hw
  cases h with
  | unchanged => rfl
  | parametersSet accepted starts =>
    exact Timeline.effective?_insert_of_lt (Ledger.lt_of_nextHeight hw starts hb)
  | blockTaken follows processed =>
    exact Timeline.effective?_eraseAll_stale (neededFrom_le hnext hb)

theorem bounded (h : Step batchSize s r taken next) (hw : Consecutive s.ledger.window)
    (hs : s.ledger.window.length ≤ 3 * batchSize) :
    next.ledger.window.length ≤ 3 * batchSize := by
  cases h with
  | unchanged => exact hs
  | parametersSet accepted starts => exact hs
  | blockTaken follows processed =>
    rw [(Ledger.takes_of_process hw follows processed).window, List.length_map]
    exact List.length_take_le _ _

/-- Parameters only come from accepted proposals. -/
theorem accepted (h : Step batchSize s r taken next)
    (hs : ∀ k p, s.schedule.get? k = some p → p.Accepted batchSize) :
    ∀ k p, next.schedule.get? k = some p → p.Accepted batchSize := by
  cases h with
  | unchanged => exact hs
  | parametersSet accepted starts => exact Table.forall_get?_insert hs ⟨_, _, accepted, rfl⟩
  | blockTaken follows processed => exact Table.forall_get?_eraseAll hs

end Step

/-- What keeps the watermarks in order. -/
structure Sound (batchSize : Nat) (s : Core) : Prop where
  consecutive : Consecutive s.ledger.window
  bounded : s.ledger.window.length ≤ 3 * batchSize
  accepted : ∀ k p, s.schedule.get? k = some p → p.Accepted batchSize
  ordered : s.ledger.watermarks.Ordered
  /-- No block whose prevotes reach the threshold is above the prevoted height. -/
  prevoted : ∀ b ∈ s.ledger.window,
    b.Reaches s.schedule.timeline Parameters.prevoteThreshold BlockVotes.prevotes →
      b.height ≤ s.ledger.watermarks.prevoted
  /-- No block that has precommits is above the prevoted height. -/
  precommitted : ∀ b ∈ s.ledger.window, 0 < b.precommits.toNat →
    b.height ≤ s.ledger.watermarks.prevoted

theorem sound_genesis (batchSize : Nat) (height : Height) : Sound batchSize (genesis height) where
  consecutive := Consecutive.nil
  bounded := Nat.zero_le _
  accepted _ _ h := by contradiction
  ordered := ⟨Nat.le_refl _, Nat.le_refl _⟩
  prevoted _ hb := absurd hb List.not_mem_nil
  precommitted _ hb := absurd hb List.not_mem_nil

namespace Sound

variable (h : Sound batchSize s)
include h

theorem accepted_of_effective? {k : Height} {p : Parameters}
    (hp : s.schedule.timeline.effective? k = some p) : p.Accepted batchSize := by
  obtain ⟨j, hj, -⟩ := Timeline.exists_get?_of_effective? hp
  exact h.accepted j p hj

/-- A block is precommitted only if its height was prevoted before the votes were cast. -/
theorem le_prevoted_of_precommits {header : Header} {limit : Nat} {newest b : BlockVotes}
    {voter : Voter} {p : Parameters}
    (hb : (s.ledger.append header limit).Precommits s.schedule.timeline newest voter b p) :
    b.height ≤ s.ledger.watermarks.prevoted := by
  have hpos := (h.accepted_of_effective? hb.effective).prevoteThreshold_pos
  have hle := hb.prevoted
  rcases Ledger.mem_append hb.retained with rfl | hold
  · -- the new block has no prevotes yet
    rw [Weight.le_iff] at hle
    exact absurd (Nat.lt_of_lt_of_le hpos hle) (Nat.lt_irrefl _)
  · exact h.prevoted b hold ⟨p, hb.effective, hle⟩

section Block

variable {header : Header} {l' : Ledger} (follows : s.ledger.checkFollows header = .ok ())
  (processed : s.ledger.process s.schedule.timeline header (3 * batchSize) = .ok l')
include follows processed

/-- A block has precommits only if its height was prevoted before these were cast. -/
theorem le_prevoted_block {b : BlockVotes} (hb : b ∈ l'.window) (hpos : 0 < b.precommits.toNat) :
    b.height ≤ l'.watermarks.prevoted := by
  have htakes := Ledger.takes_of_process h.consecutive follows processed
  apply Nat.le_trans _ htakes.prevoted.le
  obtain ⟨x, hx, hbare, hprecommits⟩ := htakes.precommits_eq h.consecutive follows hb
  rw [← BlockVotes.height_eq_of_bare hbare] at hprecommits ⊢
  split at hprecommits
  · rename_i hcast
    obtain ⟨newest, voter, p, hvotes⟩ := Ledger.precommits_of_mem
      (Ledger.consecutive_append h.consecutive follows _) hx hcast
    exact h.le_prevoted_of_precommits hvotes
  · rw [hprecommits] at hpos
    rcases Ledger.mem_append hx with rfl | hold
    · exact absurd hpos (Nat.lt_irrefl _)
    · exact h.precommitted x hold hpos

theorem ordered_block : l'.watermarks.Ordered := by
  have htakes := Ledger.takes_of_process h.consecutive follows processed
  constructor
  · rcases htakes.certified with heq | ⟨-, hle⟩
    · rw [heq]
      exact Nat.le_trans h.ordered.certified_le htakes.precommitted.le
    · exact hle
  · rcases htakes.precommitted.witness with heq | ⟨b, hb, hheight, p, hp, hle⟩
    · rw [heq]
      exact Nat.le_trans h.ordered.precommitted_le htakes.prevoted.le
    · rw [← hheight]
      apply h.le_prevoted_block follows processed hb
      exact Nat.lt_of_lt_of_le (h.accepted_of_effective? hp).precommitThreshold_pos hle

theorem risesTo_block : s.ledger.watermarks.RisesTo l'.watermarks := by
  have htakes := Ledger.takes_of_process h.consecutive follows processed
  refine ⟨htakes.prevoted.le, htakes.precommitted.le, ?_⟩
  rcases htakes.certified with heq | ⟨hlt, -⟩
  · rw [heq]
    exact Nat.le_refl _
  · exact Nat.le_of_lt hlt

end Block

theorem step (hstep : Step batchSize s r taken next) : Sound batchSize next := by
  have hconsecutive := hstep.consecutive h.consecutive
  have hbounded := hstep.bounded h.consecutive h.bounded
  have haccepted := hstep.accepted h.accepted
  have hsame := fun (b : BlockVotes) hb => hstep.effective?_eq h.consecutive (b := b) hb
  cases hstep with
  | unchanged => exact h
  | parametersSet accepted starts =>
    refine ⟨hconsecutive, hbounded, haccepted, h.ordered, ?_, h.precommitted⟩
    intro b hb hreaches
    exact h.prevoted b hb (hreaches.congr (hsame b hb))
  | blockTaken follows processed =>
    refine ⟨hconsecutive, hbounded, haccepted, h.ordered_block follows processed, ?_, ?_⟩
    · intro b hb hreaches
      have htakes := Ledger.takes_of_process h.consecutive follows processed
      exact htakes.prevoted.maximal b hb (hreaches.congr (hsame b hb))
    · exact fun b hb hpos => h.le_prevoted_block follows processed hb hpos

/-- No request lowers a watermark. -/
theorem risesTo (hstep : Step batchSize s r taken next) :
    s.ledger.watermarks.RisesTo next.ledger.watermarks := by
  cases hstep with
  | unchanged => exact .refl _
  | parametersSet accepted starts => exact .refl _
  | blockTaken follows processed => exact h.risesTo_block follows processed

end Sound

end Core

namespace Gadget

/-- Every gadget that a run leads to shows a sound core. -/
theorem exists_sound (config : GadgetConfig) (height : Height) (requests : List Request) :
    ∃ s, ((genesis config height).run requests).1.Shows s ∧
      ((genesis config height).run requests).1.config = config ∧ s.Sound config.batchSize := by
  have hobeys : (genesis config height).Obeys (fun _ _ => True) requests :=
    .of_forall fun _ _ => trivial
  refine hobeys.run_induction (P := fun s _ => s.Sound config.batchSize) ?_ .empty
    (shows_genesis config height) rfl (Core.sound_genesis _ height)
  intro g s s' past r _ _ hstep hsound
  exact hsound.step hstep

/-- In every state that a gadget reaches its watermarks are in order, and no request lowers one. -/
theorem watermarks_ordered_and_rising (config : GadgetConfig) (height : Height)
    (requests : List Request) :
    ∃ w, ((genesis config height).run requests).1.watermarks = .ok w ∧ w.Ordered ∧
      ∀ r, ∃ later, (((genesis config height).run requests).1.step r).1.watermarks = .ok later ∧
        w.RisesTo later := by
  obtain ⟨s, hshows, hconfig, hsound⟩ := exists_sound config height requests
  refine ⟨s.ledger.watermarks, hshows.watermarks, hsound.ordered, fun r => ?_⟩
  obtain ⟨s', hshows', hstep⟩ := hshows.step r
  rw [hconfig] at hstep
  exact ⟨s'.ledger.watermarks, hshows'.watermarks, hsound.risesTo hstep⟩

end Gadget

end ImpliedFinality
