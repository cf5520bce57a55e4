import ImpliedFinality.Proofs.Prevotes

/-!
# No precommit is counted twice, and none without a prevote

Whatever headers say, a generator precommits each height at most once: above its last precommit
only, and a voter who is unknown so far starts at the newest block. Nor does it precommit a height
that it has not prevoted for. The walk that looks for such heights passes blocks of the generator
only, and as long as a voter is known, each of its retained blocks that reports less than a retained
height has prevoted for that height.
-/

namespace ImpliedFinality

open Chronicle (votersOn nodup_votersOn mem_votersOn_iff_key)

namespace Core

variable {batchSize : Nat} {s next : Core} {past : Chronicle} {r : Request} {taken : Option Header}

/-- What the chronicle says about the voters of a ledger and about precommits. -/
structure Disciplined (s : Core) (past : Chronicle) : Prop where
  once : (past.precommits.map Vote.key).Nodup
  /-- The last precommit that is noted for a voter is no lower than any that it gave. -/
  last : ∀ v ∈ past.precommits, ∀ e, s.ledger.voter? v.block.generator = some e →
    v.height ≤ e.lastPrecommit
  prevoted : ∀ v ∈ past.precommits, v.key ∈ past.prevotes.map Vote.key
  /-- A retained block has prevoted for the retained heights above the one that it reports. -/
  covered : ∀ a e, s.ledger.voter? a = some e → ∀ y ∈ s.ledger.window, y.generator = a →
    ∀ b ∈ s.ledger.window, e.activeFrom ≤ b.height → y.maxHeightGenerated < b.height →
      b.height ≤ y.height →
        ((s.schedule.timeline.validatorsAt b.height).weightOf? a).isSome = true →
          (a, b.height) ∈ past.prevotes.map Vote.key

theorem disciplined_genesis (height : Height) : (genesis height).Disciplined .empty where
  once := .nil
  last _ hv := absurd hv List.not_mem_nil
  prevoted _ hv := absurd hv List.not_mem_nil
  covered _ _ _ _ hy := absurd hy List.not_mem_nil

namespace Disciplined

/-- New parameters keep the known voters and add such that start at the newest block. -/
theorem track (h : s.Disciplined past) (hsound : s.Sound batchSize) (htallied : s.Tallied past)
    {proposal : Proposal} {aggregate : Weight} {height : Height}
    (accepted : proposal.sorted.check batchSize = .ok aggregate)
    (starts : s.ledger.nextHeight = .ok height) :
    Disciplined ⟨s.ledger.track height proposal.sorted.validators
      (s.schedule.timeline.outgoing height),
        s.schedule.insert height (proposal.sorted.parameters aggregate)⟩ past := by
  have hstep : Step batchSize s (.setParameters proposal) none _ := .parametersSet accepted starts
  refine ⟨h.once, ?_, h.prevoted, ?_⟩
  · intro v hv e he
    rcases Ledger.voter?_track he with hold | rfl
    · exact h.last v hv e hold
    · obtain ⟨-, newest, hnewest, hle⟩ := htallied.voted v (List.mem_append_right _ hv)
      rw [Ledger.nextHeight_eq_ok, hnewest, Option.map_some, Option.getD_some] at starts
      simp only [Height.le_iff, Height.toNat_below] at hle starts ⊢
      omega
  · intro a e he y hy own b hb hactive hreported hle hweighs
    rw [Timeline.validatorsAt_congr (hstep.effective?_eq hsound.consecutive hb)] at hweighs
    rcases Ledger.voter?_track he with hold | rfl
    · exact h.covered a e hold y hy own b hb hactive hreported hle hweighs
    · -- nobody retained is as high as the start of a new voter
      have hlt := Ledger.lt_of_nextHeight hsound.consecutive starts hb
      exact absurd hactive (Height.not_le.mpr hlt)

section Block

variable (h : s.Disciplined past) (hsound : s.Sound batchSize) {header : Header} {l' : Ledger}
  (follows : s.ledger.checkFollows header = .ok ())
include h hsound follows

/-- Whoever precommits a height prevotes for it with the same block or has done so before. -/
theorem prevoted_of_precommits {voter : Voter} {b : BlockVotes} {p : Parameters}
    (hvotes : (s.ledger.append header (3 * batchSize)).Precommits s.schedule.timeline
      (.ofHeader header) voter b p) :
    (header.generator, b.height)
      ∈ (past.after batchSize s (some header)).prevotes.map Vote.key := by
  have hmid := Ledger.consecutive_append hsound.consecutive follows (3 * batchSize)
  have hweighs : ((s.schedule.timeline.validatorsAt b.height).weightOf? header.generator).isSome
      = true := by
    rw [Timeline.validatorsAt_eq hvotes.effective]
    exact hvotes.weighs
  obtain ⟨x, hx, own, hreported, hle⟩ := hvotes.leads.exists_prevoting
  obtain ⟨y, hy, rfl⟩ := List.mem_map.mp hx
  rcases Ledger.mem_append hy with rfl | hyold
  · -- the walk ended at once, so the new block prevotes for the height itself
    have hcast : b.height ∈ (s.ledger.append header (3 * batchSize)).prevotesCast
        s.schedule.timeline :=
      (Ledger.mem_prevotesCast hmid).mpr ⟨_, voter, b, rfl,
        ⟨hvotes.isNewest, hvotes.isVoter, hvotes.retained, hweighs, hreported, hvotes.active⟩⟩
    exact List.mem_map.mpr
      ⟨⟨header, b.height⟩, List.mem_append_left _ (List.mem_map_of_mem hcast), rfl⟩
  · have hbold : b ∈ s.ledger.window := by
      rcases Ledger.mem_append hvotes.retained with rfl | hbold
      · have hlt := Ledger.lt_of_checkFollows hsound.consecutive follows hyold
        exact absurd hle (Height.not_le.mpr hlt)
      · exact hbold
    have hcovered := h.covered _ voter hvotes.isVoter y hyold own b hbold hvotes.active hreported
      hle hweighs
    rw [Chronicle.after, Chronicle.extend, List.map_append]
    exact List.mem_append_right _ hcovered

theorem once_block : ((past.after batchSize s (some header)).precommits.map Vote.key).Nodup := by
  have hmid := Ledger.consecutive_append hsound.consecutive follows (3 * batchSize)
  apply Chronicle.nodup_cast (Ledger.nodup_precommitsCast hmid) h.once
  intro v hv own hcast
  obtain ⟨voter, b, p, hheight, hvotes⟩ := Ledger.precommits_of_cast hmid hcast
  have hlast := h.last v hv voter (own ▸ hvotes.isVoter)
  rw [← hheight] at hlast
  exact absurd hvotes.fresh (Height.not_lt.mpr hlast)

variable (htakes : s.ledger.Takes s.schedule.timeline header (3 * batchSize) l')
include htakes

theorem last_block {v : Vote} (hv : v ∈ (past.after batchSize s (some header)).precommits)
    {e : Voter} (he : l'.voter? v.block.generator = some e) : v.height ≤ e.lastPrecommit := by
  have hmid := Ledger.consecutive_append hsound.consecutive follows (3 * batchSize)
  rw [htakes.voter?, Option.map_eq_some_iff] at he
  obtain ⟨u, hu, rfl⟩ := he
  have haddress := Ledger.address_of_voter? hu
  rcases List.mem_append.mp hv with hnew | hold
  · obtain ⟨k, hk, rfl⟩ := List.mem_map.mp hnew
    change u.address = header.generator at haddress
    rw [← haddress]
    exact Ledger.le_lastPrecommit_noted hmid hk
  · apply Nat.le_trans (h.last v hold u hu)
    apply Ledger.lastPrecommit_le_noted hmid fun _ => Ledger.generator_of_newest?_append
    rw [haddress]
    exact hu

theorem covered_block {a : Address} {e : Voter} (he : l'.voter? a = some e) {y b : BlockVotes}
    (hy : y ∈ l'.window) (own : y.generator = a) (hb : b ∈ l'.window)
    (hactive : e.activeFrom ≤ b.height) (hreported : y.maxHeightGenerated < b.height)
    (hle : b.height ≤ y.height)
    (hweighs : ((s.schedule.timeline.validatorsAt b.height).weightOf? a).isSome = true) :
    (a, b.height) ∈ (past.after batchSize s (some header)).prevotes.map Vote.key := by
  have hmid := Ledger.consecutive_append hsound.consecutive follows (3 * batchSize)
  rw [htakes.voter?, Option.map_eq_some_iff] at he
  obtain ⟨u, hu, rfl⟩ := he
  obtain ⟨x, hx, rfl⟩ := htakes.exists_of_mem hy
  obtain ⟨c, hc, rfl⟩ := htakes.exists_of_mem hb
  rw [Ledger.activeFrom_noted, Ledger.height_counted] at hactive
  rw [Ledger.maxHeightGenerated_counted, Ledger.height_counted] at hreported
  rw [Ledger.height_counted, Ledger.height_counted] at hle
  rw [Ledger.height_counted] at hweighs ⊢
  rw [Ledger.generator_counted] at own
  rcases Ledger.mem_append hx with rfl | hxold
  · -- the new block prevotes for all such heights
    cases own
    have hnewest := @Ledger.newest?_append s.ledger header _ (Ledger.pos_of_mem_append hc)
    have hcast := (Ledger.mem_prevotesCast hmid).mpr
      ⟨_, u, c, rfl, ⟨hnewest, hu, hc, hweighs, hreported, hactive⟩⟩
    exact List.mem_map.mpr
      ⟨⟨header, c.height⟩, List.mem_append_left _ (List.mem_map_of_mem hcast), rfl⟩
  · rcases Ledger.mem_append hc with rfl | hcold
    · have hlt := Ledger.lt_of_checkFollows hsound.consecutive follows hxold
      exact absurd hle (Height.not_le.mpr hlt)
    · have hcovered := h.covered a u hu x hxold own c hcold hactive hreported hle hweighs
      rw [Chronicle.after, Chronicle.extend, List.map_append]
      exact List.mem_append_right _ hcovered

end Block

theorem step (h : s.Disciplined past) (hsound : s.Sound batchSize) (htallied : s.Tallied past)
    (hstep : Step batchSize s r taken next) : next.Disciplined (past.after batchSize s taken) := by
  have hsame := fun (b : BlockVotes) hb => hstep.effective?_eq hsound.consecutive (b := b) hb
  cases hstep with
  | unchanged => exact h
  | parametersSet accepted starts => exact h.track hsound htallied accepted starts
  | @blockTaken header l' follows processed =>
    have htakes := Ledger.takes_of_process hsound.consecutive follows processed
    have hmid := Ledger.consecutive_append hsound.consecutive follows (3 * batchSize)
    constructor
    case once => exact h.once_block hsound follows
    case last => exact fun v hv e he => h.last_block hsound follows htakes hv he
    case prevoted =>
      intro v hv
      rcases List.mem_append.mp hv with hnew | hold
      · obtain ⟨k, hk, rfl⟩ := List.mem_map.mp hnew
        obtain ⟨voter, b, p, rfl, hvotes⟩ := Ledger.precommits_of_cast hmid hk
        exact h.prevoted_of_precommits hsound follows hvotes
      · rw [Chronicle.after, Chronicle.extend, List.map_append]
        exact List.mem_append_right _ (h.prevoted v hold)
    case covered =>
      intro a e he y hy own b hb hactive hreported hle hweighs
      rw [Timeline.validatorsAt_congr (hsame b hb)] at hweighs
      exact h.covered_block hsound follows htakes he hy own hb hactive hreported hle hweighs

/-- Precommits come from voters who prevoted as well, so they weigh no more than the prevotes. -/
theorem precommits_le_prevotes (h : s.Disciplined past) (htallied : s.Tallied past)
    {b : BlockVotes} (hb : b ∈ s.ledger.window) : b.precommits ≤ b.prevotes := by
  rw [htallied.precommits b hb, htallied.prevotes b hb]
  apply Weight.capped_le_capped
  apply Validators.support_le_of_subset (nodup_votersOn h.once b.height)
  intro a ha
  rw [mem_votersOn_iff_key] at ha ⊢
  obtain ⟨v, hv, hkey⟩ := List.mem_map.mp ha
  rw [← hkey]
  exact h.prevoted v hv

end Disciplined

end Core

namespace Gadget

/-- Whatever requests a gadget gets, nobody's precommit on a height is counted twice. The precommits
of a retained block weigh no more than its prevotes, and as much as the distinct voters who cast
them, which is at most the aggregate weight. -/
theorem precommits_counted_once (config : GadgetConfig) (height : Height)
    (requests : List Request) :
    (((genesis config height).recordAll .empty requests).precommits.map Vote.key).Nodup ∧
      ∃ l, ((genesis config height).run requests).1.store.ledger = .ok l ∧
        ∀ b ∈ l.window, b.precommits ≤ b.prevotes ∧
          ∀ p, ((genesis config height).run requests).1.parameters b.height = .ok p →
            b.precommits.toNat = p.validators.support (votersOn
              ((genesis config height).recordAll .empty requests).precommits b.height) ∧
            b.precommits ≤ p.aggregateWeight := by
  have hobeys : (genesis config height).Obeys (fun _ _ => True) requests :=
    .of_forall fun _ _ => trivial
  obtain ⟨s, hshows, -, hsound, htallied, hdisciplined⟩ := hobeys.run_induction
    (P := fun s past => s.Sound config.batchSize ∧ s.Tallied past ∧ s.Disciplined past)
    (by
      rintro g s s' past r - - hstep ⟨hsound, htallied, hdisciplined⟩
      exact ⟨hsound.step hstep, htallied.step hsound hstep,
        hdisciplined.step hsound htallied hstep⟩)
    .empty (shows_genesis config height) rfl
    ⟨Core.sound_genesis _ height, Core.tallied_genesis height, Core.disciplined_genesis height⟩
  refine ⟨hdisciplined.once, s.ledger, hshows.ledger, fun b hb => ?_⟩
  refine ⟨hdisciplined.precommits_le_prevotes htallied hb, fun p hp => ?_⟩
  rw [hshows.parameters_eq_ok] at hp
  have haccepted := hsound.accepted_of_effective? hp
  have hvoters := nodup_votersOn hdisciplined.once b.height
  have hweight := htallied.precommits.toNat_eq haccepted hp hb hvoters
  refine ⟨hweight, ?_⟩
  rw [Weight.le_iff, hweight]
  exact haccepted.support_le hvoters

example : ((genesis Solo.config .zero).recordAll .empty (Solo.requests 0)).precommits.map Vote.key
    = [(.zero, ⟨1, by decide⟩)] := by decide +kernel

end Gadget

end ImpliedFinality
