import ImpliedFinality.Proofs.Precommits

/-!
# Two chains that finalize a height apart expose a validator

Let two chains grow from the same genesis height under the same parameters, each block reporting the
prevoted height that it finds. If both precommit a height from which on they share no block, then
some generator made two blocks that contradict each other.

Take the chain whose precommitted height `a` is the lower one. The voters behind it precommitted `a`
with blocks that report a prevoted height of at least `a`. The other chain is prevoted up to `a` as
well, so at some height from `a` on it has a quorum of prevotes by blocks that report less than `a`.
The quorums share a generator. Without contradictions its prevoting block comes before each of its
blocks that the precommit was found by, although these lead below `a`.
-/

namespace ImpliedFinality

open Chronicle (votersOn nodup_votersOn mem_votersOn)

/-- Distinct headers of a generator never contradict each other. -/
def Consistent (headers : List Header) : Prop :=
  ∀ x ∈ headers, ∀ y ∈ headers, x ≠ y → x.generator = y.generator →
    (BlockVotes.ofHeader x).contradicts (.ofHeader y) = false

/-- The voters on a height who together reach a threshold, none of them listed twice. -/
structure Quorum (p : Parameters) (threshold : Weight) (votes : List Vote) (height : Height) :
    Prop where
  nodup : (votersOn votes height).Nodup
  reached : threshold.toNat ≤ p.validators.support (votersOn votes height)

theorem LeadsBelow.mem {blocks : List BlockVotes} {k : Height} {b : BlockVotes}
    (h : LeadsBelow blocks k b) : b ∈ blocks := by
  cases h with
  | last mem below above => exact mem
  | back mem own reported rest => exact mem

/-- Blocks that lead below a height do not come after a block that stands above it, unless one of
them contradicts it. -/
theorem LeadsBelow.not_after {blocks : List BlockVotes} {k : Height} {b y : BlockVotes}
    (h : LeadsBelow blocks k b) (own : b.generator = y.generator) (above : k ≤ y.height)
    (reported : y.maxHeightGenerated < y.height)
    (consistent : ∀ c ∈ blocks, c.generator = y.generator → c.contradicts y = false) :
    ¬ y.height ≤ b.maxHeightGenerated := by
  induction h with
  | last mem below _ =>
    intro hafter
    have hloop : k.toNat < k.toNat :=
      calc
        k.toNat ≤ y.height.toNat := above
        _ ≤ _ := hafter
        _ < k.toNat := below
    exact Nat.lt_irrefl _ hloop
  | @back b prior mem sameOwner hprior rest ih =>
    intro hafter
    have hown : prior.generator = y.generator := sameOwner.trans own
    rcases BlockVotes.ordered_of_not_contradicts hown (consistent prior rest.mem hown) with
      ⟨hle, -⟩ | ⟨hle, -⟩
    · -- the prior block is no lower than `y`, so `y` cannot report it
      rw [hprior] at hle
      have hloop : y.height.toNat < y.height.toNat :=
        calc
          y.height.toNat ≤ b.maxHeightGenerated.toNat := hafter
          _ ≤ y.maxHeightGenerated.toNat := hle
          _ < y.height.toNat := reported
      exact Nat.lt_irrefl _ hloop
    · exact ih hown hle

namespace Core

variable {batchSize : Nat} {s next : Core} {past : Chronicle} {taken : Option Header}
  {height : Height} {p : Parameters} {headers : List Header} {votes : List Vote}
  {weight : BlockVotes → Weight}

/-- A retained block whose votes reach a threshold has a quorum of voters. -/
theorem Counts.quorum (h : s.Counts weight votes) (hnodup : (votes.map Vote.key).Nodup)
    {b : BlockVotes} (hb : b ∈ s.ledger.window) {threshold : Weight}
    (heffective : s.schedule.timeline.effective? b.height = some p)
    (hreached : threshold ≤ weight b) : Quorum p threshold votes b.height := by
  refine ⟨nodup_votersOn hnodup b.height, ?_⟩
  rw [h b hb, Timeline.validatorsAt_eq heffective, Weight.le_iff, Weight.toNat_capped] at hreached
  omega

/-- What the chronicle of a chain under fixed parameters says about its watermarks. -/
structure Justified (batchSize : Nat) (height : Height) (p : Parameters) (headers : List Header)
    (s : Core) (past : Chronicle) : Prop where
  taken : ∀ x ∈ past.headers, x ∈ headers
  fixed : ∀ k q, s.schedule.get? k = some q → q = p
  reported : ∀ x ∈ past.headers, x.maxHeightPrevoted ≤ s.ledger.watermarks.prevoted
  /-- A height is prevoted because of prevotes at or above it, cast before it was. -/
  prevoted : ∀ m, height < m → m ≤ s.ledger.watermarks.prevoted →
    ∃ j votes, m ≤ j ∧ votes ⊆ past.prevotes ∧ Quorum p p.prevoteThreshold votes j ∧
      ∀ v ∈ votes, v.block.maxHeightPrevoted < m
  /-- The precommitted height is so because of precommits on it. -/
  precommitted : height < s.ledger.watermarks.precommitted →
    p.Accepted batchSize ∧ ∃ votes, votes ⊆ past.precommits ∧
      Quorum p p.precommitThreshold votes s.ledger.watermarks.precommitted
  /-- Precommitted heights were prevoted before, and found by a walk. -/
  led : ∀ v ∈ past.precommits, v.height ≤ v.block.maxHeightPrevoted ∧
    LeadsBelow (past.headers.map .ofHeader) v.height (.ofHeader v.block)

theorem justified_genesis (batchSize : Nat) (height : Height) (p : Parameters)
    (headers : List Header) : Justified batchSize height p headers (genesis height) .empty where
  taken _ hx := absurd hx List.not_mem_nil
  fixed _ _ h := by contradiction
  reported _ hx := absurd hx List.not_mem_nil
  prevoted _ habove hle := absurd habove (Height.not_lt.mpr hle)
  precommitted habove := absurd habove (Nat.lt_irrefl _)
  led _ hv := absurd hv List.not_mem_nil

namespace Justified

/-- A block that follows a consistent chain contradicts none of it. -/
theorem not_contradictedBy (h : Justified batchSize height p headers s past)
    (hsound : s.Sound batchSize) (htallied : s.Tallied past) {header : Header}
    (follows : s.ledger.checkFollows header = .ok ()) (consistent : Consistent headers)
    (hheader : header ∈ headers) : s.ledger.contradictedBy header = false := by
  apply Ledger.contradictedBy_eq_false.mpr
  intro b hb
  obtain ⟨x, hx, hbare⟩ := htallied.retained b hb
  have hlt := Ledger.lt_of_checkFollows hsound.consecutive follows hb
  rw [← BlockVotes.contradicts_bare, BlockVotes.bare_ofHeader, hbare]
  by_cases own : x.generator = header.generator
  · apply consistent x (h.taken x hx) header hheader _ own
    rintro rfl
    rw [← BlockVotes.height_bare, hbare] at hlt
    exact Nat.lt_irrefl _ hlt
  · exact BlockVotes.contradicts_of_foreign own

/-- A block whose votes reach a threshold of the fixed parameters has a quorum. -/
theorem quorum_of_reaches (fixed : ∀ k q, s.schedule.get? k = some q → q = p)
    (hcounts : next.Counts weight votes) (hnodup : (votes.map Vote.key).Nodup)
    {threshold : Parameters → Weight} {b : BlockVotes} (hb : b ∈ next.ledger.window)
    (hsame : next.schedule.timeline.effective? b.height = s.schedule.timeline.effective? b.height)
    (hreaches : b.Reaches s.schedule.timeline threshold weight) :
    s.schedule.timeline.effective? b.height = some p ∧ Quorum p (threshold p) votes b.height := by
  obtain ⟨q, hq, hle⟩ := hreaches
  obtain ⟨k, hk, -⟩ := Timeline.exists_get?_of_effective? hq
  cases fixed k q hk
  exact ⟨hq, hcounts.quorum hnodup hb (hsame.trans hq) hle⟩

section Block

variable {header : Header} {l' : Ledger} (h : Justified batchSize height p headers s past)
  (hsound : s.Sound batchSize) (htallied : s.Tallied past)
  (follows : s.ledger.checkFollows header = .ok ())
  (processed : s.ledger.process s.schedule.timeline header (3 * batchSize) = .ok l')
include h

/-- No block of the chain reports more than what was prevoted before the newest one. -/
theorem le_prevoted_of_mem (reports : header.maxHeightPrevoted = s.ledger.watermarks.prevoted)
    {x : Header} (hx : x ∈ header :: past.headers) :
    x.maxHeightPrevoted ≤ s.ledger.watermarks.prevoted := by
  rcases List.mem_cons.mp hx with rfl | hx
  · rw [reports]
    exact Nat.le_refl _
  · exact h.reported x hx

include hsound htallied follows

/-- New precommits are for heights that were prevoted before, and the walk passed blocks of the
chain. -/
theorem led_block (reports : header.maxHeightPrevoted = s.ledger.watermarks.prevoted) {v : Vote}
    (hv : v ∈ (past.after batchSize s (some header)).precommits) :
    v.height ≤ v.block.maxHeightPrevoted ∧
      LeadsBelow ((header :: past.headers).map .ofHeader) v.height (.ofHeader v.block) := by
  rcases List.mem_append.mp hv with hcast | hold
  · obtain ⟨k, hk, rfl⟩ := List.mem_map.mp hcast
    have hmid := Ledger.consecutive_append hsound.consecutive follows (3 * batchSize)
    obtain ⟨voter, b, q, rfl, hvotes⟩ := Ledger.precommits_of_cast hmid hk
    constructor
    · rw [reports]
      exact hsound.le_prevoted_of_precommits hvotes
    · apply hvotes.leads.mono
      intro x hx
      obtain ⟨y, hy, rfl⟩ := List.mem_map.mp hx
      rcases Ledger.mem_append hy with rfl | hyold
      · exact List.mem_map.mpr ⟨header, List.mem_cons_self, rfl⟩
      · obtain ⟨z, hz, hbare⟩ := htallied.retained y hyold
        rw [hbare]
        exact List.mem_map_of_mem (List.mem_cons_of_mem _ hz)
  · obtain ⟨hle, hleads⟩ := h.led v hold
    refine ⟨hle, hleads.mono fun x hx => ?_⟩
    obtain ⟨y, hy, rfl⟩ := List.mem_map.mp hx
    exact List.mem_map_of_mem (List.mem_cons_of_mem _ hy)

include processed

/-- If the prevoted height rises, then because of the prevotes on the block that it rises to. -/
theorem prevoted_block (reports : header.maxHeightPrevoted = s.ledger.watermarks.prevoted)
    (hnodup : ((past.after batchSize s (some header)).prevotes.map Vote.key).Nodup) {m : Height}
    (habove : height < m) (hle : m ≤ l'.watermarks.prevoted) :
    ∃ j votes, m ≤ j ∧ votes ⊆ (past.after batchSize s (some header)).prevotes ∧
      Quorum p p.prevoteThreshold votes j ∧ ∀ v ∈ votes, v.block.maxHeightPrevoted < m := by
  have hstep : Step batchSize s (.processBlock header) (some header) _ :=
    .blockTaken follows processed
  have htallied' := htallied.step hsound hstep
  have htakes := Ledger.takes_of_process hsound.consecutive follows processed
  by_cases hbefore : m ≤ s.ledger.watermarks.prevoted
  · obtain ⟨j, votes, hj, hsub, hquorum, hlow⟩ := h.prevoted m habove hbefore
    exact ⟨j, votes, hj, fun v hv => List.mem_append_right _ (hsub hv), hquorum, hlow⟩
  · rcases htakes.prevoted.witness with heq | ⟨b, hb, hheight, hreaches⟩
    · rw [heq] at hle
      exact absurd hle hbefore
    · obtain ⟨-, hquorum⟩ := quorum_of_reaches h.fixed htallied'.prevotes hnodup hb
        (hstep.effective?_eq hsound.consecutive hb) hreaches
      refine ⟨b.height, _, ?_, fun v hv => hv, hquorum, fun v hv => ?_⟩
      · rw [hheight]
        exact hle
      · have hblock := (htallied'.voted v (List.mem_append_left _ hv)).1
        calc
          v.block.maxHeightPrevoted.toNat ≤ s.ledger.watermarks.prevoted.toNat :=
            h.le_prevoted_of_mem reports hblock
          _ < m.toNat := Height.not_le.mp hbefore

/-- If the precommitted height rises, then because of the precommits on the block that it rises
to. -/
theorem precommitted_block
    (hnodup : ((past.after batchSize s (some header)).precommits.map Vote.key).Nodup)
    (habove : height < l'.watermarks.precommitted) :
    p.Accepted batchSize ∧ ∃ votes, votes ⊆ (past.after batchSize s (some header)).precommits ∧
      Quorum p p.precommitThreshold votes l'.watermarks.precommitted := by
  have hstep : Step batchSize s (.processBlock header) (some header) _ :=
    .blockTaken follows processed
  have htallied' := htallied.step hsound hstep
  have htakes := Ledger.takes_of_process hsound.consecutive follows processed
  rcases htakes.precommitted.witness with heq | ⟨b, hb, hheight, hreaches⟩
  · rw [heq] at habove ⊢
    obtain ⟨haccepted, votes, hsub, hquorum⟩ := h.precommitted habove
    exact ⟨haccepted, votes, fun v hv => List.mem_append_right _ (hsub hv), hquorum⟩
  · obtain ⟨hp, hquorum⟩ := quorum_of_reaches h.fixed htallied'.precommits hnodup hb
      (hstep.effective?_eq hsound.consecutive hb) hreaches
    rw [hheight] at hquorum
    exact ⟨hsound.accepted_of_effective? hp, _, fun v hv => hv, hquorum⟩

/-- Taking in a block that reports the prevoted height keeps the watermarks justified. -/
theorem block (hheader : header ∈ headers)
    (reports : header.maxHeightPrevoted = s.ledger.watermarks.prevoted)
    (hprevotes : ((past.after batchSize s (some header)).prevotes.map Vote.key).Nodup)
    (hprecommits : ((past.after batchSize s (some header)).precommits.map Vote.key).Nodup) :
    Justified batchSize height p headers
      ⟨l', s.schedule.eraseAll (s.schedule.timeline.stale (l'.neededFrom header.height))⟩
      (past.after batchSize s (some header)) := by
  have htakes := Ledger.takes_of_process hsound.consecutive follows processed
  constructor
  case taken =>
    intro x hx
    rcases List.mem_cons.mp hx with rfl | hx
    · exact hheader
    · exact h.taken x hx
  case fixed =>
    intro k q hq
    rw [Table.get?_eraseAll] at hq
    split at hq
    · contradiction
    · exact h.fixed k q hq
  case reported =>
    intro x hx
    exact Nat.le_trans (h.le_prevoted_of_mem reports hx) htakes.prevoted.le
  case prevoted =>
    intro m habove hle
    exact h.prevoted_block hsound htallied follows processed reports hprevotes habove hle
  case precommitted =>
    intro habove
    exact h.precommitted_block hsound htallied follows processed hprecommits habove
  case led => exact fun v hv => h.led_block hsound htallied follows reports hv

end Block

section Fork

variable {batchSizeA batchSizeB : Nat} {a b : Core} {pastA pastB : Chronicle}
  {headersA headersB : List Header} (hA : Justified batchSizeA height p headersA a pastA)
  (hB : Justified batchSizeB height p headersB b pastB)
  (orderedB : b.ledger.watermarks.Ordered)
  (behind : a.ledger.watermarks.precommitted ≤ b.ledger.watermarks.precommitted)
include hA hB orderedB behind

/-- Somebody precommitted what the first chain finalizes, and prevoted above it on the other one
with a block that saw less prevoted. -/
theorem exists_crossing (above : height < a.ledger.watermarks.precommitted) :
    ∃ v ∈ pastA.precommits, ∃ w ∈ pastB.prevotes, v.block.generator = w.block.generator ∧
      v.height = a.ledger.watermarks.precommitted ∧
      a.ledger.watermarks.precommitted ≤ w.height ∧
      w.block.maxHeightPrevoted < a.ledger.watermarks.precommitted := by
  obtain ⟨haccepted, precommits, hprecommits, hquorumA⟩ := hA.precommitted above
  obtain ⟨j, prevotes, hj, hprevotes, hquorumB, hlow⟩ := hB.prevoted
    a.ledger.watermarks.precommitted above (Nat.le_trans behind orderedB.precommitted_le)
  obtain ⟨address, hinA, hinB⟩ := haccepted.quorums_meet hquorumA.nodup hquorumB.nodup
    hquorumA.reached hquorumB.reached
  obtain ⟨v, hv, hheightA, hownerA⟩ := mem_votersOn.mp hinA
  obtain ⟨w, hw, hheightB, hownerB⟩ := mem_votersOn.mp hinB
  rw [← hheightB] at hj
  exact ⟨v, hprecommits hv, w, hprevotes hw, hownerA.trans hownerB.symm, hheightA, hj, hlow w hw⟩

/-- Two chains that finalize a height and share no block from there on are not consistent. -/
theorem not_consistent (tallyA : a.Tallied pastA) (tallyB : b.Tallied pastB) {h : Height}
    (above : height < h) (finalA : h ≤ a.ledger.watermarks.precommitted)
    (fork : ∀ x ∈ headersA, x ∈ headersB → x.height < h) :
    ¬ Consistent (headersA ++ headersB) := by
  intro consistent
  obtain ⟨v, hv, w, hw, hown, hheight, hj, hlow⟩ :=
    hA.exists_crossing hB orderedB behind (Nat.lt_of_lt_of_le above finalA)
  have hx := (tallyA.voted v (List.mem_append_right _ hv)).1
  have hy := (tallyB.voted w (List.mem_append_left _ hw)).1
  obtain ⟨hreported, hle⟩ := tallyB.implied w hw
  have haboveY : a.ledger.watermarks.precommitted ≤ w.block.height := Nat.le_trans hj hle
  -- the prevoting block is too high to be on the other chain
  have houtside : ∀ x ∈ pastA.headers, x ≠ w.block := by
    rintro x hx rfl
    have hlt := fork _ (hA.taken _ hx) (hB.taken _ hy)
    exact absurd (Nat.le_trans finalA haboveY) (Height.not_le.mpr hlt)
  have hconsistent : ∀ x ∈ pastA.headers, x.generator = w.block.generator →
      (BlockVotes.ofHeader x).contradicts (.ofHeader w.block) = false := by
    intro x hx own
    exact consistent x (List.mem_append_left _ (hA.taken x hx)) w.block
      (List.mem_append_right _ (hB.taken _ hy)) (houtside x hx) own
  obtain ⟨hprevoted, hleads⟩ := hA.led v hv
  rw [hheight] at hprevoted hleads
  have hafter : ¬ w.block.height ≤ v.block.maxHeightGenerated := by
    apply hleads.not_after (y := .ofHeader w.block) hown haboveY (Nat.lt_of_lt_of_le hreported hle)
    intro c hc hcown
    obtain ⟨x, hx, rfl⟩ := List.mem_map.mp hc
    exact hconsistent x hx hcown
  rcases BlockVotes.ordered_of_not_contradicts hown (hconsistent v.block hx hown) with
    ⟨-, hmark⟩ | ⟨hle', -⟩
  · -- it saw less prevoted than the precommitting block did
    exact absurd (Nat.le_trans hprevoted hmark) (Height.not_le.mpr hlow)
  · exact hafter hle'

end Fork

end Justified

end Core

/-- The parameters that an acceptable proposal leads to. -/
def Proposal.outcome (proposal : Proposal) : Parameters :=
  proposal.sorted.parameters (proposal.sorted.validators.aggregateWeight?.getD .zero)

theorem Proposal.outcome_eq {proposal : Proposal} {batchSize : Nat} {aggregate : Weight}
    (h : proposal.sorted.check batchSize = .ok aggregate) :
    proposal.sorted.parameters aggregate = proposal.outcome := by
  rw [outcome, (check_eq_ok.mp h).2.1]
  rfl

namespace Core

/-- All that a chain of consistent blocks keeps true. -/
structure Accountable (batchSize : Nat) (height : Height) (proposal : Proposal)
    (headers : List Header) (s : Core) (past : Chronicle) : Prop where
  sound : s.Sound batchSize
  tallied : s.Tallied past
  disciplined : s.Disciplined past
  distinct : (past.prevotes.map Vote.key).Nodup
  justified : s.Justified batchSize height proposal.outcome headers past

theorem accountable_genesis (batchSize : Nat) (height : Height) (proposal : Proposal)
    (headers : List Header) :
    Accountable batchSize height proposal headers (genesis height) .empty :=
  ⟨sound_genesis batchSize height, tallied_genesis height, disciplined_genesis height, .nil,
    justified_genesis batchSize height proposal.outcome headers⟩

theorem Accountable.step {batchSize : Nat} {height : Height} {proposal : Proposal}
    {headers : List Header} {s next : Core} {past : Chronicle} {r : Request}
    {taken : Option Header} (h : Accountable batchSize height proposal headers s past)
    (consistent : Consistent headers) (hr : r ∈ Request.chain proposal headers)
    (reports : ∀ header, taken = some header →
      header.maxHeightPrevoted = s.ledger.watermarks.prevoted)
    (hstep : Step batchSize s r taken next) :
    Accountable batchSize height proposal headers next (past.after batchSize s taken) := by
  have hsound := h.sound.step hstep
  have htallied := h.tallied.step h.sound hstep
  have hdisciplined := h.disciplined.step h.sound h.tallied hstep
  cases hstep with
  | unchanged => exact h
  | @parametersSet q aggregate start accepted starts =>
    refine ⟨hsound, htallied, hdisciplined, h.distinct, h.justified.taken, ?_,
      h.justified.reported, h.justified.prevoted, h.justified.precommitted, h.justified.led⟩
    obtain rfl : q = proposal := by simpa [Request.chain] using hr
    rw [Proposal.outcome_eq accepted]
    exact Table.forall_get?_insert h.justified.fixed rfl
  | @blockTaken header l' follows processed =>
    have hheader : header ∈ headers := by simpa [Request.chain] using hr
    have hdistinct := h.tallied.nodup_prevotes_step h.sound h.distinct
      (.blockTaken follows processed) fun x hx => by
        cases hx
        exact h.justified.not_contradictedBy h.sound h.tallied follows consistent hheader
    exact ⟨hsound, htallied, hdisciplined, hdistinct,
      h.justified.block h.sound h.tallied follows processed hheader (reports header rfl) hdistinct
        hdisciplined.once⟩

end Core

namespace Gadget

/-- A request succeeds, and a block reports the prevoted height that it finds. -/
def Reports (g : Gadget) : Request → Prop
  | .setParameters proposal => (g.setParameters proposal).answer.isOk = true
  | .processBlock header => (g.processBlock header).answer.isOk = true ∧
    g.watermarks.map Watermarks.prevoted = .ok header.maxHeightPrevoted
  | .pruneSnapshots height => (g.pruneSnapshots height).answer.isOk = true

instance (g : Gadget) : (r : Request) → Decidable (g.Reports r)
  | .setParameters proposal =>
    inferInstanceAs (Decidable ((g.setParameters proposal).answer.isOk = true))
  | .processBlock header =>
    inferInstanceAs (Decidable ((g.processBlock header).answer.isOk = true ∧
      g.watermarks.map Watermarks.prevoted = .ok header.maxHeightPrevoted))
  | .pruneSnapshots height =>
    inferInstanceAs (Decidable ((g.pruneSnapshots height).answer.isOk = true))

theorem Reports.of_taken {g : Gadget} {s : Core} {r : Request} (h : g.Reports r)
    (hshows : g.Shows s) {header : Header} (htaken : g.taken? r = some header) :
    header.maxHeightPrevoted = s.ledger.watermarks.prevoted := by
  cases r with
  | setParameters proposal => contradiction
  | pruneSnapshots height => contradiction
  | processBlock x =>
    simp only [taken?, Option.ite_none_right_eq_some, Option.some.injEq] at htaken
    obtain ⟨-, rfl⟩ := htaken
    have hreports := h.2
    rw [hshows.watermarks] at hreports
    exact (Except.ok.inj hreports).symm

/-- A chain of consistent headers that report what they find is accountable. -/
theorem exists_accountable {config : GadgetConfig} {height : Height} {proposal : Proposal}
    {headers : List Header}
    (reports : (genesis config height).Obeys Reports (Request.chain proposal headers))
    (consistent : Consistent headers) :
    ∃ s past, ((genesis config height).run (Request.chain proposal headers)).1.Shows s ∧
      Core.Accountable config.batchSize height proposal headers s past := by
  obtain ⟨s, hshows, -, haccountable⟩ := reports.and_mem.run_induction
    (P := Core.Accountable config.batchSize height proposal headers)
    (by
      rintro g s s' past r hshows ⟨hreports, hmem⟩ hstep h
      exact h.step consistent hmem (fun _ => hreports.of_taken hshows) hstep)
    .empty (shows_genesis config height) rfl
    (Core.accountable_genesis config.batchSize height proposal headers)
  exact ⟨s, _, hshows, haccountable⟩

/-- Two chains over the same genesis height and parameters report what they find, and both precommit
a height from which on they share no block. Then two different blocks of one generator contradict
each other, as long as the digests of the blocks tell them apart. -/
theorem exists_contradicting_of_fork (configA configB : GadgetConfig) (height : Height)
    (proposal : Proposal) (headersA headersB : List Header)
    (reportsA : (genesis configA height).Obeys Reports (Request.chain proposal headersA))
    (reportsB : (genesis configB height).Obeys Reports (Request.chain proposal headersB))
    (named : ∀ x ∈ headersA ++ headersB, ∀ y ∈ headersA ++ headersB, x.id = y.id → x = y)
    {h : Height} (above : height < h) {a b : Watermarks}
    (endA : ((genesis configA height).run (Request.chain proposal headersA)).1.watermarks = .ok a)
    (endB : ((genesis configB height).run (Request.chain proposal headersB)).1.watermarks = .ok b)
    (finalA : h ≤ a.precommitted) (finalB : h ≤ b.precommitted)
    (fork : ∀ x ∈ headersA, x ∈ headersB → x.height < h) :
    ∃ x ∈ headersA ++ headersB, ∃ y ∈ headersA ++ headersB,
      x ≠ y ∧ x.generator = y.generator ∧ x.contradicts y = true := by
  apply Decidable.byContradiction
  intro hnone
  have consistent : Consistent (headersA ++ headersB) := by
    intro x hx y hy hne own
    rw [Bool.eq_false_iff]
    intro hcontradicts
    have hid : x.id ≠ y.id := fun heq => hne (named x hx y hy heq)
    refine hnone ⟨x, hx, y, hy, hne, own, ?_⟩
    rw [Header.contradicts, hcontradicts, decide_eq_true hid, Bool.true_and]
  have consistentA : Consistent headersA := fun x hx y hy =>
    consistent x (List.mem_append_left _ hx) y (List.mem_append_left _ hy)
  have consistentB : Consistent headersB := fun x hx y hy =>
    consistent x (List.mem_append_right _ hx) y (List.mem_append_right _ hy)
  obtain ⟨coreA, pastA, showsA, accountA⟩ := exists_accountable reportsA consistentA
  obtain ⟨coreB, pastB, showsB, accountB⟩ := exists_accountable reportsB consistentB
  rw [showsA.watermarks] at endA
  rw [showsB.watermarks] at endB
  cases endA
  cases endB
  rcases Nat.le_total coreA.ledger.watermarks.precommitted.toNat
      coreB.ledger.watermarks.precommitted.toNat with hle | hle
  · exact accountA.justified.not_consistent accountB.justified accountB.sound.ordered hle
      accountA.tallied accountB.tallied above finalA fork consistent
  · refine accountB.justified.not_consistent accountA.justified accountA.sound.ordered hle
      accountB.tallied accountA.tallied above finalB (fun x hx hx' => fork x hx' hx) ?_
    intro x hx y hy
    exact consistent x (List.mem_append.mpr (List.mem_append.mp hx).symm) y
      (List.mem_append.mpr (List.mem_append.mp hy).symm)

/-- One validator who finalizes two chains contradicts itself. -/
theorem exists_contradicting_of_solo_fork :
    ∃ x ∈ Solo.headers 0 ++ Solo.headers 1, ∃ y ∈ Solo.headers 0 ++ Solo.headers 1,
      x ≠ y ∧ x.generator = y.generator ∧ x.contradicts y = true := by
  have hnodup : ((Solo.headers 0 ++ Solo.headers 1).map Header.id).Nodup := by decide +kernel
  exact exists_contradicting_of_fork Solo.config Solo.config .zero Solo.proposal
    (Solo.headers 0) (Solo.headers 1) (by decide +kernel) (by decide +kernel)
    (fun x hx y hy => List.inj_on_of_nodup_map hnodup hx hy) (h := ⟨1, by decide⟩)
    (a := ⟨⟨2, by decide⟩, ⟨1, by decide⟩, .zero⟩) (b := ⟨⟨2, by decide⟩, ⟨1, by decide⟩, .zero⟩)
    (by decide) (by decide +kernel) (by decide +kernel) (by decide) (by decide) (by decide +kernel)

end Gadget

end ImpliedFinality
