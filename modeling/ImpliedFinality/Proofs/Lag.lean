import ImpliedFinality.Proofs.Accountability
import ImpliedFinality.Proofs.Rounds

/-!
# The lag of the watermarks

Parameters with validators of weight one are set at the genesis height, and then the validators add
blocks in turns. Every block is taken in: parameters apply above the genesis height throughout, and
no chain is so long that its window cannot be written. So the watermarks stay behind the newest
block by constants that the two thresholds give.
-/

namespace ImpliedFinality

/-! ## The first parameters -/

namespace Ledger

variable {batchSize : Nat} {start first : Height} {p : Parameters} {order : List Address}

/-- Whoever is tracked at the genesis height becomes active. -/
theorem voter?_track_genesis {vs : Validators} {a : Address}
    (ha : a ∈ vs.map Validator.address) :
    ((genesis start).track first vs []).voter? a = some ⟨a, first, first.below 1⟩ := by
  obtain ⟨x, hx, rfl⟩ := List.mem_map.mp ha
  cases hfound : ((genesis start).track first vs []).voter? x.address with
  | some v =>
    rcases voter?_track hfound with hold | rfl
    · contradiction
    · rfl
  | none =>
    have hvoter : (genesis start).voterFrom first x ∈ ((genesis start).track first vs []).voters :=
      List.mem_map_of_mem hx
    have hnone := List.find?_eq_none.mp hfound _ hvoter
    exact absurd (decide_eq_true rfl) hnone

/-- The ledger is steady before the first block. -/
theorem steady_genesis (peers : Peers batchSize p order) (limit : Nat)
    (hfirst : first.toNat = start.toNat + 1) :
    Steady limit start p order [] ((genesis start).track first p.validators []) := by
  have hpos := peers.accepted.prevoteThreshold_pos
  constructor
  case retains => exact .nil limit
  case voted =>
    exact ⟨fun _ hb => absurd hb List.not_mem_nil, fun _ hb => absurd hb List.not_mem_nil⟩
  case voter =>
    intro d hd
    refine ⟨order[d], _, ?_, voter?_track_genesis ?_, hfirst, ?_⟩
    · rw [List.length_nil, Nat.zero_add, Nat.mod_eq_of_lt hd, List.getElem?_eq_getElem hd]
    · exact peers.members.mem_iff.mp (List.getElem_mem hd)
    · rw [Height.toNat_below, List.length_nil]
      omega
  case prevoted =>
    show start.toNat = _
    rw [List.length_nil]
    omega
  case precommitted =>
    show start.toNat = _
    rw [List.length_nil]
    omega
  case certified => exact Nat.le_refl _

end Ledger

/-! ## Blocks in turns -/

namespace Core

variable {batchSize : Nat} {start : Height} {p : Parameters} {order : List Address}
  {past : List Header} {header : Header} {s next : Core}

/-- The core of a gadget whose validators made some blocks in turns. -/
structure InTurns (batchSize : Nat) (start : Height) (p : Parameters) (order : List Address)
    (past : List Header) (s : Core) : Prop where
  sound : s.Sound batchSize
  schedule : ∃ first, first.toNat = start.toNat + 1 ∧ s.schedule = Table.empty.insert first p
  steady : s.ledger.Steady (3 * batchSize) start p order past

namespace InTurns

variable (h : InTurns batchSize start p order past s) (peers : Peers batchSize p order)
  (turns : TakesTurns start order (header :: past))
include h

theorem known {k : Height} (hk : start < k) : s.schedule.timeline.effective? k = some p := by
  obtain ⟨first, hfirst, hschedule⟩ := h.schedule
  rw [hschedule]
  apply Timeline.effective?_single
  rw [Height.le_iff, hfirst]
  exact hk

include turns

theorem follows : s.ledger.checkFollows header = .ok () := by
  rw [Ledger.checkFollows_eq_ok]
  intro newest hnewest
  cases turns with
  | cons rest height turn reported =>
    rw [height, h.steady.retains.height_of_newest rest hnewest]

include peers

theorem step (hstep : Step batchSize s (.processBlock header) (some header) next) :
    InTurns batchSize start p order (header :: past) next := by
  have hsound := h.sound.step hstep
  cases hstep with
  | blockTaken follows processed =>
    have hroom : 2 * order.length ≤ 3 * batchSize :=
      Nat.mul_le_mul (Nat.le_succ 2) peers.length_le
    obtain ⟨first, hfirst, hschedule⟩ := h.schedule
    refine ⟨hsound, ⟨first, hfirst, ?_⟩, ?_⟩
    · rw [hschedule, Timeline.stale_single]
      rfl
    · exact h.steady.step peers turns hroom (fun _ => h.known) h.sound.consecutive follows processed

end InTurns

end Core

namespace Gadget

variable {g : Gadget} {config : GadgetConfig} {start : Height} {p : Parameters}
  {proposal : Proposal} {order : List Address} {past blocks : List Header} {header : Header}
  {s : Core}

/-- A request succeeds. -/
def Succeeds (g : Gadget) : Request → Prop
  | .setParameters proposal => (g.setParameters proposal).answer.isOk = true
  | .processBlock header => (g.processBlock header).answer.isOk = true
  | .pruneSnapshots height => (g.pruneSnapshots height).answer.isOk = true

/-- The block of the next validator is taken in. -/
theorem isOk_processBlock_of_turns (hshows : g.Shows s)
    (h : s.InTurns g.config.batchSize start p order past)
    (turns : TakesTurns start order (header :: past)) :
    (g.processBlock header).answer.isOk = true := by
  obtain ⟨c, hholds, hledger, hschedule⟩ := hshows
  have hfollows := h.follows turns
  have hreported : header.maxHeightGenerated < .top :=
    Nat.lt_of_lt_of_le (turns.reported_own List.mem_cons_self).1 (Height.le_top _)
  obtain ⟨next, hprocess⟩ := Ledger.exists_process h.sound.ordered
    (fun k hk => ⟨p, h.known (Nat.lt_of_le_of_lt h.steady.certified hk)⟩) h.sound.consecutive
    hfollows hreported (3 * g.config.batchSize)
  rw [← hschedule] at hprocess
  rcases Ledger.fits_of_process h.sound.consecutive (hholds.fits.ledger _ hledger) hfollows
    hprocess with hfits | ⟨htop, hfull, -⟩
  · exact isOk_processBlock hholds hledger hfollows hprocess hfits
  · -- the window would have a block at each height above zero and below this one
    have hlength := h.steady.retains.length_eq
    have hheight := turns.height_add (d := 0) rfl
    rw [htop, List.length_cons] at hheight
    omega

theorem exists_inTurns_step (hshows : g.Shows s) (hconfig : g.config = config)
    (h : s.InTurns config.batchSize start p order past) (peers : Peers config.batchSize p order)
    (turns : TakesTurns start order (header :: past)) :
    g.Succeeds (.processBlock header) ∧
      ∃ s', (g.step (.processBlock header)).1.Shows s' ∧
        s'.InTurns config.batchSize start p order (header :: past) := by
  subst hconfig
  have hok := isOk_processBlock_of_turns hshows h turns
  obtain ⟨s', hshows', hstep⟩ := hshows.step (.processBlock header)
  rw [taken?, if_pos hok] at hstep
  exact ⟨hok, s', hshows', h.step peers turns hstep⟩

/-- Validators of weight one whose parameters are set at the genesis height are peers, and nobody
has voted yet. -/
theorem exists_inTurns_genesis (equal : ∀ v ∈ proposal.validators, v.weight.toNat = 1)
    (accepted : (genesis config start).Succeeds (.setParameters proposal))
    (members : order.Perm (proposal.validators.map Validator.address)) :
    Peers config.batchSize proposal.outcome order ∧
      ∃ s, ((genesis config start).step (.setParameters proposal)).1.Shows s ∧
        s.InTurns config.batchSize start proposal.outcome order [] := by
  rcases setParameters_cases (holds_genesis config start) rfl proposal with
    ⟨e, he⟩ | ⟨-, n, hin⟩ | ⟨aggregate, first, store, hcheck, hnext, hdone, hstore⟩
  · rw [Succeeds, he] at accepted
    contradiction
  · contradiction
  · have hpeers : Peers config.batchSize proposal.outcome order := by
      refine ⟨⟨_, _, hcheck, (Proposal.outcome_eq hcheck).symm⟩, ?_, ?_⟩
      · intro v hv
        exact equal v ((sortBy_perm Validator.address _).mem_iff.mp hv)
      · exact members.trans ((sortBy_perm Validator.address _).map _).symm
    have hsound := (Core.sound_genesis config.batchSize start).step (.parametersSet hcheck hnext)
    have houtgoing : Timeline.outgoing [] first = [] := by
      unfold Timeline.outgoing
      cases first.sub? 1 <;> rfl
    obtain ⟨hledger, hparameters, -⟩ := Contents.applyAll_proposalChanges
      { Contents.empty with ledger := some (.genesis start) } (.genesis start) first
      (proposal.sorted.parameters aggregate)
    have hfirst : first.toNat = start.toNat + 1 := (Ledger.nextHeight_eq_ok.mp hnext).symm
    rw [Proposal.outcome_eq hcheck] at hsound hledger hparameters hstore
    refine ⟨hpeers, ⟨(Ledger.genesis start).track first proposal.outcome.validators [],
      Table.empty.insert first proposal.outcome⟩, ?_, ?_⟩
    · rw [step, hdone]
      exact ⟨_, hstore, houtgoing ▸ hledger, hparameters⟩
    · exact ⟨houtgoing ▸ hsound, ⟨first, hfirst, rfl⟩, Ledger.steady_genesis hpeers _ hfirst⟩

/-- Whatever blocks validators make in turns are taken in. -/
theorem exists_inTurns (equal : ∀ v ∈ proposal.validators, v.weight.toNat = 1)
    (accepted : (genesis config start).Succeeds (.setParameters proposal))
    (members : order.Perm (proposal.validators.map Validator.address))
    (turns : TakesTurns start order blocks) :
    (genesis config start).Obeys Succeeds (Request.chain proposal blocks.reverse) ∧
      ∃ s, ((genesis config start).run (Request.chain proposal blocks.reverse)).1.Shows s ∧
        ((genesis config start).run (Request.chain proposal blocks.reverse)).1.config = config ∧
        s.InTurns config.batchSize start proposal.outcome order blocks := by
  obtain ⟨hpeers, s, hshows, hturns⟩ := exists_inTurns_genesis equal accepted members
  induction turns with
  | nil =>
    have hconfig := config_step (genesis config start) (.setParameters proposal)
    exact ⟨⟨accepted, trivial⟩, s, hshows, hconfig, hturns⟩
  | @cons past header rest height turn reported ih =>
    obtain ⟨hobeys, s', hshows', hconfig, hturns'⟩ := ih
    obtain ⟨hsucceeds, last, hlast, hlastTurns⟩ :=
      exists_inTurns_step hshows' hconfig hturns' hpeers (.cons rest height turn reported)
    have hchain : Request.chain proposal (header :: past).reverse
        = Request.chain proposal past.reverse ++ [.processBlock header] := by
      rw [Request.chain, Request.chain, List.reverse_cons, List.map_append]
      rfl
    have hconfig' := (config_step _ (.processBlock header)).trans hconfig
    rw [hchain, obeys_append, run_append]
    exact ⟨⟨hobeys, hsucceeds, trivial⟩, last, hlast, hconfig', hlastTurns⟩

/-- Validators of weight one who take turns keep finality at a constant lag: with a prevote
threshold `t` and a precommit threshold `p`, of `k` blocks all are taken in, all but the last
`t - 1` are prevoted, and all but the last `t + p - 1` are precommitted. -/
theorem constant_lag (config : GadgetConfig) (start : Height) (proposal : Proposal)
    (equal : ∀ v ∈ proposal.validators, v.weight.toNat = 1)
    (accepted : ((genesis config start).setParameters proposal).answer.isOk = true)
    {order : List Address} (members : order.Perm (proposal.validators.map Validator.address))
    {blocks : List Header} (turns : TakesTurns start order blocks) :
    let requests := Request.chain proposal blocks.reverse
    let t := 2 * proposal.validators.length / 3 + 1
    let p := proposal.precommitThreshold.toNat
    (genesis config start).Obeys Succeeds requests ∧
      ∃ w, ((genesis config start).run requests).1.watermarks = .ok w ∧
        w.prevoted.toNat = start.toNat + (blocks.length + 1 - t) ∧
        w.precommitted.toNat = start.toNat + (blocks.length + 1 - t - p) := by
  intro requests t p
  obtain ⟨hobeys, s, hshows, -, hturns⟩ := exists_inTurns equal accepted members turns
  obtain ⟨hpeers, -⟩ := exists_inTurns_genesis equal accepted members
  have ht : proposal.outcome.prevoteThreshold.toNat = t := by
    rw [hpeers.toNat_prevoteThreshold, members.length_eq, List.length_map]
  have hp : proposal.outcome.precommitThreshold.toNat = p := rfl
  refine ⟨hobeys, s.ledger.watermarks, hshows.watermarks, ?_, ?_⟩
  · rw [hturns.steady.prevoted, ht]
  · rw [hturns.steady.precommitted, ht, hp, Nat.sub_sub]

end Gadget

/-! ## A chain of four validators -/

namespace Quartet

def address (n : UInt8) : Address := ⟨n :: List.replicate 19 0, rfl⟩

def order : List Address := [address 3, address 1, address 2, address 4]

/-- Each has weight one, and three of them are a quorum. -/
def proposal : Proposal :=
  ⟨Solo.weight 3, Solo.weight 2, order.map fun a => { Solo.validator with address := a }⟩

def config : GadgetConfig := ⟨4, 1, false⟩

def block (height reported generator : UInt8) : Header :=
  { Solo.header (Solo.height height) (Solo.height reported) .zero 0 with
    generator := address generator }

/-- Six blocks over genesis height zero, of which the second round begins with the last two. -/
def blocks : List Header :=
  [block 6 2 1, block 5 1 3, block 4 0 4, block 3 0 2, block 2 0 1, block 1 0 3]

theorem takesTurns_blocks : TakesTurns .zero order blocks :=
  .cons (.cons (.cons (.cons (.cons (.cons .nil rfl rfl (Nat.le_refl 0)) rfl rfl (Nat.le_refl 0))
    rfl rfl (Nat.le_refl 0)) rfl rfl (Nat.le_refl 0)) rfl rfl rfl) rfl rfl rfl

end Quartet

namespace Gadget

/-- Of six blocks of four validators four are prevoted and one is precommitted. -/
theorem constant_lag_quartet :
    ∃ w, ((genesis Quartet.config .zero).run
        (Request.chain Quartet.proposal Quartet.blocks.reverse)).1.watermarks = .ok w ∧
      w.prevoted.toNat = 4 ∧ w.precommitted.toNat = 1 :=
  (constant_lag Quartet.config .zero Quartet.proposal (by decide) (by decide +kernel) (.refl _)
    Quartet.takesTurns_blocks).2

end Gadget

end ImpliedFinality
