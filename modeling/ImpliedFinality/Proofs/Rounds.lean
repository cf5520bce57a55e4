import ImpliedFinality.Proofs.Turns

/-!
# Votes of validators who take turns

If `n` validators of weight one take turns, each block prevotes for the last `n` blocks, itself
included. With `t` the prevote threshold, the block `t` below it is the highest one it finds
prevoted, and it precommits that one and those that became so since its generator's block before.
So every retained block gets one vote of either kind from block to block until it has `n`, and
each watermark moves up by one when there were enough blocks for the first quorum.
-/

namespace ImpliedFinality

/-- Validators of weight one, in the order in which they take turns. -/
structure Peers (batchSize : Nat) (p : Parameters) (order : List Address) : Prop where
  accepted : p.Accepted batchSize
  equal : ∀ v ∈ p.validators, v.weight.toNat = 1
  members : order.Perm (p.validators.map Validator.address)

namespace Peers

variable {batchSize : Nat} {p : Parameters} {order : List Address} (h : Peers batchSize p order)
include h

theorem nodup : order.Nodup := h.members.nodup_iff.mpr h.accepted.nodup

theorem length_eq : order.length = p.validators.length := by
  rw [h.members.length_eq, List.length_map]

theorem length_le : order.length ≤ batchSize := by
  rw [h.length_eq]
  exact h.accepted.length_le

theorem toNat_aggregateWeight : p.aggregateWeight.toNat = order.length := by
  rw [h.accepted.toNat_aggregateWeight, Weight.total_eq_length (List.forall_mem_map.mpr h.equal),
    List.length_map, h.length_eq]

theorem toNat_prevoteThreshold : p.prevoteThreshold.toNat = 2 * order.length / 3 + 1 := by
  rw [h.accepted.toNat_prevoteThreshold, h.toNat_aggregateWeight]

theorem precommitThreshold_le : p.precommitThreshold.toNat ≤ order.length := by
  rw [← h.toNat_aggregateWeight]
  exact h.accepted.precommitThreshold_le

/-- There are validators, and all of them together are a quorum. -/
theorem prevoteThreshold_le : p.prevoteThreshold.toNat ≤ order.length := by
  have hpos := h.accepted.precommitThreshold_pos
  have hle := h.precommitThreshold_le
  rw [h.toNat_prevoteThreshold]
  omega

/-- Every one of them has weight one. -/
theorem weightOf? {a : Address} (ha : a ∈ order) :
    ∃ w, p.validators.weightOf? a = some w ∧ w.toNat = 1 := by
  obtain ⟨v, hv, rfl⟩ := List.mem_map.mp (h.members.mem_iff.mp ha)
  have hfind := (Validators.find?_eq_some_iff h.accepted.nodup).mpr ⟨hv, rfl⟩
  exact ⟨v.weight, by rw [Validators.weightOf?, hfind, Option.map_some], h.equal v hv⟩

end Peers

/-! ## The newest blocks -/

/-- A window that retains the newest of some blocks. -/
def Retains (limit : Nat) (blocks : List Header) (window : List BlockVotes) : Prop :=
  window.map BlockVotes.bare = (blocks.take limit).map BlockVotes.ofHeader

namespace Retains

variable {limit : Nat} {blocks past : List Header} {window : List BlockVotes} {l : Ledger}
  {header : Header} {start : Height} {order : List Address}

theorem nil (limit : Nat) : Retains limit [] [] := by
  rw [Retains, List.take_nil]
  rfl

theorem append (h : Retains limit past l.window) :
    Retains limit (header :: past) (l.append header limit).window := by
  cases limit with
  | zero => rfl
  | succ n =>
    rw [Retains] at h ⊢
    rw [Ledger.append, List.take_succ_cons, List.take_succ_cons, List.map_cons, List.map_cons,
      List.map_take, h, ← List.map_take, List.take_take, Nat.min_eq_left (Nat.le_succ n),
      BlockVotes.bare_ofHeader]

theorem map (h : Retains limit blocks window) {f : BlockVotes → BlockVotes}
    (hf : ∀ b, (f b).bare = b.bare) : Retains limit blocks (window.map f) := by
  rw [Retains, List.map_map, ← h]
  exact List.map_congr_left fun b _ => hf b

theorem length_eq (h : Retains limit blocks window) : window.length = min limit blocks.length := by
  rw [← List.length_map BlockVotes.bare, h, List.length_map, List.length_take]

theorem exists_header (h : Retains limit blocks window) {b : BlockVotes} (hb : b ∈ window) :
    ∃ x ∈ blocks, b.bare = .ofHeader x := by
  have hbare : b.bare ∈ window.map BlockVotes.bare := List.mem_map_of_mem hb
  rw [h] at hbare
  obtain ⟨x, hx, hbx⟩ := List.mem_map.mp hbare
  exact ⟨x, (List.take_sublist _ _).subset hx, hbx.symm⟩

section Turns

variable (h : Retains limit blocks window) (turns : TakesTurns start order blocks)
include h turns

theorem start_lt {b : BlockVotes} (hb : b ∈ window) : start < b.height := by
  obtain ⟨x, hx, hbx⟩ := h.exists_header hb
  have hlt := turns.start_lt hx
  rwa [← BlockVotes.height_bare, hbx]

theorem height_le {b : BlockVotes} (hb : b ∈ window) :
    b.height.toNat ≤ start.toNat + blocks.length := by
  obtain ⟨x, hx, hbx⟩ := h.exists_header hb
  obtain ⟨d, hd⟩ := List.getElem?_of_mem hx
  have hheight := turns.height_add hd
  rw [← BlockVotes.height_bare, hbx]
  exact Nat.le.intro hheight

theorem height_of_newest {newest : BlockVotes} (hnewest : window.head? = some newest) :
    newest.height.toNat = start.toNat + blocks.length := by
  have hhead : (window.map BlockVotes.bare).head? = some newest.bare := by
    rw [List.head?_map, hnewest, Option.map_some]
  rw [h, List.head?_map, Option.map_eq_some_iff] at hhead
  obtain ⟨x, hx, hbare⟩ := hhead
  have hfirst : blocks[0]? = some x := by
    rw [List.head?_take] at hx
    split at hx
    · contradiction
    · rwa [← List.head?_eq_getElem?]
  have hsame : x.height = newest.height := congrArg BlockVotes.height hbare
  rw [← hsame]
  exact turns.height_add hfirst

/-- Each of the newest heights is retained. -/
theorem exists_of_height {d k : Nat} (hd : k + d = start.toNat + blocks.length)
    (hk : start.toNat < k) (hlimit : d < limit) : ∃ b ∈ window, b.height.toNat = k := by
  have hin : d < window.length := by
    rw [h.length_eq]
    omega
  have hblock : (window.map BlockVotes.bare)[d]? = some window[d].bare := by
    rw [List.getElem?_map, List.getElem?_eq_getElem hin, Option.map_some]
  rw [h, List.getElem?_map, List.getElem?_take, if_pos hlimit, Option.map_eq_some_iff] at hblock
  obtain ⟨x, hx, hbare⟩ := hblock
  have hheight := turns.height_add hx
  have hsame : x.height = window[d].height := congrArg BlockVotes.height hbare
  refine ⟨window[d], List.getElem_mem hin, ?_⟩
  rw [← hsame]
  omega

/-- Blocks of the window report blocks of their own generator. -/
theorem reported_own {b : BlockVotes} (hb : b ∈ window) :
    b.maxHeightGenerated < b.height ∧
      ∀ x ∈ window, x.height = b.maxHeightGenerated → x.generator = b.generator := by
  obtain ⟨y, hy, hby⟩ := h.exists_header hb
  obtain ⟨hlt, hown⟩ := turns.reported_own hy
  rw [← BlockVotes.height_bare, ← BlockVotes.maxHeightGenerated_bare, ← BlockVotes.generator_bare,
    hby]
  refine ⟨hlt, fun x hx hreported => ?_⟩
  obtain ⟨z, hz, hxz⟩ := h.exists_header hx
  rw [← BlockVotes.height_bare, hxz] at hreported
  rw [← BlockVotes.generator_bare, hxz]
  exact hown z hz hreported

end Turns

end Retains

/-! ## The votes of one block -/

/-- The votes that retained blocks have before the block that is `round` above the genesis height.
Each got a prevote from its own block on, and a precommit once a quorum had prevoted. -/
structure Voted (start : Height) (p : Parameters) (order : List Address) (round : Nat)
    (window : List BlockVotes) : Prop where
  prevotes : ∀ b ∈ window,
    b.prevotes.toNat = min (start.toNat + round - b.height.toNat) order.length
  precommits : ∀ b ∈ window, b.precommits.toNat =
    min (start.toNat + round - b.height.toNat - p.prevoteThreshold.toNat) order.length

/-- A new block has no votes yet, and is due none. -/
theorem Voted.append {start : Height} {p : Parameters} {order : List Address} {round : Nat}
    {l : Ledger} (h : Voted start p order round l.window) {header : Header}
    (height : header.height.toNat = start.toNat + round) (limit : Nat) :
    Voted start p order round (l.append header limit).window := by
  refine ⟨fun b hb => ?_, fun b hb => ?_⟩
  · rcases Ledger.mem_append hb with rfl | hold
    · show 0 = min (start.toNat + round - header.height.toNat) order.length
      rw [height, Nat.sub_self, Nat.zero_min]
    · exact h.prevotes b hold
  · rcases Ledger.mem_append hb with rfl | hold
    · show 0 = min (start.toNat + round - header.height.toNat - p.prevoteThreshold.toNat)
        order.length
      rw [height, Nat.sub_self, Nat.zero_sub, Nat.zero_min]
    · exact h.precommits b hold

namespace Ledger

variable {batchSize limit : Nat} {start : Height} {p : Parameters} {order : List Address}
  {schedule : Timeline Parameters} {past : List Header} {header : Header} {l next : Ledger}
  {voter : Voter}

/-- A ledger to which a validator has just added its block, in its turn. -/
structure Turn (limit : Nat) (start : Height) (p : Parameters) (order : List Address)
    (schedule : Timeline Parameters) (past : List Header) (header : Header) (l : Ledger)
    (voter : Voter) : Prop where
  consecutive : Consecutive l.window
  isNewest : l.newest? = some (.ofHeader header)
  turns : TakesTurns start order (header :: past)
  retains : Retains limit (header :: past) l.window
  voted : Voted start p order (past.length + 1) l.window
  known : ∀ k, start < k → schedule.effective? k = some p
  isVoter : l.voter? header.generator = some voter
  active : voter.activeFrom.toNat = start.toNat + 1
  last : voter.lastPrecommit.toNat
    = start.toNat + (past.length + 1 - (order.length + p.prevoteThreshold.toNat))

namespace Turn

variable (h : Turn limit start p order schedule past header l voter)
  (peers : Peers batchSize p order)
include h

theorem within {b : BlockVotes} (hb : b ∈ l.window) :
    start.toNat < b.height.toNat ∧ b.height.toNat ≤ start.toNat + (past.length + 1) :=
  ⟨h.retains.start_lt h.turns hb, h.retains.height_le h.turns hb⟩

theorem effective?_eq {b : BlockVotes} (hb : b ∈ l.window) :
    schedule.effective? b.height = some p :=
  h.known b.height (h.retains.start_lt h.turns hb)

theorem validatorsAt_eq {b : BlockVotes} (hb : b ∈ l.window) :
    schedule.validatorsAt b.height = p.validators :=
  Timeline.validatorsAt_eq (h.effective?_eq hb)

include peers

theorem weighs : ∃ w, p.validators.weightOf? header.generator = some w ∧ w.toNat = 1 :=
  peers.weightOf? (List.mem_of_getElem? h.turns.turn_eq)

/-- A block prevotes for the last round of blocks. -/
theorem mem_prevotesCast_iff {b : BlockVotes} (hb : b ∈ l.window) :
    b.height ∈ l.prevotesCast schedule ↔
      start.toNat + (past.length + 1 - order.length) < b.height.toNat := by
  rw [← h.turns.reported_lt_iff peers.nodup (h.retains.start_lt h.turns hb),
    mem_prevotesCast h.consecutive]
  constructor
  · rintro ⟨newest, u, x, hheight, hx⟩
    cases h.isNewest.symm.trans hx.isNewest
    rw [← hheight]
    exact hx.unreported
  · intro hreported
    obtain ⟨w, hw, -⟩ := h.weighs peers
    refine ⟨_, voter, b, rfl, h.isNewest, h.isVoter, hb, ?_, hreported, ?_⟩
    · rw [h.validatorsAt_eq hb]
      exact Option.isSome_iff_exists.mpr ⟨w, hw⟩
    · rw [Height.le_iff, h.active]
      exact (h.within hb).1

/-- A block precommits what is prevoted above the last height that its generator precommitted. -/
theorem mem_precommitsCast_iff {b : BlockVotes} (hb : b ∈ l.window) :
    b.height ∈ l.precommitsCast schedule ↔
      start.toNat + (past.length + 1 - (order.length + p.prevoteThreshold.toNat))
          < b.height.toNat ∧
        b.height.toNat + p.prevoteThreshold.toNat ≤ start.toNat + (past.length + 1) := by
  have hwalk := notPrevoted?_eq_below h.consecutive h.isNewest
    fun x hx => h.retains.reported_own h.turns hx
  obtain ⟨hlow, hhigh⟩ := h.within hb
  have hprevoted : (BlockVotes.ofHeader header).height.below l.window.length < b.height := by
    obtain ⟨d, hd⟩ := List.getElem?_of_mem hb
    have hheight := h.consecutive.height_eq_of_newest h.isNewest hd
    have hin : d < l.window.length := (List.getElem?_eq_some_iff.mp hd).1
    rw [Height.lt_iff, Height.toNat_below]
    omega
  have hquorum : (b.precommitOf? schedule header.generator).isSome = true ↔
      p.prevoteThreshold ≤ b.prevotes := by
    obtain ⟨w, hw, -⟩ := h.weighs peers
    rw [Option.isSome_iff_exists]
    simp only [BlockVotes.precommitOf?_eq_some, h.effective?_eq hb]
    constructor
    · rintro ⟨_, q, hq, hle, -⟩
      cases hq
      exact hle
    · exact fun hle => ⟨w, p, rfl, hle, hw⟩
  have hcount := h.voted.prevotes b hb
  have hthreshold := peers.prevoteThreshold_le
  rw [mem_precommitsCast h.consecutive h.isNewest h.isVoter hwalk hb hprevoted]
  change _ ∧ _ ∧ (b.precommitOf? schedule header.generator).isSome = true ↔ _
  rw [hquorum, Height.le_iff, Height.lt_iff, Weight.le_iff, h.active, h.last, hcount]
  omega

/-- Each retained block gets the votes that are due by the next round. -/
theorem voted_counted :
    Voted start p order (past.length + 2) (l.window.map (l.counted schedule header.generator)) := by
  obtain ⟨w, hw, hone⟩ := h.weighs peers
  -- a block that gets another vote has fewer than all, so the sum is not cut off
  have hadd := fun votes (hroom : votes.toNat < order.length) =>
    Weight.toNat_add_one (a := votes) hone (peers.toNat_aggregateWeight.symm ▸ hroom)
  have hgenerator : ∀ newest, l.newest? = some newest → newest.generator = header.generator := by
    intro newest hnewest
    cases h.isNewest.symm.trans hnewest
    rfl
  constructor
  · intro y hy
    obtain ⟨b, hb, rfl⟩ := List.mem_map.mp hy
    have hcount := h.voted.prevotes b hb
    obtain ⟨hlow, hhigh⟩ := h.within hb
    rw [prevotes_counted, height_counted, h.validatorsAt_eq hb, hw, Option.getD_some]
    split
    case isTrue hcast =>
      rw [h.mem_prevotesCast_iff peers hb] at hcast
      rw [hadd _ (by omega)]
      omega
    case isFalse hcast =>
      rw [h.mem_prevotesCast_iff peers hb] at hcast
      omega
  · intro y hy
    obtain ⟨b, hb, rfl⟩ := List.mem_map.mp hy
    have hcount := h.voted.precommits b hb
    obtain ⟨hlow, hhigh⟩ := h.within hb
    rw [precommits_counted h.consecutive hgenerator hb, height_counted, h.validatorsAt_eq hb, hw,
      Option.getD_some]
    split
    case isTrue hcast =>
      rw [h.mem_precommitsCast_iff peers hb] at hcast
      rw [hadd _ (by omega)]
      omega
    case isFalse hcast =>
      rw [h.mem_precommitsCast_iff peers hb] at hcast
      omega

/-- The block that became prevoted with the one before is precommitted. -/
theorem exists_highest (room : 2 * order.length ≤ limit)
    (reached : p.prevoteThreshold.toNat ≤ past.length) :
    ∃ b ∈ l.window, b.height ∈ l.precommitsCast schedule ∧
      b.height.toNat = start.toNat + (past.length + 1 - p.prevoteThreshold.toNat) := by
  have hthreshold := peers.prevoteThreshold_le
  have hpos := peers.accepted.prevoteThreshold_pos
  obtain ⟨b, hb, hheight⟩ := h.retains.exists_of_height h.turns (d := p.prevoteThreshold.toNat)
    (k := start.toNat + (past.length + 1 - p.prevoteThreshold.toNat))
    (by rw [List.length_cons]; omega) (by omega) (by omega)
  exact ⟨b, hb, (h.mem_precommitsCast_iff peers hb).mpr (by omega), hheight⟩

/-- The generator notes the highest height that a quorum has prevoted, if there is one. -/
theorem lastPrecommit_noted (room : 2 * order.length ≤ limit) :
    (l.noted schedule header.generator voter).lastPrecommit.toNat
      = start.toNat + (past.length + 1 - p.prevoteThreshold.toNat) := by
  unfold noted
  cases hhead : (l.precommitsCast schedule).head? with
  | none =>
    have hfew : past.length < p.prevoteThreshold.toNat := by
      apply Nat.lt_of_not_le
      intro hreached
      obtain ⟨b, -, hcast, -⟩ := h.exists_highest peers room hreached
      rw [List.head?_eq_none_iff.mp hhead] at hcast
      contradiction
    dsimp only
    rw [h.last]
    omega
  | some greatest =>
    obtain ⟨_, _, x, _, rfl, hx⟩ := exists_precommits h.consecutive (List.mem_of_head? hhead)
    have hcast := (h.mem_precommitsCast_iff peers hx.retained).mp (List.mem_of_head? hhead)
    obtain ⟨hlow, -⟩ := h.within hx.retained
    obtain ⟨b, -, hhighest, hheight⟩ := h.exists_highest peers room (by omega)
    have hle := le_head_precommitsCast h.consecutive hhead hhighest
    rw [Height.le_iff] at hle
    simp only [address_of_voter? h.isVoter, if_true]
    omega

end Turn

/-! ## One block after another -/

/-- A watermark stays a number of blocks behind if it is reached by the blocks that are as deep. -/
theorem Raised.toNat_eq {threshold : Parameters → Weight} {votes : BlockVotes → Weight}
    {window : List BlockVotes} {mark height : Height} {blocks : List Header} {lag : Nat}
    (h : Raised schedule threshold votes window mark height)
    (retains : Retains limit blocks window) (turns : TakesTurns start order blocks)
    (hpos : 0 < lag) (room : lag ≤ limit)
    (reaches : ∀ b ∈ window, b.Reaches schedule threshold votes ↔
      b.height.toNat + lag ≤ start.toNat + (blocks.length + 1))
    (hmark : mark.toNat = start.toNat + (blocks.length - lag)) :
    height.toNat = start.toNat + (blocks.length + 1 - lag) := by
  have hle := h.le
  rw [Height.le_iff] at hle
  apply Nat.le_antisymm
  · rcases h.witness with rfl | ⟨b, hb, rfl, hreaches⟩
    · omega
    · have hdeep := (reaches b hb).mp hreaches
      have hlow : start.toNat < b.height.toNat := retains.start_lt turns hb
      omega
  · by_cases hfew : blocks.length < lag
    · omega
    · -- the first block that is deep enough is retained
      obtain ⟨b, hb, hheight⟩ := retains.exists_of_height turns (d := lag - 1)
        (k := start.toNat + (blocks.length + 1 - lag)) (by omega) (by omega) (by omega)
      have hmaximal := h.maximal b hb ((reaches b hb).mpr (by omega))
      rw [Height.le_iff] at hmaximal
      omega

/-- The ledger after blocks that validators made in turns. -/
structure Steady (limit : Nat) (start : Height) (p : Parameters) (order : List Address)
    (past : List Header) (l : Ledger) : Prop where
  retains : Retains limit past l.window
  voted : Voted start p order (past.length + 1) l.window
  /-- The voter whose turn is `d` blocks ahead last precommitted when it was its turn before. -/
  voter : ∀ d < order.length, ∃ a v, order[(past.length + d) % order.length]? = some a ∧
    l.voter? a = some v ∧ v.activeFrom.toNat = start.toNat + 1 ∧
    v.lastPrecommit.toNat
      = start.toNat + (past.length + d + 1 - (order.length + p.prevoteThreshold.toNat))
  prevoted : l.watermarks.prevoted.toNat
    = start.toNat + (past.length + 1 - p.prevoteThreshold.toNat)
  precommitted : l.watermarks.precommitted.toNat
    = start.toNat + (past.length + 1 - (p.prevoteThreshold.toNat + p.precommitThreshold.toNat))
  certified : start ≤ l.watermarks.certified

namespace Steady

variable (h : Steady limit start p order past l) (peers : Peers batchSize p order)
  (turns : TakesTurns start order (header :: past)) (room : 2 * order.length ≤ limit)
  (known : ∀ k, start < k → schedule.effective? k = some p)
  (hw : Consecutive l.window) (follows : l.checkFollows header = .ok ())
include h turns room known hw follows

/-- It is the turn of whoever adds the next block. -/
theorem turn : ∃ voter, Turn limit start p order schedule past header (l.append header limit)
    voter := by
  have hpos := turns.length_pos
  obtain ⟨a, voter, ha, hvoter, hactive, hlast⟩ := h.voter 0 hpos
  rw [Nat.add_zero, turns.turn_eq] at ha
  cases ha
  have hheight : header.height.toNat = start.toNat + (past.length + 1) :=
    turns.height_add (d := 0) rfl
  exact ⟨voter, consecutive_append hw follows limit, newest?_append (by omega), turns,
    h.retains.append, h.voted.append hheight limit, known, hvoter, hactive, hlast⟩

include peers

/-- Whoever had its turn comes last now, and the others move up. -/
theorem voter_step (htakes : l.Takes schedule header limit next) {d : Nat}
    (hd : d < order.length) :
    ∃ a v, order[(past.length + 1 + d) % order.length]? = some a ∧ next.voter? a = some v ∧
      v.activeFrom.toNat = start.toNat + 1 ∧
      v.lastPrecommit.toNat = start.toNat
        + (past.length + 1 + d + 1 - (order.length + p.prevoteThreshold.toNat)) := by
  obtain ⟨voter, hturn⟩ := h.turn turns room known hw follows
  have hvoter : ∀ a v, l.voter? a = some v → next.voter? a
      = some ((l.append header limit).noted schedule header.generator v) := by
    intro a v hv
    rw [htakes.voter?, hv, Option.map_some]
  -- the generator has its next turn when all others had theirs
  by_cases hlast : d + 1 = order.length
  · refine ⟨header.generator, _, ?_, hvoter _ _ hturn.isVoter, ?_, ?_⟩
    · rw [show past.length + 1 + d = past.length + order.length by omega, Nat.add_mod_right]
      exact turns.turn_eq
    · rw [activeFrom_noted]
      exact hturn.active
    · rw [hturn.lastPrecommit_noted peers room]
      omega
  · obtain ⟨a, v, ha, hv, hactive, hprecommit⟩ := h.voter (d + 1) (by omega)
    have hother : v.address ≠ header.generator := by
      rw [address_of_voter? hv]
      rintro rfl
      exact turns.turn_ne peers.nodup (by omega) ha
    refine ⟨a, v, ?_, ?_, hactive, ?_⟩
    · rwa [Nat.add_right_comm]
    · rw [hvoter a v hv, noted_of_ne hother]
    · rw [hprecommit]
      omega

/-- A block of the next validator keeps the ledger steady. -/
theorem step (processed : l.process schedule header limit = .ok next) :
    Steady limit start p order (header :: past) next := by
  have htakes := takes_of_process hw follows processed
  obtain ⟨voter, hturn⟩ := h.turn turns room known hw follows
  have hretains : Retains limit (header :: past) next.window := by
    rw [htakes.window]
    exact hturn.retains.map fun b => bare_counted _ _ _ b
  have hvoted : Voted start p order (past.length + 2) next.window := by
    rw [htakes.window]
    exact hturn.voted_counted peers
  have hreaches : ∀ (threshold : Parameters → Weight) (votes : BlockVotes → Weight),
      ∀ b ∈ next.window, (b.Reaches schedule threshold votes ↔ threshold p ≤ votes b) := by
    intro threshold votes b hb
    rw [BlockVotes.Reaches, known b.height (hretains.start_lt turns hb)]
    simp only [Option.some.injEq, exists_eq_left']
  have hprevote := peers.prevoteThreshold_le
  have hprevotePos := peers.accepted.prevoteThreshold_pos
  have hprecommit := peers.precommitThreshold_le
  constructor
  case retains => exact hretains
  case voted => exact hvoted
  case voter => exact fun d hd => h.voter_step peers turns room known hw follows htakes hd
  case prevoted =>
    refine htakes.prevoted.toNat_eq hretains turns hprevotePos (by omega) ?_ h.prevoted
    intro b hb
    have hle := hretains.height_le turns hb
    rw [hreaches _ _ b hb, Weight.le_iff, hvoted.prevotes b hb, List.length_cons]
    rw [List.length_cons] at hle
    omega
  case precommitted =>
    refine htakes.precommitted.toNat_eq hretains turns (Nat.add_pos_left hprevotePos _) (by omega)
      ?_ h.precommitted
    intro b hb
    have hle := hretains.height_le turns hb
    have hprecommitPos := peers.accepted.precommitThreshold_pos
    rw [hreaches _ _ b hb, Weight.le_iff, hvoted.precommits b hb, List.length_cons]
    rw [List.length_cons] at hle
    omega
  case certified =>
    rcases htakes.certified with heq | ⟨hlt, -⟩
    · rw [heq]
      exact h.certified
    · exact Nat.le_trans h.certified (Nat.le_of_lt hlt)

end Steady

end Ledger

end ImpliedFinality
