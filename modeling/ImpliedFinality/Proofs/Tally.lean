import ImpliedFinality.Proofs.Watermarks

/-!
# The weights in a ledger are those of the votes in the chronicle

The prevotes of a retained block are the weight of those who prevoted for its height, and likewise
its precommits. This holds of retained blocks only, since only their votes are counted and the
parameters at their heights do not change. The block that implies a prevote on a retained height is
retained as well: windows lose their oldest blocks first.
-/

namespace ImpliedFinality

open Chronicle (votersOn votersOn_cast)

namespace Core

variable {batchSize : Nat} {s next : Core} {past : Chronicle} {r : Request}
  {taken : Option Header} {votes : List Vote} {weight : BlockVotes → Weight}

/-- The weights of retained blocks are those of the votes on their heights. -/
def Counts (s : Core) (weight : BlockVotes → Weight) (votes : List Vote) : Prop :=
  ∀ b ∈ s.ledger.window, weight b
    = .capped ((s.schedule.timeline.validatorsAt b.height).support (votersOn votes b.height))

/-- What the chronicle of a run says about the window that the run leads to. -/
structure Tallied (s : Core) (past : Chronicle) : Prop where
  retained : ∀ b ∈ s.ledger.window, ∃ x ∈ past.headers, b.bare = .ofHeader x
  voted : ∀ v ∈ past.prevotes ++ past.precommits, v.block ∈ past.headers ∧
    ∃ newest, s.ledger.newest? = some newest ∧ v.height ≤ newest.height
  /-- A prevote is for a height above the reported one, up to that of the block itself. -/
  implied : ∀ v ∈ past.prevotes, v.block.maxHeightGenerated < v.height ∧ v.height ≤ v.block.height
  /-- The block that prevotes for a retained height is retained. -/
  linked : ∀ v ∈ past.prevotes, ∀ b ∈ s.ledger.window, b.height = v.height →
    ∃ y ∈ s.ledger.window, y.bare = .ofHeader v.block
  prevotes : s.Counts BlockVotes.prevotes past.prevotes
  precommits : s.Counts BlockVotes.precommits past.precommits

theorem tallied_genesis (height : Height) : (genesis height).Tallied .empty where
  retained _ hb := absurd hb List.not_mem_nil
  voted _ hv := absurd hv List.not_mem_nil
  implied _ hv := absurd hv List.not_mem_nil
  linked _ hv := absurd hv List.not_mem_nil
  prevotes _ hb := absurd hb List.not_mem_nil
  precommits _ hb := absurd hb List.not_mem_nil

/-- Weights count the same votes as long as the window and the parameters at its heights last. -/
theorem Counts.congr (h : s.Counts weight votes) (hwindow : next.ledger.window = s.ledger.window)
    (hsame : ∀ b ∈ next.ledger.window,
      next.schedule.timeline.effective? b.height = s.schedule.timeline.effective? b.height) :
    next.Counts weight votes := by
  intro b hb
  rw [Timeline.validatorsAt_congr (hsame b hb)]
  exact h b (hwindow ▸ hb)

/-- The weight of voters on a retained height of whom none votes twice is exact. -/
theorem Counts.toNat_eq (h : s.Counts weight votes) {p : Parameters} (hp : p.Accepted batchSize)
    {b : BlockVotes} (heffective : s.schedule.timeline.effective? b.height = some p)
    (hb : b ∈ s.ledger.window) (hvoters : (votersOn votes b.height).Nodup) :
    (weight b).toNat = p.validators.support (votersOn votes b.height) := by
  rw [h b hb, Timeline.validatorsAt_eq heffective, hp.toNat_capped_support hvoters]

/-- A new block adds the weight of its generator at each height that it votes on, once. -/
theorem Counts.cast {header : Header} {limit : Nat} {heights : List Height}
    (h : s.Counts weight votes) (hfresh : weight (.ofHeader header) = .zero)
    (hbelow : ∀ v ∈ votes, v.height < header.height) (hnodup : heights.Nodup)
    (hsame : ∀ b ∈ next.ledger.window,
      next.schedule.timeline.effective? b.height = s.schedule.timeline.effective? b.height)
    (hadd : ∀ b ∈ next.ledger.window, ∃ x ∈ (s.ledger.append header limit).window,
      x.bare = b.bare ∧ weight b =
        if b.height ∈ heights then weight x
          + ((s.schedule.timeline.validatorsAt b.height).weightOf? header.generator).getD .zero
        else weight x) :
    next.Counts weight (heights.map (Vote.mk header) ++ votes) := by
  intro b hb
  obtain ⟨x, hx, hbare, hweight⟩ := hadd b hb
  have hbefore : weight x = .capped
      ((s.schedule.timeline.validatorsAt b.height).support (votersOn votes b.height)) := by
    rw [← BlockVotes.height_eq_of_bare hbare]
    rcases Ledger.mem_append hx with rfl | hold
    · -- nobody has voted on the new height before
      have hnone : votersOn votes header.height = [] := by
        rw [votersOn, List.map_eq_nil_iff, List.filter_eq_nil_iff]
        intro v hv heq
        have hlt := hbelow v hv
        rw [of_decide_eq_true heq] at hlt
        exact Nat.lt_irrefl _ hlt
      rw [hfresh, BlockVotes.ofHeader, hnone]
      rfl
    · exact h x hold
  rw [Timeline.validatorsAt_congr (hsame b hb), hweight, votersOn_cast hnodup]
  split
  · rw [hbefore, Weight.capped_add, Validators.support_cons]
  · exact hbefore

namespace Tallied

variable (h : s.Tallied past)
include h

/-- All votes are for heights below that of a block that follows. -/
theorem lt_of_follows (hsound : s.Sound batchSize) {header : Header}
    (follows : s.ledger.checkFollows header = .ok ()) :
    ∀ v ∈ past.prevotes ++ past.precommits, v.height < header.height := by
  intro v hv
  obtain ⟨-, newest, hnewest, hle⟩ := h.voted v hv
  have hlt := Ledger.lt_of_checkFollows hsound.consecutive follows (List.mem_of_head? hnewest)
  exact Nat.lt_of_le_of_lt hle hlt

/-- A block that prevotes for a retained height stays as long as that height does. -/
theorem linked_append (hsound : s.Sound batchSize) {header : Header}
    (follows : s.ledger.checkFollows header = .ok ()) {limit : Nat} {v : Vote}
    (hv : v ∈ past.prevotes) {x : BlockVotes} (hx : x ∈ (s.ledger.append header limit).window)
    (hheight : x.height = v.height) :
    ∃ y ∈ (s.ledger.append header limit).window, y.bare = .ofHeader v.block := by
  have hlt := h.lt_of_follows hsound follows v (List.mem_append_left _ hv)
  rcases Ledger.mem_append hx with rfl | hold
  · rw [← hheight] at hlt
    exact absurd hlt (Nat.lt_irrefl _)
  · obtain ⟨y, hy, hbare⟩ := h.linked v hv x hold hheight
    have hyheight : y.height = v.block.height := by
      rw [← BlockVotes.height_bare, hbare]
      rfl
    refine ⟨y, ?_, hbare⟩
    apply (Ledger.consecutive_cons hsound.consecutive follows).mem_take_of_le hx
    · exact List.mem_cons_of_mem _ hy
    · rw [hheight, hyheight]
      exact (h.implied v hv).2

end Tallied

/-- Whoever voted is known, and for a height that is not above the newest one. -/
private theorem voted_step (h : s.Tallied past) (hsound : s.Sound batchSize) {header : Header}
    {l' : Ledger} (follows : s.ledger.checkFollows header = .ok ())
    (htakes : s.ledger.Takes s.schedule.timeline header (3 * batchSize) l') {v : Vote}
    (hv : v ∈ (past.after batchSize s (some header)).prevotes
      ++ (past.after batchSize s (some header)).precommits) :
    v.block ∈ header :: past.headers ∧
      ∃ newest, l'.newest? = some newest ∧ v.height ≤ newest.height := by
  have hmid := Ledger.consecutive_append hsound.consecutive follows (3 * batchSize)
  have hnew : ∀ b ∈ (s.ledger.append header (3 * batchSize)).window,
      ∃ newest, l'.newest? = some newest ∧ b.height ≤ newest.height := by
    intro b hb
    refine ⟨_, htakes.newest?_eq (Ledger.pos_of_mem_append hb), ?_⟩
    rw [Ledger.height_counted]
    exact Ledger.le_of_mem_append hmid hb
  have hold : ∀ v ∈ past.prevotes ++ past.precommits, v.block ∈ header :: past.headers ∧
      ∃ newest, l'.newest? = some newest ∧ v.height ≤ newest.height := by
    intro v hv
    obtain ⟨hblock, newest, hnewest, hle⟩ := h.voted v hv
    refine ⟨List.mem_cons_of_mem _ hblock, ?_⟩
    -- the window is not empty, so its bound is positive and the new block is on it
    have hpos : 0 < 3 * batchSize :=
      Nat.lt_of_lt_of_le (List.length_pos_of_mem (List.mem_of_head? hnewest)) hsound.bounded
    refine ⟨_, htakes.newest?_eq hpos, ?_⟩
    rw [Ledger.height_counted]
    exact Nat.le_of_lt (h.lt_of_follows hsound follows v hv)
  rcases List.mem_append.mp hv with hv | hv
  · rcases List.mem_append.mp hv with hcast | hv
    · obtain ⟨k, hk, rfl⟩ := List.mem_map.mp hcast
      obtain ⟨voter, b, rfl, hvotes⟩ := Ledger.prevotes_of_cast hmid hk
      exact ⟨List.mem_cons_self, hnew b hvotes.retained⟩
    · exact hold v (List.mem_append_left _ hv)
  · rcases List.mem_append.mp hv with hcast | hv
    · obtain ⟨k, hk, rfl⟩ := List.mem_map.mp hcast
      obtain ⟨voter, b, p, rfl, hvotes⟩ := Ledger.precommits_of_cast hmid hk
      exact ⟨List.mem_cons_self, hnew b hvotes.retained⟩
    · exact hold v (List.mem_append_right _ hv)

theorem Tallied.step (h : s.Tallied past) (hsound : s.Sound batchSize)
    (hstep : Step batchSize s r taken next) : next.Tallied (past.after batchSize s taken) := by
  have hsame := fun (b : BlockVotes) hb => hstep.effective?_eq hsound.consecutive (b := b) hb
  cases hstep with
  | unchanged => exact h
  | parametersSet accepted starts =>
    exact ⟨h.retained, h.voted, h.implied, h.linked, h.prevotes.congr rfl hsame,
      h.precommits.congr rfl hsame⟩
  | @blockTaken header l' follows processed =>
    have htakes := Ledger.takes_of_process hsound.consecutive follows processed
    have hmid := Ledger.consecutive_append hsound.consecutive follows (3 * batchSize)
    have hbelow := h.lt_of_follows hsound follows
    constructor
    case retained =>
      intro b hb
      obtain ⟨x, hx, rfl⟩ := htakes.exists_of_mem hb
      rw [Ledger.bare_counted]
      rcases Ledger.mem_append hx with rfl | hold
      · exact ⟨header, List.mem_cons_self, BlockVotes.bare_ofHeader header⟩
      · obtain ⟨y, hy, hbare⟩ := h.retained x hold
        exact ⟨y, List.mem_cons_of_mem _ hy, hbare⟩
    case voted => exact fun v hv => voted_step h hsound follows htakes hv
    case implied =>
      intro v hv
      rcases List.mem_append.mp hv with hcast | hold
      · obtain ⟨k, hk, rfl⟩ := List.mem_map.mp hcast
        obtain ⟨voter, b, rfl, hvotes⟩ := Ledger.prevotes_of_cast hmid hk
        exact ⟨hvotes.unreported, Ledger.le_of_mem_append hmid hvotes.retained⟩
      · exact h.implied v hold
    case linked =>
      intro v hv b hb hheight
      obtain ⟨x, hx, rfl⟩ := htakes.exists_of_mem hb
      rw [Ledger.height_counted] at hheight
      have hlinked : ∃ y ∈ (s.ledger.append header (3 * batchSize)).window,
          y.bare = .ofHeader v.block := by
        rcases List.mem_append.mp hv with hcast | hold
        · obtain ⟨k, hk, rfl⟩ := List.mem_map.mp hcast
          obtain ⟨voter, _, -, hvotes⟩ := Ledger.prevotes_of_cast hmid hk
          exact ⟨_, List.mem_of_head? hvotes.isNewest, rfl⟩
        · exact h.linked_append hsound follows hold hx hheight
      obtain ⟨y, hy, hbare⟩ := hlinked
      obtain ⟨z, hz, hzy⟩ := htakes.mem_of_mem_append hy
      exact ⟨z, hz, hzy.trans hbare⟩
    case prevotes =>
      exact h.prevotes.cast rfl (fun v hv => hbelow v (List.mem_append_left _ hv))
        (Ledger.nodup_prevotesCast hmid) hsame fun b hb => htakes.prevotes_eq hb
    case precommits =>
      exact h.precommits.cast rfl (fun v hv => hbelow v (List.mem_append_right _ hv))
        (Ledger.nodup_precommitsCast hmid) hsame
        fun b hb => htakes.precommits_eq hsound.consecutive follows hb

end Core

end ImpliedFinality
