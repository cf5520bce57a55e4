import ImpliedFinality.Proofs.Tally

/-!
# Without contradicting headers no prevote is counted twice

A header can repeat prevotes of its generator by reporting too low a height. Then it contradicts the
block that it repeats them of: two blocks that do not contradict each other prevote for disjoint
ranges of heights. As that block is retained as long as the heights that it prevotes for, looking at
the window is enough to find it.
-/

namespace ImpliedFinality

open Chronicle (votersOn nodup_votersOn)

/-- Of two blocks of a generator that do not contradict each other, one reports the other one's
height or a greater one, and no less a prevoted height. -/
theorem BlockVotes.ordered_of_not_contradicts {a b : BlockVotes} (own : a.generator = b.generator)
    (h : a.contradicts b = false) :
    (a.height ≤ b.maxHeightGenerated ∧ a.maxHeightPrevoted ≤ b.maxHeightPrevoted) ∨
      (b.height ≤ a.maxHeightGenerated ∧ b.maxHeightPrevoted ≤ a.maxHeightPrevoted) := by
  have hrule : ∀ earlier later : BlockVotes, breaksRule earlier later = false →
      earlier.height ≤ later.maxHeightGenerated ∧
        earlier.maxHeightPrevoted ≤ later.maxHeightPrevoted := by
    intro earlier later hfalse
    simp only [breaksRule, decide_eq_false_iff_not, not_or, Height.not_lt] at hfalse
    exact ⟨hfalse.2.1, hfalse.2.2⟩
  rw [contradicts, own, decide_eq_true rfl, Bool.true_and] at h
  split at h
  · exact .inr (hrule b a h)
  · exact .inl (hrule a b h)

/-- A weight is that of distinct validators of a set, and so at most its aggregate weight. -/
def Parameters.IsVotersWeight (p : Parameters) (w : Weight) : Prop :=
  ∃ voters : Validators, voters.Sublist p.validators ∧ (voters.map Validator.address).Nodup ∧
    w.toNat = Weight.total (voters.map Validator.weight) ∧ w ≤ p.aggregateWeight

namespace Core

variable {batchSize : Nat} {s next : Core} {past : Chronicle} {r : Request} {taken : Option Header}

/-- A header that contradicts no retained block repeats no prevote of its generator. -/
theorem Tallied.not_mem_prevotesCast (h : s.Tallied past) (hsound : s.Sound batchSize)
    {header : Header} (follows : s.ledger.checkFollows header = .ok ())
    (honest : s.ledger.contradictedBy header = false) {v : Vote} (hv : v ∈ past.prevotes)
    (own : v.block.generator = header.generator) :
    v.height ∉ (s.ledger.append header (3 * batchSize)).prevotesCast s.schedule.timeline := by
  intro hcast
  have hmid := Ledger.consecutive_append hsound.consecutive follows (3 * batchSize)
  obtain ⟨voter, b, hheight, hvotes⟩ := Ledger.prevotes_of_cast hmid hcast
  have hunreported := hvotes.unreported
  change header.maxHeightGenerated < b.height at hunreported
  have hlt := h.lt_of_follows hsound follows v (List.mem_append_left _ hv)
  obtain ⟨hreported, hle⟩ := h.implied v hv
  rcases Ledger.mem_append hvotes.retained with rfl | hold
  · rw [← hheight] at hlt
    exact Nat.lt_irrefl _ hlt
  · obtain ⟨y, hy, hbare⟩ := h.linked v hv b hold hheight
    have hcontradicts : (BlockVotes.ofHeader v.block).contradicts (.ofHeader header) = false := by
      rw [← hbare, ← BlockVotes.bare_ofHeader header, BlockVotes.contradicts_bare]
      exact Ledger.contradictedBy_eq_false.mp honest y hy
    rw [hheight] at hunreported
    rcases BlockVotes.ordered_of_not_contradicts own hcontradicts with ⟨hafter, -⟩ | ⟨hafter, -⟩
    · -- the new header reports the other block, so it prevotes above that only
      have hloop : v.height.toNat < v.height.toNat :=
        calc
          v.height.toNat ≤ v.block.height.toNat := hle
          _ ≤ header.maxHeightGenerated.toNat := hafter
          _ < v.height.toNat := hunreported
      exact Nat.lt_irrefl _ hloop
    · -- the other block reports a height above all that there was
      have hloop : header.height.toNat < header.height.toNat :=
        calc
          header.height.toNat ≤ v.block.maxHeightGenerated.toNat := hafter
          _ < v.height.toNat := hreported
          _ < header.height.toNat := hlt
      exact Nat.lt_irrefl _ hloop

/-- A request that takes in no contradicting header repeats no prevote. -/
theorem Tallied.nodup_prevotes_step (h : s.Tallied past) (hsound : s.Sound batchSize)
    (hnodup : (past.prevotes.map Vote.key).Nodup) (hstep : Step batchSize s r taken next)
    (honest : ∀ header, taken = some header → s.ledger.contradictedBy header = false) :
    ((past.after batchSize s taken).prevotes.map Vote.key).Nodup := by
  cases hstep with
  | unchanged => exact hnodup
  | parametersSet accepted starts => exact hnodup
  | blockTaken follows processed =>
    have hmid := Ledger.consecutive_append hsound.consecutive follows (3 * batchSize)
    apply Chronicle.nodup_cast (Ledger.nodup_prevotesCast hmid) hnodup
    intro v hv own
    exact h.not_mem_prevotesCast hsound follows (honest _ rfl) hv own

end Core

namespace Gadget

/-- A header is taken in only if it contradicts no retained block. -/
def Uncontradicted (g : Gadget) : Request → Prop
  | .processBlock header =>
    (g.processBlock header).answer.isOk = true → g.contradictedBy header = .ok false
  | .setParameters _ => True
  | .pruneSnapshots _ => True

instance (g : Gadget) : (r : Request) → Decidable (g.Uncontradicted r)
  | .processBlock header =>
    inferInstanceAs (Decidable ((g.processBlock header).answer.isOk = true →
      g.contradictedBy header = .ok false))
  | .setParameters _ => .isTrue trivial
  | .pruneSnapshots _ => .isTrue trivial

theorem Uncontradicted.of_taken {g : Gadget} {s : Core} {r : Request} (h : g.Uncontradicted r)
    (hshows : g.Shows s) {header : Header} (htaken : g.taken? r = some header) :
    s.ledger.contradictedBy header = false := by
  cases r with
  | setParameters proposal => contradiction
  | pruneSnapshots height => contradiction
  | processBlock x =>
    simp only [taken?, Option.ite_none_right_eq_some, Option.some.injEq] at htaken
    obtain ⟨hok, rfl⟩ := htaken
    have hfalse := h hok
    rw [hshows.contradictedBy] at hfalse
    exact Except.ok.inj hfalse

/-- If no header is taken in that contradicts a retained block, then nobody's prevote on a height is
counted twice. The prevotes of a retained block weigh as much as the distinct voters who cast them,
and these are validators among those that vote on its height. -/
theorem prevotes_counted_once (config : GadgetConfig) (height : Height) (requests : List Request)
    (honest : (genesis config height).Obeys Uncontradicted requests) :
    (((genesis config height).recordAll .empty requests).prevotes.map Vote.key).Nodup ∧
      ∃ l, ((genesis config height).run requests).1.store.ledger = .ok l ∧
        ∀ b ∈ l.window, ∀ p,
          ((genesis config height).run requests).1.parameters b.height = .ok p →
            b.prevotes.toNat = p.validators.support (votersOn
              ((genesis config height).recordAll .empty requests).prevotes b.height) ∧
            p.IsVotersWeight b.prevotes := by
  let past := (genesis config height).recordAll .empty requests
  obtain ⟨s, hshows, -, hsound, htallied, hnodup⟩ := honest.run_induction
    (P := fun s past => s.Sound config.batchSize ∧ s.Tallied past ∧
      (past.prevotes.map Vote.key).Nodup)
    (by
      rintro g s s' past r hshows hr hstep ⟨hsound, htallied, hnodup⟩
      exact ⟨hsound.step hstep, htallied.step hsound hstep,
        htallied.nodup_prevotes_step hsound hnodup hstep fun _ => hr.of_taken hshows⟩)
    .empty (shows_genesis config height) rfl
    ⟨Core.sound_genesis _ height, Core.tallied_genesis height, .nil⟩
  refine ⟨hnodup, s.ledger, hshows.ledger, fun b hb p hp => ?_⟩
  rw [hshows.parameters_eq_ok] at hp
  have haccepted := hsound.accepted_of_effective? hp
  have hvoters := nodup_votersOn hnodup b.height
  have hweight := htallied.prevotes.toNat_eq haccepted hp hb hvoters
  let voters := p.validators.among (votersOn past.prevotes b.height)
  have hsublist : voters.Sublist p.validators := List.filter_sublist
  refine ⟨hweight, voters, hsublist, haccepted.nodup.sublist (hsublist.map _), ?_, ?_⟩
  · rw [hweight, Validators.support_eq_among haccepted.nodup hvoters]
  · rw [Weight.le_iff, hweight]
    exact haccepted.support_le hvoters

theorem prevotes_counted_once_solo :
    ∃ l b p, ((genesis Solo.config .zero).run (Solo.requests 0)).1.store.ledger = .ok l ∧
      b ∈ l.window ∧
      ((genesis Solo.config .zero).run (Solo.requests 0)).1.parameters b.height = .ok p ∧
      p.IsVotersWeight b.prevotes := by
  have hheights : ((genesis Solo.config .zero).run (Solo.requests 0)).1.store.ledger.map
      (fun l => l.window.map BlockVotes.height) = .ok [⟨2, by decide⟩, ⟨1, by decide⟩] := by
    decide +kernel
  have hok : (((genesis Solo.config .zero).run (Solo.requests 0)).1.parameters
      ⟨2, by decide⟩).isOk = true := by decide +kernel
  obtain ⟨-, l, hl, hweights⟩ :=
    prevotes_counted_once Solo.config .zero (Solo.requests 0) (by decide +kernel)
  generalize ((genesis Solo.config .zero).run (Solo.requests 0)).1 = g
    at hheights hok hl hweights ⊢
  rw [hl] at hheights
  have hwindow : l.window.map BlockVotes.height = [⟨2, by decide⟩, ⟨1, by decide⟩] :=
    Except.ok.inj hheights
  obtain ⟨b, hb, hheight⟩ := List.mem_map.mp (hwindow ▸ List.mem_cons_self)
  rw [← hheight] at hok
  cases hp : g.parameters b.height with
  | error e =>
    rw [hp] at hok
    contradiction
  | ok p => exact ⟨l, b, p, hl, hb, hp, (hweights b hb p hp).2⟩

end Gadget

end ImpliedFinality
