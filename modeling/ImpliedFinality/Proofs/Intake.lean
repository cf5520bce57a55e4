import ImpliedFinality.Proofs.Casting

/-!
# What a block and what new parameters do to the ledger

A watermark rises to the highest retained block whose votes reach the threshold at its height, and
never falls. `Takes` lists all that a block does to the ledger: votes are cast, then each watermark
in turn is raised over the window that results. New parameters change nothing but the voters, each
of whom is as before or unknown so far.
-/

namespace ImpliedFinality

/-- The votes on a block reach a threshold of the parameters in effect at its height. -/
def BlockVotes.Reaches (schedule : Timeline Parameters) (threshold : Parameters → Weight)
    (votes : BlockVotes → Weight) (b : BlockVotes) : Prop :=
  ∃ p, schedule.effective? b.height = some p ∧ threshold p ≤ votes b

/-- The signers of a commit reach the certificate threshold of some parameters. -/
def AggregateCommit.Certifies (commit : AggregateCommit) (p : Parameters) : Prop :=
  p.certificateThreshold ≤ p.validators.signersWeight commit.bits

instance (commit : AggregateCommit) (p : Parameters) : Decidable (commit.Certifies p) :=
  inferInstanceAs (Decidable (_ ≤ _))

/-- A commit raises the certified height, within the precommitted ones. -/
structure AggregateCommit.Advances (commit : AggregateCommit) (schedule : Timeline Parameters)
    (certified precommitted : Height) : Prop where
  reports : commit.isEmpty = false
  above : certified < commit.height
  within : commit.height ≤ precommitted
  certifies : ∃ p, schedule.effective? commit.height = some p ∧ commit.Certifies p

theorem Timeline.require_eq_ok {schedule : Timeline Parameters} {h : Height} {p : Parameters} :
    schedule.require h = .ok p ↔ schedule.effective? h = some p := by
  unfold require
  cases schedule.effective? h <;> simp

namespace Ledger

section Raising

variable {schedule : Timeline Parameters} {threshold : Parameters → Weight}
  {votes : BlockVotes → Weight} {mark height : Height}

/-- A watermark after it was raised over a window. -/
structure Raised (schedule : Timeline Parameters) (threshold : Parameters → Weight)
    (votes : BlockVotes → Weight) (window : List BlockVotes) (mark height : Height) : Prop where
  le : mark ≤ height
  /-- A watermark only moves to a block that reaches the threshold. -/
  witness : height = mark ∨
    ∃ b ∈ window, b.height = height ∧ b.Reaches schedule threshold votes
  /-- No block that reaches the threshold is left above. -/
  maximal : ∀ b ∈ window, b.Reaches schedule threshold votes → b.height ≤ height

theorem raised_of_raise {window : List BlockVotes}
    (hsorted : window.Pairwise fun a b => b.height < a.height)
    (h : raise schedule threshold votes mark window = .ok height) :
    Raised schedule threshold votes window mark height := by
  induction window with
  | nil =>
    cases h
    exact ⟨Nat.le_refl _, .inl rfl, fun b hb => absurd hb List.not_mem_nil⟩
  | cons b older ih =>
    rw [List.pairwise_cons] at hsorted
    have hbelow : ∀ x ∈ b :: older, x.height ≤ b.height := by
      intro x hx
      rcases List.mem_cons.mp hx with rfl | hx
      · exact Nat.le_refl _
      · exact Nat.le_of_lt (hsorted.1 x hx)
    rw [raise] at h
    split at h
    · rename_i hle
      cases h
      exact ⟨Nat.le_refl _, .inl rfl, fun x hx _ => Nat.le_trans (hbelow x hx) hle⟩
    rename_i habove
    cases hp : schedule.require b.height with
    | error e =>
      rw [hp] at h
      contradiction
    | ok p =>
      rw [hp] at h
      change (if threshold p ≤ votes b then _ else _) = _ at h
      rw [Timeline.require_eq_ok] at hp
      split at h
      · rename_i hreaches
        cases h
        refine ⟨Nat.le_of_lt (Height.not_le.mp habove), .inr ?_, fun x hx _ => hbelow x hx⟩
        exact ⟨b, List.mem_cons_self, rfl, p, hp, hreaches⟩
      · rename_i hfails
        have hrest := ih hsorted.2 h
        refine ⟨hrest.le, ?_, ?_⟩
        · apply hrest.witness.imp_right
          rintro ⟨x, hx, hreaches⟩
          exact ⟨x, List.mem_cons_of_mem _ hx, hreaches⟩
        · intro x hx hreaches
          rcases List.mem_cons.mp hx with rfl | hx
          · obtain ⟨q, hq, hle⟩ := hreaches
            rw [hp] at hq
            cases hq
            exact absurd hle hfails
          · exact hrest.maximal x hx hreaches

end Raising

/-- What taking in a block does to a ledger. -/
structure Takes (l : Ledger) (schedule : Timeline Parameters) (header : Header) (limit : Nat)
    (next : Ledger) : Prop where
  window : next.window = (l.append header limit).window.map
    ((l.append header limit).counted schedule header.generator)
  voter? : ∀ a, next.voter? a
    = (l.voter? a).map ((l.append header limit).noted schedule header.generator)
  prevoted : Raised schedule Parameters.prevoteThreshold BlockVotes.prevotes next.window
    l.watermarks.prevoted next.watermarks.prevoted
  precommitted : Raised schedule Parameters.precommitThreshold BlockVotes.precommits next.window
    l.watermarks.precommitted next.watermarks.precommitted
  certified : next.watermarks.certified = l.watermarks.certified ∨
    l.watermarks.certified < next.watermarks.certified ∧
      next.watermarks.certified ≤ next.watermarks.precommitted

variable {l next : Ledger} {schedule : Timeline Parameters} {header : Header} {limit : Nat}

/-- An aggregate commit that certifies its height raises the certified height within the
precommitted ones. Any other one does nothing. -/
theorem raiseCertified_cases {commit : AggregateCommit}
    (h : l.raiseCertified schedule commit = .ok next) :
    commit.Advances schedule l.watermarks.certified l.watermarks.precommitted ∧
        next = { l with watermarks := { l.watermarks with certified := commit.height } } ∨
      ¬ commit.Advances schedule l.watermarks.certified l.watermarks.precommitted ∧ next = l := by
  unfold raiseCertified at h
  split at h
  case isTrue hstays =>
    refine .inr ⟨fun advances => ?_, (Except.ok.inj h).symm⟩
    rcases hstays with hempty | hle | hlt
    · exact absurd (advances.reports.symm.trans hempty) nofun
    · exact Height.not_le.mpr advances.above hle
    · exact Height.not_lt.mpr advances.within hlt
  case isFalse hraises =>
    simp only [not_or, Height.not_le, Height.not_lt] at hraises
    obtain ⟨hcommit, habove, hbelow⟩ := hraises
    cases hp : schedule.require commit.height with
    | error e =>
      rw [hp] at h
      contradiction
    | ok p =>
      rw [hp] at h
      change (if p.certificateThreshold ≤ p.validators.signersWeight commit.bits then _ else _) = _
        at h
      rw [Timeline.require_eq_ok] at hp
      split at h
      case isTrue hreaches =>
        exact .inl ⟨⟨Bool.eq_false_iff.mpr hcommit, habove, hbelow, p, hp, hreaches⟩,
          (Except.ok.inj h).symm⟩
      case isFalse hfails =>
        refine .inr ⟨fun advances => ?_, (Except.ok.inj h).symm⟩
        obtain ⟨q, hq, hreaches⟩ := advances.certifies
        cases hp.symm.trans hq
        exact hfails hreaches

theorem generator_of_newest?_append {newest : BlockVotes}
    (h : (l.append header limit).newest? = some newest) :
    newest.generator = header.generator := by
  rw [newest?_eq_of_append h]
  rfl

/-- No block of the window is above the new one. -/
theorem le_of_mem_append (hw : Consecutive (l.append header limit).window) {b : BlockVotes}
    (hb : b ∈ (l.append header limit).window) : b.height ≤ header.height :=
  hw.height_le_of_newest (newest?_append (pos_of_mem_append hb)) hb

theorem prevotes_of_cast (hw : Consecutive (l.append header limit).window) {k : Height}
    (hk : k ∈ (l.append header limit).prevotesCast schedule) :
    ∃ voter b, b.height = k ∧
      (l.append header limit).Prevotes schedule (.ofHeader header) voter b := by
  obtain ⟨newest, voter, b, hheight, hvotes⟩ := (mem_prevotesCast hw).mp hk
  rw [newest?_eq_of_append hvotes.isNewest] at hvotes
  exact ⟨voter, b, hheight, hvotes⟩

theorem precommits_of_cast (hw : Consecutive (l.append header limit).window) {k : Height}
    (hk : k ∈ (l.append header limit).precommitsCast schedule) :
    ∃ voter b p, b.height = k ∧
      (l.append header limit).Precommits schedule (.ofHeader header) voter b p := by
  obtain ⟨newest, voter, b, p, hheight, hvotes⟩ := exists_precommits hw hk
  rw [newest?_eq_of_append hvotes.isNewest] at hvotes
  exact ⟨voter, b, p, hheight, hvotes⟩

/-- A block is taken in by casting its votes and raising each watermark in turn. -/
theorem exists_stages_of_process (h : l.process schedule header limit = .ok next) :
    ∃ cast prevoted precommitted, (l.append header limit).castVotes? schedule = some cast ∧
      raise schedule Parameters.prevoteThreshold BlockVotes.prevotes cast.watermarks.prevoted
        cast.window = .ok prevoted ∧
      raise schedule Parameters.precommitThreshold BlockVotes.precommits
        cast.watermarks.precommitted cast.window = .ok precommitted ∧
      raiseCertified
        { cast with watermarks := ⟨prevoted, precommitted, cast.watermarks.certified⟩ } schedule
        header.commit = .ok next := by
  unfold process at h
  cases hcast : (l.append header limit).castVotes? schedule with
  | none =>
    rw [hcast] at h
    contradiction
  | some cast =>
    simp only [hcast] at h
    obtain ⟨mid, hmid, h⟩ := Failure.bind_eq_ok.mp h
    obtain ⟨prevoted, hprevoted, hmid⟩ := Failure.bind_eq_ok.mp hmid
    cases hmid
    obtain ⟨mid, hmid, h⟩ := Failure.bind_eq_ok.mp h
    obtain ⟨precommitted, hprecommitted, hmid⟩ := Failure.bind_eq_ok.mp hmid
    cases hmid
    exact ⟨cast, prevoted, precommitted, rfl, hprevoted, hprecommitted, h⟩

theorem takes_of_process (hw : Consecutive l.window) (follows : l.checkFollows header = .ok ())
    (h : l.process schedule header limit = .ok next) : l.Takes schedule header limit next := by
  have hcons := consecutive_append hw follows limit
  obtain ⟨cast, prevoted, precommitted, hcast, hprevoted, hprecommitted, h⟩ :=
    exists_stages_of_process h
  obtain ⟨hmarks, hwindow, hvoter⟩ := casts_of_castVotes? hcons
    (fun _ => generator_of_newest?_append) hcast
  have hsorted : cast.window.Pairwise fun a b => b.height < a.height := by
    rw [hwindow]
    exact (hcons.map fun b => height_counted _ _ _ b).pairwise
  have hraised := raised_of_raise hsorted hprevoted
  have hraised' := raised_of_raise hsorted hprecommitted
  rw [hmarks] at hraised hraised' h
  rcases raiseCertified_cases h with ⟨advances, rfl⟩ | ⟨-, rfl⟩
  · exact ⟨hwindow, hvoter, hraised, hraised', .inr ⟨advances.above, advances.within⟩⟩
  · exact ⟨hwindow, hvoter, hraised, hraised', .inl rfl⟩

/-- A block raises the certified height exactly if its commit does. -/
theorem certified_of_process (hw : Consecutive l.window) (follows : l.checkFollows header = .ok ())
    (h : l.process schedule header limit = .ok next) :
    header.commit.Advances schedule l.watermarks.certified next.watermarks.precommitted ∧
        next.watermarks.certified = header.commit.height ∨
      ¬ header.commit.Advances schedule l.watermarks.certified next.watermarks.precommitted ∧
        next.watermarks.certified = l.watermarks.certified := by
  obtain ⟨cast, prevoted, precommitted, hcast, -, -, h⟩ := exists_stages_of_process h
  have hmarks := (casts_of_castVotes? (consecutive_append hw follows limit)
    (fun _ => generator_of_newest?_append) hcast).watermarks
  rw [hmarks] at h
  rcases raiseCertified_cases h with ⟨advances, rfl⟩ | ⟨hstays, rfl⟩
  · exact .inl ⟨advances, rfl⟩
  · exact .inr ⟨hstays, rfl⟩

namespace Takes

variable (h : l.Takes schedule header limit next)
include h

/-- A block of the window is one of the blocks before the votes, with these added. -/
theorem exists_of_mem {b : BlockVotes} (hb : b ∈ next.window) :
    ∃ x ∈ (l.append header limit).window,
      (l.append header limit).counted schedule header.generator x = b := by
  rw [h.window] at hb
  exact List.mem_map.mp hb

theorem mem_of_mem_append {x : BlockVotes} (hx : x ∈ (l.append header limit).window) :
    ∃ b ∈ next.window, b.bare = x.bare := by
  have hcounted : (l.append header limit).counted schedule header.generator x ∈ next.window := by
    rw [h.window]
    exact List.mem_map_of_mem hx
  exact ⟨_, hcounted, bare_counted _ _ _ x⟩

theorem newest?_eq (hlimit : 0 < limit) :
    next.newest? = some ((l.append header limit).counted schedule header.generator
      (.ofHeader header)) := by
  have hnewest := @newest?_append l header limit hlimit
  rw [newest?, h.window, List.head?_map, ← newest?, hnewest, Option.map_some]

theorem prevotes_eq {b : BlockVotes} (hb : b ∈ next.window) :
    ∃ x ∈ (l.append header limit).window, x.bare = b.bare ∧ b.prevotes =
      if b.height ∈ (l.append header limit).prevotesCast schedule then
        x.prevotes + ((schedule.validatorsAt b.height).weightOf? header.generator).getD .zero
      else x.prevotes := by
  obtain ⟨x, hx, rfl⟩ := h.exists_of_mem hb
  refine ⟨x, hx, (bare_counted _ _ _ x).symm, ?_⟩
  rw [prevotes_counted, height_counted]

theorem precommits_eq (hw : Consecutive l.window) (follows : l.checkFollows header = .ok ())
    {b : BlockVotes} (hb : b ∈ next.window) :
    ∃ x ∈ (l.append header limit).window, x.bare = b.bare ∧ b.precommits =
      if b.height ∈ (l.append header limit).precommitsCast schedule then
        x.precommits + ((schedule.validatorsAt b.height).weightOf? header.generator).getD .zero
      else x.precommits := by
  obtain ⟨x, hx, rfl⟩ := h.exists_of_mem hb
  refine ⟨x, hx, (bare_counted _ _ _ x).symm, ?_⟩
  rw [precommits_counted (consecutive_append hw follows limit)
    (fun _ => generator_of_newest?_append) hx, height_counted]

theorem consecutive (hw : Consecutive l.window) (follows : l.checkFollows header = .ok ()) :
    Consecutive next.window := by
  rw [h.window]
  exact (consecutive_append hw follows limit).map fun b => height_counted _ _ _ b

end Takes

/-! ## New parameters -/

theorem nextHeight_eq_ok {height : Height} :
    l.nextHeight = .ok height ↔
      ((l.newest?.map BlockVotes.height).getD l.watermarks.prevoted).toNat + 1
        = height.toNat := by
  have hsucc : ∀ newest : Height,
      ((newest.succ?.map Except.ok).getD (.error (.unexpectedHeight newest newest))
        : Except Failure Height) = .ok height ↔ newest.toNat + 1 = height.toNat := by
    intro newest
    rw [← Height.succ?_eq_some]
    cases newest.succ? <;> simp
  rw [← hsucc, nextHeight]
  cases hnewest : l.newest? with
  | none =>
    simp only [Option.map_none, Option.getD_none]
    cases l.watermarks.prevoted.succ? <;> rfl
  | some newest =>
    simp only [Option.map_some, Option.getD_some]
    cases newest.height.succ? <;> rfl

/-- New parameters apply above every retained block. -/
theorem lt_of_nextHeight (hw : Consecutive l.window) {height : Height}
    (h : l.nextHeight = .ok height) {b : BlockVotes} (hb : b ∈ l.window) : b.height < height := by
  cases hnewest : l.newest? with
  | none =>
    rw [List.head?_eq_none_iff.mp hnewest] at hb
    contradiction
  | some newest =>
    rw [nextHeight_eq_ok, hnewest, Option.map_some, Option.getD_some] at h
    have hle := hw.height_le_of_newest hnewest hb
    rw [Height.le_iff] at hle
    rw [Height.lt_iff]
    omega

theorem address_of_voter? {a : Address} {v : Voter} (h : l.voter? a = some v) : v.address = a := by
  simpa using List.find?_some h

/-- A voter that the ledger has, or one that becomes active at a height. -/
def IsKnownOrNew (l : Ledger) (height : Height) (v : Voter) : Prop :=
  l.voter? v.address = some v ∨ v = ⟨v.address, height, height.below 1⟩

theorem isKnownOrNew_of_voter? {height : Height} {a : Address} {v : Voter}
    (h : l.voter? a = some v) : l.IsKnownOrNew height v := by
  left
  rw [address_of_voter? h, h]

theorem isKnownOrNew_voterFrom (l : Ledger) (height : Height) (x : Validator) :
    l.IsKnownOrNew height (l.voterFrom height x) := by
  unfold voterFrom
  cases hx : l.voter? x.address with
  | none => exact .inr rfl
  | some u => exact isKnownOrNew_of_voter? hx

/-- After new parameters each voter is one that the ledger had, or becomes active with these. -/
theorem isKnownOrNew_of_mem_track {height : Height} {incoming outgoing : Validators} {v : Voter}
    (h : v ∈ (l.track height incoming outgoing).voters) : l.IsKnownOrNew height v := by
  unfold track at h
  have hincoming : ∀ u ∈ incoming.map (l.voterFrom height), l.IsKnownOrNew height u := by
    intro u hu
    obtain ⟨x, -, rfl⟩ := List.mem_map.mp hu
    exact isKnownOrNew_voterFrom l height x
  generalize incoming.map (l.voterFrom height) = voters at h hincoming
  induction outgoing generalizing voters with
  | nil => exact hincoming v h
  | cons x rest ih =>
    refine ih _ h ?_
    intro u hu
    dsimp only at hu
    split at hu
    · exact hincoming u hu
    · rcases List.mem_append.mp hu with hu | hu
      · exact hincoming u hu
      · exact isKnownOrNew_of_voter? (Option.mem_toList.mp hu)

theorem voter?_track {height : Height} {incoming outgoing : Validators} {a : Address} {v : Voter}
    (h : (l.track height incoming outgoing).voter? a = some v) :
    l.voter? a = some v ∨ v = ⟨a, height, height.below 1⟩ := by
  rw [← address_of_voter? h]
  exact isKnownOrNew_of_mem_track (List.mem_of_find?_eq_some h)

end Ledger

end ImpliedFinality
