import ImpliedFinality.Proofs.Canonical
import ImpliedFinality.Proofs.Watermarks

/-!
# When a block is taken in

Three things could keep a ledger from taking in a block that follows the newest one. A walk along
the blocks of a generator could run out of steps, but it goes down with every step and leaves the
window before. A voter could report the greatest height of all. And parameters could be missing, but
only those above the certified height are asked for. What results can be written unless it holds a
block at every height.
-/

namespace ImpliedFinality

namespace Ledger

variable {l next : Ledger} {schedule : Timeline Parameters} {header : Header} {limit : Nat}
  {e : Failure}

/-- A block that does not follow the newest one has the wrong height. -/
theorem checkFollows_eq_error (h : l.checkFollows header = .error e) :
    ∃ expected, e = .unexpectedHeight header.height expected := by
  unfold checkFollows at h
  split at h
  case h_1 => contradiction
  case h_2 newest hnewest =>
    split at h
    case h_1 => exact ⟨newest.height, (Except.error.inj h).symm⟩
    case h_2 expected hexpected =>
      split at h
      case isTrue => contradiction
      case isFalse => exact ⟨expected, (Except.error.inj h).symm⟩

/-- A walk goes down a height with every step, so it ends before its steps run out. -/
theorem exists_walkBack? {newest : BlockVotes} {steps : Nat} {height : Height}
    (hsteps : 0 < steps)
    (hroom : l.window.length < steps + (newest.height.toNat - height.toNat)) :
    ∃ found, l.walkBack? newest steps height = some found := by
  induction steps generalizing height with
  | zero => contradiction
  | succ steps ih =>
    rw [walkBack?]
    split
    case isFalse => exact ⟨_, rfl⟩
    case isTrue hle =>
      rw [Height.le_iff] at hle
      have hgap : newest.height.gap? height = some (newest.height.toNat - height.toNat) :=
        Height.gap?_eq_some.mpr (by omega)
      rw [hgap, Option.bind_eq_bind, Option.bind_some]
      split
      case isFalse => exact ⟨_, rfl⟩
      case isTrue hin =>
        rw [List.getElem?_eq_getElem hin, Option.bind_eq_bind, Option.bind_some]
        split
        case isTrue => exact ⟨_, rfl⟩
        case isFalse hgoes =>
          have hlower : l.window[newest.height.toNat - height.toNat].maxHeightGenerated.toNat
              < height.toNat := Height.not_le.mp (not_or.mp hgoes).2
          exact ih (by omega) (by omega)

theorem exists_notPrevoted? (l : Ledger) : ∃ found, l.notPrevoted? = some found := by
  unfold notPrevoted?
  split
  · exact ⟨_, rfl⟩
  · exact exists_walkBack? (Nat.succ_pos _) (by omega)

/-- The addresses of those whose votes count. -/
def electorate (l : Ledger) : List Address := l.voters.map Voter.address

theorem mem_electorate {a : Address} : a ∈ l.electorate ↔ ∃ voter ∈ l.voters, voter.address = a :=
  List.mem_map

theorem exists_voter?_iff {a : Address} :
    (∃ voter, l.voter? a = some voter) ↔ a ∈ l.electorate := by
  rw [← Option.isSome_iff_exists, voter?, List.find?_isSome, mem_electorate]
  simp

/-- Votes have no result only if the newest block reports the greatest height of all. -/
theorem castVotes?_eq_none (h : l.castVotes? schedule = none) :
    ∃ newest, l.newest? = some newest ∧ newest.generator ∈ l.electorate ∧
      newest.maxHeightGenerated = .top := by
  unfold castVotes? at h
  split at h
  case h_1 => contradiction
  case h_2 newest hnewest =>
    split at h
    case h_1 => contradiction
    case h_2 voter hvoter =>
      obtain ⟨notPrevoted, hwalk⟩ := l.exists_notPrevoted?
      refine ⟨newest, hnewest, exists_voter?_iff.mp ⟨voter, hvoter⟩, ?_⟩
      cases hsucc : newest.maxHeightGenerated.succ? with
      | none => exact Height.succ?_eq_none.mp hsucc
      | some unreported =>
        rw [hwalk, hsucc] at h
        contradiction

/-- A watermark is not raised only for the want of parameters at a block above it. -/
theorem raise_eq_error {threshold : Parameters → Weight} {votes : BlockVotes → Weight}
    {mark : Height} {window : List BlockVotes}
    (h : raise schedule threshold votes mark window = .error e) :
    ∃ b ∈ window, mark < b.height ∧ schedule.effective? b.height = none ∧
      e = .parametersNotFound b.height := by
  induction window with
  | nil => contradiction
  | cons b older ih =>
    rw [raise] at h
    split at h
    case isTrue => contradiction
    case isFalse habove =>
      cases hp : schedule.effective? b.height with
      | none =>
        rw [Timeline.require, hp] at h
        exact ⟨b, List.mem_cons_self, Height.not_le.mp habove, hp, (Except.error.inj h).symm⟩
      | some p =>
        rw [Timeline.require, hp] at h
        change (if threshold p ≤ votes b then _ else _) = _ at h
        split at h
        case isTrue => contradiction
        case isFalse =>
          obtain ⟨x, hx, hfailed⟩ := ih h
          exact ⟨x, List.mem_cons_of_mem _ hx, hfailed⟩

/-- A commit is not looked at only for the want of parameters at its height. -/
theorem raiseCertified_eq_error {commit : AggregateCommit}
    (h : l.raiseCertified schedule commit = .error e) :
    commit.isEmpty = false ∧ l.watermarks.certified < commit.height ∧
      schedule.effective? commit.height = none ∧ e = .parametersNotFound commit.height := by
  unfold raiseCertified at h
  split at h
  case isTrue => contradiction
  case isFalse hraises =>
    simp only [not_or, Height.not_le] at hraises
    cases hp : schedule.effective? commit.height with
    | none =>
      rw [Timeline.require, hp] at h
      exact ⟨Bool.eq_false_iff.mpr hraises.1, hraises.2.1, rfl, (Except.error.inj h).symm⟩
    | some p =>
      rw [Timeline.require, hp] at h
      change (if p.certificateThreshold ≤ p.validators.signersWeight commit.bits then _ else _) = _
        at h
      split at h <;> contradiction

/-- The heights at which a ledger may look for parameters to take in a header: those of the blocks
that it then retains and of a commit that is not empty, as far as they are not certified. -/
def LooksAt (l : Ledger) (header : Header) (k : Height) : Prop :=
  l.watermarks.certified < k ∧
    (k = header.height ∨ (∃ b ∈ l.window, b.height = k) ∨
      header.commit.isEmpty = false ∧ k = header.commit.height)

/-- A header that follows the newest block is refused only for the want of parameters that the
ledger looks at, or if a voter reports the greatest height of all. -/
theorem process_eq_error (ordered : l.watermarks.Ordered) (hw : Consecutive l.window)
    (follows : l.checkFollows header = .ok ()) (h : l.process schedule header limit = .error e) :
    (∃ k, l.LooksAt header k ∧ schedule.effective? k = none ∧ e = .parametersNotFound k) ∨
      0 < limit ∧ header.maxHeightGenerated = .top ∧ header.generator ∈ l.electorate ∧
        e = .heightOutOfRange := by
  unfold process at h
  cases hcast : (l.append header limit).castVotes? schedule with
  | none =>
    rw [hcast] at h
    obtain ⟨newest, hnewest, hvoter, hreported⟩ := castVotes?_eq_none hcast
    have hpos : 0 < limit := pos_of_mem_append (List.mem_of_head? hnewest)
    rw [newest?_eq_of_append hnewest] at hvoter hreported
    exact .inr ⟨hpos, hreported, hvoter, (Except.error.inj h).symm⟩
  | some cast =>
    left
    simp only [hcast] at h
    obtain ⟨hmarks, hwindow, -⟩ := casts_of_castVotes? (consecutive_append hw follows limit)
      (fun _ => generator_of_newest?_append) hcast
    -- the votes change neither the heights of the window nor the watermarks
    have hmem : ∀ b ∈ cast.window,
        b.height = header.height ∨ ∃ x ∈ l.window, x.height = b.height := by
      intro b hb
      rw [hwindow] at hb
      obtain ⟨x, hx, rfl⟩ := List.mem_map.mp hb
      rw [height_counted]
      rcases mem_append hx with rfl | hold
      · exact .inl rfl
      · exact .inr ⟨x, hold, rfl⟩
    have hblock : ∀ {threshold : Parameters → Weight} {votes : BlockVotes → Weight} {mark : Height},
        l.watermarks.certified ≤ mark →
        raise schedule threshold votes mark cast.window = .error e →
        ∃ k, l.LooksAt header k ∧ schedule.effective? k = none ∧ e = .parametersNotFound k := by
      intro threshold votes mark hmark hraise
      obtain ⟨b, hb, habove, hnone, rfl⟩ := raise_eq_error hraise
      exact ⟨b.height, ⟨Nat.lt_of_le_of_lt hmark habove, (hmem b hb).imp_right .inl⟩, hnone, rfl⟩
    unfold raisePrevoted raisePrecommitted at h
    rw [hmarks] at h
    have hcertified := ordered.certified_le
    cases hprevoted : raise schedule Parameters.prevoteThreshold BlockVotes.prevotes
        (l.append header limit).watermarks.prevoted cast.window with
    | error e' =>
      rw [hprevoted] at h
      cases h
      exact hblock (Nat.le_trans hcertified ordered.precommitted_le) hprevoted
    | ok prevoted =>
      cases hprecommitted : raise schedule Parameters.precommitThreshold BlockVotes.precommits
          (l.append header limit).watermarks.precommitted cast.window with
      | error e' =>
        simp only [hprevoted, hprecommitted, bind, Except.bind] at h
        cases h
        exact hblock hcertified hprecommitted
      | ok precommitted =>
        simp only [hprevoted, hprecommitted, bind, Except.bind] at h
        obtain ⟨hcommit, habove, hnone, rfl⟩ := raiseCertified_eq_error h
        exact ⟨header.commit.height, ⟨habove, .inr (.inr ⟨hcommit, rfl⟩)⟩, hnone, rfl⟩

/-- A block that follows the newest one is taken in if parameters apply above the certified
height. -/
theorem exists_process (ordered : l.watermarks.Ordered)
    (known : ∀ k, l.watermarks.certified < k → ∃ p, schedule.effective? k = some p)
    (hw : Consecutive l.window) (follows : l.checkFollows header = .ok ())
    (reported : header.maxHeightGenerated < .top) (limit : Nat) :
    ∃ next, l.process schedule header limit = .ok next := by
  cases hprocess : l.process schedule header limit with
  | ok next => exact ⟨next, rfl⟩
  | error e =>
    rcases process_eq_error ordered hw follows hprocess with ⟨k, hk, hnone, -⟩ | ⟨-, htop, -⟩
    · obtain ⟨p, hp⟩ := known k hk.1
      rw [hnone] at hp
      contradiction
    · rw [htop] at reported
      exact absurd reported (Nat.lt_irrefl _)

/-! ## What results -/

theorem electorate_precommit (l : Ledger) (schedule : Timeline Parameters) (generator : Address)
    (lowest : Height) : (l.precommit schedule generator lowest).electorate = l.electorate := by
  simp only [precommit, electorate]
  split
  · rfl
  · apply List.ext_getElem?
    intro i
    rw [List.getElem?_map, List.getElem?_modify, List.getElem?_map]
    cases l.voters[i]? with
    | none => rfl
    | some v =>
      simp only [Option.map_eq_map, Option.map_some]
      split <;> rfl

theorem electorate_of_castVotes? (h : l.castVotes? schedule = some next) :
    next.electorate = l.electorate := by
  unfold castVotes? at h
  split at h
  case h_1 => rw [Option.some.inj h]
  case h_2 newest hnewest =>
    split at h
    case h_1 => rw [Option.some.inj h]
    case h_2 voter hvoter =>
      simp only [Option.bind_eq_bind, Option.bind_eq_some_iff] at h
      obtain ⟨notPrevoted, -, unreported, -, hnext⟩ := h
      rw [← Option.some.inj hnext]
      cases precommitFrom? voter notPrevoted with
      | none => rfl
      | some lowest => exact electorate_precommit ..

/-- Nobody becomes a voter, or stops to be one, because of a block. -/
theorem electorate_of_process (h : l.process schedule header limit = .ok next) :
    next.electorate = l.electorate := by
  obtain ⟨cast, prevoted, precommitted, hcast, -, -, h⟩ := exists_stages_of_process h
  have hcast' := electorate_of_castVotes? hcast
  rcases raiseCertified_cases h with ⟨-, rfl⟩ | ⟨-, rfl⟩
  · exact hcast'
  · exact hcast'

theorem length_voters_of_process (h : l.process schedule header limit = .ok next) :
    next.voters.length = l.voters.length := by
  have hlength := congrArg List.length (electorate_of_process h)
  rwa [electorate, electorate, List.length_map, List.length_map] at hlength

/-- What a block makes of a ledger can be written, unless there is a block at every height and all
of them are retained. -/
theorem fits_of_process (hw : Consecutive l.window) (hl : codec.fits l = true)
    (follows : l.checkFollows header = .ok ())
    (processed : l.process schedule header limit = .ok next) :
    codec.fits next = true ∨
      (header.height = .top ∧ l.window.length = Height.top.toNat ∧ Height.top.toNat < limit) := by
  have hwindow : l.window.length < 4294967296 := ((fits_iff l).mp hl).1
  have hvoters : l.voters.length < 4294967296 := ((fits_iff l).mp hl).2
  have hcapacity : 4294967296 = Height.top.toNat + 1 := rfl
  have hlength : next.window.length = min limit (l.window.length + 1) := by
    rw [(takes_of_process hw follows processed).window, List.length_map]
    exact List.length_take ..
  by_cases hroom : min limit (l.window.length + 1) < 4294967296
  · left
    rw [← hlength] at hroom
    rw [← length_voters_of_process processed] at hvoters
    exact (fits_iff next).mpr ⟨hroom, hvoters⟩
  · right
    have hfull : l.window.length = Height.top.toNat := by omega
    -- the oldest block is as far below the new one as there are blocks
    have hlast : (BlockVotes.ofHeader header :: l.window)[l.window.length]? =
        some (BlockVotes.ofHeader header :: l.window)[l.window.length] :=
      List.getElem?_eq_getElem (by simp)
    have hheight := (consecutive_cons hw follows).height_eq_of_newest rfl hlast
    have hle : Height.top.toNat ≤ header.height.toNat :=
      calc
        Height.top.toNat = l.window.length := hfull.symm
        _ ≤ _ := Nat.le_add_left _ _
        _ = header.height.toNat := hheight.symm
    exact ⟨Height.ext (Nat.le_antisymm (Height.le_top _) hle), hfull, by omega⟩

end Ledger

namespace Gadget

variable {g : Gadget} {c : Contents} {l next : Ledger} {header : Header}

/-- A block is taken in if the ledger takes it in and what results can be written. -/
theorem isOk_processBlock (hholds : g.store.Holds c) (hl : c.ledger = some l)
    (follows : l.checkFollows header = .ok ())
    (processed : l.process c.parameters.timeline header (3 * g.config.batchSize) = .ok next)
    (fits : Ledger.codec.fits next = true) : (g.processBlock header).answer.isOk = true := by
  have hwrites : ∀ change ∈ c.blockChanges next header, change.fits = true := by
    intro change hchange
    simp only [Contents.blockChanges, List.mem_append, List.mem_map, List.mem_singleton] at hchange
    rcases hchange with (⟨k, -, rfl⟩ | ⟨k, -, rfl⟩) | rfl
    · rfl
    · rfl
    · exact fits
  obtain ⟨store, hstore⟩ := g.store.exists_write hwrites
  rw [processBlock, hholds.planBlock hl, follows, processed]
  dsimp only
  rw [commit, hstore]
  rfl

/-- A block that the ledger takes in is taken in, unless there is a block at every height below the
greatest one and all of them are retained: then the ledger has no room for the last one. -/
theorem processBlock_of_process (hholds : g.store.Holds c) (hl : c.ledger = some l)
    (hw : Consecutive l.window) (follows : l.checkFollows header = .ok ())
    (processed : l.process c.parameters.timeline header (3 * g.config.batchSize) = .ok next) :
    (g.processBlock header).answer.isOk = true ∨
      header.height = .top ∧ l.window.length = Height.top.toNat ∧
        Height.top.toNat < 3 * g.config.batchSize ∧
        ∃ e, (g.processBlock header).answer = .error (.store e) := by
  rcases Ledger.fits_of_process hw (hholds.fits.ledger l hl) follows processed with
    hfits | ⟨htop, hfull, hlarge⟩
  · exact .inl (isOk_processBlock hholds hl follows processed hfits)
  · rcases g.processBlock_eq header with ⟨e, he, hplan | ⟨e', rfl⟩⟩ | ⟨_, _, store, -, -, hdone⟩
    · rw [hholds.planBlock hl, follows, processed] at hplan
      contradiction
    · rw [he]
      exact .inr ⟨htop, hfull, hlarge, e', rfl⟩
    · rw [hdone]
      exact .inl rfl

end Gadget

end ImpliedFinality
