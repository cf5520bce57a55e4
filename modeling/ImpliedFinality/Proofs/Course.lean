import ImpliedFinality.Proofs.Pruning

/-!
# The course of a run

The course of a run is what it leads to: the contents of the store, and beside these all that the
run has set and taken in. `Course.Step` says what one request does to all of it. What every step
preserves holds wherever a run leads to. The height from which new parameters apply is one above
the tip of the ledger, and the tip rises with each block as long as the first one is above the
genesis block.
-/

namespace ImpliedFinality

/-! ## The tip of a ledger -/

namespace Ledger

variable {l next : Ledger} {schedule : Timeline Parameters} {header : Header} {limit : Nat}

/-- The height of the newest block, or the prevoted height while there is none. -/
def tip (l : Ledger) : Height := (l.newest?.map BlockVotes.height).getD l.watermarks.prevoted

theorem tip_eq_of_newest? {newest : BlockVotes} (h : l.newest? = some newest) :
    l.tip = newest.height := by
  rw [tip, h, Option.map_some, Option.getD_some]

@[simp] theorem tip_track (l : Ledger) (height : Height) (incoming outgoing : Validators) :
    (l.track height incoming outgoing).tip = l.tip := rfl

/-- New parameters apply right above the tip. -/
theorem toNat_of_nextHeight {height : Height} (h : l.nextHeight = .ok height) :
    height.toNat = l.tip.toNat + 1 :=
  (nextHeight_eq_ok.mp h).symm

theorem Takes.tip_eq (h : l.Takes schedule header limit next) (hlimit : 0 < limit) :
    next.tip = header.height := by
  rw [tip_eq_of_newest? (h.newest?_eq hlimit), height_counted]
  rfl

end Ledger

/-- The first block of a chronicle, if there is any, is above a height. -/
def Chronicle.StartsAbove (past : Chronicle) (height : Height) : Prop :=
  ∀ first, past.headers.getLast? = some first → height < first.height

instance (past : Chronicle) (height : Height) : Decidable (past.StartsAbove height) :=
  decidable_of_iff (∀ first ∈ past.headers.getLast?, height < first.height) Iff.rfl

/-- A chronicle that goes on starts where it did before. -/
theorem Chronicle.StartsAbove.of_after {past : Chronicle} {height : Height} {batchSize : Nat}
    {s : Core} {taken : Option Header} (h : (past.after batchSize s taken).StartsAbove height) :
    past.StartsAbove height := by
  cases taken with
  | none => exact h
  | some header =>
    intro first hfirst
    refine h first ?_
    rw [Chronicle.after, Chronicle.extend, List.getLast?_cons, hfirst]
    rfl

namespace Core

variable {batchSize : Nat} {height : Height} {s next : Core} {past : Chronicle} {r : Request}
  {taken : Option Header}

/-- How the ledger begins: empty at the genesis height, and never empty again once a block was
taken in and there is room for it. -/
structure Rooted (batchSize : Nat) (height : Height) (s : Core) (past : Chronicle) : Prop where
  begins : past.headers = [] → s.ledger.tip = height
  retains : 0 < batchSize → past.headers ≠ [] → ∃ newest, s.ledger.newest? = some newest

theorem rooted_genesis (batchSize : Nat) (height : Height) :
    (genesis height).Rooted batchSize height .empty where
  begins _ := rfl
  retains _ h := absurd rfl h

theorem Rooted.step (h : s.Rooted batchSize height past) (hw : Consecutive s.ledger.window)
    (hstep : Step batchSize s r taken next) :
    next.Rooted batchSize height (past.after batchSize s taken) := by
  cases hstep with
  | unchanged => exact h
  | parametersSet accepted starts => exact ⟨h.begins, h.retains⟩
  | @blockTaken header l' follows processed =>
    have htakes := Ledger.takes_of_process hw follows processed
    refine ⟨fun hnone => absurd hnone (List.cons_ne_nil _ _), fun hpos _ => ?_⟩
    exact ⟨_, htakes.newest?_eq (Nat.mul_pos (Nat.succ_pos 2) hpos)⟩

/-- A block is above the tip if the first one is above the genesis block. -/
theorem Rooted.tip_lt (h : s.Rooted batchSize height past) (hpos : 0 < batchSize)
    {header : Header} (follows : s.ledger.checkFollows header = .ok ())
    (starts : (past.after batchSize s (some header)).StartsAbove height) :
    s.ledger.tip < header.height := by
  cases hheaders : past.headers with
  | nil =>
    rw [h.begins hheaders]
    apply starts
    rw [Chronicle.after, Chronicle.extend, hheaders]
    rfl
  | cons first rest =>
    obtain ⟨newest, hnewest⟩ := h.retains hpos (hheaders ▸ List.cons_ne_nil first rest)
    have hnext := Ledger.checkFollows_eq_ok.mp follows newest hnewest
    rw [Ledger.tip_eq_of_newest? hnewest, Height.lt_iff, hnext]
    exact Nat.lt_succ_self _

end Core

/-! ## Steps -/

/-- What a run has led to: what the store holds, all parameters that were set, and all blocks and
votes. -/
structure Course where
  contents : Contents
  ledger : Ledger
  archive : Table Height Parameters
  past : Chronicle

namespace Course

def core (s : Course) : Core := ⟨s.ledger, s.contents.parameters⟩

def genesis (height : Height) : Course :=
  ⟨{ Contents.empty with ledger := some (.genesis height) }, .genesis height, .empty, .empty⟩

/-- What a request may do to the course of a run. -/
inductive Step (batchSize : Nat) (s : Course) : Request → Course → Prop
  | unchanged {r : Request} : Step batchSize s r s
  | parametersSet {proposal : Proposal} {aggregate : Weight} {height : Height}
      (accepted : proposal.sorted.check batchSize = .ok aggregate)
      (starts : s.ledger.nextHeight = .ok height) :
      Step batchSize s (.setParameters proposal)
        { s with
          contents := s.contents.applyAll
            (s.contents.proposalChanges s.ledger height (proposal.sorted.parameters aggregate))
          ledger := s.ledger.track height proposal.sorted.validators
            (s.contents.parameters.timeline.outgoing height)
          archive := s.archive.insert height proposal.outcome }
  | blockTaken {header : Header} {next : Ledger}
      (follows : s.ledger.checkFollows header = .ok ())
      (processed : s.ledger.process s.contents.parameters.timeline header (3 * batchSize)
        = .ok next) :
      Step batchSize s (.processBlock header)
        { s with
          contents := s.contents.applyAll (s.contents.blockChanges next header)
          ledger := next
          past := s.past.after batchSize s.core (some header) }
  | snapshotsPruned {height : Height} {unused : List Digest} :
      Step batchSize s (.pruneSnapshots height)
        { s with
          contents :=
            { s.contents with snapshots := s.contents.snapshots.eraseAll unused } }

/-- A step does to the core what `Core.Step` says. -/
theorem Step.core {batchSize : Nat} {s s' : Course} {r : Request} (h : Step batchSize s r s') :
    ∃ taken, Core.Step batchSize s.core r taken s'.core ∧
      s'.past = s.past.after batchSize s.core taken := by
  cases h with
  | unchanged => exact ⟨none, .unchanged, rfl⟩
  | @parametersSet proposal aggregate height accepted starts =>
    refine ⟨none, ?_, rfl⟩
    simp only [Course.core, (s.contents.applyAll_proposalChanges s.ledger height _).2.1]
    exact .parametersSet accepted starts
  | @blockTaken header next follows processed =>
    refine ⟨some header, ?_, rfl⟩
    simp only [Course.core, Contents.applyAll_blockChanges]
    exact .blockTaken follows processed
  | snapshotsPruned => exact ⟨none, .unchanged, rfl⟩

/-- The ledger of a course is sound and began where the course did. -/
structure Grounded (batchSize : Nat) (height : Height) (s : Course) : Prop where
  sound : s.core.Sound batchSize
  rooted : s.core.Rooted batchSize height s.past

theorem grounded_genesis (batchSize : Nat) (height : Height) :
    (genesis height).Grounded batchSize height where
  sound := Core.sound_genesis batchSize height
  rooted := Core.rooted_genesis batchSize height

namespace Step

variable {batchSize : Nat} {height : Height} {s s' : Course} {r : Request}
  (hstep : Step batchSize s r s') (h : s.Grounded batchSize height)
include hstep h

theorem grounded : s'.Grounded batchSize height := by
  obtain ⟨taken, hcore, hpast⟩ := hstep.core
  exact ⟨h.sound.step hcore, hpast ▸ h.rooted.step h.sound.consecutive hcore⟩

variable (hpos : 0 < batchSize) (starts : s'.past.StartsAbove height)
include hpos starts

/-- In a chain above the genesis block the tip never falls. -/
theorem tip_le : s.ledger.tip ≤ s'.ledger.tip := by
  cases hstep with
  | unchanged => exact Nat.le_refl _
  | parametersSet accepted hnext => exact Nat.le_refl _
  | blockTaken follows processed =>
    have htakes := Ledger.takes_of_process h.sound.consecutive follows processed
    rw [htakes.tip_eq (Nat.mul_pos (Nat.succ_pos 2) hpos)]
    exact Nat.le_of_lt (h.rooted.tip_lt hpos follows starts)
  | snapshotsPruned => exact Nat.le_refl _

/-- So nothing is set for a height that is above the next one. -/
theorem bounded (hs : ∀ k q, s.archive.get? k = some q → k.toNat ≤ s.ledger.tip.toNat + 1) :
    ∀ k q, s'.archive.get? k = some q → k.toNat ≤ s'.ledger.tip.toNat + 1 := by
  have hle := hstep.tip_le h hpos starts
  cases hstep with
  | unchanged => exact hs
  | parametersSet accepted hnext =>
    exact Table.forall_get?_insert hs (Nat.le_of_eq (Ledger.toNat_of_nextHeight hnext))
  | blockTaken follows processed =>
    exact fun k q hq => Nat.le_trans (hs k q hq) (Nat.succ_le_succ hle)
  | snapshotsPruned => exact hs

end Step

end Course

namespace Gadget

/-- The store of a gadget is where a course has led to. -/
structure IsAt (g : Gadget) (s : Course) : Prop where
  holds : g.store.Holds s.contents
  ledger : s.contents.ledger = some s.ledger

variable {g : Gadget} {s : Course}

theorem isAt_genesis (config : GadgetConfig) (height : Height) :
    (genesis config height).IsAt (.genesis height) :=
  ⟨holds_genesis config height, rfl⟩

theorem IsAt.shows (h : g.IsAt s) : g.Shows s.core := ⟨s.contents, h.holds, h.ledger, rfl⟩

/-- Every request is a step of the course. -/
theorem IsAt.step (h : g.IsAt s) (r : Request) :
    ∃ s', (g.step r).1.IsAt s' ∧ Course.Step g.config.batchSize s r s' ∧
      s'.archive = g.archived s.archive r ∧ s'.past = g.record s.past r := by
  have hrecord := h.shows.record s.past r
  cases r with
  | setParameters proposal =>
    rcases setParameters_cases h.holds h.ledger proposal with
      ⟨e, he⟩ | ⟨hsame, -⟩ | ⟨aggregate, n, store, haccepted, hstarts, hdone, hstore⟩
    · rw [Gadget.step, archived, he]
      exact ⟨s, h, .unchanged, rfl, hrecord.symm⟩
    · rw [Gadget.step, archived, hsame]
      exact ⟨s, h, .unchanged, rfl, hrecord.symm⟩
    · have hledger := (s.contents.applyAll_proposalChanges s.ledger n
        (proposal.sorted.parameters aggregate)).1
      rw [Gadget.step, archived, hdone]
      exact ⟨_, ⟨hstore, hledger⟩, .parametersSet haccepted hstarts, rfl, hrecord.symm⟩
  | processBlock header =>
    rcases processBlock_cases h.holds h.ledger header with
      ⟨e, he⟩ | ⟨next, store, hfollows, hprocess, hdone, hstore⟩
    · rw [taken?, he] at hrecord
      rw [Gadget.step, archived, he]
      exact ⟨s, h, .unchanged, rfl, hrecord.symm⟩
    · rw [taken?, hdone] at hrecord
      have hledger := congrArg Contents.ledger (s.contents.applyAll_blockChanges next header)
      rw [Gadget.step, archived, hdone]
      exact ⟨_, ⟨hstore, hledger⟩, .blockTaken hfollows hprocess, rfl, hrecord.symm⟩
  | pruneSnapshots height =>
    rcases pruneSnapshots_cases h.holds height with
      ⟨answer, hsame⟩ | ⟨unused, store, hdone, hstore⟩
    · rw [Gadget.step, archived, hsame]
      exact ⟨s, h, .unchanged, rfl, hrecord.symm⟩
    · rw [Gadget.step, archived, hdone]
      exact ⟨{ s with contents := _ }, ⟨hstore, h.ledger⟩, .snapshotsPruned, rfl, hrecord.symm⟩

/-- What every step preserves under a condition holds after every run that obeys it. -/
theorem Obeys.course_induction {condition : Gadget → Request → Prop} {requests : List Request}
    {batchSize : Nat} {P : Course → Prop}
    (hstep : ∀ {g : Gadget} {s s' : Course} {r : Request}, condition g r →
      Course.Step batchSize s r s' → P s → P s')
    (h : g.Obeys condition requests) (hat : g.IsAt s) (hconfig : g.config.batchSize = batchSize)
    (hP : P s) :
    ∃ s', (g.run requests).1.IsAt s' ∧ (g.run requests).1.config = g.config ∧
      s'.archive = g.archive s.archive requests ∧ s'.past = g.recordAll s.past requests ∧
      P s' := by
  induction requests generalizing g s with
  | nil => exact ⟨s, hat, rfl, rfl, rfl, hP⟩
  | cons r rest ih =>
    obtain ⟨hr, hrest⟩ := h
    obtain ⟨s', hat', hnext, harchive, hpast⟩ := hat.step r
    rw [hconfig] at hnext
    have hconfig' := config_step g r
    obtain ⟨last, hlast, hlastConfig, hlastArchive, hlastPast, hlastP⟩ :=
      ih hrest hat' (by rw [hconfig', hconfig]) (hstep hr hnext hP)
    rw [harchive] at hlastArchive
    rw [hpast] at hlastPast
    exact ⟨last, hlast, hlastConfig.trans hconfig', hlastArchive, hlastPast, hlastP⟩

/-- What every step preserves holds after every run. -/
theorem exists_course {P : Course → Prop} (config : GadgetConfig) (height : Height)
    (requests : List Request)
    (hstep : ∀ {s s' : Course} {r : Request}, Course.Step config.batchSize s r s' → P s → P s')
    (hP : P (.genesis height)) :
    ∃ s, ((genesis config height).run requests).1.IsAt s ∧
      ((genesis config height).run requests).1.config = config ∧
      s.archive = (genesis config height).archive .empty requests ∧
      s.past = (genesis config height).recordAll .empty requests ∧ P s := by
  have hobeys : (genesis config height).Obeys (fun _ _ => True) requests :=
    .of_forall fun _ _ => trivial
  exact hobeys.course_induction (fun _ => hstep) (isAt_genesis config height) rfl hP

end Gadget

end ImpliedFinality
