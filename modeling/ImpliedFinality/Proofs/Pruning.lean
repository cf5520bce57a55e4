import ImpliedFinality.Proofs.Accountability
import ImpliedFinality.Proofs.Progress

/-!
# What pruning leaves alone

A gadget forgets parameters that another record replaced before the oldest retained block and the
first height that is not certified. Beside a run we keep an archive of all parameters that it set.
At every height that the ledger still needs, the gadget answers from its records what the archive
says: needed heights stay needed only upwards, and what is dropped at a block does not apply to any
height that is still needed after it. As the archive has parameters for all heights that are not
certified, no block that follows the newest one fails for the want of any.
-/

namespace ImpliedFinality

namespace Ledger

variable {l next : Ledger} {schedule : Timeline Parameters} {header : Header} {limit : Nat}
  {k : Height}

/-- Heights are needed from the oldest retained block on, or above the certified height. While no
block is retained all of them are. -/
def Needs (l : Ledger) (k : Height) : Prop :=
  ∀ oldest, l.window.getLast? = some oldest → oldest.height ≤ k ∨ l.watermarks.certified < k

theorem needs_genesis (height k : Height) : (genesis height).Needs k := by
  intro oldest holdest
  contradiction

theorem Needs.neededFrom_le (h : l.Needs k) (hwindow : l.window ≠ []) (newest : Height) :
    l.neededFrom newest ≤ k := by
  have hlast : l.window.getLast? = some (l.window.getLast hwindow) :=
    List.getLast?_eq_some_getLast hwindow
  rw [Height.le_iff]
  simp only [neededFrom, hlast]
  rcases h _ hlast with holdest | hcertified
  · rw [Height.le_iff] at holdest
    split
    · rw [Height.toNat_min]
      omega
    · exact holdest
  · rw [Height.lt_iff] at hcertified
    split
    case h_1 uncertified hsucc =>
      rw [Height.succ?_eq_some] at hsucc
      rw [Height.toNat_min]
      omega
    case h_2 hsucc =>
      rw [Height.succ?_eq_none.mp hsucc] at hcertified
      exact absurd k.le_top (Nat.not_le.mpr hcertified)

/-- What is needed after a block was needed before it. -/
theorem Takes.needs_of_needs (h : l.Takes schedule header limit next) (hw : Consecutive l.window)
    (follows : l.checkFollows header = .ok ()) (hwindow : next.window ≠ []) (hk : next.Needs k) :
    l.Needs k := by
  intro oldest holdest
  have hlast : next.window.getLast? = some (next.window.getLast hwindow) :=
    List.getLast?_eq_some_getLast hwindow
  rcases hk _ hlast with hle | hcertified
  · left
    obtain ⟨x, hx, hcounted⟩ := h.exists_of_mem (List.mem_of_getLast? hlast)
    have hxk : x.height ≤ k := by
      rw [← height_counted (l.append header limit) schedule header.generator x, hcounted]
      exact hle
    refine Nat.le_trans ?_ hxk
    rcases mem_append hx with rfl | hold
    · exact Nat.le_of_lt (lt_of_checkFollows hw follows (List.mem_of_getLast? holdest))
    · exact hw.getLast_le holdest hold
  · right
    rcases h.certified with heq | ⟨hlt, -⟩
    · rwa [← heq]
    · exact Nat.lt_trans hlt hcertified

end Ledger

namespace Gadget

/-- The archive after a request: parameters that are set replace those for the same height. -/
def archived (g : Gadget) (all : Table Height Parameters) : Request → Table Height Parameters
  | .setParameters proposal =>
    match (g.setParameters proposal).answer with
    | .ok (some update) => all.insert update.height proposal.outcome
    | _ => all
  | .processBlock _ => all
  | .pruneSnapshots _ => all

/-- The archive after a list of requests. -/
def archive (g : Gadget) (all : Table Height Parameters) : List Request → Table Height Parameters
  | [] => all
  | r :: rest => (g.step r).1.archive (g.archived all r) rest

/-- Whether a request proposes parameters and succeeds. -/
def sets (g : Gadget) : Request → Bool
  | .setParameters proposal => (g.setParameters proposal).answer.isOk
  | .processBlock _ => false
  | .pruneSnapshots _ => false

/-- Some proposal succeeds before a block is taken in. -/
def Founded (g : Gadget) : List Request → Prop
  | [] => True
  | r :: rest => g.sets r = true ∨ g.taken? r = none ∧ (g.step r).1.Founded rest

end Gadget

/-- What ties the contents of a store to the archive. -/
structure Archived (batchSize : Nat) (height : Height) (c : Contents) (l : Ledger)
    (all : Table Height Parameters) : Prop where
  ledger : c.ledger = some l
  sound : Core.Sound batchSize ⟨l, c.parameters⟩
  parameters : ∀ k, l.Needs k → c.parameters.timeline.at? k = all.timeline.at? k
  generators : ∀ k, l.Needs k → c.generators.timeline.at? k =
    (all.timeline.at? k).map (Prod.map id fun p => p.validators.generators)
  /-- The first parameters apply from the first height that is not certified, or below. -/
  started : all = .empty ∧ l = .genesis height ∨
    0 < batchSize ∧ ∃ k, (∃ p, all.get? k = some p) ∧ k.toNat ≤ l.watermarks.certified.toNat + 1

namespace Archived

variable {batchSize : Nat} {height : Height} {c : Contents} {l next : Ledger}
  {all : Table Height Parameters}

theorem genesis (batchSize : Nat) (height : Height) :
    Archived batchSize height { Contents.empty with ledger := some (.genesis height) }
      (.genesis height) .empty where
  ledger := rfl
  sound := Core.sound_genesis batchSize height
  parameters _ _ := rfl
  generators _ _ := rfl
  started := .inl ⟨rfl, rfl⟩

/-- Once parameters were set, some apply at each height that is not certified. -/
theorem exists_effective? (h : Archived batchSize height c l all) (hall : all ≠ .empty) {k : Height}
    (hk : l.watermarks.certified < k) : ∃ p, c.parameters.timeline.effective? k = some p := by
  rcases h.started with ⟨hempty, -⟩ | ⟨-, start, ⟨p, hstart⟩, hle⟩
  · exact absurd hempty hall
  have hneeds : l.Needs k := fun _ _ => .inr hk
  rw [Timeline.effective?, h.parameters k hneeds]
  have hstarted : start ≤ k := Nat.le_trans hle hk
  obtain ⟨r, hr⟩ := Timeline.exists_at?_of_get? hstart hstarted
  exact ⟨r.2, by rw [hr, Option.map_some]⟩

/-- Parameters that are set go into the store and into the archive. -/
theorem setParameters (h : Archived batchSize height c l all) {proposal : Proposal}
    {aggregate : Weight} {n : Height} (accepted : proposal.sorted.check batchSize = .ok aggregate)
    (starts : l.nextHeight = .ok n) :
    Archived batchSize height
      (c.applyAll (c.proposalChanges l n (proposal.sorted.parameters aggregate)))
      (l.track n proposal.sorted.validators (c.parameters.timeline.outgoing n))
      (all.insert n proposal.outcome) := by
  obtain ⟨hledger, hparameters, hgenerators⟩ :=
    c.applyAll_proposalChanges l n (proposal.sorted.parameters aggregate)
  have hget := fun k => all.get?_insert_ite n k proposal.outcome
  constructor
  case ledger => exact hledger
  case sound =>
    rw [hparameters]
    exact h.sound.step (.parametersSet accepted starts)
  case parameters =>
    intro k hk
    rw [hparameters, Timeline.at?_insert, Timeline.at?_insert, h.parameters k hk,
      Proposal.outcome_eq accepted]
  case generators =>
    intro k hk
    rw [hgenerators, Proposal.outcome_eq accepted]
    exact Timeline.at?_insert_map (h.generators k hk) n proposal.outcome
  case started =>
    right
    have haccepted : Parameters.Accepted batchSize (proposal.sorted.parameters aggregate) :=
      ⟨_, _, accepted, rfl⟩
    refine ⟨haccepted.batchSize_pos, ?_⟩
    rcases h.started with ⟨-, rfl⟩ | ⟨-, k, ⟨p, hp⟩, hle⟩
    · refine ⟨n, ⟨proposal.outcome, by rw [hget, if_pos rfl]⟩, ?_⟩
      exact Nat.le_of_eq (Ledger.nextHeight_eq_ok.mp starts).symm
    · refine ⟨k, ?_, hle⟩
      rw [hget]
      split
      · exact ⟨_, rfl⟩
      · exact ⟨p, hp⟩

/-- A block takes away nothing that is needed after it. -/
theorem processBlock (h : Archived batchSize height c l all) (hall : all ≠ .empty)
    {header : Header} (follows : l.checkFollows header = .ok ())
    (processed : l.process c.parameters.timeline header (3 * batchSize) = .ok next) :
    Archived batchSize height (c.applyAll (c.blockChanges next header)) next all := by
  rcases h.started with ⟨hempty, -⟩ | ⟨hpos, start, hstart, hle⟩
  · exact absurd hempty hall
  have htakes := Ledger.takes_of_process h.sound.consecutive follows processed
  have hwindow : next.window ≠ [] := by
    have hlimit : 0 < 3 * batchSize := Nat.mul_pos (Nat.succ_pos 2) hpos
    exact List.ne_nil_of_mem (List.mem_of_head? (htakes.newest?_eq hlimit))
  have hneeded : ∀ k, next.Needs k → next.neededFrom header.height ≤ k :=
    fun k hk => hk.neededFrom_le hwindow header.height
  have hneeds : ∀ k, next.Needs k → l.Needs k :=
    fun k hk => htakes.needs_of_needs h.sound.consecutive follows hwindow hk
  have hsound := h.sound.step (.blockTaken follows processed)
  rw [Contents.applyAll_blockChanges]
  constructor
  case ledger => rfl
  case sound => exact hsound
  case parameters =>
    intro k hk
    rw [Timeline.at?_eraseAll_stale (hneeded k hk), h.parameters k (hneeds k hk)]
  case generators =>
    intro k hk
    rw [Timeline.at?_eraseAll_stale (hneeded k hk), h.generators k (hneeds k hk)]
  case started =>
    refine .inr ⟨hpos, start, hstart, Nat.le_trans hle ?_⟩
    exact Nat.succ_le_succ (h.sound.risesTo (.blockTaken follows processed)).certified_le

/-- Deleting snapshots has no part in it. -/
theorem pruneSnapshots (h : Archived batchSize height c l all) (snapshots : Table Digest Snapshot) :
    Archived batchSize height { c with snapshots } l all :=
  ⟨h.ledger, h.sound, h.parameters, h.generators, h.started⟩

end Archived

namespace Gadget

variable {g : Gadget} {batchSize : Nat} {height : Height} {c : Contents} {l : Ledger}
  {all : Table Height Parameters}

/-- The archive is never emptied. -/
theorem archived_ne_empty (hall : all ≠ .empty) (r : Request) : g.archived all r ≠ .empty := by
  cases r with
  | setParameters proposal =>
    rw [archived]
    split
    · exact Table.insert_ne_empty all _ _
    · exact hall
  | processBlock header => exact hall
  | pruneSnapshots k => exact hall

/-- A proposal that succeeds is archived, or says what the archive says already. -/
theorem archived_ne_empty_of_sets (hholds : g.store.Holds c)
    (h : Archived batchSize height c l all) {r : Request} (hsets : g.sets r = true) :
    g.archived all r ≠ .empty := by
  cases r with
  | processBlock header => contradiction
  | pruneSnapshots k => contradiction
  | setParameters proposal =>
    rw [sets] at hsets
    rcases setParameters_cases hholds h.ledger proposal with
      ⟨e, he⟩ | ⟨-, n, hsame⟩ | ⟨aggregate, n, store, -, -, hdone, -⟩
    · rw [he] at hsets
      contradiction
    · apply archived_ne_empty
      rintro rfl
      -- nothing applies anywhere as long as nothing was archived
      rcases h.started with ⟨-, rfl⟩ | ⟨-, k, ⟨p, hp⟩, -⟩
      · rw [Timeline.effective?, h.parameters n (Ledger.needs_genesis height n)] at hsame
        contradiction
      · contradiction
    · rw [archived, hdone]
      exact Table.insert_ne_empty all _ _

/-- Every request keeps the store tied to the archive, if no block is taken in before parameters
are set. -/
theorem archived_step (hholds : g.store.Holds c) (h : Archived g.config.batchSize height c l all)
    (r : Request) (hfounded : all ≠ .empty ∨ g.taken? r = none) :
    ∃ c' l', (g.step r).1.store.Holds c' ∧
      Archived g.config.batchSize height c' l' (g.archived all r) := by
  cases r with
  | setParameters proposal =>
    rcases setParameters_cases hholds h.ledger proposal with
      ⟨e, he⟩ | ⟨hsame, -⟩ | ⟨aggregate, n, store, haccepted, hstarts, hdone, hstore⟩
    · rw [archived, step, he]
      exact ⟨c, l, hholds, h⟩
    · rw [archived, step, hsame]
      exact ⟨c, l, hholds, h⟩
    · rw [archived, step, hdone]
      exact ⟨_, _, hstore, h.setParameters haccepted hstarts⟩
  | processBlock header =>
    rcases processBlock_cases hholds h.ledger header with
      ⟨e, he⟩ | ⟨next, store, hfollows, hprocess, hdone, hstore⟩
    · rw [archived, step, he]
      exact ⟨c, l, hholds, h⟩
    · have hall : all ≠ .empty := by
        apply hfounded.resolve_right
        rw [taken?, hdone]
        exact Option.some_ne_none header
      rw [archived, step, hdone]
      exact ⟨_, next, hstore, h.processBlock hall hfollows hprocess⟩
  | pruneSnapshots k =>
    rcases pruneSnapshots_cases hholds k with ⟨answer, hsame⟩ | ⟨unused, store, hdone, hstore⟩
    · rw [archived, step, hsame]
      exact ⟨c, l, hholds, h⟩
    · rw [archived, step, hdone]
      exact ⟨_, l, hstore, h.pruneSnapshots _⟩

/-- A run that sets parameters before it takes in a block keeps the store tied to the archive. -/
theorem archived_run (requests : List Request) (hholds : g.store.Holds c)
    (hconfig : g.config.batchSize = batchSize) (h : Archived batchSize height c l all)
    (hfounded : all ≠ .empty ∨ g.Founded requests) :
    ∃ c' l', (g.run requests).1.store.Holds c' ∧ (g.run requests).1.config.batchSize = batchSize ∧
      Archived batchSize height c' l' (g.archive all requests) := by
  induction requests generalizing g c l all with
  | nil => exact ⟨c, l, hholds, hconfig, h⟩
  | cons r rest ih =>
    subst hconfig
    have htaken : all ≠ .empty ∨ g.taken? r = none := by
      rcases hfounded with hall | hsets | ⟨hnone, -⟩
      · exact .inl hall
      · right
        cases r with
        | setParameters proposal => rfl
        | processBlock header => contradiction
        | pruneSnapshots k => rfl
      · exact .inr hnone
    have hrest : g.archived all r ≠ .empty ∨ (g.step r).1.Founded rest := by
      rcases hfounded with hall | hsets | ⟨-, hrest⟩
      · exact .inl (archived_ne_empty hall r)
      · exact .inl (archived_ne_empty_of_sets hholds h hsets)
      · exact .inr hrest
    obtain ⟨c', l', hholds', h'⟩ := archived_step hholds h r htaken
    exact ih hholds' (congrArg GadgetConfig.batchSize (config_step g r)) h' hrest

/-- Needed parameters read as they are archived. -/
theorem parameters_eq_archived (hholds : g.store.Holds c) (h : Archived batchSize height c l all)
    {k : Height} (hk : l.Needs k) : g.parameters k = all.timeline.require k := by
  have hread : g.parameters k = c.parameters.timeline.require k := by
    rw [Gadget.parameters, hholds.parameters]
    rfl
  rw [hread, Timeline.require, Timeline.require, Timeline.effective?, Timeline.effective?,
    h.parameters k hk]

/-- Needed generators are those of the archived parameters. -/
theorem generators_eq_archived (hholds : g.store.Holds c) (h : Archived batchSize height c l all)
    {k : Height} (hk : l.Needs k) :
    g.generators k = (all.timeline.require k).map fun p => p.validators.generators := by
  have heffective : c.generators.timeline.effective? k
      = (all.timeline.effective? k).map fun p => p.validators.generators := by
    rw [Timeline.effective?, h.generators k hk, Timeline.effective?, Option.map_map, Option.map_map]
    rfl
  simp only [Gadget.generators, hholds.generators, Failure.ofStore, bind, Except.bind, heffective,
    Timeline.require]
  cases all.timeline.effective? k <;> rfl

/-- Once parameters were set, a block is taken in if it has the right height. Only if there is a
block at every height below the greatest one, and all of them are retained, the ledger has no room
for the last one. -/
theorem processBlock_answer (hholds : g.store.Holds c)
    (h : Archived g.config.batchSize height c l all) (hall : all ≠ .empty) {header : Header}
    (reported : header.maxHeightGenerated < .top) :
    (g.processBlock header).answer.isOk = true ∨
      (∃ expected, (g.processBlock header).answer
        = .error (.unexpectedHeight header.height expected)) ∨
      (∃ e, (g.processBlock header).answer = .error (.store e)) ∧ header.height = .top ∧
        l.window.length = Height.top.toNat ∧ Height.top.toNat < 3 * g.config.batchSize := by
  cases hfollows : l.checkFollows header with
  | error e =>
    obtain ⟨expected, rfl⟩ := Ledger.checkFollows_eq_error hfollows
    rw [processBlock, hholds.planBlock h.ledger, hfollows]
    exact .inr (.inl ⟨expected, rfl⟩)
  | ok _ =>
    obtain ⟨next, hprocess⟩ := Ledger.exists_process h.sound.ordered
      (fun k hk => h.exists_effective? hall hk) h.sound.consecutive hfollows reported
      (3 * g.config.batchSize)
    rcases processBlock_of_process hholds h.ledger h.sound.consecutive hfollows hprocess with
      hok | ⟨htop, hfull, hlarge, hstore⟩
    · exact .inl hok
    · exact .inr (.inr ⟨hstore, htop, hfull, hlarge⟩)

/-- After a run that sets parameters before it takes in a block, the store is tied to the archive of
the run. -/
theorem exists_archived (config : GadgetConfig) (height : Height) (requests : List Request)
    (founded : (genesis config height).Founded requests) :
    ∃ c l, ((genesis config height).run requests).1.store.Holds c ∧
      ((genesis config height).run requests).1.config.batchSize = config.batchSize ∧
      Archived config.batchSize height c l ((genesis config height).archive .empty requests) := by
  have hbegins : (genesis config height).config.batchSize = config.batchSize := rfl
  exact archived_run requests (holds_genesis config height) hbegins
    (Archived.genesis config.batchSize height) (.inr founded)

/-- In a run that sets parameters before it takes in a block, pruning goes unnoticed. At every
height that the ledger needs, parameters and generators are those that the archive has. And once
parameters were set, a block that reports no impossible height is taken in or has the wrong height,
unless the ledger retains a block at every height below the greatest one. -/
theorem pruning_unnoticed (config : GadgetConfig) (height : Height) (requests : List Request)
    (founded : (genesis config height).Founded requests) :
    let g := ((genesis config height).run requests).1
    let all := (genesis config height).archive .empty requests
    ∃ l, g.store.ledger = .ok l ∧
      (∀ k, l.Needs k → g.parameters k = all.timeline.require k ∧
        g.generators k = (all.timeline.require k).map fun p => p.validators.generators) ∧
      (all ≠ .empty → ∀ header : Header, header.maxHeightGenerated < .top →
        (g.processBlock header).answer.isOk = true ∨
        (∃ expected, (g.processBlock header).answer
          = .error (.unexpectedHeight header.height expected)) ∨
        (∃ e, (g.processBlock header).answer = .error (.store e)) ∧ header.height = .top ∧
          l.window.length = Height.top.toNat ∧ Height.top.toNat < 3 * config.batchSize) := by
  intro g all
  obtain ⟨c, l, hholds, hconfig, h⟩ := exists_archived config height requests founded
  refine ⟨l, hholds.ledger h.ledger, fun k hk => ?_, fun hall header reported => ?_⟩
  · exact ⟨parameters_eq_archived hholds h hk, generators_eq_archived hholds h hk⟩
  · rw [← hconfig] at h ⊢
    exact processBlock_answer hholds h hall reported

/-- Three times this batch size is the greatest height. Up to it there is always room in the ledger:
once parameters were set, a block that reports no impossible height is taken in or has the wrong
height. -/
theorem taken_or_unexpectedHeight (config : GadgetConfig) (height : Height)
    (requests : List Request) (founded : (genesis config height).Founded requests)
    (room : config.batchSize ≤ 1431655765)
    (set : (genesis config height).archive .empty requests ≠ .empty) {header : Header}
    (reported : header.maxHeightGenerated < .top) :
    let g := ((genesis config height).run requests).1
    (g.processBlock header).answer.isOk = true ∨
      ∃ expected, (g.processBlock header).answer
        = .error (.unexpectedHeight header.height expected) := by
  intro g
  obtain ⟨c, l, hholds, hconfig, h⟩ := exists_archived config height requests founded
  have hroom : 3 * config.batchSize ≤ Height.top.toNat := Nat.mul_le_mul_left 3 room
  rw [← hconfig] at h hroom
  rcases processBlock_answer hholds h set reported with hok | hwrong | ⟨-, -, -, hlarge⟩
  · exact .inl hok
  · exact .inr hwrong
  · exact absurd hlarge (Nat.not_lt.mpr hroom)

end Gadget

namespace Solo

/-- A block of which the commit certifies the one below. -/
def confirming (n : UInt8) : Header :=
  { header (height n) (height (n - 1)) .zero 0 with commit := ⟨height (n - 1), ⟨[1]⟩, .empty⟩ }

/-- After three blocks the validator gets another weight. Three blocks later all retained blocks
have the new parameters. -/
def renewal : List Request :=
  [.setParameters proposal, .processBlock (confirming 1), .processBlock (confirming 2),
    .processBlock (confirming 3),
    .setParameters { proposal with validators := [{ validator with weight := weight 2 }] },
    .processBlock (confirming 4), .processBlock (confirming 5), .processBlock (confirming 6)]

end Solo

namespace Gadget

/-- One of two records is dropped when the other has replaced it, which goes unnoticed. -/
theorem pruning_unnoticed_renewal :
    let g := ((genesis Solo.config .zero).run Solo.renewal).1
    let all := (genesis Solo.config .zero).archive .empty Solo.renewal
    (all.size = 2 ∧ g.store.parameters.map List.length = .ok 1) ∧
      ∃ l, g.store.ledger = .ok l ∧
        (∀ k, l.Needs k → g.parameters k = all.timeline.require k ∧
          g.generators k = (all.timeline.require k).map fun p => p.validators.generators) ∧
        ∀ header : Header, header.maxHeightGenerated < .top →
          (g.processBlock header).answer.isOk = true ∨
          ∃ expected, (g.processBlock header).answer
            = .error (.unexpectedHeight header.height expected) := by
  intro g all
  have hset : all ≠ .empty := by decide +kernel
  obtain ⟨l, hledger, hneeded, htaken⟩ :=
    pruning_unnoticed Solo.config .zero Solo.renewal (.inl (by decide +kernel))
  refine ⟨⟨by decide +kernel, by decide +kernel⟩, l, hledger, hneeded,
    fun header reported => ?_⟩
  rcases htaken hset header reported with hok | hwrong | ⟨-, -, -, hlarge⟩
  · exact .inl hok
  · exact .inr hwrong
  · exact absurd hlarge (by decide)

end Gadget

end ImpliedFinality
