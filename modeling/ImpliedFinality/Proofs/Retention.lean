import ImpliedFinality.Proofs.Course

/-!
# Which snapshots new parameters take away

Parameters that replace those of the same height take the snapshot of the old ones away, unless a
stored record still names it. Only stored records are asked. So a set that applied to blocks of the
past loses its snapshot when its old records were pruned, it was proposed again, and that proposal
is replaced before the next block. In every other case the snapshot stays.
-/

namespace ImpliedFinality

namespace Timeline

theorem exactly?_timeline {α : Type} (t : Table Height α) (k : Height) :
    t.timeline.exactly? k = t.get? k := by
  have hcompare : ∀ j : Height, decide (j = k) = (compare j k == .eq) := by
    intro j
    rw [Bool.eq_iff_iff, decide_eq_true_eq, beq_iff_eq, Std.LawfulEqOrd.compare_eq_iff_eq]
  simp only [exactly?, Table.get?, hcompare]

/-- A snapshot goes if the replaced record, and no other one, names it. -/
theorem orphaned?_eq_some {t : Table Height Parameters} {height : Height} {hash d : Digest} :
    t.timeline.orphaned? height hash = some d ↔
      (∃ old, t.get? height = some old ∧ old.validatorsHash = d) ∧ hash ≠ d ∧
        ∀ k q, t.get? k = some q → q.validatorsHash = d → k = height := by
  rw [orphaned?, exactly?_timeline]
  cases t.get? height with
  | none => simp
  | some old =>
    have hother : (t.timeline.any fun r => r.1 ≠ height ∧ r.2.validatorsHash = old.validatorsHash)
        = true ↔ ∃ k q, t.get? k = some q ∧ k ≠ height ∧ q.validatorsHash = old.validatorsHash := by
      simp [Table.get?_eq_some]
    simp only [Option.some.injEq, exists_eq_left']
    split
    case isTrue hkept =>
      simp only [reduceCtorEq, false_iff]
      rintro ⟨rfl, hrenamed, honly⟩
      rcases hkept with hsame | hnamed
      · exact hrenamed hsame.symm
      · obtain ⟨k, q, hk, hne, hnames⟩ := hother.mp hnamed
        exact hne (honly k q hk hnames)
    case isFalse hgone =>
      rw [not_or] at hgone
      simp only [Option.some.injEq]
      constructor
      · rintro rfl
        refine ⟨rfl, fun hsame => hgone.1 hsame.symm, fun k q hk hnames => ?_⟩
        exact Decidable.of_not_not fun hne => hgone.2 (hother.mpr ⟨k, q, hk, hne, hnames⟩)
      · rintro ⟨hd, -⟩
        exact hd

end Timeline

/-- New parameters bring their snapshot and may take one away. -/
theorem Contents.get?_snapshots_proposalChanges (c : Contents) (l : Ledger) (height : Height)
    (new : Parameters) (d : Digest) :
    (c.applyAll (c.proposalChanges l height new)).snapshots.get? d =
      if new.validatorsHash = d then some (new.snapshot height)
      else if c.parameters.timeline.orphaned? height new.validatorsHash = some d then none
      else c.snapshots.get? d := by
  rw [proposalChanges, applyAll_append]
  cases c.parameters.timeline.orphaned? height new.validatorsHash with
  | none => simp [apply, Table.get?_insert, Parameters.snapshot]
  | some old => simp [apply, Table.get?_insert, Table.get?_erase, Parameters.snapshot]

namespace Core

variable {batchSize : Nat} {s next : Core} {r : Request} {taken : Option Header} {past : Chronicle}

/-- No header that was taken in is above the newest block. Without room for blocks no parameters
are ever set, and nothing is said. -/
def Tops (batchSize : Nat) (s : Core) (headers : List Header) : Prop :=
  0 < batchSize → ∀ header ∈ headers,
    ∃ newest, s.ledger.newest? = some newest ∧ header.height ≤ newest.height

theorem Tops.step (h : s.Tops batchSize past.headers) (hw : Consecutive s.ledger.window)
    (hstep : Step batchSize s r taken next) :
    next.Tops batchSize (past.after batchSize s taken).headers := by
  cases hstep with
  | unchanged => exact h
  | parametersSet accepted starts => exact h
  | @blockTaken block ledger follows processed =>
    intro hpos header hheader
    have htakes := Ledger.takes_of_process hw follows processed
    refine ⟨_, htakes.newest?_eq (Nat.mul_pos (Nat.succ_pos 2) hpos), ?_⟩
    rw [Ledger.height_counted]
    rcases List.mem_cons.mp hheader with rfl | hold
    · exact Nat.le_refl _
    · obtain ⟨newest, hnewest, hle⟩ := h hpos header hold
      have hnext := Ledger.checkFollows_eq_ok.mp follows newest hnewest
      exact Nat.le_trans hle (Nat.le_trans (Nat.le_succ _) (Nat.le_of_eq hnext.symm))

/-- New parameters apply above every header that was taken in. -/
theorem Tops.lt {headers : List Header} (h : s.Tops batchSize headers) (hpos : 0 < batchSize)
    (hw : Consecutive s.ledger.window) {header : Header} (hheader : header ∈ headers)
    {height : Height} (starts : s.ledger.nextHeight = .ok height) : header.height < height := by
  obtain ⟨newest, hnewest, hle⟩ := h hpos header hheader
  have hlt := Ledger.lt_of_nextHeight hw starts (List.mem_of_head? hnewest)
  exact Nat.lt_of_le_of_lt hle hlt

end Core

/-- What is stored was set and not replaced. -/
def Recorded (c : Contents) (all : Table Height Parameters) : Prop :=
  ∀ k q, c.parameters.get? k = some q → all.get? k = some q

theorem Course.Step.recorded {batchSize : Nat} {s s' : Course} {r : Request}
    (hstep : Step batchSize s r s') (h : Recorded s.contents s.archive) :
    Recorded s'.contents s'.archive := by
  cases hstep with
  | unchanged => exact h
  | @parametersSet proposal aggregate height accepted starts =>
    rw [Recorded, (s.contents.applyAll_proposalChanges s.ledger height _).2.1,
      Proposal.outcome_eq accepted]
    intro k q hq
    rw [Table.get?_insert] at hq ⊢
    split at hq
    case isTrue hk => rw [if_pos hk, hq]
    case isFalse hk => rw [if_neg hk, h k q hq]
  | blockTaken follows processed =>
    rw [Recorded, Contents.applyAll_blockChanges]
    exact Table.forall_get?_eraseAll h
  | snapshotsPruned => exact h

namespace Gadget

variable {g : Gadget} {c : Contents} {l : Ledger} {all : Table Height Parameters}

theorem recorded_run (requests : List Request) (hholds : g.store.Holds c)
    (hledger : c.ledger = some l) (h : Recorded c all) :
    ∃ c' l', (g.run requests).1.store.Holds c' ∧ c'.ledger = some l' ∧
      Recorded c' (g.archive all requests) := by
  have hobeys : g.Obeys (fun _ _ => True) requests := .of_forall fun _ _ => trivial
  obtain ⟨s, hat, -, harchive, -, hrecorded⟩ := hobeys.course_induction
    (P := fun s => Recorded s.contents s.archive) (fun _ => Course.Step.recorded)
    (s := ⟨c, l, all, .empty⟩) ⟨hholds, hledger⟩ rfl h
  exact ⟨s.contents, s.ledger, hat.holds, hat.ledger, harchive ▸ hrecorded⟩

/-- A proposal replaces the only stored record that names a set. -/
structure Orphans (g : Gadget) (update : ParametersUpdate) (d : Digest) : Prop where
  replaced : ∃ old, g.store.parametersAt? update.height = .ok (some old) ∧ old.validatorsHash = d
  renamed : update.validatorsHash ≠ d
  only : ∀ k q, g.store.parametersAt? k = .ok (some q) → q.validatorsHash = d → k = update.height

theorem orphans_iff (hholds : g.store.Holds c) {height : Height} {hash d : Digest} :
    g.Orphans ⟨height, hash⟩ d ↔ c.parameters.timeline.orphaned? height hash = some d := by
  have hread : ∀ k q, g.store.parametersAt? k = .ok (some q) ↔ c.parameters.get? k = some q := by
    intro k q
    rw [hholds.parametersAt?, Except.ok.injEq]
  rw [Timeline.orphaned?_eq_some]
  constructor
  · rintro ⟨⟨old, hold, hd⟩, hrenamed, honly⟩
    exact ⟨⟨old, (hread _ _).mp hold, hd⟩, hrenamed,
      fun k q hk hq => honly k q ((hread k q).mpr hk) hq⟩
  · rintro ⟨⟨old, hold, hd⟩, hrenamed, honly⟩
    exact ⟨⟨old, (hread _ _).mpr hold, hd⟩, hrenamed,
      fun k q hk hq => honly k q ((hread k q).mp hk) hq⟩

theorem snapshot?_eq_ok (hholds : g.store.Holds c) {d : Digest} {found : Option Snapshot} :
    g.snapshot? d = .ok found ↔ c.snapshots.get? d = found := by
  rw [Gadget.snapshot?, hholds.snapshot?, Failure.ofStore, Except.ok.injEq]

/-- A stored snapshot survives a proposal unless the proposal orphans it. -/
theorem snapshot_kept_iff (hholds : g.store.Holds c) (hledger : c.ledger = some l) {d : Digest}
    {snapshot : Snapshot} (stored : g.snapshot? d = .ok (some snapshot)) (proposal : Proposal) :
    (∃ kept, (g.setParameters proposal).gadget.snapshot? d = .ok (some kept)) ↔
      ¬∃ update, (g.setParameters proposal).answer = .ok (some update) ∧ g.Orphans update d := by
  rcases setParameters_cases hholds hledger proposal with
    ⟨e, he⟩ | ⟨hsame, -⟩ | ⟨aggregate, n, store, haccepted, hstarts, hdone, hstore⟩
  · rw [he]
    simp [unchanged, stored]
  · rw [hsame]
    simp [unchanged, stored]
  · have hbefore : c.snapshots.get? d = some snapshot := (snapshot?_eq_ok hholds).mp stored
    simp only [hdone, Except.ok.injEq, Option.some.injEq, exists_eq_left',
      orphans_iff hholds]
    have hafter : ∀ found, Gadget.snapshot? { g with store } d = .ok found ↔ _ = found :=
      fun found => snapshot?_eq_ok hstore
    simp only [hafter, Contents.get?_snapshots_proposalChanges]
    split
    case isTrue hnames =>
      refine ⟨fun _ horphaned => ?_, fun _ => ⟨_, rfl⟩⟩
      exact (Timeline.orphaned?_eq_some.mp horphaned).2.1 hnames
    case isFalse =>
      split
      case isTrue horphaned => exact ⟨nofun, fun hkept => absurd horphaned hkept⟩
      case isFalse hkept => exact ⟨fun _ => hkept, fun _ => ⟨snapshot, hbefore⟩⟩

/-- No header that a run took in is above the newest block. -/
theorem exists_tops (config : GadgetConfig) (height : Height) (requests : List Request) :
    ∃ s, ((genesis config height).run requests).1.Shows s ∧
      ((genesis config height).run requests).1.config = config ∧
      s.Sound config.batchSize ∧
      s.Tops config.batchSize ((genesis config height).recordAll .empty requests).headers := by
  have hobeys : (genesis config height).Obeys (fun _ _ => True) requests :=
    .of_forall fun _ _ => trivial
  refine hobeys.run_induction
    (P := fun s past => s.Sound config.batchSize ∧ s.Tops config.batchSize past.headers) ?_ .empty
    (shows_genesis config height) rfl ⟨Core.sound_genesis _ height, fun _ _ h => nomatch h⟩
  rintro g s s' past r - - hstep ⟨hsound, htops⟩
  exact ⟨hsound.step hstep, htops.step hsound.consecutive hstep⟩

/-- An accepted proposal is for a height above every header that a run took in. -/
theorem lt_height_of_setParameters (config : GadgetConfig) (height : Height)
    (requests : List Request) {header : Header}
    (taken : header ∈ ((genesis config height).recordAll .empty requests).headers)
    {proposal : Proposal} {update : ParametersUpdate}
    (accepted : (((genesis config height).run requests).1.setParameters proposal).answer =
      .ok (some update)) : header.height < update.height := by
  obtain ⟨s, ⟨c, hholds, hledger, -⟩, hconfig, hsound, htops⟩ :=
    exists_tops config height requests
  rcases setParameters_cases hholds hledger proposal with
    ⟨e, he⟩ | ⟨hsame, -⟩ | ⟨aggregate, n, store, haccepted, hstarts, hdone, -⟩
  · rw [he] at accepted
    cases accepted
  · rw [hsame] at accepted
    cases accepted
  · rw [hdone] at accepted
    cases accepted
    have hparameters : Parameters.Accepted config.batchSize
        (proposal.sorted.parameters aggregate) := ⟨_, _, hconfig ▸ haccepted, rfl⟩
    exact htops.lt hparameters.batchSize_pos hsound.consecutive taken hstarts

/-- The snapshot of parameters that applied to a block survives a proposal, unless the proposal
orphans it. That happens only if their own record was pruned, although the set is stored once more
for the height that the proposal is for. -/
theorem historical_snapshot_kept_iff (config : GadgetConfig) (height : Height)
    (requests : List Request) (header : Header)
    (taken : header ∈ ((genesis config height).recordAll .empty requests).headers)
    (k : Height) (p : Parameters)
    (applied : ((genesis config height).archive .empty requests).timeline.at? header.height
      = some (k, p))
    (snapshot : Snapshot)
    (stored : ((genesis config height).run requests).1.snapshot? p.validatorsHash
      = .ok (some snapshot))
    (proposal : Proposal) :
    let g := ((genesis config height).run requests).1
    ((∃ kept, (g.setParameters proposal).gadget.snapshot? p.validatorsHash = .ok (some kept)) ↔
        ¬∃ update, (g.setParameters proposal).answer = .ok (some update) ∧
          g.Orphans update p.validatorsHash) ∧
      ∀ update, (g.setParameters proposal).answer = .ok (some update) →
        g.Orphans update p.validatorsHash →
          header.height < update.height ∧ g.store.parametersAt? k = .ok none := by
  intro g
  have hempty : Recorded { Contents.empty with ledger := some (.genesis height) } .empty := nofun
  obtain ⟨c, l, hholds, hledger, hrecorded⟩ :=
    recorded_run requests (holds_genesis config height) rfl hempty
  refine ⟨snapshot_kept_iff hholds hledger stored proposal, fun update hanswer horphans => ?_⟩
  have hlt := lt_height_of_setParameters config height requests taken hanswer
  obtain ⟨hk, hle, -⟩ := Timeline.at?_eq_some.mp applied
  refine ⟨hlt, ?_⟩
  rw [hholds.parametersAt?]
  cases hget : c.parameters.get? k with
  | none => rfl
  | some q =>
    -- a stored record is the archived one, which names the set below the orphaning height
    cases (hrecorded k q hget).symm.trans hk
    have hsame : k = update.height := by
      apply horphans.only k p _ rfl
      rw [hholds.parametersAt?, hget]
    rw [hsame] at hle
    exact absurd hle (Height.not_le.mpr hlt)

end Gadget

namespace Solo

/-- The proposal that gives the validator a weight. -/
def weighing (n : UInt8) : Proposal :=
  ⟨weight n, weight n, [{ validator with weight := weight n }]⟩

/-- After the first block the validator gets another weight. -/
def reweighing : List Request :=
  [.setParameters (weighing 1), .processBlock (confirming 1), .setParameters (weighing 2)]

/-- Four blocks are taken in, so that the parameters of the first one are pruned, and then the
validator gets its first weight again. -/
def recurrence : List Request :=
  reweighing ++ [.processBlock (confirming 2), .processBlock (confirming 3),
    .processBlock (confirming 4), .setParameters (weighing 1)]

end Solo

namespace Gadget

open Solo (weighing confirming reweighing recurrence)

/-- The first parameters are still stored when the second ones are replaced. -/
theorem historical_snapshot_kept_reweighing :
    let g := ((genesis Solo.config .zero).run reweighing).1
    ∃ kept, (g.setParameters (weighing 3)).gadget.snapshot? (weighing 1).outcome.validatorsHash =
      .ok (some kept) := by
  intro g
  obtain ⟨hiff, hpruned⟩ := historical_snapshot_kept_iff Solo.config .zero reweighing (confirming 1)
    (by decide +kernel) (Solo.height 1) (weighing 1).outcome (by decide +kernel)
    ((weighing 1).outcome.snapshot (Solo.height 1)) (by decide +kernel) (weighing 3)
  apply hiff.mpr
  rintro ⟨update, hanswer, horphans⟩
  have hnone := (hpruned update hanswer horphans).2
  have hstored : g.store.parametersAt? (Solo.height 1) = .ok (some (weighing 1).outcome) := by
    decide +kernel
  exact absurd (hnone.symm.trans hstored) nofun

/-- The snapshot of the first block's parameters goes with a proposal that is replaced at once. -/
theorem historical_snapshot_lost_recurrence :
    let g := ((genesis Solo.config .zero).run recurrence).1
    let p := (weighing 1).outcome
    confirming 1 ∈ ((genesis Solo.config .zero).recordAll .empty recurrence).headers ∧
      ((genesis Solo.config .zero).archive .empty recurrence).timeline.at? (confirming 1).height =
        some (Solo.height 1, p) ∧
      g.snapshot? p.validatorsHash = .ok (some (p.snapshot (Solo.height 5))) ∧
      (g.setParameters (weighing 3)).gadget.snapshot? p.validatorsHash = .ok none := by
  intro g p
  refine ⟨?_, ?_, ?_, ?_⟩
  · decide +kernel
  · decide +kernel
  · decide +kernel
  · decide +kernel

end Gadget

end ImpliedFinality
