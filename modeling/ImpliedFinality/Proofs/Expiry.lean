import ImpliedFinality.Proofs.Retention

/-!
# Which snapshots pruning takes away

Pruning snapshots at a height keeps those that stored records name there or above. Where the record
that applies at the height is gone, the newest of the snapshots up to there stands for its own. A
snapshot is dated by the height for which its set was last set. So in a chain above the genesis
block no snapshot is dated below the parameters that name it, and none up to the height is dated
above the ones in effect. But a proposal that was replaced may leave a snapshot of the same date.
Then the names decide, and the snapshot of the parameters in effect is lost if its name is the
smaller one.
-/

namespace ImpliedFinality

namespace Snapshot

/-- The order of snapshots, by height, and at the same height by name. -/
def Precedes (a b : Snapshot) : Prop :=
  a.activeFrom < b.activeFrom ∨
    a.activeFrom = b.activeFrom ∧ compare a.validatorsHash b.validatorsHash = .lt

variable {a b : Snapshot}

theorem Precedes.activeFrom_le (h : a.Precedes b) : a.activeFrom ≤ b.activeFrom := by
  rcases h with hlt | ⟨heq, -⟩
  · exact Nat.le_of_lt hlt
  · exact heq ▸ Nat.le_refl _

theorem Precedes.asymm (h : a.Precedes b) : ¬ b.Precedes a := by
  rintro (hba | ⟨heq, hba⟩)
  · exact Height.not_le.mpr hba h.activeFrom_le
  · rcases h with hab | ⟨-, hab⟩
    · rw [heq] at hab
      exact Nat.lt_irrefl _ hab
    · exact absurd hba (Std.OrientedCmp.not_lt_of_lt hab)

/-- Sorting by height puts snapshots that are in the order of their names into order. -/
theorem precedes_of_precede
    (h : Precede activeFrom (fun a b => compare a.validatorsHash b.validatorsHash = .lt) a b) :
    a.Precedes b := by
  rcases h with hlt | ⟨heq, hname⟩
  · exact .inl (Height.compare_eq_lt.mp hlt)
  · exact .inr ⟨Std.LawfulEqOrd.eq_of_compare heq, hname⟩

end Snapshot

/-! ## What is unused -/

namespace Contents

variable {c : Contents} {d : Digest} {s : Snapshot} {p : Height}

/-- Each snapshot is stored under its own name. -/
def Named (c : Contents) : Prop := ∀ d s, c.snapshots.get? d = some s → s.validatorsHash = d

/-- All snapshots, in the order in which they are read. -/
def ordered (c : Contents) : List Snapshot :=
  sortBy Snapshot.activeFrom (c.snapshots.entries.map (·.2))

/-- The snapshots up to a height. -/
def upTo (c : Contents) (p : Height) : List Snapshot :=
  c.ordered.filter fun s => s.activeFrom ≤ p

theorem mem_ordered : s ∈ c.ordered ↔ ∃ d, c.snapshots.get? d = some s := by
  rw [ordered, (sortBy_perm Snapshot.activeFrom _).mem_iff]
  simp [Table.get?_eq_some]

theorem mem_upTo : s ∈ c.upTo p ↔ (∃ d, c.snapshots.get? d = some s) ∧ s.activeFrom ≤ p := by
  rw [upTo, List.mem_filter, mem_ordered, decide_eq_true_eq]

theorem Named.pairwise_ordered (h : c.Named) : c.ordered.Pairwise Snapshot.Precedes := by
  have hnames : (c.snapshots.entries.map (·.2)).Pairwise fun a b =>
      compare a.validatorsHash b.validatorsHash = .lt := by
    rw [List.pairwise_map]
    apply c.snapshots.ascending.imp_of_mem
    intro x y hx hy hxy
    rw [h x.1 x.2 (Table.get?_eq_some.mpr hx), h y.1 y.2 (Table.get?_eq_some.mpr hy)]
    exact hxy
  exact (stable_sortBy _ hnames).imp Snapshot.precedes_of_precede

theorem Named.pairwise_upTo (h : c.Named) (p : Height) : (c.upTo p).Pairwise Snapshot.Precedes :=
  h.pairwise_ordered.sublist List.filter_sublist

/-- The sets that come into effect above a height. -/
def upcoming (c : Contents) (p : Height) : List Digest :=
  (c.parameters.timeline.filter fun r => p < r.1).map fun r => r.2.validatorsHash

theorem mem_upcoming :
    d ∈ c.upcoming p ↔ ∃ k q, c.parameters.get? k = some q ∧ p < k ∧ q.validatorsHash = d := by
  simp [upcoming, Table.get?_eq_some, and_assoc]

/-- The snapshots that pruning at a height takes away. -/
def expired (c : Contents) (p : Height) : List Digest :=
  let old := (c.upTo p).map Snapshot.validatorsHash
  match c.parameters.timeline.effective? p with
  | some current => old.filter fun h => !(current.validatorsHash :: c.upcoming p).contains h
  | none => old.dropLast.filter fun h => !(old.getLast?.toList ++ c.upcoming p).contains h

/-- No record that is stored for the height loses its snapshot. -/
theorem not_mem_expired_of_effective? {q : Parameters}
    (hq : c.parameters.timeline.effective? p = some q) : q.validatorsHash ∉ c.expired p := by
  simp [expired, hq]

/-- No record that is stored for a greater height does. -/
theorem not_mem_expired_of_lt {k : Height} {q : Parameters} (hq : c.parameters.get? k = some q)
    (hk : p < k) : q.validatorsHash ∉ c.expired p := by
  have hupcoming := mem_upcoming.mpr ⟨k, q, hq, hk, rfl⟩
  rw [expired]
  split
  · simp [hupcoming]
  · simp [hupcoming]

section Unnamed

variable (h : c.Named) (hs : c.snapshots.get? d = some s)
include h hs

/-- A snapshot up to a height is not the newest one if another comes after it. -/
theorem Named.mem_dropLast_upTo_iff :
    s ∈ (c.upTo p).dropLast ↔
      ∃ d' other, c.snapshots.get? d' = some other ∧ other.activeFrom ≤ p ∧ s.Precedes other := by
  rw [mem_dropLast_iff (h.pairwise_upTo p) fun _ _ => Snapshot.Precedes.asymm]
  simp only [mem_upTo]
  constructor
  · rintro ⟨-, other, ⟨⟨d', hother⟩, hle⟩, hprecedes⟩
    exact ⟨d', other, hother, hle, hprecedes⟩
  · rintro ⟨d', other, hother, hle, hprecedes⟩
    exact ⟨⟨⟨d, hs⟩, Nat.le_trans hprecedes.activeFrom_le hle⟩, other, ⟨⟨d', hother⟩, hle⟩,
      hprecedes⟩

/-- Where no stored record applies, all snapshots go that no record names, apart from the newest. -/
theorem Named.mem_expired_iff (hnone : c.parameters.timeline.effective? p = none) :
    d ∈ c.expired p ↔ (∀ k q, c.parameters.get? k = some q → q.validatorsHash ≠ d) ∧
      ∃ d' other, c.snapshots.get? d' = some other ∧ other.activeFrom ≤ p ∧ s.Precedes other := by
  have habove : ∀ k q, c.parameters.get? k = some q → p < k := by
    intro k q hq
    exact Timeline.at?_eq_none.mp (Option.map_eq_none_iff.mp hnone) _ (Table.get?_eq_some.mp hq)
  have hunique : ∀ x ∈ c.upTo p, x.validatorsHash = d → x = s := by
    rintro x hx rfl
    obtain ⟨⟨j, hj⟩, -⟩ := mem_upTo.mp hx
    obtain rfl := h j x hj
    exact Option.some.inj (hj.symm.trans hs)
  rw [← h.mem_dropLast_upTo_iff hs]
  simp only [expired, hnone, ← List.map_dropLast, List.getLast?_map, List.mem_filter,
    Bool.not_eq_true', List.contains_eq_mem, decide_eq_false_iff_not, List.mem_append, not_or,
    Option.mem_toList, List.mem_map, mem_upcoming]
  constructor
  · rintro ⟨⟨x, hx, hxd⟩, -, hunnamed⟩
    rw [← hunique x ((List.dropLast_sublist _).subset hx) hxd]
    exact ⟨fun k q hq hqd => hunnamed ⟨k, q, hq, habove k q hq, hqd⟩, hx⟩
  · rintro ⟨hunnamed, hsd⟩
    refine ⟨⟨s, hsd, h d s hs⟩, fun hlast => ?_, fun ⟨k, q, hq, _, hqd⟩ => hunnamed k q hq hqd⟩
    -- the newest snapshot comes after this one, so it has another name
    obtain ⟨last, hlast, hname⟩ := Option.map_eq_some_iff.mp hlast
    have hprecedes := before_of_mem_dropLast (h.pairwise_upTo p) hsd hlast
    obtain rfl := hunique last (List.mem_of_getLast? hlast) hname
    exact hprecedes.asymm hprecedes

end Unnamed

end Contents

theorem Store.Holds.unusedSnapshots {s : Store} {c : Contents} (h : s.Holds c) (p : Height) :
    s.unusedSnapshots p = .ok (c.expired p) := by
  simp only [Store.unusedSnapshots, h.parameters, h.snapshots, Failure.ofStore, bind, Except.bind,
    Contents.expired, List.contains_eq_mem, decide_not]
  cases c.parameters.timeline.effective? p <;> rfl

namespace Gadget

variable {g : Gadget} {c : Contents} {p : Height} {d : Digest} {s : Snapshot}

/-- Pruning takes away the unused snapshots and no other. -/
theorem snapshot?_pruneSnapshots (h : g.store.Holds c) (p : Height) (d : Digest) :
    (g.pruneSnapshots p).gadget.snapshot? d
      = .ok (if d ∈ c.expired p then none else c.snapshots.get? d) := by
  have hunused := h.unusedSnapshots p
  cases hexpired : c.expired p with
  | nil =>
    rw [hexpired] at hunused
    rw [pruneSnapshots, hunused]
    exact (snapshot?_eq_ok h).mpr rfl
  | cons first rest =>
    have hfits : ∀ change ∈ (first :: rest).map Change.deleteSnapshot, change.fits = true := by
      intro change hchange
      obtain ⟨x, -, rfl⟩ := List.mem_map.mp hchange
      rfl
    obtain ⟨store, hwrite⟩ := g.store.exists_write hfits
    have hstore := h.write hwrite
    rw [Contents.applyAll_deleteSnapshot] at hstore
    rw [hexpired] at hunused
    rw [pruneSnapshots, hunused]
    simp only [commit, hwrite]
    rw [snapshot?_eq_ok hstore, Table.get?_eraseAll]

/-- A snapshot goes where no stored record applies: no record names it, and another one up to the
height comes after it. -/
structure Superseded (g : Gadget) (p : Height) (s : Snapshot) : Prop where
  unnamed : ∀ k q, g.store.parametersAt? k = .ok (some q) → q.validatorsHash ≠ s.validatorsHash
  preceded : ∃ d other, g.snapshot? d = .ok (some other) ∧ other.activeFrom ≤ p ∧ s.Precedes other

theorem superseded_iff (h : g.store.Holds c) (named : s.validatorsHash = d) :
    g.Superseded p s ↔ (∀ k q, c.parameters.get? k = some q → q.validatorsHash ≠ d) ∧
      ∃ d' other, c.snapshots.get? d' = some other ∧ other.activeFrom ≤ p ∧ s.Precedes other := by
  subst named
  constructor
  · rintro ⟨hunnamed, d', other, hother, hafter⟩
    refine ⟨fun k q hq => hunnamed k q ?_, d', other, (snapshot?_eq_ok h).mp hother, hafter⟩
    rw [h.parametersAt?, hq]
  · rintro ⟨hunnamed, d', other, hother, hafter⟩
    refine ⟨fun k q hq => hunnamed k q ?_, d', other, (snapshot?_eq_ok h).mpr hother, hafter⟩
    rwa [h.parametersAt?, Except.ok.injEq] at hq

end Gadget

/-! ## The course of records and snapshots -/

/-- What holds of all snapshots and of that of new parameters holds once these are set. -/
theorem Contents.forall_snapshots_proposalChanges {c : Contents} {l : Ledger} {height : Height}
    {new : Parameters} {P : Digest → Snapshot → Prop}
    (h : ∀ d s, c.snapshots.get? d = some s → P d s)
    (hnew : P new.validatorsHash (new.snapshot height)) :
    ∀ d s, (c.applyAll (c.proposalChanges l height new)).snapshots.get? d = some s → P d s := by
  intro d s hs
  rw [get?_snapshots_proposalChanges] at hs
  split at hs
  case isTrue hd => exact hd ▸ Option.some.inj hs ▸ hnew
  case isFalse =>
    split at hs
    case isTrue => contradiction
    case isFalse => exact h d s hs

namespace Course

variable {batchSize : Nat} {height : Height} {s s' : Course} {r : Request}

/-- From some height on all parameters are stored that were set, and none below. That height is not
above the newest block. -/
def Kept (s : Course) : Prop :=
  ∃ least, (∀ k, s.contents.parameters.get? k = if least ≤ k then s.archive.get? k else none) ∧
    (least = .zero ∨ ∃ newest, s.ledger.newest? = some newest ∧ least ≤ newest.height)

/-- What the store has of the records and snapshots of the past. -/
structure Traced (batchSize : Nat) (height : Height) (s : Course) : Prop
    extends Grounded batchSize height s where
  roomy : ∀ k q, s.archive.get? k = some q → 0 < batchSize
  kept : s.Kept
  named : s.contents.Named
  /-- Each snapshot became active with parameters that were set. -/
  dated : ∀ d snapshot, s.contents.snapshots.get? d = some snapshot →
    ∃ q, s.archive.get? snapshot.activeFrom = some q

theorem traced_genesis (batchSize : Nat) (height : Height) :
    (genesis height).Traced batchSize height where
  toGrounded := grounded_genesis batchSize height
  roomy := nofun
  kept := ⟨.zero, fun k => (if_pos (Nat.zero_le k.toNat)).symm, .inl rfl⟩
  named := nofun
  dated := nofun

namespace Step

variable (hstep : Step batchSize s r s')
include hstep

/-- Parameters are only set where there is room for blocks. -/
theorem roomy (h : ∀ k q, s.archive.get? k = some q → 0 < batchSize) :
    ∀ k q, s'.archive.get? k = some q → 0 < batchSize := by
  cases hstep with
  | unchanged => exact h
  | @parametersSet proposal aggregate n accepted starts =>
    have haccepted : Parameters.Accepted batchSize (proposal.sorted.parameters aggregate) :=
      ⟨_, _, accepted, rfl⟩
    exact Table.forall_get?_insert h haccepted.batchSize_pos
  | blockTaken follows processed => exact h
  | snapshotsPruned => exact h

/-- New parameters are above what was dropped, and a block drops what is below the record that
applies at the first needed height. -/
theorem kept (hsound : s.core.Sound batchSize)
    (hroomy : ∀ k q, s.archive.get? k = some q → 0 < batchSize) (h : s.Kept) : s'.Kept := by
  obtain ⟨least, hkept, hleast⟩ := h
  cases hstep with
  | unchanged => exact ⟨least, hkept, hleast⟩
  | @parametersSet proposal aggregate n accepted starts =>
    refine ⟨least, fun k => ?_, hleast⟩
    have hn : least ≤ n := by
      rcases hleast with rfl | ⟨newest, hnewest, hle⟩
      · exact Nat.zero_le _
      · have hlt := Ledger.lt_of_nextHeight hsound.consecutive starts (List.mem_of_head? hnewest)
        exact Nat.le_trans hle (Nat.le_of_lt hlt)
    rw [(s.contents.applyAll_proposalChanges s.ledger n _).2.1, Proposal.outcome_eq accepted,
      Table.get?_insert_ite, Table.get?_insert_ite, hkept]
    by_cases hk : n = k
    · rw [if_pos hk, if_pos hk, if_pos (hk ▸ hn)]
    · rw [if_neg hk, if_neg hk]
  | @blockTaken header next follows processed =>
    have htakes := Ledger.takes_of_process hsound.consecutive follows processed
    simp only [Kept, Contents.applyAll_blockChanges]
    cases hat : s.contents.parameters.timeline.at? (next.neededFrom header.height) with
    | none =>
      rw [Timeline.stale_eq_nil hat]
      refine ⟨least, hkept, hleast.imp_right ?_⟩
      rintro ⟨newest, hnewest, hle⟩
      refine ⟨_, htakes.newest?_eq (Nat.lt_of_lt_of_le ?_ hsound.bounded), ?_⟩
      · exact List.length_pos_of_mem (List.mem_of_head? hnewest)
      · rw [Ledger.height_counted]
        exact Nat.le_trans hle (Nat.le_of_lt
          (Ledger.lt_of_checkFollows hsound.consecutive follows (List.mem_of_head? hnewest)))
    | some first =>
      obtain ⟨hfirst, hneeded, -⟩ := Timeline.at?_eq_some.mp hat
      rw [hkept] at hfirst
      split at hfirst
      case isFalse => contradiction
      case isTrue hleastFirst =>
        refine ⟨first.1, fun k => ?_, .inr ?_⟩
        · rw [Timeline.get?_eraseAll_stale hat, hkept]
          by_cases hk : first.1 ≤ k
          · have hle : least ≤ k := Nat.le_trans hleastFirst hk
            rw [if_pos hk, if_pos hk, if_pos hle]
          · rw [if_neg hk, if_neg hk]
        · have hnewest := htakes.newest?_eq (Nat.mul_pos (Nat.succ_pos 2) (hroomy _ _ hfirst))
          refine ⟨_, hnewest, Nat.le_trans hneeded ?_⟩
          exact Core.neededFrom_le (htakes.consecutive hsound.consecutive follows)
            (List.mem_of_head? hnewest)
  | snapshotsPruned => exact ⟨least, hkept, hleast⟩

theorem named (h : s.contents.Named) : s'.contents.Named := by
  cases hstep with
  | unchanged => exact h
  | parametersSet accepted starts => exact Contents.forall_snapshots_proposalChanges h rfl
  | blockTaken follows processed =>
    rw [Contents.applyAll_blockChanges]
    exact h
  | snapshotsPruned => exact Table.forall_get?_eraseAll h

theorem dated (h : ∀ d snapshot, s.contents.snapshots.get? d = some snapshot →
      ∃ q, s.archive.get? snapshot.activeFrom = some q) :
    ∀ d snapshot, s'.contents.snapshots.get? d = some snapshot →
      ∃ q, s'.archive.get? snapshot.activeFrom = some q := by
  cases hstep with
  | unchanged => exact h
  | @parametersSet proposal aggregate n accepted starts =>
    simp only [Table.get?_insert_ite]
    apply Contents.forall_snapshots_proposalChanges
    · intro d snapshot hsnapshot
      split
      · exact ⟨_, rfl⟩
      · exact h d snapshot hsnapshot
    · exact ⟨_, if_pos rfl⟩
  | blockTaken follows processed =>
    rw [Contents.applyAll_blockChanges]
    exact h
  | snapshotsPruned => exact Table.forall_get?_eraseAll h

theorem traced (h : s.Traced batchSize height) : s'.Traced batchSize height := by
  constructor
  case toGrounded => exact hstep.grounded h.toGrounded
  case roomy => exact hstep.roomy h.roomy
  case kept => exact hstep.kept h.sound h.roomy h.kept
  case named => exact hstep.named h.named
  case dated => exact hstep.dated h.dated

end Step

namespace Traced

variable {p k : Height} {q : Parameters} {snapshot : Snapshot} (h : s.Traced batchSize height)
  (hneeded : s.archive.timeline.at? p = some (k, q) ∨ p < k ∧ s.archive.get? k = some q)
include hneeded

omit h in
theorem archived_of_needed : s.archive.get? k = some q :=
  hneeded.elim (fun hat => (Timeline.at?_eq_some.mp hat).1) And.right

include h

/-- Unless parameters that apply at a height or above are still stored, none apply there. -/
theorem stored_or_none :
    s.contents.parameters.get? k = some q ∨
      s.contents.parameters.get? k = none ∧ s.contents.parameters.timeline.effective? p = none := by
  obtain ⟨least, hkept, -⟩ := h.kept
  by_cases hk : least ≤ k
  · exact .inl (by rw [hkept, if_pos hk, archived_of_needed hneeded])
  · refine .inr ⟨by rw [hkept, if_neg hk], ?_⟩
    rw [Timeline.effective?, Option.map_eq_none_iff, Timeline.at?_eq_none]
    rintro ⟨j, stored⟩ hj
    have hget := Table.get?_eq_some.mpr hj
    rw [hkept] at hget
    split at hget
    case isFalse => contradiction
    case isTrue hj =>
      have hkj : k < j := Nat.lt_of_lt_of_le (Height.not_le.mp hk) hj
      rcases hneeded with hat | ⟨hlt, -⟩
      · apply Height.not_le.mp
        intro hjp
        exact Height.not_le.mpr hkj ((Timeline.at?_eq_some.mp hat).2.2 j stored hget hjp)
      · exact Nat.lt_trans hlt hkj

/-- Stored parameters that apply at a height or above keep their snapshot. -/
theorem not_mem_expired (hstored : s.contents.parameters.get? k = some q) :
    q.validatorsHash ∉ s.contents.expired p := by
  rcases hneeded with hat | ⟨hlt, -⟩
  · obtain ⟨least, hkept, -⟩ := h.kept
    obtain ⟨-, hkp, hmax⟩ := Timeline.at?_eq_some.mp hat
    apply Contents.not_mem_expired_of_effective?
    refine Timeline.effective?_eq_some.mpr ⟨k, hstored, hkp, fun j v hj hjp => ?_⟩
    rw [hkept] at hj
    split at hj
    case isTrue => exact hmax j v hj hjp
    case isFalse => contradiction
  · exact Contents.not_mem_expired_of_lt hstored hlt

/-- The snapshot of parameters that apply at a height or above goes if no record names it and
another one up to the height comes after it. -/
theorem mem_expired_iff
    (hsnapshot : s.contents.snapshots.get? q.validatorsHash = some snapshot) :
    q.validatorsHash ∈ s.contents.expired p ↔
      (∀ j r, s.contents.parameters.get? j = some r → r.validatorsHash ≠ q.validatorsHash) ∧
      ∃ d other, s.contents.snapshots.get? d = some other ∧ other.activeFrom ≤ p ∧
        snapshot.Precedes other := by
  rcases h.stored_or_none hneeded with hstored | ⟨-, hnone⟩
  · refine iff_of_false (h.not_mem_expired hneeded hstored) ?_
    rintro ⟨hunnamed, -⟩
    exact hunnamed k q hstored rfl
  · exact h.named.mem_expired_iff hsnapshot hnone

end Traced

/-- In a chain above the genesis block nothing applies above the next height, and no snapshot is
dated below parameters that name it. -/
structure Ascending (s : Course) : Prop where
  bounded : ∀ k q, s.archive.get? k = some q → k.toNat ≤ s.ledger.tip.toNat + 1
  current : ∀ k q snapshot, s.archive.get? k = some q →
    s.contents.snapshots.get? q.validatorsHash = some snapshot → k ≤ snapshot.activeFrom

theorem Step.ascending (hstep : Step batchSize s r s') (htraced : s.Traced batchSize height)
    (starts : s'.past.StartsAbove height) (h : s.Ascending) : s'.Ascending := by
  have hbounded : ∀ k q, s'.archive.get? k = some q → k.toNat ≤ s'.ledger.tip.toNat + 1 := by
    intro k q hq
    have hpos := hstep.roomy htraced.roomy k q hq
    exact hstep.bounded htraced.toGrounded hpos starts h.bounded k q hq
  refine ⟨hbounded, ?_⟩
  cases hstep with
  | unchanged => exact h.current
  | @parametersSet proposal aggregate n accepted hnext =>
    intro k q snapshot hq hsnapshot
    have hkn : k ≤ n := by
      rw [Height.le_iff, Ledger.toNat_of_nextHeight hnext]
      exact hbounded k q hq
    rw [Contents.get?_snapshots_proposalChanges] at hsnapshot
    split at hsnapshot
    case isTrue => exact Option.some.inj hsnapshot ▸ hkn
    case isFalse hother =>
      rw [Proposal.outcome_eq accepted] at hother
      rw [Table.get?_insert_ite] at hq
      split at hq
      case isTrue => exact absurd (congrArg Parameters.validatorsHash (Option.some.inj hq)) hother
      case isFalse =>
        split at hsnapshot
        case isTrue => contradiction
        case isFalse => exact h.current k q snapshot hq hsnapshot
  | blockTaken follows processed =>
    rw [Contents.applyAll_blockChanges]
    exact h.current
  | snapshotsPruned =>
    intro k q snapshot hq hsnapshot
    rw [Table.get?_eraseAll] at hsnapshot
    split at hsnapshot
    case isTrue => contradiction
    case isFalse => exact h.current k q snapshot hq hsnapshot

/-- In a chain above the genesis block only a snapshot of the same height supersedes one that is in
effect at a height or above. -/
theorem Ascending.eq_of_precedes (h : s.Ascending) (htraced : s.Traced batchSize height)
    {p k : Height} {q : Parameters} {snapshot other : Snapshot} {d : Digest}
    (hneeded : s.archive.timeline.at? p = some (k, q) ∨ p < k ∧ s.archive.get? k = some q)
    (hsnapshot : s.contents.snapshots.get? q.validatorsHash = some snapshot)
    (hother : s.contents.snapshots.get? d = some other) (hle : other.activeFrom ≤ p)
    (hprecedes : snapshot.Precedes other) :
    k ≤ p ∧ snapshot.activeFrom = k ∧ other.activeFrom = k := by
  have hcurrent := h.current k q snapshot (Traced.archived_of_needed hneeded) hsnapshot
  have hordered := hprecedes.activeFrom_le
  have hkp : k ≤ p := Nat.le_trans hcurrent (Nat.le_trans hordered hle)
  obtain ⟨q', hq'⟩ := htraced.dated d other hother
  rcases hneeded with hat | ⟨hlt, -⟩
  · have hmax : other.activeFrom ≤ k := (Timeline.at?_eq_some.mp hat).2.2 _ q' hq' hle
    rw [Height.le_iff] at hcurrent hordered hmax
    exact ⟨hkp, Height.ext (by omega), Height.ext (by omega)⟩
  · exact absurd hkp (Height.not_le.mpr hlt)

end Course

namespace Gadget

/-- Where a run leads to, with the past of its records and snapshots. -/
theorem exists_traced (config : GadgetConfig) (height : Height) (requests : List Request) :
    ∃ s, ((genesis config height).run requests).1.IsAt s ∧
      s.archive = (genesis config height).archive .empty requests ∧
      s.Traced config.batchSize height ∧
      (((genesis config height).recordAll .empty requests).StartsAbove height → s.Ascending) := by
  obtain ⟨s, hat, -, harchive, hpast, htraced, hascending⟩ := exists_course config height requests
    (P := fun s => s.Traced config.batchSize height ∧ (s.past.StartsAbove height → s.Ascending))
    (by
      rintro s s' r hstep ⟨htraced, hascending⟩
      refine ⟨hstep.traced htraced, fun starts => ?_⟩
      obtain ⟨taken, -, hpast⟩ := hstep.core
      exact hstep.ascending htraced starts (hascending (hpast ▸ starts).of_after))
    ⟨Course.traced_genesis _ height, fun _ => ⟨nofun, nofun⟩⟩
  exact ⟨s, hat, harchive, htraced, hpast ▸ hascending⟩

/-- Pruning at a height keeps the snapshot of parameters that apply there or above, unless it is
superseded: no stored record names the set, and another snapshot up to the height comes after it.
In a chain above the genesis block it is superseded only if the record of the parameters that apply
at the height was pruned, and another snapshot became active at the same height. -/
theorem snapshot_in_effect_kept_iff (config : GadgetConfig) (height : Height)
    (requests : List Request) (p k : Height) (q : Parameters)
    (needed : ((genesis config height).archive .empty requests).timeline.at? p = some (k, q) ∨
      p < k ∧ ((genesis config height).archive .empty requests).get? k = some q)
    (snapshot : Snapshot)
    (stored : ((genesis config height).run requests).1.snapshot? q.validatorsHash
      = .ok (some snapshot)) :
    let g := ((genesis config height).run requests).1
    ((g.pruneSnapshots p).gadget.snapshot? q.validatorsHash = .ok (some snapshot) ↔
        ¬ g.Superseded p snapshot) ∧
      (((genesis config height).recordAll .empty requests).StartsAbove height →
        g.Superseded p snapshot →
          g.store.parametersAt? k = .ok none ∧ k ≤ p ∧ snapshot.activeFrom = k ∧
          ∃ d other, g.snapshot? d = .ok (some other) ∧ other.activeFrom = k ∧
            snapshot.Precedes other) := by
  intro g
  obtain ⟨s, hat, harchive, htraced, hascending⟩ := exists_traced config height requests
  rw [← harchive] at needed
  have hsnapshot := (snapshot?_eq_ok hat.holds).mp stored
  have hsuperseded := superseded_iff (p := p) hat.holds (htraced.named _ _ hsnapshot)
  constructor
  · rw [snapshot?_pruneSnapshots hat.holds, hsnapshot, hsuperseded,
      ← htraced.mem_expired_iff needed hsnapshot]
    split <;> simp_all
  · intro starts h
    obtain ⟨hunnamed, d, other, hother, hle, hprecedes⟩ := hsuperseded.mp h
    obtain ⟨hkp, hdated, hsame⟩ := (hascending starts).eq_of_precedes htraced needed hsnapshot
      hother hle hprecedes
    refine ⟨?_, hkp, hdated, d, other, (snapshot?_eq_ok hat.holds).mpr hother, hsame, hprecedes⟩
    rw [hat.holds.parametersAt?]
    rcases htraced.stored_or_none needed with hget | ⟨hget, -⟩
    · exact absurd rfl (hunnamed k q hget)
    · rw [hget]

end Gadget

namespace Solo

/-- For the third block the validator is first given the weight it had for the first one, and then
one that stays. All records up to there are pruned after the sixth block. -/
def reinstatement : List Request :=
  [.setParameters (weighing 2), .processBlock (confirming 1), .setParameters (weighing 3),
    .processBlock (confirming 2), .setParameters (weighing 2), .setParameters (weighing 1),
    .processBlock (confirming 3), .setParameters (weighing 3), .processBlock (confirming 4),
    .processBlock (confirming 5), .processBlock (confirming 6)]

end Solo

namespace Gadget

open Solo (weighing reinstatement)

/-- The set that stayed loses its snapshot to the one that it replaced. -/
theorem snapshot_in_effect_lost_reinstatement :
    let g := ((genesis Solo.config .zero).run reinstatement).1
    let p := (weighing 1).outcome
    ((genesis Solo.config .zero).archive .empty reinstatement).timeline.at? (Solo.height 3)
        = some (Solo.height 3, p) ∧
      g.snapshot? p.validatorsHash = .ok (some (p.snapshot (Solo.height 3))) ∧
      (g.pruneSnapshots (Solo.height 3)).gadget.snapshot? p.validatorsHash = .ok none := by
  decide +kernel

/-- Another snapshot became active at the same height. -/
theorem snapshot_in_effect_kept_iff_reinstatement :
    let g := ((genesis Solo.config .zero).run reinstatement).1
    let snapshot := (weighing 1).outcome.snapshot (Solo.height 3)
    g.Superseded (Solo.height 3) snapshot ∧ g.store.parametersAt? (Solo.height 3) = .ok none ∧
      ∃ d other, g.snapshot? d = .ok (some other) ∧ other.activeFrom = Solo.height 3 ∧
        snapshot.Precedes other := by
  intro g snapshot
  obtain ⟨hneeded, hstored, hlost, hstarts⟩ :
      ((genesis Solo.config .zero).archive .empty reinstatement).timeline.at? (Solo.height 3)
          = some (Solo.height 3, (weighing 1).outcome) ∧
        g.snapshot? (weighing 1).outcome.validatorsHash = .ok (some snapshot) ∧
        ¬ (g.pruneSnapshots (Solo.height 3)).gadget.snapshot? (weighing 1).outcome.validatorsHash
          = .ok (some snapshot) ∧
        ((genesis Solo.config .zero).recordAll .empty reinstatement).StartsAbove .zero := by
    decide +kernel
  obtain ⟨hkept, hdated⟩ := snapshot_in_effect_kept_iff Solo.config .zero reinstatement
    (Solo.height 3) (Solo.height 3) (weighing 1).outcome (.inl hneeded) snapshot hstored
  have hsuperseded : g.Superseded (Solo.height 3) snapshot :=
    Classical.byContradiction fun h => hlost (hkept.mpr h)
  obtain ⟨hpruned, -, -, hother⟩ := hdated hstarts hsuperseded
  exact ⟨hsuperseded, hpruned, hother⟩

end Gadget

end ImpliedFinality
