import ImpliedFinality.Proofs.Trust
import ImpliedFinality.Relay.Basic

/-!
# What a search still finds after pruning

A search for the next certificate asks for commits and headers above the last certificate, for the
header below each commit, and for the sets that the last certificate and these headers name. Equal
answers to these questions make equal searches. Pruning keeps the headers and commits from its
height on, and a snapshot unless another one that is active at that height started later. So it
changes no answer if the sets that are asked for are the newest ones where they are named.
-/

namespace ImpliedFinality

namespace ChainView

variable {view other : ChainView} {trusted trusted' : AggregateCommit → Except Failure Bool}
  {low certified height : Height} {result : Except Failure (Option Certificate)}

/-- Two views give the same answers to a search of the heights above one. -/
structure AgreesAbove (view other : ChainView)
    (trusted trusted' : AggregateCommit → Except Failure Bool) (low : Height) : Prop where
  headers : ∀ {k}, low < k → view.header? k = other.header? k
  commits : ∀ {k}, low < k → view.commit? k = other.commit? k
  checks : ∀ {k commit}, low < k → view.commit? k = some commit → trusted commit = trusted' commit

namespace AgreesAbove

variable (agrees : view.AgreesAbove other trusted trusted' low)
include agrees

theorem passes (above : low < height) (h : view.Passes trusted height) :
    other.Passes trusted' height := by
  intro commit hcommit
  rw [← agrees.commits above] at hcommit
  rw [← agrees.checks above hcommit]
  exact h commit hcommit

theorem stopsAt (above : low < height) (h : view.StopsAt trusted height result) :
    other.StopsAt trusted' height result := by
  cases h with
  | untold commitAt fails =>
    exact .untold (agrees.commits above ▸ commitAt) (agrees.checks above commitAt ▸ fails)
  | headless commitAt isTrusted missing =>
    exact .headless (agrees.commits above ▸ commitAt) (agrees.checks above commitAt ▸ isTrusted)
      (agrees.headers above ▸ missing)
  | tried commitAt isTrusted headerAt =>
    exact .tried (agrees.commits above ▸ commitAt) (agrees.checks above commitAt ▸ isTrusted)
      (agrees.headers above ▸ headerAt)

/-- Equal answers lead a search to the same result. -/
theorem search (h : view.Search trusted low certified result) :
    other.Search trusted' low certified result := by
  cases h with
  | exhausted passed => exact .exhausted fun k hk hle => agrees.passes hk (passed k hk hle)
  | stopped above within stops passed =>
    refine .stopped above within (agrees.stopsAt above stops) fun k hk hle => ?_
    exact agrees.passes (Nat.lt_trans above hk) (passed k hk hle)

end AgreesAbove

/-- The next certificate depends on the set that the last one names and on the answers to the
search above it. -/
theorem nextCertificate_congr {last : LastCertificate}
    (hknown : view.snapshot? last.validatorsHash = other.snapshot? last.validatorsHash)
    (agrees : ∀ known, view.snapshot? last.validatorsHash = some known →
      view.AgreesAbove other (view.trustsAfter last known) (other.trustsAfter last known)
        last.height) (certified : Height) :
    view.nextCertificate last certified = other.nextCertificate last certified := by
  by_cases hle : certified ≤ last.height
  · rw [nextCertificate_of_le hle, nextCertificate_of_le hle]
  · have hlt : last.height < certified := Height.not_le.mp hle
    cases hset : view.snapshot? last.validatorsHash with
    | none =>
      rw [nextCertificate_of_unknown hlt hset, nextCertificate_of_unknown hlt (hknown ▸ hset)]
    | some known =>
      have hsearch : view.Search (view.trustsAfter last known) last.height certified
          (view.nextCertificate last certified) := (nextCertificate_eq_iff hlt hset).mp rfl
      have hsearch' := (agrees known hset).search hsearch
      exact ((nextCertificate_eq_iff hlt (hknown ▸ hset)).mpr hsearch').symm

end ChainView

namespace History

variable {h : History} {height k : Height} {name : Digest} {s : Snapshot}

/-! ## What pruning keeps -/

theorem header?_pruneBelow (hle : height ≤ k) :
    (h.pruneBelow height).view.header? k = h.view.header? k := by
  show (h.headers.filter fun k _ => height ≤ k).get? k = h.headers.get? k
  rw [Table.get?_filter]
  cases h.headers.get? k with
  | none => rfl
  | some header => simp [Option.filter, hle]

theorem commit?_pruneBelow (hle : height ≤ k) :
    (h.pruneBelow height).view.commit? k = h.view.commit? k := by
  show (h.commits.filter fun k _ => height ≤ k).get? k = h.commits.get? k
  rw [Table.get?_filter]
  cases h.commits.get? k with
  | none => rfl
  | some commit => simp [Option.filter, hle]

/-- The starts of the kept sets that are active at a height. -/
theorem mem_activeStarts {start : Height} :
    start ∈ (h.snapshots.entries.map fun e => e.2.activeFrom).filter (· ≤ height) ↔
      (∃ name s, h.view.snapshot? name = some s ∧ s.activeFrom = start) ∧ start ≤ height := by
  simp only [List.mem_filter, List.mem_map, Prod.exists, decide_eq_true_eq, view,
    Table.get?_eq_some]

/-- A snapshot is kept unless the set of another one has taken its place by then. -/
theorem snapshot?_pruneBelow_eq_some :
    (h.pruneBelow height).view.snapshot? name = some s ↔
      h.view.snapshot? name = some s ∧ ∀ name' s', h.view.snapshot? name' = some s' →
        s'.activeFrom ≤ height → s'.activeFrom ≤ s.activeFrom := by
  cases hnewest : h.newestActive? height with
  | none =>
    have hread : (h.pruneBelow height).view.snapshot? name = h.view.snapshot? name := by
      simp only [view, pruneBelow, hnewest]
    rw [hread]
    rw [newestActive?, List.max?_eq_none_iff, List.eq_nil_iff_forall_not_mem] at hnewest
    refine ⟨fun hs => ⟨hs, fun name' s' hs' hactive => ?_⟩, And.left⟩
    exact absurd (mem_activeStarts.mpr ⟨⟨name', s', hs', rfl⟩, hactive⟩) (hnewest _)
  | some newest =>
    have hread : (h.pruneBelow height).view.snapshot? name =
        (h.view.snapshot? name).filter fun s => newest ≤ s.activeFrom := by
      simp only [view, pruneBelow, hnewest]
      exact Table.get?_filter ..
    rw [newestActive?, List.max?_eq_some_iff] at hnewest
    obtain ⟨hmem, hmax⟩ := hnewest
    obtain ⟨⟨first, s₀, hs₀, rfl⟩, hactive₀⟩ := mem_activeStarts.mp hmem
    rw [hread, Option.filter_eq_some_iff, decide_eq_true_eq]
    apply and_congr_right'
    constructor
    · intro hle name' s' hs' hactive
      exact Nat.le_trans (hmax _ (mem_activeStarts.mpr ⟨⟨name', s', hs', rfl⟩, hactive⟩)) hle
    · intro hlast
      exact hlast first s₀ hs₀ hactive₀

/-- If the set that is named at a height is kept, no kept set that is active by the next height
started after it. -/
def NamesNewest (h : History) (height : Height) (name : Digest) : Prop :=
  ∀ s, h.view.snapshot? name = some s → ∀ name' s', h.view.snapshot? name' = some s' →
    s'.activeFrom.toNat ≤ height.toNat + 1 → s'.activeFrom ≤ s.activeFrom

instance : Decidable (h.NamesNewest height name) :=
  decidable_of_iff (∀ s ∈ h.view.snapshot? name, ∀ e ∈ h.snapshots.entries,
      e.2.activeFrom.toNat ≤ height.toNat + 1 → e.2.activeFrom ≤ s.activeFrom) <| by
    simp only [NamesNewest, view, Option.mem_def, Prod.forall, Table.get?_eq_some]

/-- Pruning leaves alone what is the newest set where it is named. -/
theorem NamesNewest.snapshot?_pruneBelow (newest : h.NamesNewest k name) (hle : height ≤ k) :
    (h.pruneBelow height).view.snapshot? name = h.view.snapshot? name := by
  apply Option.ext
  intro s
  rw [snapshot?_pruneBelow_eq_some, and_iff_left_iff_imp]
  intro hs name' s' hs' hactive
  exact newest s hs name' s' hs' (Nat.le_succ_of_le (Nat.le_trans hactive hle))

/-! ## The search in a pruned history -/

/-- A commit above the last certificate is checked as before. -/
theorem trusts_pruneBelow {low : Height} {lastHash : Digest} {weights : Table BlsKey Weight}
    {threshold : Weight} {commit : AggregateCommit} (hle : height ≤ low) (hlow : low < commit.height)
    (named : ∀ k header, low ≤ k → h.view.header? k = some header →
      h.NamesNewest k header.validatorsHash) :
    (h.pruneBelow height).view.trusts lastHash weights threshold commit =
      h.view.trusts lastHash weights threshold commit := by
  have hbelow : ∀ below, commit.height.sub? 1 = some below → low ≤ below := by
    intro below hsub
    rw [Height.sub?_eq_some] at hsub
    rw [Height.lt_iff, hsub] at hlow
    exact Nat.le_of_lt_succ hlow
  have hheader : ∀ below, commit.height.sub? 1 = some below →
      (h.pruneBelow height).view.header? below = h.view.header? below :=
    fun below hsub => header?_pruneBelow (Nat.le_trans hle (hbelow below hsub))
  apply ChainView.trusts_congr hheader
  intro below parent hsub hparent
  rw [hheader below hsub] at hparent
  rw [(named below parent (hbelow below hsub) hparent).snapshot?_pruneBelow
    (Nat.le_trans hle (hbelow below hsub))]

/-- Pruning at or below the last certificate, as a relay does, changes neither the next certificate
nor the history that is found missing, if the sets that are named from there on are the newest ones
where they are named. -/
theorem nextCertificate_pruneBelow (h : History) (filed : h.view.FiledByHeight)
    (last : LastCertificate) (newest : h.NamesNewest last.height last.validatorsHash)
    (named : ∀ k header, last.height ≤ k → h.view.header? k = some header →
      h.NamesNewest k header.validatorsHash) :
    (∀ height, height ≤ last.height → ∀ certified,
      (h.pruneBelow height).view.nextCertificate last certified =
        h.view.nextCertificate last certified) ∧
    ∀ (r : Relay) (setup : RelaySetup), r.history = h → r.last = some last → ∀ certified,
      (r.forget setup).history.view.nextCertificate last certified =
        r.history.view.nextCertificate last certified := by
  have hpruned : ∀ height, height ≤ last.height → ∀ certified,
      (h.pruneBelow height).view.nextCertificate last certified =
        h.view.nextCertificate last certified := by
    intro height hle certified
    apply ChainView.nextCertificate_congr (newest.snapshot?_pruneBelow hle)
    intro known _
    have hkept : ∀ {k : Height}, last.height < k → height ≤ k :=
      fun hlt => Nat.le_trans hle (Nat.le_of_lt hlt)
    refine ⟨fun hlt => header?_pruneBelow (hkept hlt), fun hlt => commit?_pruneBelow (hkept hlt), ?_⟩
    intro k commit hlt hcommit
    rw [commit?_pruneBelow (hkept hlt)] at hcommit
    apply trusts_pruneBelow hle _ named
    rw [filed.commits hcommit]
    exact hlt
  refine ⟨hpruned, ?_⟩
  rintro r setup rfl hlast certified
  rw [Relay.forget, hlast]
  exact hpruned _ (Nat.sub_le ..) certified

open Solo (mixedHistory mixedSet renamedSet knownSet reporting) in
/-- Pruning at the last certificate drops a header and a snapshot, and the certificate above it is
still found. -/
theorem nextCertificate_pruneBelow_mixed :
    let pruned := mixedHistory.pruneBelow (Solo.height 2)
    let last : LastCertificate := ⟨Solo.height 2, mixedSet.validatorsHash⟩
    mixedHistory.view.header? (Solo.height 1) = some (reporting 1 renamedSet .empty) ∧
      pruned.view.header? (Solo.height 1) = none ∧
      mixedHistory.view.snapshot? knownSet.validatorsHash = some knownSet ∧
      pruned.view.snapshot? knownSet.validatorsHash = none ∧
      pruned.view.nextCertificate last (Solo.height 4) =
        .ok (some ⟨.ofHeader (reporting 3 mixedSet ⟨[7]⟩), ⟨[3]⟩, .empty⟩) := by
  intro pruned last
  have filed : mixedHistory.view.Filed :=
    filed_foldl_insertHeader (filed_insertSnapshot (filed_insertSnapshot (filed_insertSnapshot
      filed_empty knownSet) renamedSet) mixedSet) _
  have named : ∀ e ∈ mixedHistory.headers.entries, last.height ≤ e.1 →
      mixedHistory.NamesNewest e.1 e.2.validatorsHash := by decide +kernel
  have hsame := (nextCertificate_pruneBelow mixedHistory filed.byHeight last (by decide +kernel)
    (fun k header hle hheader => named (k, header) (Table.get?_eq_some.mp hheader) hle)).1
    (Solo.height 2) (by decide) (Solo.height 4)
  have hfound : mixedHistory.view.nextCertificate last (Solo.height 4) =
      .ok (some ⟨.ofHeader (reporting 3 mixedSet ⟨[7]⟩), ⟨[3]⟩, .empty⟩) := by rfl
  exact ⟨by decide +kernel, by decide +kernel, by decide +kernel, by decide +kernel,
    hsame.trans hfound⟩

end History

end ImpliedFinality
