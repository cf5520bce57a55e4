import ImpliedFinality.Proofs.Overlap
import ImpliedFinality.Trust

/-!
# Requests stay in the range of heights and weights

Heights are subtracted and incremented only where the result is a height, whatever a ledger holds
and a header claims: a walk compares before it goes down, a reported height is looked at below the
header's, and a search goes up from the last certificate only towards a greater height. The one
exception is a voter that reports the greatest height of all, as there is none above to prevote
from. The thresholds of the greatest aggregate weight are weights.
-/

namespace ImpliedFinality

/-- An answer that no missing height is to blame for. -/
def StaysInRange {α : Type} (answer : Except Failure α) : Prop := answer ≠ .error .heightOutOfRange

namespace StaysInRange

variable {α β : Type}

theorem ok (a : α) : StaysInRange (.ok a) := nofun

theorem error {e : Failure} (h : e ≠ .heightOutOfRange) :
    StaysInRange (.error e : Except Failure α) := fun he => h (Except.error.inj he)

theorem bind {first : Except Failure α} {second : α → Except Failure β}
    (hfirst : StaysInRange first) (hsecond : ∀ a, StaysInRange (second a)) :
    StaysInRange (first >>= second) := by
  cases first with
  | error e => exact error fun he => hfirst (congrArg Except.error he)
  | ok a => exact hsecond a

theorem map {answer : Except Failure α} (h : StaysInRange answer) (f : α → β) :
    StaysInRange (answer.map f) := by
  cases answer with
  | error e => exact error fun he => h (congrArg Except.error he)
  | ok a => exact ok (f a)

theorem ofStore (found : Except StoreError α) : StaysInRange (Failure.ofStore found) := by
  cases found with
  | error e => exact error nofun
  | ok a => exact ok a

end StaysInRange

namespace Ledger

variable {l : Ledger} {schedule : Timeline Parameters} {header : Header} {limit : Nat}

theorem staysInRange_checkFollows (l : Ledger) (header : Header) :
    StaysInRange (l.checkFollows header) := by
  intro h
  obtain ⟨expected, he⟩ := checkFollows_eq_error h
  contradiction

theorem staysInRange_nextHeight (l : Ledger) : StaysInRange l.nextHeight := by
  unfold nextHeight
  dsimp only
  split
  · exact .ok _
  · exact .error nofun

theorem staysInRange_raise {threshold : Parameters → Weight} {votes : BlockVotes → Weight}
    {mark : Height} {window : List BlockVotes} :
    StaysInRange (raise schedule threshold votes mark window) := by
  intro h
  obtain ⟨b, -, -, -, he⟩ := raise_eq_error h
  contradiction

theorem staysInRange_raiseCertified {commit : AggregateCommit} :
    StaysInRange (l.raiseCertified schedule commit) := by
  intro h
  obtain ⟨-, -, -, he⟩ := raiseCertified_eq_error h
  contradiction

/-- Votes have no result exactly if the newest block is a voter's that reports the greatest height
of all. -/
theorem castVotes?_eq_none_iff : l.castVotes? schedule = none ↔
    ∃ newest, l.newest? = some newest ∧ newest.generator ∈ l.electorate ∧
      newest.maxHeightGenerated = .top := by
  refine ⟨castVotes?_eq_none, ?_⟩
  rintro ⟨newest, hnewest, hvoter, htop⟩
  obtain ⟨voter, hvoter⟩ := exists_voter?_iff.mpr hvoter
  obtain ⟨notPrevoted, hwalk⟩ := l.exists_notPrevoted?
  rw [castVotes?, hnewest]
  simp only [hvoter, hwalk, Height.succ?_eq_none.mpr htop]
  rfl

/-- Taking in a block leaves the range of heights exactly if the block is retained and is that of
a voter that reports the greatest height of all. -/
theorem process_eq_outOfRange_iff : l.process schedule header limit = .error .heightOutOfRange ↔
    0 < limit ∧ header.maxHeightGenerated = .top ∧ header.generator ∈ l.electorate := by
  have hcast : (l.append header limit).castVotes? schedule = none ↔
      0 < limit ∧ header.maxHeightGenerated = .top ∧ header.generator ∈ l.electorate := by
    rw [castVotes?_eq_none_iff]
    constructor
    · rintro ⟨newest, hnewest, hvoter, htop⟩
      rw [newest?_eq_of_append hnewest] at hvoter htop
      exact ⟨pos_of_mem_append (List.mem_of_head? hnewest), htop, hvoter⟩
    · rintro ⟨hpos, htop, hvoter⟩
      exact ⟨_, newest?_append hpos, hvoter, htop⟩
  rw [← hcast, process]
  cases (l.append header limit).castVotes? schedule with
  | none => simp
  | some cast =>
    simp only [reduceCtorEq, iff_false]
    exact StaysInRange.bind (.bind staysInRange_raise fun _ => .ok _) fun _ =>
      .bind (.bind staysInRange_raise fun _ => .ok _) fun _ => staysInRange_raiseCertified

/-- The height that a header reports is looked at only if it is below the header's. -/
theorem staysInRange_impliesMaximalPrevotes (l : Ledger) (header : Header) :
    StaysInRange (l.impliesMaximalPrevotes header) := by
  refine .bind (staysInRange_checkFollows l header) fun _ => ?_
  split
  case isTrue => exact .ok _
  case isFalse hless =>
    rw [Height.not_le, Height.lt_iff] at hless
    have hbelow : header.height.sub? 1 = some (header.height.below 1) :=
      Height.sub?_eq_some.mpr (by rw [Height.toNat_below]; omega)
    have hgap : (header.height.below 1).gap? header.maxHeightGenerated =
        some (header.height.toNat - 1 - header.maxHeightGenerated.toNat) :=
      Height.gap?_eq_some.mpr (by rw [Height.toNat_below]; omega)
    rw [hbelow, Option.bind_some, hgap]
    dsimp only
    split
    · exact .ok _
    · exact .ok _

end Ledger

theorem Certificate.staysInRange_ofCommit (commit : AggregateCommit) (header : Header) :
    StaysInRange (Certificate.ofCommit commit header) := by
  unfold ofCommit
  split
  · exact .ok _
  · exact .error nofun

namespace ChainView

variable {view : ChainView}

/-- Where there is no height below that of a commit, a header is missing. -/
theorem staysInRange_trusts {lastHash : Digest} {trusted : Table BlsKey Weight}
    {threshold : Weight} {commit : AggregateCommit} :
    StaysInRange (view.trusts lastHash trusted threshold commit) := by
  unfold trusts
  split
  case h_1 => exact .error nofun
  case h_2 below _ =>
    split
    case h_1 => exact .error nofun
    case h_2 parent _ =>
      split
      case isTrue => exact .ok _
      case isFalse =>
        split
        case h_1 => exact .error nofun
        case h_2 signing _ =>
          split
          · exact .ok _
          · exact .ok _

theorem staysInRange_searchDown {trusted : AggregateCommit → Except Failure Bool}
    (htrusted : ∀ commit, StaysInRange (trusted commit)) {count : Nat} {height : Height} :
    StaysInRange (view.searchDown trusted count height) := by
  induction count generalizing height with
  | zero => exact .ok _
  | succ count ih =>
    rw [searchDown]
    split
    case h_1 => exact ih
    case h_2 commit _ =>
      split
      case h_1 e he => exact .error fun h => htrusted commit (h ▸ he)
      case h_2 => exact ih
      case h_3 =>
        split
        case h_1 => exact .error nofun
        case h_2 header _ => exact (Certificate.staysInRange_ofCommit commit header).map some

/-- A search starts above the last certificate only if there is a greater height. -/
theorem staysInRange_nextCertificate (view : ChainView) (last : LastCertificate)
    (certified : Height) : StaysInRange (view.nextCertificate last certified) := by
  unfold nextCertificate
  split
  case isTrue => exact .ok _
  case isFalse habove =>
    obtain ⟨lowest, hlowest⟩ := Height.exists_succ? (Height.not_le.mp habove)
    rw [hlowest]
    split
    · exact .error nofun
    · exact staysInRange_searchDown fun _ => staysInRange_trusts

end ChainView

/-- The least threshold that may be proposed as it is computed in words. -/
def minimumThresholdWord (w : BitVec 64) : BitVec 64 := w / 3 + 1

theorem toNat_minimumThresholdWord (w : Weight) :
    (minimumThresholdWord (.ofNat 64 w.toNat)).toNat = (minimumThreshold w).toNat := by
  have hlt := w.isLt
  have hweight : w.toNat % 2 ^ 64 = w.toNat := Nat.mod_eq_of_lt hlt
  have hsum : (w.toNat / 3 + 1) % 2 ^ 64 = w.toNat / 3 + 1 := Nat.mod_eq_of_lt (by omega)
  calc
    (minimumThresholdWord (.ofNat 64 w.toNat)).toNat
    _ = (w.toNat % 2 ^ 64 / 3 + 1) % 2 ^ 64 := by
      rw [minimumThresholdWord, BitVec.toNat_add, BitVec.toNat_udiv, BitVec.toNat_ofNat]
      rfl
    _ = w.toNat / 3 + 1 := by rw [hweight, hsum]
    _ = (minimumThreshold w).toNat := (toNat_minimumThreshold w).symm

namespace Store

theorem staysInRange_planBlock {header : Header} (reported : header.maxHeightGenerated < .top)
    (s : Store) (batchSize : Nat) : StaysInRange (s.planBlock batchSize header) := by
  refine .bind (.ofStore _) fun l => .bind (l.staysInRange_checkFollows header) fun _ =>
    .bind (.ofStore _) fun schedule => .bind ?_ fun _ => .bind (.ofStore _) fun _ => .ok _
  intro h
  obtain ⟨-, htop, -⟩ := Ledger.process_eq_outOfRange_iff.mp h
  rw [htop] at reported
  exact Nat.lt_irrefl _ reported

theorem staysInRange_planParameters (s : Store) (batchSize : Nat) (proposal : Proposal) :
    StaysInRange (s.planParameters batchSize proposal) := by
  unfold planParameters
  dsimp only
  split
  case h_1 =>
    refine .bind (.ok _) fun _ => .bind (.ofStore _) fun l => .bind l.staysInRange_nextHeight
      fun _ => .bind (.ofStore _) fun _ => ?_
    split
    · exact .ok _
    · exact .ok _
  case h_2 => exact .error nofun

end Store

namespace Gadget

variable (g : Gadget)

theorem staysInRange_processBlock {header : Header} (reported : header.maxHeightGenerated < .top) :
    StaysInRange (g.processBlock header).answer := by
  have hinRange := Store.staysInRange_planBlock reported g.store g.config.batchSize
  rcases g.processBlock_eq header with ⟨e, he, hplan | ⟨e', rfl⟩⟩ | ⟨_, _, store, -, -, hdone⟩
  · rw [he]
    exact .error fun h => hinRange (h ▸ hplan)
  · rw [he]
    exact .error nofun
  · rw [hdone]
    exact .ok _

theorem staysInRange_impliesMaximalPrevotes (header : Header) :
    StaysInRange (g.impliesMaximalPrevotes header) :=
  .bind (.ofStore _) fun l => l.staysInRange_impliesMaximalPrevotes header

theorem staysInRange_setParameters (proposal : Proposal) :
    StaysInRange (g.setParameters proposal).answer := by
  have hinRange := g.store.staysInRange_planParameters g.config.batchSize proposal
  rcases g.setParameters_eq proposal with
    ⟨e, he, hplan | ⟨e', rfl⟩⟩ | ⟨-, hsame⟩ | ⟨_, _, store, -, -, hdone⟩
  · rw [he]
    exact .error fun h => hinRange (h ▸ hplan)
  · rw [he]
    exact .error nofun
  · rw [hsame]
    exact .ok _
  · rw [hdone]
    exact .ok _

end Gadget

/-- Nothing that a ledger, a header, a schedule, a weight or a last certificate may hold leads out
of the range of heights or weights, but for the one case of a voter that reports the greatest
height of all. In every ledger the walk along a generator's reports has a result, so it neither
subtracts a greater height nor looks outside the window. The two thresholds that are computed in
words are the exact ones. -/
theorem arithmetic_in_range :
    (∀ l : Ledger, ∃ found, l.notPrevoted? = some found) ∧
    (∀ (l : Ledger) (schedule : Timeline Parameters) (header : Header) (limit : Nat),
      l.process schedule header limit = .error .heightOutOfRange ↔
        0 < limit ∧ header.maxHeightGenerated = .top ∧ header.generator ∈ l.electorate) ∧
    (∀ (l : Ledger) (header : Header), StaysInRange (l.impliesMaximalPrevotes header)) ∧
    (∀ (view : ChainView) (last : LastCertificate) (certified : Height),
      StaysInRange (view.nextCertificate last certified)) ∧
    (∀ w : Weight,
      (prevoteThresholdWord (.ofNat 64 w.toNat)).toNat = (prevoteThreshold w).toNat ∧
      (minimumThresholdWord (.ofNat 64 w.toNat)).toNat = (minimumThreshold w).toNat) ∧
    ∀ g : Gadget,
      (∀ header : Header, header.maxHeightGenerated < .top →
        StaysInRange (g.processBlock header).answer) ∧
      (∀ header : Header, StaysInRange (g.impliesMaximalPrevotes header)) ∧
      ∀ proposal : Proposal, StaysInRange (g.setParameters proposal).answer :=
  ⟨Ledger.exists_notPrevoted?, fun _ _ _ _ => Ledger.process_eq_outOfRange_iff,
    Ledger.staysInRange_impliesMaximalPrevotes, ChainView.staysInRange_nextCertificate,
    fun w => ⟨toNat_prevoteThresholdWord w, toNat_minimumThresholdWord w⟩,
    fun g => ⟨fun _ reported => g.staysInRange_processBlock reported,
      g.staysInRange_impliesMaximalPrevotes, g.staysInRange_setParameters⟩⟩

namespace Solo

/-- A ledger that no run leads to, with watermarks in no order, blocks at both ends of the range of
heights, and a voter that has precommitted the greatest height. -/
def unruly : Ledger where
  watermarks := ⟨.zero, .top, height 7⟩
  window := [.ofHeader (header (Height.top.below 1) .zero .zero 0),
    .ofHeader (header .zero .top .top 0)]
  voters := [⟨.zero, .top, .top⟩]

def unrulyGadget : Gadget :=
  ⟨config, Store.put .empty Record.ledger.key (some (Ledger.codec.encode unruly))⟩

/-- The block at the greatest height, which reports the greatest height but one. -/
def outermost : Header := header .top (Height.top.below 1) .zero 0

end Solo

open Solo (outermost unruly unrulyGadget) in
/-- The votes of the voter's last block are counted, and then parameters are missing. -/
theorem arithmetic_in_range_unruly :
    unrulyGadget.store.ledger = .ok unruly ∧ outermost.generator ∈ unruly.electorate ∧
      outermost.maxHeightGenerated < .top ∧
      StaysInRange (unrulyGadget.processBlock outermost).answer ∧
      (unrulyGadget.processBlock outermost).answer = .error (.parametersNotFound .top) := by
  have hreported : outermost.maxHeightGenerated < .top := by decide
  obtain ⟨-, -, -, -, -, hgadget⟩ := arithmetic_in_range
  exact ⟨by decide +kernel, by decide, hreported, (hgadget unrulyGadget).1 outermost hreported,
    by decide +kernel⟩

end ImpliedFinality
