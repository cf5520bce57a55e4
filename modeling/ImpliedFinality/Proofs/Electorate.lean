import ImpliedFinality.Proofs.Retention

/-!
# Nobody who may vote is forgotten

New parameters rebuild the electorate from three sources: the validators that come in, those that
were active right below, and what was known about both. Several proposals may be for the same
height. As long as blocks are above the genesis block, the electorate has every validator of the
parameters that apply at the tip or above, each of them once. A voter starts at the height of the
proposal that brought it in, and has precommitted everything below from the start.
-/

namespace ImpliedFinality

namespace Ledger

variable {l next : Ledger} {schedule : Timeline Parameters} {header : Header} {limit : Nat}
  {height : Height} {incoming outgoing : Validators} {a : Address}

/-- Each voter is found if no other one has its address. -/
theorem voter?_of_mem (nodup : l.electorate.Nodup) {voter : Voter} (h : voter ∈ l.voters) :
    l.voter? voter.address = some voter := by
  obtain ⟨found, hfound⟩ := exists_voter?_iff.mpr (List.mem_map_of_mem h)
  have hmem : found ∈ l.voters := List.mem_of_find?_eq_some hfound
  rw [hfound, List.inj_on_of_nodup_map nodup hmem h (address_of_voter? hfound)]

/-! ## The electorate after new parameters -/

/-- Adds what is known about a validator, unless it is listed already. -/
def keep (l : Ledger) (voters : List Voter) (v : Validator) : List Voter :=
  if voters.any fun voter => voter.address = v.address then voters
  else voters ++ (l.voter? v.address).toList

theorem voters_track (l : Ledger) (height : Height) (incoming outgoing : Validators) :
    (l.track height incoming outgoing).voters
      = outgoing.foldl l.keep (incoming.map (l.voterFrom height)) := rfl

theorem address_voterFrom (l : Ledger) (height : Height) (v : Validator) :
    (l.voterFrom height v).address = v.address := by
  rw [voterFrom]
  cases h : l.voter? v.address with
  | none => rfl
  | some voter => exact address_of_voter? h

/-- A validator is added if it is known and not listed. -/
theorem addresses_keep (l : Ledger) (voters : List Voter) (v : Validator) :
    (l.keep voters v).map Voter.address =
      if v.address ∉ voters.map Voter.address ∧ v.address ∈ l.electorate then
        voters.map Voter.address ++ [v.address]
      else voters.map Voter.address := by
  have hlisted : (voters.any fun voter => voter.address = v.address) = true ↔
      v.address ∈ voters.map Voter.address := by simp
  simp only [keep, hlisted]
  by_cases h : v.address ∈ voters.map Voter.address
  · rw [if_pos h, if_neg fun hnew => hnew.1 h]
  · rw [if_neg h]
    cases hknown : l.voter? v.address with
    | none =>
      have hmem : v.address ∉ l.electorate := by simp [← exists_voter?_iff, hknown]
      simp [hmem]
    | some voter =>
      have hmem : v.address ∈ l.electorate := exists_voter?_iff.mp ⟨voter, hknown⟩
      rw [if_pos ⟨h, hmem⟩, ← address_of_voter? hknown]
      simp

theorem mem_addresses_keep {voters : List Voter} {v : Validator} :
    a ∈ (l.keep voters v).map Voter.address ↔
      a ∈ voters.map Voter.address ∨ a = v.address ∧ a ∈ l.electorate := by
  rw [addresses_keep]
  split
  case isTrue hadded =>
    rw [List.mem_append, List.mem_singleton]
    refine or_congr_right ⟨fun ha => ⟨ha, ha ▸ hadded.2⟩, And.left⟩
  case isFalse hleft =>
    refine ⟨.inl, ?_⟩
    rintro (ha | ⟨rfl, ha⟩)
    · exact ha
    · exact Decidable.of_not_not fun hnew => hleft ⟨hnew, ha⟩

theorem nodup_addresses_keep {voters : List Voter} (h : (voters.map Voter.address).Nodup)
    (v : Validator) : ((l.keep voters v).map Voter.address).Nodup := by
  rw [addresses_keep]
  split
  case isTrue hadded => exact List.concat_eq_append ▸ h.concat hadded.1
  case isFalse => exact h

theorem mem_addresses_foldl_keep {voters : List Voter} :
    a ∈ (outgoing.foldl l.keep voters).map Voter.address ↔
      a ∈ voters.map Voter.address ∨ a ∈ outgoing.map Validator.address ∧ a ∈ l.electorate := by
  induction outgoing generalizing voters with
  | nil => simp
  | cons v rest ih =>
    rw [List.foldl_cons, ih, mem_addresses_keep, List.map_cons, List.mem_cons, or_and_right,
      or_assoc]

theorem nodup_addresses_foldl_keep {voters : List Voter}
    (h : (voters.map Voter.address).Nodup) :
    ((outgoing.foldl l.keep voters).map Voter.address).Nodup := by
  induction outgoing generalizing voters with
  | nil => exact h
  | cons v rest ih => exact ih (nodup_addresses_keep h v)

theorem addresses_voterFrom (l : Ledger) (height : Height) (vs : Validators) :
    (vs.map (l.voterFrom height)).map Voter.address = vs.map Validator.address := by
  rw [List.map_map]
  exact List.map_congr_left fun v _ => address_voterFrom l height v

/-- All that come in belong to the electorate, and those of the outgoing that did before. -/
theorem mem_electorate_track :
    a ∈ (l.track height incoming outgoing).electorate ↔
      a ∈ incoming.map Validator.address ∨
        a ∈ outgoing.map Validator.address ∧ a ∈ l.electorate := by
  rw [electorate, voters_track, mem_addresses_foldl_keep, addresses_voterFrom]

theorem nodup_electorate_track (h : (incoming.map Validator.address).Nodup) :
    (l.track height incoming outgoing).electorate.Nodup := by
  apply nodup_addresses_foldl_keep
  rwa [addresses_voterFrom]

/-! ## Blocks need parameters -/

/-- A block above a watermark is only passed over if parameters apply to it. -/
theorem exists_effective?_of_raise {threshold : Parameters → Weight}
    {votes : BlockVotes → Weight} {mark found : Height} {b : BlockVotes} {older : List BlockVotes}
    (h : raise schedule threshold votes mark (b :: older) = .ok found) (habove : mark < b.height) :
    ∃ p, schedule.effective? b.height = some p := by
  rw [raise, if_neg (Height.not_le.mpr habove)] at h
  obtain ⟨p, hp, -⟩ := Failure.bind_eq_ok.mp h
  exact ⟨p, Timeline.require_eq_ok.mp hp⟩

/-- So a block above the prevoted height is not taken in without parameters. -/
theorem exists_effective?_of_process (hw : Consecutive l.window) (hlimit : 0 < limit)
    (follows : l.checkFollows header = .ok ())
    (h : l.process schedule header limit = .ok next)
    (habove : l.watermarks.prevoted < header.height) :
    ∃ p, schedule.effective? header.height = some p := by
  obtain ⟨cast, prevoted, precommitted, hcast, hraise, -, -⟩ := exists_stages_of_process h
  obtain ⟨hmarks, hwindow, -⟩ := casts_of_castVotes? (consecutive_append hw follows limit)
    (fun _ => generator_of_newest?_append) hcast
  have hnewest : cast.newest? = some ((l.append header limit).counted schedule header.generator
      (.ofHeader header)) := by
    rw [newest?, hwindow, List.head?_map, ← newest?, newest?_append hlimit, Option.map_some]
  obtain ⟨older, hcastWindow⟩ := List.head?_eq_some_iff.mp hnewest
  rw [hcastWindow] at hraise
  have hexists := exists_effective?_of_raise hraise
  rw [hmarks, height_counted] at hexists
  exact hexists habove

/-! ## Voters after a block -/

/-- The last precommit of a voter is the one it was or one that the block casts. -/
theorem lastPrecommit_noted_cases (l : Ledger) (schedule : Timeline Parameters)
    (generator : Address) (voter : Voter) :
    (l.noted schedule generator voter).lastPrecommit = voter.lastPrecommit ∨
      (l.noted schedule generator voter).lastPrecommit ∈ l.precommitsCast schedule := by
  unfold noted
  cases hhead : (l.precommitsCast schedule).head? with
  | none => exact .inl rfl
  | some greatest =>
    dsimp only
    split
    · exact .inr (List.mem_of_head? hhead)
    · exact .inl rfl

/-- No precommit is above the new block. -/
theorem le_of_mem_precommitsCast (hw : Consecutive (l.append header limit).window) {k : Height}
    (hk : k ∈ (l.append header limit).precommitsCast schedule) : k ≤ header.height := by
  obtain ⟨voter, b, p, rfl, hvotes⟩ := precommits_of_cast hw hk
  exact le_of_mem_append hw hvotes.retained

/-- What a voter became active for is not above what it may precommit next, and that is not above
the height after the tip. -/
def Settled (l : Ledger) : Prop :=
  ∀ voter ∈ l.voters, voter.activeFrom.toNat ≤ voter.lastPrecommit.toNat + 1 ∧
    voter.lastPrecommit ≤ l.tip

theorem Settled.track (h : l.Settled) (starts : l.nextHeight = .ok height) :
    (l.track height incoming outgoing).Settled := by
  intro voter hvoter
  rw [tip_track]
  rcases isKnownOrNew_of_mem_track hvoter with hknown | hnew
  · exact h voter (List.mem_of_find?_eq_some hknown)
  · have hheight := toNat_of_nextHeight starts
    rw [hnew, Height.le_iff, Height.toNat_below]
    dsimp only
    omega

theorem Settled.process (h : l.Settled) (nodup : l.electorate.Nodup)
    (hw : Consecutive l.window) (hlimit : 0 < limit) (follows : l.checkFollows header = .ok ())
    (rises : l.tip < header.height) (processed : l.process schedule header limit = .ok next) :
    next.Settled := by
  intro voter hvoter
  have htakes := takes_of_process hw follows processed
  have happend := consecutive_append hw follows limit
  have hfound := voter?_of_mem ((electorate_of_process processed) ▸ nodup) hvoter
  rw [htakes.voter?, Option.map_eq_some_iff] at hfound
  obtain ⟨before, hbefore, rfl⟩ := hfound
  obtain ⟨hactive, hlast⟩ := h before (List.mem_of_find?_eq_some hbefore)
  have hrises : before.lastPrecommit ≤
      ((l.append header limit).noted schedule header.generator before).lastPrecommit :=
    lastPrecommit_le_noted happend (fun _ => generator_of_newest?_append)
      ((address_of_voter? hbefore).symm ▸ hbefore)
  constructor
  · rw [activeFrom_noted]
    exact Nat.le_trans hactive (Nat.succ_le_succ hrises)
  · rw [htakes.tip_eq hlimit]
    rcases lastPrecommit_noted_cases (l.append header limit) schedule header.generator before with
      hsame | hcast
    · rw [hsame]
      exact Nat.le_trans hlast (Nat.le_of_lt rises)
    · exact le_of_mem_precommitsCast happend hcast

end Ledger

namespace Timeline

/-- Where something applies, something does at all greater heights. -/
theorem exists_effective?_of_le {α : Type} {t : Table Height α} {j k : Height} {v : α}
    (hv : t.timeline.effective? j = some v) (hjk : j ≤ k) :
    ∃ w, t.timeline.effective? k = some w := by
  obtain ⟨i, hi, hij⟩ := exists_get?_of_effective? hv
  obtain ⟨r, hr⟩ := exists_at?_of_get? hi (Nat.le_trans hij hjk)
  exact ⟨r.2, by rw [effective?, hr, Option.map_some]⟩

/-- The outgoing validators are those of the parameters that apply right below. -/
theorem outgoing_eq {schedule : Timeline Parameters} {below height : Height} {p : Parameters}
    (hbelow : height.toNat = below.toNat + 1) (hp : schedule.effective? below = some p) :
    schedule.outgoing height = p.validators := by
  rw [outgoing, Height.sub?_eq_some.mpr hbelow]
  simp only [hp, Option.map_some, Option.getD_some]

end Timeline

namespace Course

variable {batchSize : Nat} {height : Height} {s s' : Course} {r : Request}

/-- Every validator of the parameters that apply at the tip or above has a voter of its own. -/
structure Enrolled (batchSize : Nat) (height : Height) (s : Course) : Prop
    extends Grounded batchSize height s where
  recorded : Recorded s.contents s.archive
  bounded : ∀ k q, s.archive.get? k = some q → k.toNat ≤ s.ledger.tip.toNat + 1
  nodup : s.ledger.electorate.Nodup
  enrolled : ∀ k p, s.ledger.tip ≤ k → s.contents.parameters.timeline.effective? k = some p →
    ∀ v ∈ p.validators, v.address ∈ s.ledger.electorate
  settled : s.ledger.Settled
  /-- No block is taken in without parameters. -/
  founded : ∀ newest, s.ledger.newest? = some newest →
    ∃ p, s.contents.parameters.timeline.effective? newest.height = some p

theorem enrolled_genesis (batchSize : Nat) (height : Height) :
    (genesis height).Enrolled batchSize height where
  toGrounded := grounded_genesis batchSize height
  recorded := nofun
  bounded := nofun
  nodup := .nil
  enrolled := nofun
  settled := nofun
  founded := nofun

namespace Enrolled

variable (h : s.Enrolled batchSize height) {k : Height} {p : Parameters}
include h

/-- New parameters take in their own validators and keep those that are active below. -/
theorem mem_electorate_track {n : Height} {new : Parameters}
    (starts : s.ledger.nextHeight = .ok n) (hk : s.ledger.tip ≤ k)
    (hp : (s.contents.parameters.insert n new).timeline.effective? k = some p) :
    ∀ v ∈ p.validators, v.address ∈ (s.ledger.track n new.validators
      (s.contents.parameters.timeline.outgoing n)).electorate := by
  have hn := Ledger.toNat_of_nextHeight starts
  intro v hv
  rw [Ledger.mem_electorate_track]
  by_cases hnk : n ≤ k
  · have hlast : ∀ r, s.contents.parameters.timeline.at? k = some r → r.1 ≤ n := by
      intro r hr
      have hget := h.recorded _ _ (Timeline.at?_eq_some.mp hr).1
      rw [Height.le_iff, hn]
      exact h.bounded _ _ hget
    rw [Timeline.effective?, Timeline.at?_insert, if_pos ⟨hnk, hlast⟩] at hp
    obtain rfl : new = p := Option.some.inj hp
    exact .inl (List.mem_map_of_mem hv)
  · have hkn : k < n := Height.not_le.mp hnk
    have htip : k = s.ledger.tip := by
      rw [Height.le_iff] at hk
      rw [Height.lt_iff] at hkn
      exact Height.ext (by omega)
    rw [Timeline.effective?_insert_of_lt hkn] at hp
    refine .inr ⟨?_, h.enrolled k p hk hp v hv⟩
    rw [Timeline.outgoing_eq (htip ▸ hn) hp]
    exact List.mem_map_of_mem hv

section Block

variable {header : Header} {next : Ledger} (hpos : 0 < batchSize)
  (follows : s.ledger.checkFollows header = .ok ())
  (processed : s.ledger.process s.contents.parameters.timeline header (3 * batchSize) = .ok next)
include hpos follows processed

/-- A block drops nothing that applies to it or above. -/
theorem effective?_block (hk : header.height ≤ k) :
    (s.contents.parameters.eraseAll (s.contents.parameters.timeline.stale
      (next.neededFrom header.height))).timeline.effective? k
      = s.contents.parameters.timeline.effective? k := by
  have htakes := Ledger.takes_of_process h.sound.consecutive follows processed
  have hnewest := htakes.newest?_eq (Nat.mul_pos (Nat.succ_pos 2) hpos)
  have hneeded : next.neededFrom header.height ≤ _ :=
    Core.neededFrom_le (htakes.consecutive h.sound.consecutive follows)
      (List.mem_of_head? hnewest)
  rw [Ledger.height_counted] at hneeded
  exact Timeline.effective?_eraseAll_stale (Nat.le_trans hneeded hk)

/-- Parameters apply to a block that is taken in above the tip. -/
theorem exists_effective?_block (rises : s.ledger.tip < header.height) :
    ∃ p, s.contents.parameters.timeline.effective? header.height = some p := by
  cases hnewest : s.ledger.newest? with
  | none =>
    have hprevoted : s.ledger.tip = s.ledger.watermarks.prevoted := by
      rw [Ledger.tip, hnewest, Option.map_none, Option.getD_none]
    exact Ledger.exists_effective?_of_process h.sound.consecutive
      (Nat.mul_pos (Nat.succ_pos 2) hpos) follows processed (hprevoted ▸ rises)
  | some newest =>
    obtain ⟨p, hp⟩ := h.founded newest hnewest
    rw [Ledger.tip_eq_of_newest? hnewest] at rises
    exact Timeline.exists_effective?_of_le hp (Nat.le_of_lt rises)

end Block

end Enrolled

/-- Every step of a chain above the genesis block keeps each validator enrolled. -/
theorem Step.enrolled (hstep : Step batchSize s r s') (hpos : 0 < batchSize)
    (starts : s'.past.StartsAbove height) (h : s.Enrolled batchSize height) :
    s'.Enrolled batchSize height := by
  have hgrounded := hstep.grounded h.toGrounded
  have hbounded := hstep.bounded h.toGrounded hpos starts h.bounded
  have hrecorded := hstep.recorded h.recorded
  cases hstep with
  | unchanged => exact h
  | @parametersSet proposal aggregate n accepted hnext =>
    have haccepted : Parameters.Accepted batchSize (proposal.sorted.parameters aggregate) :=
      ⟨_, _, accepted, rfl⟩
    refine ⟨hgrounded, hrecorded, hbounded, ?_, ?_, h.settled.track hnext, ?_⟩
    · exact Ledger.nodup_electorate_track haccepted.nodup
    · rw [(s.contents.applyAll_proposalChanges s.ledger n _).2.1]
      exact fun k p hk hp => h.mem_electorate_track hnext hk hp
    · intro newest (hnewest : s.ledger.newest? = some newest)
      have htip : newest.height < n := by
        rw [Height.lt_iff, Ledger.toNat_of_nextHeight hnext, Ledger.tip_eq_of_newest? hnewest]
        exact Nat.lt_succ_self _
      rw [(s.contents.applyAll_proposalChanges s.ledger n _).2.1,
        Timeline.effective?_insert_of_lt htip]
      exact h.founded newest hnewest
  | @blockTaken header next follows processed =>
    have hlimit : 0 < 3 * batchSize := Nat.mul_pos (Nat.succ_pos 2) hpos
    have rises := h.rooted.tip_lt hpos follows starts
    have htakes := Ledger.takes_of_process h.sound.consecutive follows processed
    have helectorate := Ledger.electorate_of_process processed
    refine ⟨hgrounded, hrecorded, hbounded, ?_, ?_, ?_, ?_⟩
    · exact helectorate ▸ h.nodup
    · intro k p hk hp
      rw [htakes.tip_eq hlimit] at hk
      rw [Contents.applyAll_blockChanges, h.effective?_block hpos follows processed hk] at hp
      rw [helectorate]
      exact h.enrolled k p (Nat.le_trans (Nat.le_of_lt rises) hk) hp
    · exact h.settled.process h.nodup h.sound.consecutive hlimit follows rises processed
    · intro newest hnewest
      have hheight : newest.height = header.height :=
        (Ledger.tip_eq_of_newest? hnewest).symm.trans (htakes.tip_eq hlimit)
      rw [Contents.applyAll_blockChanges, hheight,
        h.effective?_block hpos follows processed (Nat.le_refl _)]
      exact h.exists_effective?_block hpos follows processed rises
  | snapshotsPruned =>
    exact ⟨hgrounded, hrecorded, hbounded, h.nodup, h.enrolled, h.settled, h.founded⟩

end Course

namespace Gadget

open Solo (reweighing)

/-- Where a run leads to, with its electorate. -/
theorem exists_enrolled (config : GadgetConfig) (height : Height) (requests : List Request)
    (starts : ((genesis config height).recordAll .empty requests).StartsAbove height) :
    ∃ s, ((genesis config height).run requests).1.IsAt s ∧
      s.Grounded config.batchSize height ∧
      (0 < config.batchSize → s.Enrolled config.batchSize height) := by
  obtain ⟨s, hat, -, -, hpast, hgrounded, henrolled⟩ := exists_course config height requests
    (P := fun s => s.Grounded config.batchSize height ∧ (s.past.StartsAbove height →
      0 < config.batchSize → s.Enrolled config.batchSize height))
    (by
      rintro s s' r hstep ⟨hgrounded, henrolled⟩
      obtain ⟨taken, -, hpast⟩ := hstep.core
      refine ⟨hstep.grounded hgrounded, fun starts hpos => ?_⟩
      exact hstep.enrolled hpos starts (henrolled (hpast ▸ starts).of_after hpos))
    ⟨Course.grounded_genesis _ height, fun _ _ => Course.enrolled_genesis _ height⟩
  exact ⟨s, hat, hgrounded, henrolled (hpast ▸ starts)⟩

/-- Wherever a chain above the genesis block leads to, parameters apply at the newest height and at
the next one, and each of their validators has a voter. No address has two. A voter starts no later
than one above its last precommit, which is not above the newest height. -/
theorem validators_have_voters (config : GadgetConfig) (height : Height)
    (requests : List Request)
    (starts : ((genesis config height).recordAll .empty requests).StartsAbove height) :
    let g := ((genesis config height).run requests).1
    ∃ l, g.store.ledger = .ok l ∧ ∀ newest next, l.newest? = some newest →
      newest.height.succ? = some next →
        (l.voters.map Voter.address).Nodup ∧
        (∃ p, g.parameters newest.height = .ok p ∧
          ∀ v ∈ p.validators, ∃ voter ∈ l.voters, voter.address = v.address) ∧
        (∃ p, g.parameters next = .ok p ∧
          ∀ v ∈ p.validators, ∃ voter ∈ l.voters, voter.address = v.address) ∧
        ∀ voter ∈ l.voters, voter.activeFrom ≤ next ∧
          voter.activeFrom.toNat ≤ voter.lastPrecommit.toNat + 1 ∧
          voter.lastPrecommit.toNat + 1 ≤ next.toNat := by
  intro g
  obtain ⟨s, hat, hgrounded, henrolled⟩ := exists_enrolled config height requests starts
  refine ⟨s.ledger, hat.shows.ledger, fun newest next hnewest hnext => ?_⟩
  have hroom : 0 < 3 * config.batchSize :=
    Nat.lt_of_lt_of_le (List.length_pos_of_mem (List.mem_of_head? hnewest)) hgrounded.sound.bounded
  have h := henrolled (by omega)
  have htip := Ledger.tip_eq_of_newest? hnewest
  rw [Height.succ?_eq_some] at hnext
  obtain ⟨p, hp⟩ := h.founded newest hnewest
  have happlies : ∀ k q, newest.height ≤ k →
      s.contents.parameters.timeline.effective? k = some q → ∃ p, g.parameters k = .ok p ∧
        ∀ v ∈ p.validators, ∃ voter ∈ s.ledger.voters, voter.address = v.address := by
    intro k q hk hq
    refine ⟨q, hat.shows.parameters_eq_ok.mpr hq, fun v hv => ?_⟩
    exact Ledger.mem_electorate.mp (h.enrolled k q (htip ▸ hk) hq v hv)
  have hle : newest.height ≤ next := by
    rw [Height.le_iff]
    omega
  obtain ⟨q, hq⟩ := Timeline.exists_effective?_of_le hp hle
  refine ⟨h.nodup, happlies _ p (Nat.le_refl _) hp, happlies _ q hle hq, fun voter hvoter => ?_⟩
  obtain ⟨hactive, hlast⟩ := h.settled voter hvoter
  rw [htip, Height.le_iff] at hlast
  rw [Height.le_iff]
  exact ⟨by omega, hactive, by omega⟩

/-- The validator has its voter after it was given another weight for the second block. -/
theorem validators_have_voters_reweighing :
    let g := ((genesis Solo.config .zero).run reweighing).1
    ∃ l, g.store.ledger = .ok l ∧ (l.voters.map Voter.address).Nodup ∧
      (∃ p, g.parameters (Solo.height 1) = .ok p ∧
        ∀ v ∈ p.validators, ∃ voter ∈ l.voters, voter.address = v.address) ∧
      (∃ p, g.parameters (Solo.height 2) = .ok p ∧
        ∀ v ∈ p.validators, ∃ voter ∈ l.voters, voter.address = v.address) ∧
      ∀ voter ∈ l.voters, voter.activeFrom ≤ Solo.height 2 := by
  intro g
  obtain ⟨l, hledger, h⟩ := validators_have_voters Solo.config .zero reweighing (by decide +kernel)
  have hheight : g.store.ledger.map (fun l => l.newest?.map BlockVotes.height)
      = .ok (some (Solo.height 1)) := by decide +kernel
  rw [hledger] at hheight
  obtain ⟨newest, hnewest, hone⟩ := Option.map_eq_some_iff.mp (Except.ok.inj hheight)
  obtain ⟨hnodup, hat, hnext, hvoters⟩ := h newest (Solo.height 2) hnewest (by rw [hone]; rfl)
  rw [hone] at hat
  exact ⟨l, hledger, hnodup, hat, hnext, fun voter hvoter => (hvoters voter hvoter).1⟩

end Gadget

end ImpliedFinality
