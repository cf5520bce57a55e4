import ImpliedFinality.Proofs.Ballot

/-!
# What casting votes does to a ledger

The window changes block by block: a block gets the weight of the newest one's generator as often as
its height is voted on. Among the voters only the generator changes, whose last precommit becomes
the greatest height that it precommits now.
-/

namespace ImpliedFinality

/-! ## Which heights are voted on -/

namespace Ledger

variable {l : Ledger} {schedule : Timeline Parameters}

/-- The newest block prevotes for a retained block. -/
structure Prevotes (l : Ledger) (schedule : Timeline Parameters) (newest : BlockVotes)
    (voter : Voter) (b : BlockVotes) : Prop where
  isNewest : l.newest? = some newest
  isVoter : l.voter? newest.generator = some voter
  retained : b ∈ l.window
  weighs : ((schedule.validatorsAt b.height).weightOf? newest.generator).isSome = true
  unreported : newest.maxHeightGenerated < b.height
  active : voter.activeFrom ≤ b.height

/-- The newest block precommits a retained block, under the parameters at that height. -/
structure Precommits (l : Ledger) (schedule : Timeline Parameters) (newest : BlockVotes)
    (voter : Voter) (b : BlockVotes) (p : Parameters) : Prop where
  isNewest : l.newest? = some newest
  isVoter : l.voter? newest.generator = some voter
  retained : b ∈ l.window
  effective : schedule.effective? b.height = some p
  weighs : (p.weightOf? newest.generator).isSome = true
  prevoted : p.prevoteThreshold ≤ b.prevotes
  active : voter.activeFrom ≤ b.height
  fresh : voter.lastPrecommit < b.height
  leads : LeadsBelow (l.window.map BlockVotes.bare) b.height newest.bare

theorem leastPrevote?_le {k lowest : Height} {newest : BlockVotes}
    (hnewest : l.newest? = some newest) (h : l.leastPrevote? = some lowest) :
    ∃ voter, l.voter? newest.generator = some voter ∧
      (lowest ≤ k ↔ newest.maxHeightGenerated < k ∧ voter.activeFrom ≤ k) := by
  simp only [leastPrevote?, Option.bind_eq_bind, Option.bind_eq_some_iff] at h
  obtain ⟨newest', hnewest', voter, hvoter, unreported, hunreported, hlowest⟩ := h
  rw [hnewest] at hnewest'
  cases hnewest'
  cases hlowest
  rw [Height.succ?_eq_some] at hunreported
  refine ⟨voter, hvoter, ?_⟩
  simp only [Height.le_iff, Height.lt_iff, Height.toNat_max]
  omega

theorem mem_prevotesCast (hw : Consecutive l.window) {k : Height} :
    k ∈ l.prevotesCast schedule ↔
      ∃ newest voter b, b.height = k ∧ l.Prevotes schedule newest voter b := by
  unfold prevotesCast
  cases hnewest : l.newest? with
  | none =>
    constructor
    · intro h
      contradiction
    · rintro ⟨newest, voter, b, -, h⟩
      rw [h.isNewest] at hnewest
      contradiction
  | some newest =>
    constructor
    · intro h
      obtain ⟨lowest, hlowest, b, hb, rfl, hle, hweight⟩ := exists_of_mem_votedFrom h
      obtain ⟨voter, hvoter, hiff⟩ := leastPrevote?_le (k := b.height) hnewest hlowest
      rw [BlockVotes.prevoteOf?_eq] at hweight
      exact ⟨newest, voter, b, rfl, hnewest, hvoter, hb, hweight, (hiff.mp hle).1, (hiff.mp hle).2⟩
    · rintro ⟨newest', voter, b, rfl, h⟩
      have heq := h.isNewest
      rw [hnewest] at heq
      cases heq
      obtain ⟨unreported, hunreported⟩ := Height.exists_succ? h.unreported
      have hlowest : l.leastPrevote? = some (max unreported voter.activeFrom) := by
        simp only [leastPrevote?, hnewest, h.isVoter, hunreported, Option.bind_eq_bind,
          Option.bind_some]
      obtain ⟨voter', hvoter', hiff⟩ := leastPrevote?_le (k := b.height) hnewest hlowest
      rw [h.isVoter] at hvoter'
      cases hvoter'
      rw [mem_votedFrom hw h.retained]
      refine ⟨_, hlowest, hiff.mpr ⟨h.unreported, h.active⟩, ?_⟩
      rw [BlockVotes.prevoteOf?_eq]
      exact h.weighs

/-- A retained block above what its generator has not prevoted for is precommitted if the generator
is active there, did not precommit that high before, and finds it prevoted. -/
theorem mem_precommitsCast (hw : Consecutive l.window) {newest b : BlockVotes} {voter : Voter}
    {notPrevoted : Height} (hnewest : l.newest? = some newest)
    (hvoter : l.voter? newest.generator = some voter) (hwalk : l.notPrevoted? = some notPrevoted)
    (hb : b ∈ l.window) (hprevoted : notPrevoted < b.height) :
    b.height ∈ l.precommitsCast schedule ↔
      voter.activeFrom ≤ b.height ∧ voter.lastPrecommit < b.height ∧
        (b.precommitOf? schedule newest.generator).isSome = true := by
  have hlowest : l.leastPrecommit? = precommitFrom? voter notPrevoted := by
    simp only [leastPrecommit?, hnewest, hvoter, hwalk, Option.bind_eq_bind, Option.bind_some]
  have hcast : l.precommitsCast schedule = l.votedFrom (precommitFrom? voter notPrevoted)
      (·.precommitOf? schedule newest.generator) := by
    rw [precommitsCast, hnewest, hlowest]
  rw [hcast, mem_votedFrom hw hb]
  simp only [precommitFrom?, Option.bind_eq_bind, Option.bind_eq_some_iff, Height.succ?_eq_some,
    Option.some.injEq]
  constructor
  · rintro ⟨lowest, ⟨unvoted, hunvoted, next, hnext, rfl⟩, hle, hweight⟩
    simp only [Height.le_iff, Height.toNat_max] at hle
    rw [Height.le_iff, Height.lt_iff]
    exact ⟨by omega, by omega, hweight⟩
  · rintro ⟨hactive, hfresh, hweight⟩
    obtain ⟨unvoted, hunvoted⟩ := Height.exists_succ? hprevoted
    obtain ⟨next, hnext⟩ := Height.exists_succ? hfresh
    rw [Height.succ?_eq_some] at hunvoted hnext
    refine ⟨_, ⟨unvoted, hunvoted, next, hnext, rfl⟩, ?_, hweight⟩
    simp only [Height.le_iff, Height.lt_iff, Height.toNat_max] at hactive hfresh hprevoted ⊢
    omega

theorem exists_precommits (hw : Consecutive l.window) {k : Height}
    (h : k ∈ l.precommitsCast schedule) :
    ∃ newest voter b p, b.height = k ∧ l.Precommits schedule newest voter b p := by
  unfold precommitsCast at h
  cases hnewest : l.newest? with
  | none =>
    rw [hnewest] at h
    contradiction
  | some newest =>
    rw [hnewest] at h
    obtain ⟨lowest, hlowest, b, hb, rfl, hle, hweight⟩ := exists_of_mem_votedFrom h
    simp only [leastPrecommit?, hnewest, Option.bind_eq_bind, Option.bind_some,
      Option.bind_eq_some_iff] at hlowest
    obtain ⟨voter, hvoter, notPrevoted, hwalk, hlowest⟩ := hlowest
    simp only [precommitFrom?, Option.bind_eq_bind, Option.bind_eq_some_iff,
      Height.succ?_eq_some] at hlowest
    obtain ⟨unvoted, hunvoted, next, hnext, hmax⟩ := hlowest
    cases hmax
    simp only [Height.le_iff, Height.toNat_max] at hle
    obtain ⟨w, hw'⟩ := Option.isSome_iff_exists.mp hweight
    obtain ⟨p, heffective, hprevoted, hweight'⟩ := BlockVotes.precommitOf?_eq_some.mp hw'
    simp only [notPrevoted?, hnewest] at hwalk
    have hmem : newest ∈ l.window := List.mem_of_head? hnewest
    have hbnewest : b.height ≤ newest.height := hw.height_le_of_newest hnewest hb
    refine ⟨newest, voter, b, p, rfl, ?_⟩
    exact {
      isNewest := hnewest
      isVoter := hvoter
      retained := hb
      effective := heffective
      weighs := by rw [hweight']; rfl
      prevoted := hprevoted
      active := by rw [Height.le_iff]; omega
      fresh := by rw [Height.lt_iff]; omega
      leads := leadsBelow_of_walkBack? hw hnewest hwalk (by rw [Height.lt_iff]; omega) hmem rfl
        rfl hbnewest }

theorem precommits_of_mem (hw : Consecutive l.window) {b : BlockVotes} (hb : b ∈ l.window)
    (h : b.height ∈ l.precommitsCast schedule) :
    ∃ newest voter p, l.Precommits schedule newest voter b p := by
  obtain ⟨newest, voter, x, p, hxb, hx⟩ := exists_precommits hw h
  rw [hw.eq_of_height hx.retained hb hxb] at hx
  exact ⟨newest, voter, p, hx⟩

/-! ## The ledger after the votes -/

/-- A block with the votes of a generator at the heights that get them. -/
def counted (l : Ledger) (schedule : Timeline Parameters) (generator : Address)
    (b : BlockVotes) : BlockVotes :=
  let b := if b.height ∈ l.precommitsCast schedule then b.addPrecommit schedule generator else b
  if b.height ∈ l.prevotesCast schedule then b.addPrevote schedule generator else b

/-- A voter after the precommits of the newest block. -/
def noted (l : Ledger) (schedule : Timeline Parameters) (generator : Address) (v : Voter) :
    Voter :=
  match (l.precommitsCast schedule).head? with
  | none => v
  | some greatest => if v.address = generator then { v with lastPrecommit := greatest } else v

@[simp] theorem height_counted (l : Ledger) (schedule : Timeline Parameters)
    (generator : Address) (b : BlockVotes) :
    (l.counted schedule generator b).height = b.height := by
  simp only [counted]
  split <;> split <;> simp

@[simp] theorem bare_counted (l : Ledger) (schedule : Timeline Parameters)
    (generator : Address) (b : BlockVotes) :
    (l.counted schedule generator b).bare = b.bare := by
  simp only [counted]
  split <;> split <;> simp

@[simp] theorem generator_counted (l : Ledger) (schedule : Timeline Parameters)
    (generator : Address) (b : BlockVotes) :
    (l.counted schedule generator b).generator = b.generator := by
  rw [← BlockVotes.generator_bare, bare_counted, BlockVotes.generator_bare]

@[simp] theorem maxHeightGenerated_counted (l : Ledger) (schedule : Timeline Parameters)
    (generator : Address) (b : BlockVotes) :
    (l.counted schedule generator b).maxHeightGenerated = b.maxHeightGenerated := by
  rw [← BlockVotes.maxHeightGenerated_bare, bare_counted, BlockVotes.maxHeightGenerated_bare]

theorem prevotes_counted (l : Ledger) (schedule : Timeline Parameters) (generator : Address)
    (b : BlockVotes) :
    (l.counted schedule generator b).prevotes =
      if b.height ∈ l.prevotesCast schedule
      then b.prevotes + ((schedule.validatorsAt b.height).weightOf? generator).getD .zero
      else b.prevotes := by
  simp only [counted]
  split <;> split <;> simp_all [BlockVotes.prevotes_addPrevote]

theorem precommits_counted (hw : Consecutive l.window) {generator : Address}
    (hgenerator : ∀ newest, l.newest? = some newest → newest.generator = generator)
    {b : BlockVotes} (hb : b ∈ l.window) :
    (l.counted schedule generator b).precommits =
      if b.height ∈ l.precommitsCast schedule
      then b.precommits + ((schedule.validatorsAt b.height).weightOf? generator).getD .zero
      else b.precommits := by
  have hcounted : (l.counted schedule generator b).precommits
      = (if b.height ∈ l.precommitsCast schedule then b.addPrecommit schedule generator
          else b).precommits := by
    simp only [counted]
    split <;> split <;> simp
  rw [hcounted]
  split
  · rename_i hcast
    obtain ⟨newest, voter, p, hprecommits⟩ := precommits_of_mem hw hb hcast
    apply BlockVotes.precommits_addPrecommit
    rw [← hgenerator newest hprecommits.isNewest, Option.isSome_iff_exists]
    obtain ⟨w, hweight⟩ := Option.isSome_iff_exists.mp hprecommits.weighs
    exact ⟨w, BlockVotes.precommitOf?_eq_some.mpr
      ⟨p, hprecommits.effective, hprecommits.prevoted, hweight⟩⟩
  · rfl

@[simp] theorem activeFrom_noted (l : Ledger) (schedule : Timeline Parameters)
    (generator : Address) (v : Voter) :
    (l.noted schedule generator v).activeFrom = v.activeFrom := by
  unfold noted
  split
  · rfl
  · split <;> rfl

/-- A block changes no voter but its generator. -/
theorem noted_of_ne {generator : Address} {v : Voter} (other : v.address ≠ generator) :
    l.noted schedule generator v = v := by
  unfold noted
  split
  · rfl
  · rw [if_neg other]

/-- The last precommit that is noted for the generator is no lower than any that it casts. -/
theorem le_lastPrecommit_noted (hw : Consecutive l.window) {v : Voter} {k : Height}
    (hk : k ∈ l.precommitsCast schedule) :
    k ≤ (l.noted schedule v.address v).lastPrecommit := by
  unfold noted
  cases hhead : (l.precommitsCast schedule).head? with
  | none =>
    rw [List.head?_eq_none_iff.mp hhead] at hk
    contradiction
  | some greatest =>
    simp only [if_true]
    exact le_head_precommitsCast hw hhead hk

/-- The last precommit of a voter does not fall. -/
theorem lastPrecommit_le_noted (hw : Consecutive l.window) {generator : Address}
    (hgenerator : ∀ newest, l.newest? = some newest → newest.generator = generator) {v : Voter}
    (hv : l.voter? v.address = some v) :
    v.lastPrecommit ≤ (l.noted schedule generator v).lastPrecommit := by
  unfold noted
  cases hhead : (l.precommitsCast schedule).head? with
  | none => exact Nat.le_refl _
  | some greatest =>
    dsimp only
    split
    · rename_i own
      obtain ⟨newest, voter, b, p, hheight, hvotes⟩ := exists_precommits hw
        (List.mem_of_head? hhead)
      have hvoter := hvotes.isVoter
      rw [hgenerator newest hvotes.isNewest, ← own, hv] at hvoter
      cases hvoter
      rw [← hheight]
      exact Nat.le_of_lt hvotes.fresh
    · exact Nat.le_refl _

/-- Changing the first voter with an address changes what is found under that address. -/
private theorem find?_modify {voters : List Voter} {generator a : Address} {f : Voter → Voter}
    (hf : ∀ v, (f v).address = v.address) :
    (voters.modify (voters.findIdx fun v => v.address = generator) f).find?
        (fun v => v.address = a)
      = (voters.find? fun v => v.address = a).map
          fun v => if v.address = generator then f v else v := by
  induction voters with
  | nil => rfl
  | cons v rest ih =>
    rw [List.findIdx_cons]
    by_cases hv : v.address = generator
    · rw [decide_eq_true hv, cond_true, List.modify_zero_cons, List.find?_cons, List.find?_cons, hf]
      by_cases ha : v.address = a
      · rw [decide_eq_true ha, Option.map_some, if_pos hv]
      · rw [decide_eq_false ha]
        -- whoever else is found has another address than the voter that was changed
        have hother : ∀ u, rest.find? (fun v => v.address = a) = some u →
            u.address ≠ generator := by
          intro u hu heq
          have hua : u.address = a := by simpa using List.find?_some hu
          exact ha (hv.trans (heq.symm.trans hua))
        cases hrest : rest.find? fun v => v.address = a with
        | none => simp only [Option.map_none]
        | some u => simp only [Option.map_some, if_neg (hother u hrest)]
    · rw [decide_eq_false hv, cond_false, List.modify_succ_cons, List.find?_cons, List.find?_cons,
        ih]
      by_cases ha : v.address = a
      · rw [decide_eq_true ha, Option.map_some, if_neg hv]
      · rw [decide_eq_false ha]

/-- Giving votes from a height on is giving them at the heights that are voted on, as it makes no
difference where the vote has no weight. -/
private theorem ite_votedFrom (hw : Consecutive l.window) {lowest : Height}
    {weight? : BlockVotes → Option Weight} {add : BlockVotes → BlockVotes} {b x : BlockVotes}
    (hb : b ∈ l.window) (hadd : weight? b = none → add x = x) :
    (if b.height ∈ l.votedFrom (some lowest) weight? then add x else x)
      = if lowest ≤ b.height then add x else x := by
  simp only [mem_votedFrom hw hb, Option.some.injEq, exists_eq_left']
  cases hweight : weight? b with
  | none => simp [hadd hweight]
  | some w => simp

theorem addPrecommit_eq_self {generator : Address} (b : BlockVotes)
    (h : b.precommitOf? schedule generator = none) : b.addPrecommit schedule generator = b := by
  rw [BlockVotes.addPrecommit, h]

theorem addPrevote_eq_self {generator : Address} (b : BlockVotes)
    (h : b.prevoteOf? schedule generator = none) : b.addPrevote schedule generator = b := by
  rw [BlockVotes.addPrevote, h]

theorem noted_of_no_precommits {generator : Address} (h : l.precommitsCast schedule = [])
    (v : Voter) : l.noted schedule generator v = v := by
  rw [noted, h]
  rfl

theorem counted_of_no_votes {generator : Address} (hprevotes : l.prevotesCast schedule = [])
    (hprecommits : l.precommitsCast schedule = []) (b : BlockVotes) :
    l.counted schedule generator b = b := by
  simp only [counted, hprevotes, hprecommits, List.not_mem_nil, if_false]

theorem window_precommit (hw : Consecutive l.window) (generator : Address) (lowest : Height) :
    (l.precommit schedule generator lowest).window = l.window.map fun b =>
      if lowest ≤ b.height then b.addPrecommit schedule generator else b :=
  hw.mapWhile_eq_map lowest _

theorem window_prevote (hw : Consecutive l.window) (generator : Address) (lowest : Height) :
    (l.prevote schedule generator lowest).window = l.window.map fun b =>
      if lowest ≤ b.height then b.addPrevote schedule generator else b :=
  hw.mapWhile_eq_map lowest _

theorem voter?_precommit (generator : Address) (lowest : Height) (a : Address) :
    (l.precommit schedule generator lowest).voter? a = (l.voter? a).map fun v =>
      match (l.votedFrom (some lowest) (·.precommitOf? schedule generator)).head? with
      | none => v
      | some greatest =>
        if v.address = generator then { v with lastPrecommit := greatest } else v := by
  have hhead : (l.votedFrom (some lowest) (·.precommitOf? schedule generator)).head?
      = ((l.window.takeWhile fun b => lowest ≤ b.height).find?
          fun b => (b.precommitOf? schedule generator).isSome).map BlockVotes.height := by
    rw [votedFrom, List.head?_map, List.head?_filter]
  rw [hhead, precommit, voter?, voter?]
  cases (l.window.takeWhile fun b => lowest ≤ b.height).find?
      fun b => (b.precommitOf? schedule generator).isSome with
  | none => exact Option.map_id_fun'.symm ▸ rfl
  | some b => exact find?_modify fun _ => rfl

/-- The ledger after the precommits from a height on, if there is one. -/
def precommitted (l : Ledger) (schedule : Timeline Parameters) (generator : Address)
    (lowest? : Option Height) : Ledger :=
  match lowest? with
  | none => l
  | some lowest => l.precommit schedule generator lowest

theorem window_precommitted (hw : Consecutive l.window) {generator : Address}
    {lowest? : Option Height}
    (hcast : l.precommitsCast schedule
      = l.votedFrom lowest? (·.precommitOf? schedule generator)) :
    (l.precommitted schedule generator lowest?).window = l.window.map fun b =>
      if b.height ∈ l.precommitsCast schedule then b.addPrecommit schedule generator else b := by
  rw [hcast]
  cases lowest? with
  | none =>
    have hnone : ∀ b : BlockVotes,
        b.height ∉ l.votedFrom none (·.precommitOf? schedule generator) :=
      fun b => List.not_mem_nil
    simp only [precommitted, if_neg (hnone _), List.map_id']
  | some lowest =>
    rw [precommitted, window_precommit hw]
    apply List.map_congr_left
    intro b hb
    exact (ite_votedFrom hw hb (addPrecommit_eq_self b)).symm

theorem voter?_precommitted {generator : Address} {lowest? : Option Height}
    (hcast : l.precommitsCast schedule
      = l.votedFrom lowest? (·.precommitOf? schedule generator)) (a : Address) :
    (l.precommitted schedule generator lowest?).voter? a
      = (l.voter? a).map (l.noted schedule generator) := by
  cases lowest? with
  | none =>
    rw [funext (noted_of_no_precommits hcast), Option.map_id_fun']
    rfl
  | some lowest =>
    rw [precommitted, voter?_precommit]
    unfold noted
    rw [hcast]

/-- A prevote has the same weight whether or not the block is precommitted first. -/
theorem window_prevote_precommitted (hw : Consecutive l.window) {generator : Address}
    {lowest? : Option Height} {lowest : Height}
    (hprecommits : l.precommitsCast schedule
      = l.votedFrom lowest? (·.precommitOf? schedule generator))
    (hprevotes : l.prevotesCast schedule
      = l.votedFrom (some lowest) (·.prevoteOf? schedule generator)) :
    ((l.precommitted schedule generator lowest?).prevote schedule generator lowest).window
      = l.window.map (l.counted schedule generator) := by
  have hmid := window_precommitted hw hprecommits
  have hheight : ∀ b : BlockVotes,
      (if b.height ∈ l.precommitsCast schedule then b.addPrecommit schedule generator
        else b).height = b.height := by
    intro b
    split <;> simp
  rw [window_prevote (by rw [hmid]; exact hw.map hheight), hmid, List.map_map]
  apply List.map_congr_left
  intro b hb
  simp only [Function.comp_apply, counted, hheight]
  rw [hprevotes]
  refine (ite_votedFrom hw hb fun hnone => addPrevote_eq_self _ ?_).symm
  rw [BlockVotes.prevoteOf?_eq, hheight, ← BlockVotes.prevoteOf?_eq, hnone]

/-- What the votes of the newest block make of a ledger. -/
structure Casts (l : Ledger) (schedule : Timeline Parameters) (generator : Address)
    (next : Ledger) : Prop where
  watermarks : next.watermarks = l.watermarks
  window : next.window = l.window.map (l.counted schedule generator)
  voter? : ∀ a, next.voter? a = (l.voter? a).map (l.noted schedule generator)

/-- Without votes nothing changes. -/
theorem casts_of_no_votes {generator : Address} (hprevotes : l.prevotesCast schedule = [])
    (hprecommits : l.precommitsCast schedule = []) : l.Casts schedule generator l where
  watermarks := rfl
  window := by
    rw [List.map_congr_left fun b _ => counted_of_no_votes hprevotes hprecommits b, List.map_id']
  voter? a := by
    rw [funext (noted_of_no_precommits hprecommits), Option.map_id_fun']
    rfl

/-- A voter who generates the newest block casts all its votes. -/
theorem casts_of_voter (hw : Consecutive l.window) {newest : BlockVotes} {voter : Voter}
    {notPrevoted unreported : Height} (hnewest : l.newest? = some newest)
    (hvoter : l.voter? newest.generator = some voter) (hwalk : l.notPrevoted? = some notPrevoted)
    (hunreported : newest.maxHeightGenerated.succ? = some unreported) :
    l.Casts schedule newest.generator
      ((l.precommitted schedule newest.generator (precommitFrom? voter notPrevoted)).prevote
        schedule newest.generator (max unreported voter.activeFrom)) := by
  have hprevotes : l.prevotesCast schedule
      = l.votedFrom (some (max unreported voter.activeFrom))
          (·.prevoteOf? schedule newest.generator) := by
    simp only [prevotesCast, hnewest, leastPrevote?, hvoter, hunreported, Option.bind_eq_bind,
      Option.bind_some]
  have hprecommits : l.precommitsCast schedule
      = l.votedFrom (precommitFrom? voter notPrevoted)
          (·.precommitOf? schedule newest.generator) := by
    simp only [precommitsCast, hnewest, leastPrecommit?, hvoter, hwalk, Option.bind_eq_bind,
      Option.bind_some]
  refine ⟨?_, window_prevote_precommitted hw hprecommits hprevotes,
    voter?_precommitted hprecommits⟩
  unfold precommitted
  split <;> rfl

theorem casts_of_castVotes? (hw : Consecutive l.window) {generator : Address}
    (hgenerator : ∀ newest, l.newest? = some newest → newest.generator = generator)
    {next : Ledger} (h : l.castVotes? schedule = some next) :
    l.Casts schedule generator next := by
  unfold castVotes? at h
  cases hnewest : l.newest? with
  | none =>
    simp only [hnewest, Option.some.injEq] at h
    rw [← h]
    apply casts_of_no_votes
    · rw [prevotesCast, hnewest]
    · rw [precommitsCast, hnewest]
  | some newest =>
    cases hgenerator newest hnewest
    cases hvoter : l.voter? newest.generator with
    | none =>
      simp only [hnewest, hvoter, Option.some.injEq] at h
      rw [← h]
      apply casts_of_no_votes
      · simp [prevotesCast, hnewest, leastPrevote?, hvoter, votedFrom]
      · simp [precommitsCast, hnewest, leastPrecommit?, hvoter, votedFrom]
    | some voter =>
      simp only [hnewest, hvoter, Option.bind_eq_bind, Option.bind_eq_some_iff] at h
      obtain ⟨notPrevoted, hwalk, unreported, hunreported, hnext⟩ := h
      rw [← Option.some.inj hnext]
      exact casts_of_voter hw hnewest hvoter hwalk hunreported

end Ledger

end ImpliedFinality
