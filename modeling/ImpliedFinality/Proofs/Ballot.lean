import ImpliedFinality.Proofs.Window

/-!
# The votes that a block casts

`prevotesCast` and `precommitsCast` list the heights to which the newest block gives the weight of
its generator. Nothing else becomes of the window and the voters, as `Casts` says later on.
A height is precommitted only if the blocks of the generator, followed backwards by the heights
that they report, lead below it: then one of them prevoted for it.
-/

namespace ImpliedFinality

/-- The validators that vote on a height. -/
def Timeline.validatorsAt (schedule : Timeline Parameters) (height : Height) : Validators :=
  ((schedule.effective? height).map Parameters.validators).getD []

theorem Timeline.validatorsAt_eq {schedule : Timeline Parameters} {height : Height}
    {p : Parameters} (h : schedule.effective? height = some p) :
    schedule.validatorsAt height = p.validators := by
  rw [validatorsAt, h]
  rfl

theorem Timeline.validatorsAt_congr {s t : Timeline Parameters} {height : Height}
    (same : s.effective? height = t.effective? height) :
    s.validatorsAt height = t.validatorsAt height := by
  rw [validatorsAt, same, ← validatorsAt]

namespace BlockVotes

theorem prevoteOf?_eq (schedule : Timeline Parameters) (generator : Address) (b : BlockVotes) :
    b.prevoteOf? schedule generator = (schedule.validatorsAt b.height).weightOf? generator := by
  unfold prevoteOf? Timeline.validatorsAt
  cases schedule.effective? b.height <;> rfl

theorem precommitOf?_eq_some {schedule : Timeline Parameters} {generator : Address}
    {b : BlockVotes} {w : Weight} :
    b.precommitOf? schedule generator = some w ↔
      ∃ p, schedule.effective? b.height = some p ∧ p.prevoteThreshold ≤ b.prevotes ∧
        p.weightOf? generator = some w := by
  unfold precommitOf?
  cases schedule.effective? b.height with
  | none => simp
  | some p =>
    simp only [Option.bind_eq_bind, Option.bind_some, Option.some.injEq, exists_eq_left']
    split <;> simp_all

@[simp] theorem height_addPrevote (schedule : Timeline Parameters) (generator : Address)
    (b : BlockVotes) : (b.addPrevote schedule generator).height = b.height := by
  unfold addPrevote
  split <;> rfl

@[simp] theorem height_addPrecommit (schedule : Timeline Parameters) (generator : Address)
    (b : BlockVotes) : (b.addPrecommit schedule generator).height = b.height := by
  unfold addPrecommit
  split <;> rfl

@[simp] theorem bare_addPrevote (schedule : Timeline Parameters) (generator : Address)
    (b : BlockVotes) : (b.addPrevote schedule generator).bare = b.bare := by
  unfold addPrevote
  split <;> rfl

@[simp] theorem bare_addPrecommit (schedule : Timeline Parameters) (generator : Address)
    (b : BlockVotes) : (b.addPrecommit schedule generator).bare = b.bare := by
  unfold addPrecommit
  split <;> rfl

@[simp] theorem prevotes_addPrecommit (schedule : Timeline Parameters) (generator : Address)
    (b : BlockVotes) : (b.addPrecommit schedule generator).prevotes = b.prevotes := by
  unfold addPrecommit
  split <;> rfl

@[simp] theorem precommits_addPrevote (schedule : Timeline Parameters) (generator : Address)
    (b : BlockVotes) : (b.addPrevote schedule generator).precommits = b.precommits := by
  unfold addPrevote
  split <;> rfl

theorem prevotes_addPrevote (schedule : Timeline Parameters) (generator : Address)
    (b : BlockVotes) :
    (b.addPrevote schedule generator).prevotes
      = b.prevotes + ((schedule.validatorsAt b.height).weightOf? generator).getD .zero := by
  unfold addPrevote
  rw [prevoteOf?_eq]
  cases (schedule.validatorsAt b.height).weightOf? generator with
  | none =>
    have hlt := b.prevotes.isLt
    apply Weight.ext
    rw [Option.getD_none, Weight.toNat_add]
    change b.prevotes.toNat = min (b.prevotes.toNat + 0) _
    omega
  | some w => rfl

/-- A precommit that has weight has that of the validator at the height. -/
theorem precommits_addPrecommit {schedule : Timeline Parameters} {generator : Address}
    {b : BlockVotes} (h : (b.precommitOf? schedule generator).isSome = true) :
    (b.addPrecommit schedule generator).precommits
      = b.precommits + ((schedule.validatorsAt b.height).weightOf? generator).getD .zero := by
  obtain ⟨w, hw⟩ := Option.isSome_iff_exists.mp h
  obtain ⟨p, heffective, -, hweight⟩ := precommitOf?_eq_some.mp hw
  have hvalidators : (schedule.validatorsAt b.height).weightOf? generator = some w := by
    rw [Timeline.validatorsAt_eq heffective]
    exact hweight
  rw [addPrecommit, hw, hvalidators]
  rfl

end BlockVotes

/-! ## Following reported heights backwards -/

/-- Following the heights that a generator's blocks report leads below a height: each block but the
last one reports the height of another block of the generator. -/
inductive LeadsBelow (blocks : List BlockVotes) (k : Height) : BlockVotes → Prop
  | last {b : BlockVotes} (mem : b ∈ blocks) (below : b.maxHeightGenerated < k)
      (above : k ≤ b.height) : LeadsBelow blocks k b
  | back {b prior : BlockVotes} (mem : b ∈ blocks) (own : prior.generator = b.generator)
      (reported : prior.height = b.maxHeightGenerated) (rest : LeadsBelow blocks k prior) :
      LeadsBelow blocks k b

namespace LeadsBelow

variable {blocks : List BlockVotes} {k : Height} {b : BlockVotes}

theorem mono {more : List BlockVotes} (h : LeadsBelow blocks k b)
    (hsub : ∀ x ∈ blocks, x ∈ more) : LeadsBelow more k b := by
  induction h with
  | last mem below above => exact .last (hsub _ mem) below above
  | back mem own reported _ ih => exact .back (hsub _ mem) own reported ih

/-- The last block on the way prevotes for the height. -/
theorem exists_prevoting (h : LeadsBelow blocks k b) :
    ∃ x ∈ blocks, x.generator = b.generator ∧ x.maxHeightGenerated < k ∧ k ≤ x.height := by
  induction h with
  | last mem below above => exact ⟨_, mem, rfl, below, above⟩
  | back mem own reported _ ih =>
    obtain ⟨x, hx, hgen, hbelow, habove⟩ := ih
    exact ⟨x, hx, hgen.trans own, hbelow, habove⟩

end LeadsBelow

namespace Ledger

variable {l : Ledger} {schedule : Timeline Parameters}

/-- A walk that ends below a height has followed the generator's blocks below it. -/
theorem leadsBelow_of_walkBack? (hw : Consecutive l.window) {newest : BlockVotes}
    (hnewest : l.newest? = some newest) {steps : Nat} {reported found k : Height}
    (h : l.walkBack? newest steps reported = some found) (hfound : found < k) {b : BlockVotes}
    (hb : b ∈ l.window) (own : b.generator = newest.generator)
    (hreported : b.maxHeightGenerated = reported) (hk : k ≤ b.height) :
    LeadsBelow (l.window.map BlockVotes.bare) k b.bare := by
  induction steps generalizing reported b with
  | zero => contradiction
  | succ steps ih =>
    have hmem : b.bare ∈ l.window.map BlockVotes.bare := List.mem_map_of_mem hb
    by_cases hlow : reported < k
    · exact .last hmem (by rwa [BlockVotes.maxHeightGenerated_bare, hreported]) hk
    -- the reported height is not below `k`, so the walk cannot have ended on it
    have houtside : found ≠ l.belowWindow newest reported := by
      intro heq
      rw [heq, belowWindow, Height.lt_iff, Height.toNat_max] at hfound
      rw [Height.lt_iff] at hlow
      omega
    rw [walkBack?] at h
    split at h
    · rename_i hle
      simp only [Option.bind_eq_bind, Option.bind_eq_some_iff, Height.gap?_eq_some] at h
      obtain ⟨offset, hoffset, h⟩ := h
      split at h
      · simp only [Option.bind_eq_some_iff] at h
        obtain ⟨prior, hprior, h⟩ := h
        have hheight : prior.height = reported := by
          have := hw.height_eq_of_newest hnewest hprior
          apply Height.ext
          omega
        split at h
        · cases h
          contradiction
        · rename_i hgoes
          rw [not_or, Decidable.not_not] at hgoes
          have hkp : k ≤ prior.height := by
            rw [hheight]
            exact Height.not_lt.mp hlow
          refine .back hmem ?_ ?_ (ih h (List.mem_of_getElem? hprior) hgoes.1 rfl hkp)
          · exact hgoes.1.trans own.symm
          · exact hheight.trans hreported.symm
      · exact absurd (Option.some.inj h).symm houtside
    · exact absurd (Option.some.inj h).symm houtside

/-! ## The heights that are voted on -/

/-- The least height that the newest block prevotes, if its generator is a voter. -/
def leastPrevote? (l : Ledger) : Option Height := do
  let newest ← l.newest?
  let voter ← l.voter? newest.generator
  let unreported ← newest.maxHeightGenerated.succ?
  some (max unreported voter.activeFrom)

/-- The least height that the newest block precommits, if its generator is a voter. -/
def leastPrecommit? (l : Ledger) : Option Height := do
  let newest ← l.newest?
  let voter ← l.voter? newest.generator
  let notPrevoted ← l.notPrevoted?
  precommitFrom? voter notPrevoted

/-- The heights from a given one on at which a vote has weight. -/
def votedFrom (l : Ledger) (lowest? : Option Height) (weight? : BlockVotes → Option Weight) :
    List Height :=
  match lowest? with
  | none => []
  | some lowest =>
    ((l.window.takeWhile fun b => lowest ≤ b.height).filter fun b => (weight? b).isSome).map
      BlockVotes.height

/-- The heights that get the prevote of the newest block. -/
def prevotesCast (l : Ledger) (schedule : Timeline Parameters) : List Height :=
  match l.newest? with
  | none => []
  | some newest => l.votedFrom l.leastPrevote? (·.prevoteOf? schedule newest.generator)

/-- The heights that get the precommit of the newest block. -/
def precommitsCast (l : Ledger) (schedule : Timeline Parameters) : List Height :=
  match l.newest? with
  | none => []
  | some newest => l.votedFrom l.leastPrecommit? (·.precommitOf? schedule newest.generator)

theorem exists_of_mem_votedFrom {lowest? : Option Height} {weight? : BlockVotes → Option Weight}
    {k : Height} (h : k ∈ l.votedFrom lowest? weight?) :
    ∃ lowest, lowest? = some lowest ∧
      ∃ b ∈ l.window, b.height = k ∧ lowest ≤ k ∧ (weight? b).isSome = true := by
  unfold votedFrom at h
  cases lowest? with
  | none => contradiction
  | some lowest =>
    simp only [List.mem_map, List.mem_filter] at h
    obtain ⟨b, ⟨hb, hweight⟩, rfl⟩ := h
    have hle := List.all_eq_true.mp List.all_takeWhile b hb
    exact ⟨lowest, rfl, b, (List.takeWhile_sublist _).subset hb, rfl, of_decide_eq_true hle,
      hweight⟩

theorem mem_votedFrom (hw : Consecutive l.window) {lowest? : Option Height}
    {weight? : BlockVotes → Option Weight} {b : BlockVotes} (hb : b ∈ l.window) :
    b.height ∈ l.votedFrom lowest? weight? ↔
      ∃ lowest, lowest? = some lowest ∧ lowest ≤ b.height ∧ (weight? b).isSome = true := by
  constructor
  · intro h
    obtain ⟨lowest, hlowest, x, hx, hxb, hle, hweight⟩ := exists_of_mem_votedFrom h
    rw [hw.eq_of_height hx hb hxb] at hweight
    exact ⟨lowest, hlowest, hle, hweight⟩
  · rintro ⟨lowest, rfl, hle, hweight⟩
    rw [votedFrom, hw.takeWhile_eq_filter]
    apply List.mem_map_of_mem
    simp [hb, hle, hweight]

/-- Heights are voted on from the newest one down, each of them once. -/
theorem pairwise_votedFrom (hw : Consecutive l.window) (lowest? : Option Height)
    (weight? : BlockVotes → Option Weight) :
    (l.votedFrom lowest? weight?).Pairwise fun a b => b < a := by
  unfold votedFrom
  cases lowest? with
  | none => exact .nil
  | some lowest =>
    rw [List.pairwise_map]
    exact hw.pairwise.sublist (List.filter_sublist.trans (List.takeWhile_sublist _))

theorem nodup_votedFrom (hw : Consecutive l.window) (lowest? : Option Height)
    (weight? : BlockVotes → Option Weight) : (l.votedFrom lowest? weight?).Nodup := by
  apply (pairwise_votedFrom hw lowest? weight?).imp
  rintro a _ hlt rfl
  exact Nat.lt_irrefl _ hlt

theorem le_head_votedFrom (hw : Consecutive l.window) {lowest? : Option Height}
    {weight? : BlockVotes → Option Weight} {greatest k : Height}
    (hhead : (l.votedFrom lowest? weight?).head? = some greatest)
    (hk : k ∈ l.votedFrom lowest? weight?) : k ≤ greatest := by
  have hsorted := pairwise_votedFrom hw lowest? weight?
  obtain ⟨rest, hrest⟩ := List.head?_eq_some_iff.mp hhead
  rw [hrest, List.pairwise_cons] at hsorted
  rw [hrest, List.mem_cons] at hk
  rcases hk with rfl | hk
  · exact Nat.le_refl _
  · exact Nat.le_of_lt (hsorted.1 k hk)

theorem nodup_prevotesCast (hw : Consecutive l.window) : (l.prevotesCast schedule).Nodup := by
  unfold prevotesCast
  split
  · exact .nil
  · exact nodup_votedFrom hw _ _

theorem nodup_precommitsCast (hw : Consecutive l.window) :
    (l.precommitsCast schedule).Nodup := by
  unfold precommitsCast
  split
  · exact .nil
  · exact nodup_votedFrom hw _ _

theorem le_head_precommitsCast (hw : Consecutive l.window) {greatest k : Height}
    (hhead : (l.precommitsCast schedule).head? = some greatest)
    (hk : k ∈ l.precommitsCast schedule) : k ≤ greatest := by
  unfold precommitsCast at hhead hk
  split at hk
  · contradiction
  · rename_i newest hnewest
    rw [hnewest] at hhead
    exact le_head_votedFrom hw hhead hk

end Ledger

end ImpliedFinality
