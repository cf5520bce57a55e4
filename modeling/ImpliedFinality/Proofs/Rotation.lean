import Mathlib.Data.List.Forall2
import ImpliedFinality.Proofs.Parameters
import ImpliedFinality.Proofs.Quorum

/-!
# The index of generators follows the parameters

Parameters and generators are kept in two tables, written and pruned one beside the other. The
second one is always the image of the first one. So what applies at a height has the same place in
both, the index has a key for whoever's turn it is, and whether a header is from the right generator
depends on the parameters alone.
-/

namespace ImpliedFinality

namespace Table

variable {κ α β : Type} [Ord κ]

/-- The table with the same keys and the images of the values. -/
def map (t : Table κ α) (f : α → β) : Table κ β :=
  ⟨t.entries.map (Prod.map id f), List.pairwise_map.mpr t.ascending⟩

@[simp] theorem entries_map (t : Table κ α) (f : α → β) :
    (t.map f).entries = t.entries.map (Prod.map id f) := rfl

variable [Std.LawfulEqOrd κ]

theorem get?_map (t : Table κ α) (f : α → β) (k : κ) : (t.map f).get? k = (t.get? k).map f := by
  apply Option.ext
  intro v
  simp only [get?_eq_some, entries_map, List.mem_map, Option.map_eq_some_iff, Prod.exists,
    Prod.map_apply, id_eq, Prod.mk.injEq]
  constructor
  · rintro ⟨j, w, hw, rfl, rfl⟩
    exact ⟨w, hw, rfl⟩
  · rintro ⟨w, hw, rfl⟩
    exact ⟨k, w, hw, rfl, rfl⟩

variable [Std.TransOrd κ]

theorem map_insert (t : Table κ α) (f : α → β) (k : κ) (v : α) :
    (t.insert k v).map f = (t.map f).insert k (f v) := by
  apply ext_get?
  intro j
  rw [get?_map, get?_insert, get?_insert, get?_map]
  split <;> rfl

theorem map_eraseAll [DecidableEq κ] (t : Table κ α) (f : α → β) (keys : List κ) :
    (t.eraseAll keys).map f = (t.map f).eraseAll keys := by
  apply ext_get?
  intro j
  rw [get?_map, get?_eraseAll, get?_eraseAll, get?_map]
  split <;> rfl

end Table

namespace Timeline

variable {α β : Type}

/-- Which records are stale depends on their heights only. -/
theorem stale_map (t : Table Height α) (f : α → β) (h : Height) :
    (t.map f).timeline.stale h = t.timeline.stale h := by
  have hheights : (t.map f).timeline.heights = t.timeline.heights := List.map_map
  rw [stale, hheights, stale]

theorem effective?_map (t : Table Height α) (f : α → β) (h : Height) :
    (t.map f).timeline.effective? h = (t.timeline.effective? h).map f := by
  simp only [effective?, at?, Table.timeline, Table.entries_map, List.filter_map,
    List.getLast?_map, Option.map_map]
  rfl

end Timeline

/-- An index of generators in address order, of the validators in a set that have weight. -/
structure Generators.ListsVoting (gs : Generators) (vs : Validators) : Prop where
  ascending : gs.Pairwise fun a b => compare a.address b.address = .lt
  mem_iff : ∀ g, g ∈ gs ↔ ∃ v ∈ vs, v.weight.toNat ≠ 0 ∧ g = v.generator

namespace Validators

variable {vs : Validators}

theorem listsVoting_generators
    (ascending : vs.Pairwise fun a b => compare a.address b.address = .lt) :
    vs.generators.ListsVoting vs where
  ascending := List.pairwise_map.mpr (ascending.sublist List.filter_sublist)
  mem_iff g := by
    rw [generators, List.mem_map]
    simp only [mem_voting, and_assoc, eq_comm]

/-- Whoever's turn it is can be found in the index. -/
theorem keyOf?_generators (nodup : (vs.map Validator.address).Nodup) {v : Validator} {slot : Nat}
    (turn : vs.atSlot? slot = some v) : vs.generators.keyOf? v.address = some v.generatorKey := by
  have hvoting : v ∈ vs.voting := List.mem_of_getElem? turn
  have hnodup : (vs.voting.map Validator.address).Nodup :=
    nodup.sublist (List.filter_sublist.map Validator.address)
  have hfound := (find?_eq_some_iff hnodup).mpr ⟨hvoting, rfl⟩
  rw [Generators.keyOf?, generators, List.find?_map]
  have hsame : ((fun g : Generator => decide (g.address = v.address)) ∘ Validator.generator)
      = fun u : Validator => decide (u.address = v.address) := rfl
  rw [hsame, hfound]
  rfl

end Validators

/-- The generators are those of the parameters at each height. -/
def Contents.Indexed (c : Contents) : Prop :=
  c.generators = c.parameters.map fun p => p.validators.generators

/-- Every step writes and prunes both tables alike. -/
theorem Course.Step.indexed {batchSize : Nat} {s s' : Course} {r : Request}
    (hstep : Step batchSize s r s') (h : s.contents.Indexed) : s'.contents.Indexed := by
  cases hstep with
  | unchanged => exact h
  | @parametersSet proposal aggregate height accepted starts =>
    obtain ⟨-, hparameters, hgenerators⟩ := s.contents.applyAll_proposalChanges s.ledger height
      (proposal.sorted.parameters aggregate)
    rw [Contents.Indexed, hparameters, hgenerators, Table.map_insert, h]
  | blockTaken follows processed =>
    rw [Contents.Indexed, Contents.applyAll_blockChanges, Table.map_eraseAll, h,
      Timeline.stale_map]
  | snapshotsPruned => exact h

namespace Gadget

open Solo (confirming reweighing)

variable {g : Gadget} {s : Course}

/-- Whose turn it is follows from the parameters at the height. -/
theorem generatorAt_eq_ok {height : Height} {timestamp : UInt32} {expected : Generator} :
    g.generatorAt height timestamp = .ok expected ↔ ∃ p v, g.parameters height = .ok p ∧
      p.validators.atSlot? (g.slotAt timestamp) = some v ∧ v.generator = expected := by
  rw [generatorAt, Failure.bind_eq_ok]
  apply exists_congr
  intro p
  cases p.validators.atSlot? (g.slotAt timestamp) with
  | none => simp
  | some v => simp

/-- Where parameters apply, their generators do. -/
theorem generators_eq_ok (hat : g.IsAt s) (h : s.contents.Indexed) {height : Height}
    {p : Parameters} (hp : g.parameters height = .ok p) :
    g.generators height = .ok p.validators.generators := by
  have heffective := hat.shows.parameters_eq_ok.mp hp
  rw [Gadget.generators, hat.holds.generators, h]
  simp only [Failure.ofStore, bind, Except.bind, Timeline.effective?_map]
  rw [show s.contents.parameters.timeline.effective? height = some p from heffective]
  rfl

section Verifying

variable {batchSize : Nat} (hat : g.IsAt s) (h : s.contents.Indexed)
  (hwellFormed : s.contents.WellFormed batchSize)
include hat h hwellFormed

/-- The expected generator has its key in the index. -/
theorem exists_keyOf? {height : Height} {timestamp : UInt32} {expected : Generator}
    (turn : g.generatorAt height timestamp = .ok expected) :
    ∃ gs, g.generators height = .ok gs ∧ gs.keyOf? expected.address = some expected.key := by
  obtain ⟨p, v, hp, hv, rfl⟩ := generatorAt_eq_ok.mp turn
  obtain ⟨k, hk, -⟩ := Timeline.exists_get?_of_effective? (hat.shows.parameters_eq_ok.mp hp)
  have hnodup := (hwellFormed k p hk).nodup
  exact ⟨_, generators_eq_ok hat h hp, Validators.keyOf?_generators hnodup hv⟩

/-- The key in the index is the one of the expected generator. -/
theorem verifyGenerator_eq (header : Header) :
    g.verifyGenerator header = (g.generatorAt header.height header.timestamp).map
      fun expected =>
        decide (expected.address = header.generator) && header.isSignedBy expected.key := by
  rw [verifyGenerator]
  cases hturn : g.generatorAt header.height header.timestamp with
  | error e => rfl
  | ok expected =>
    obtain ⟨gs, hgs, hkey⟩ := exists_keyOf? hat h hwellFormed hturn
    by_cases hnamed : expected.address = header.generator
    · rw [hnamed] at hkey
      simp only [bind, Except.bind, pure, Except.pure, Except.map, hnamed, ne_eq,
        not_true_eq_false, if_false, hgs, hkey, Option.getD_some, decide_true, Bool.true_and]
    · simp only [bind, Except.bind, pure, Except.pure, Except.map, hnamed, ne_eq,
        not_false_eq_true, if_true, decide_false, Bool.false_and]

end Verifying

/-- Wherever a run leads to, generators are recorded at the heights at which parameters are, each
time those of the validators that have weight. So a header is from the right generator if it names
the one whose turn it is and has a signature by its key, which the index has. -/
theorem generators_follow_parameters (config : GadgetConfig) (height : Height)
    (requests : List Request) :
    let g := ((genesis config height).run requests).1
    (∃ schedule index, g.store.parameters = .ok schedule ∧ g.store.generators = .ok index ∧
      List.Forall₂ (fun r s => s.1 = r.1 ∧ s.2.ListsVoting r.2.validators) schedule index) ∧
    ∀ header : Header,
      g.verifyGenerator header = (g.generatorAt header.height header.timestamp).map
        (fun expected =>
          decide (expected.address = header.generator) && header.isSignedBy expected.key) ∧
      ∀ expected, g.generatorAt header.height header.timestamp = .ok expected →
        ∃ gs, g.generators header.height = .ok gs ∧
          gs.keyOf? expected.address = some expected.key := by
  intro g
  obtain ⟨s, hat, -, -, -, hindexed, hwellFormed⟩ := exists_course config height requests
    (P := fun s => s.contents.Indexed ∧ s.contents.WellFormed config.batchSize)
    (fun hstep h => ⟨hstep.indexed h.1, hstep.wellFormed h.2⟩) ⟨rfl, nofun⟩
  refine ⟨⟨_, _, hat.holds.parameters, hat.holds.generators, ?_⟩, fun header => ⟨?_, ?_⟩⟩
  · rw [hindexed, Table.timeline, Table.timeline, Table.entries_map, List.forall₂_map_right_iff,
      List.forall₂_same]
    rintro ⟨k, p⟩ hp
    have hascending := (hwellFormed k p (Table.get?_eq_some.mpr hp)).ascending
    exact ⟨rfl, Validators.listsVoting_generators hascending⟩
  · exact verifyGenerator_eq hat hindexed hwellFormed header
  · exact fun expected hturn => exists_keyOf? hat hindexed hwellFormed hturn

/-- The index has the key of the only validator. -/
theorem generators_follow_parameters_reweighing :
    let g := ((genesis Solo.config .zero).run reweighing).1
    ∃ gs, g.generators (Solo.height 2) = .ok gs ∧
      gs.keyOf? Solo.validator.address = some Solo.validator.generatorKey := by
  intro g
  exact ((generators_follow_parameters Solo.config .zero reweighing).2 (confirming 2)).2
    Solo.validator.generator (by decide +kernel)

end Gadget

end ImpliedFinality
