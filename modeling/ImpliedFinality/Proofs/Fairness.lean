import Mathlib.Data.List.Rotate
import ImpliedFinality.Proofs.Lag

/-!
# Fair turns

Slots go round the validators that have weight. As many slots in a row as there are such validators
make up a round, wherever it begins: the list of them, rotated to the one whose turn the first slot
is. So everybody with weight has one slot in a round, and nobody else has any. Whose turn it is at a
time depends on its slot only.
-/

namespace ImpliedFinality

/-- The times of a slot. It lasts `blockTime` seconds, and at least one. -/
def InSlot (blockTime slot : Nat) (timestamp : UInt32) : Prop :=
  slot * max blockTime 1 ≤ timestamp.toNat ∧ timestamp.toNat < (slot + 1) * max blockTime 1

instance (blockTime slot : Nat) (timestamp : UInt32) : Decidable (InSlot blockTime slot timestamp) :=
  inferInstanceAs (Decidable (_ ∧ _))

theorem slotAt_eq_iff {timestamp : UInt32} {blockTime slot : Nat} :
    slotAt timestamp blockTime = slot ↔ InSlot blockTime slot timestamp := by
  have hpos : 0 < max blockTime 1 := Nat.lt_of_lt_of_le Nat.one_pos (Nat.le_max_right _ _)
  rw [slotAt, Nat.div_eq_iff hpos, InSlot, Nat.succ_mul]
  omega

namespace Validators

variable {slot : Nat} {v : Validator}

theorem voting_eq (vs : Validators) : vs.voting = vs.filter fun v => 0 < v.weight.toNat := by
  apply List.filter_congr
  intro v _
  rw [Bool.eq_iff_iff, Bool.not_eq_true', ← Bool.not_eq_true, Weight.isZero_iff, decide_eq_true_eq,
    Nat.pos_iff_ne_zero]

/-- Turns repeat after a round. -/
theorem atSlot?_add_length (vs : Validators) (slot : Nat) :
    vs.atSlot? (slot + vs.voting.length) = vs.atSlot? slot := by
  rw [atSlot?, atSlot?, Nat.add_mod_right]

/-- After each validator it is the next one's turn, and the first one's after the last one. -/
theorem exists_atSlot?_succ {vs : Validators} (hpos : 0 < vs.voting.length) (slot : Nat) :
    ∃ k < vs.voting.length, vs.atSlot? slot = vs.voting[k]? ∧
      vs.atSlot? (slot + 1) = vs.voting[(k + 1) % vs.voting.length]? := by
  refine ⟨slot % vs.voting.length, Nat.mod_lt slot hpos, rfl, ?_⟩
  rw [atSlot?, Nat.mod_add_mod]

/-- A round is the list of all who take turns, from the one on whose turn its first slot is. -/
theorem map_atSlot?_range' (vs : Validators) (slot : Nat) :
    (List.range' slot vs.voting.length).map vs.atSlot? = (vs.voting.rotate slot).map some := by
  apply List.ext_getElem
  · rw [List.length_map, List.length_map, List.length_range', List.length_rotate]
  · intro i hround hrotated
    have hi : i < vs.voting.length := by simpa using hround
    rw [List.getElem_map, List.getElem_map, List.getElem_range', List.getElem_rotate, atSlot?,
      Nat.one_mul, Nat.add_comm i slot, List.getElem?_eq_getElem]

/-- In a round each validator has as many slots as it has places among those who take turns. -/
theorem countP_atSlot? (vs : Validators) (slot : Nat) (v : Validator) :
    (List.range' slot vs.voting.length).countP (fun s => vs.atSlot? s = some v)
      = vs.voting.count v :=
  calc
    _ = ((List.range' slot vs.voting.length).map vs.atSlot?).countP (· = some v) :=
      List.countP_map.symm
    _ = ((vs.voting.rotate slot).map some).countP (· = some v) := by rw [map_atSlot?_range']
    _ = (vs.voting.rotate slot).count v := by
      rw [List.countP_map, List.count]
      apply List.countP_congr
      intro u _
      simp
    _ = vs.voting.count v := (vs.voting.rotate_perm slot).count_eq v

theorem count_voting (vs : Validators) (v : Validator) :
    vs.voting.count v = if 0 < v.weight.toNat then vs.count v else 0 := by
  rw [voting_eq]
  split
  case isTrue hpos => exact List.count_filter (decide_eq_true hpos)
  case isFalse hzero =>
    apply List.count_eq_zero_of_not_mem
    intro hmem
    exact hzero (of_decide_eq_true (List.mem_filter.mp hmem).2)

end Validators

/-- Whose turn it is at a time is the same for all times of a slot. -/
theorem Gadget.generatorAt_eq_of_inSlot {g : Gadget} {slot : Nat} {t u : UInt32}
    (ht : InSlot g.config.blockTime slot t) (hu : InSlot g.config.blockTime slot u)
    (height : Height) : g.generatorAt height t = g.generatorAt height u := by
  have hsame : g.slotAt t = g.slotAt u :=
    (slotAt_eq_iff.mpr ht).trans (slotAt_eq_iff.mpr hu).symm
  rw [generatorAt, generatorAt, hsame]

/-- Of `n` slots in a row, with `n` the number of validators of positive weight, each of these has
one and nobody else has any: they make up the list of these validators, rotated. The slot after a
validator's is that of the next one in the list, or of the first one after the last one, and after
`n` slots it is the same validator's turn again. All times of a slot have the same generator. -/
theorem fair_rotation :
    (∀ (vs : Validators) (slot : Nat),
      let eligible := vs.filter fun v => 0 < v.weight.toNat
      let n := eligible.length
      (List.range' slot n).map vs.atSlot? = (eligible.rotate slot).map some ∧
      (∀ v, (List.range' slot n).countP (fun s => vs.atSlot? s = some v) =
        if 0 < v.weight.toNat then vs.count v else 0) ∧
      (0 < n → ∃ k < n, vs.atSlot? slot = eligible[k]? ∧
        vs.atSlot? (slot + 1) = eligible[(k + 1) % n]?) ∧
      vs.atSlot? (slot + n) = vs.atSlot? slot) ∧
    ∀ (g : Gadget) (height : Height) (slot : Nat) (t u : UInt32),
      InSlot g.config.blockTime slot t → InSlot g.config.blockTime slot u →
        g.generatorAt height t = g.generatorAt height u := by
  refine ⟨fun vs slot => ?_, fun g height slot t u ht hu =>
    Gadget.generatorAt_eq_of_inSlot ht hu height⟩
  intro eligible n
  have heligible : eligible = vs.voting := vs.voting_eq.symm
  rw [show n = vs.voting.length from congrArg List.length heligible, heligible]
  refine ⟨vs.map_atSlot?_range' slot, fun v => ?_, fun hpos => ?_, vs.atSlot?_add_length slot⟩
  · rw [vs.countP_atSlot?, vs.count_voting]
  · exact Validators.exists_atSlot?_succ hpos slot

namespace Quartet

def weighing (n weight : UInt8) : Validator :=
  { Solo.validator with
    address := address n
    weight := Solo.weight weight }

/-- The second and the fourth validator have no weight. -/
def halved : Proposal :=
  ⟨Solo.weight 4, Solo.weight 4, [weighing 1 5, weighing 2 0, weighing 3 5, weighing 4 0]⟩

end Quartet

open Quartet (halved weighing) in
/-- The first and the third validator take turns, for slots of ten seconds. -/
theorem fair_rotation_halved :
    let vs := halved.validators
    let g := ((Gadget.genesis ⟨4, 10, false⟩ .zero).run [.setParameters halved]).1
    (List.range' 7 2).map vs.atSlot? = [some (weighing 3 5), some (weighing 1 5)] ∧
      (∃ k < 2, vs.atSlot? 7 = [weighing 1 5, weighing 3 5][k]? ∧
        vs.atSlot? 8 = [weighing 1 5, weighing 3 5][(k + 1) % 2]?) ∧
      g.generatorAt (Solo.height 1) 20 = .ok (weighing 1 5).generator ∧
      g.generatorAt (Solo.height 1) 29 = .ok (weighing 1 5).generator := by
  intro vs g
  have heligible : (vs.filter fun v => 0 < v.weight.toNat) = [weighing 1 5, weighing 3 5] := rfl
  obtain ⟨hround, -, hnext, -⟩ := fair_rotation.1 vs 7
  rw [heligible] at hround hnext
  have hstart : g.generatorAt (Solo.height 1) 20 = .ok (weighing 1 5).generator := by
    decide +kernel
  have hsame := fair_rotation.2 g (Solo.height 1) 2 29 20 (by decide +kernel) (by decide +kernel)
  exact ⟨hround, hnext (by decide), hstart, hsame.trans hstart⟩

end ImpliedFinality
