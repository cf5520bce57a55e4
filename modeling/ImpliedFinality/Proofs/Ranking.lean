import ImpliedFinality.Proofs.Trust

/-!
# The order in which validators are listed

Validators are stored in address order, and bitmaps go by BLS key order. With different keys, a
validator's bit is the one at its rank, the number of smaller keys in the set. So the signers of a
commit, the keys that its signature is checked with and the weights that another chain knows do not
depend on how a set is listed.
-/

namespace ImpliedFinality

namespace Validators

variable {vs ws : Validators}

/-- How many validators have smaller BLS keys. -/
def rank (vs : Validators) (v : Validator) : Nat :=
  vs.countP fun u => compare u.blsKey v.blsKey = .lt

/-- Validators with different keys have one BLS key order. -/
theorem byBlsKey_eq_of_perm (h : vs.Perm ws) (distinct : (vs.map Validator.blsKey).Nodup) :
    vs.byBlsKey = ws.byBlsKey :=
  sortBy_eq_of_perm h distinct

theorem rank_of_getElem? (distinct : (vs.map Validator.blsKey).Nodup) {i : Nat} {v : Validator}
    (hv : vs.byBlsKey[i]? = some v) : vs.rank v = i :=
  calc vs.rank v
    _ = vs.byBlsKey.rank v := ((sortBy_perm Validator.blsKey vs).countP_eq _).symm
    _ = i := countP_of_ascending (ascending_sortBy distinct) hv

/-- The signers are the validators whose bit is set at their rank. -/
theorem signers_eq_filter (distinct : (vs.map Validator.blsKey).Nodup) (bits : Bitmap) :
    vs.signers bits = vs.byBlsKey.filter fun v => bits.isSet (vs.rank v) := by
  have hranked : vs.byBlsKey.zipIdx.filter (fun e => bits.isSet e.2) =
      vs.byBlsKey.zipIdx.filter ((fun v => bits.isSet (vs.rank v)) ∘ (·.1)) := by
    apply List.filter_congr
    intro e he
    rw [Function.comp_apply, rank_of_getElem? distinct (List.mem_zipIdx_iff_getElem?.mp he)]
  calc vs.signers bits
    _ = (vs.byBlsKey.zipIdx.filter fun e => bits.isSet e.2).map (·.1) := rfl
    _ = vs.byBlsKey.filter fun v => bits.isSet (vs.rank v) := by
      rw [hranked, ← List.filter_map, List.zipIdx_map_fst]

theorem signersWeight_eq_capped (distinct : (vs.map Validator.blsKey).Nodup) (bits : Bitmap) :
    vs.signersWeight bits = Weight.capped
      (Weight.total ((vs.filter fun v => bits.isSet (vs.rank v)).map Validator.weight)) := by
  have hperm := (sortBy_perm Validator.blsKey vs).filter fun v => bits.isSet (vs.rank v)
  rw [signersWeight, cappedWeight, signers_eq_filter distinct, byBlsKey,
    Weight.sum_perm (hperm.map Validator.weight), Weight.sum_eq_capped]

end Validators

namespace Snapshot

variable {s : Snapshot} {vs : Validators} {key : BlsKey} {u : Validator}

/-- The snapshot with its validators listed in another way. -/
def relisted (s : Snapshot) (vs : Validators) : Snapshot := { s with validators := vs }

/-- If no key occurs twice, there is one member with a registered key. -/
theorem member?_eq_some (distinct : (s.validators.map Validator.blsKey).Nodup) :
    s.member? key = some u ↔ u ∈ s.validators ∧ u.blsKey = key ∧ key.isPlaceholder = false := by
  refine ⟨mem_of_member?, ?_⟩
  rintro ⟨hu, rfl, hregistered⟩
  obtain ⟨w, hw⟩ := exists_member?_iff.mpr ⟨hregistered, u, hu, rfl⟩
  obtain ⟨hmem, hkey, -⟩ := mem_of_member? hw
  rw [hw, List.inj_on_of_nodup_map distinct hmem hu hkey]

section Relisted

variable (h : vs.Perm s.validators) (distinct : (s.validators.map Validator.blsKey).Nodup)
include h distinct

theorem trustedWeights_relisted : (s.relisted vs).trustedWeights = s.trustedWeights := by
  have distinct' : ((s.relisted vs).validators.map Validator.blsKey).Nodup :=
    ((h.map Validator.blsKey).nodup_iff).mpr distinct
  apply Table.ext_get?
  intro key
  rw [get?_trustedWeights, get?_trustedWeights]
  congr 1
  apply Option.ext
  intro u
  rw [member?_eq_some distinct, member?_eq_some distinct', relisted, h.mem_iff]

theorem signers_relisted (bits : Bitmap) : vs.signers bits = s.validators.signers bits := by
  rw [Validators.signers, Validators.signers, (Validators.byBlsKey_eq_of_perm h.symm distinct)]

theorem signersWeight_relisted (bits : Bitmap) :
    vs.signersWeight bits = s.validators.signersWeight bits := by
  rw [Validators.signersWeight, Validators.signersWeight, signers_relisted h distinct]

theorem blsKeys_relisted : vs.blsKeys = s.validators.blsKeys := by
  rw [Validators.blsKeys, Validators.blsKeys, (Validators.byBlsKey_eq_of_perm h.symm distinct)]

theorem signatureQuery?_relisted (commit : AggregateCommit) (header : Header) :
    (s.relisted vs).signatureQuery? commit header = s.signatureQuery? commit header := by
  have hkeys : (s.relisted vs).validators.blsKeys = s.validators.blsKeys :=
    blsKeys_relisted h distinct
  have hweight : ∀ bits, (s.relisted vs).validators.signersWeight bits =
      s.validators.signersWeight bits := signersWeight_relisted h distinct
  simp only [signatureQuery?, hkeys, hweight]
  rfl

end Relisted

end Snapshot

namespace ChainView

variable {view : ChainView} {s : Snapshot} {vs : Validators} {name : Digest}

/-- The view in which one set is listed in another way. -/
def relisted (view : ChainView) (name : Digest) (vs : Validators) : ChainView :=
  { view with
    snapshot? := fun k => (view.snapshot? k).map fun s => if k = name then s.relisted vs else s }

theorem snapshot?_relisted (view : ChainView) (name : Digest) (vs : Validators) (k : Digest) :
    (view.relisted name vs).snapshot? k =
      (view.snapshot? k).map fun s => if k = name then s.relisted vs else s := rfl

theorem trusts_relisted (hs : view.snapshot? name = some s) (h : vs.Perm s.validators)
    (distinct : (s.validators.map Validator.blsKey).Nodup) (lastHash : Digest)
    (weights : Table BlsKey Weight) (threshold : Weight) (commit : AggregateCommit) :
    (view.relisted name vs).trusts lastHash weights threshold commit =
      view.trusts lastHash weights threshold commit := by
  apply trusts_congr
  · intro below _
    rfl
  · intro below parent _ _
    rw [snapshot?_relisted]
    by_cases hname : parent.validatorsHash = name
    · rw [hname, hs, Option.map_some, if_pos rfl, Option.map_some, Option.map_some]
      exact congrArg some (Snapshot.signers_relisted h distinct commit.bits)
    · simp only [hname, if_false, Option.map_id']

end ChainView

/-- A set of validators with different keys can be listed in any order: a bitmap stands for the
same weight, that of the validators at whose rank a bit is set, the signature check gets the same
keys and answers the same, and a commit is trusted alike, by the set and if the set signed it. -/
theorem Snapshot.relisting_unnoticed (s : Snapshot) (vs : Validators) (h : vs.Perm s.validators)
    (distinct : (s.validators.map Validator.blsKey).Nodup) :
    (∀ bits, vs.signersWeight bits = s.validators.signersWeight bits ∧
      s.validators.signersWeight bits = Weight.capped (Weight.total
        ((s.validators.filter fun v => bits.isSet (s.validators.rank v)).map Validator.weight))) ∧
    (vs.blsKeys = s.validators.blsKeys ∧ ∀ commit header,
      (s.relisted vs).signatureQuery? commit header = s.signatureQuery? commit header ∧
      ∀ check, (s.relisted vs).verifies check commit header = s.verifies check commit header) ∧
    (∀ (view : ChainView) name lastHash weights threshold commit,
      view.snapshot? name = some s →
        (view.relisted name vs).trusts lastHash weights threshold commit =
          view.trusts lastHash weights threshold commit) ∧
    ∀ (view : ChainView) lastHash threshold commit,
      view.trusts lastHash (s.relisted vs).trustedWeights threshold commit =
        view.trusts lastHash s.trustedWeights threshold commit := by
  refine ⟨fun bits => ⟨signersWeight_relisted h distinct bits,
    Validators.signersWeight_eq_capped distinct bits⟩,
    ⟨blsKeys_relisted h distinct, fun commit header => ?_⟩, ?_, ?_⟩
  · have hquery := signatureQuery?_relisted h distinct commit header
    exact ⟨hquery, fun check => by rw [verifies, verifies, hquery]⟩
  · intro view name lastHash weights threshold commit hs
    exact ChainView.trusts_relisted hs h distinct lastHash weights threshold commit
  · intro view lastHash threshold commit
    rw [trustedWeights_relisted h distinct]

open Solo in
/-- The two validators of a set are listed the other way round. The second bit still stands for the
greater key, and the commit of both is still trusted. -/
theorem Snapshot.relisting_unnoticed_renamed :
    let vs : Validators := [keyed 1 1, keyed 2 2]
    vs ≠ renamedSet.validators ∧
      renamedSet.validators.rank (keyed 2 2) = 1 ∧ vs.signersWeight ⟨[2]⟩ = weight 1 ∧
      mixedHistory.view.snapshot? (digest 2) = some renamedSet ∧
      (mixedHistory.view.relisted (digest 2) vs).trusts (digest 1) knownSet.trustedWeights (weight 2)
        ⟨height 2, ⟨[7]⟩, .empty⟩ = .ok true := by
  intro vs
  obtain ⟨hweight, -, htrusts, -⟩ := relisting_unnoticed renamedSet vs
    (.swap (keyed 2 2) (keyed 1 1) []) (by decide +kernel)
  have hset : mixedHistory.view.snapshot? (digest 2) = some renamedSet := by decide +kernel
  have hrank : renamedSet.validators.rank (keyed 2 2) = 1 := by decide +kernel
  have hbit : renamedSet.validators.filter (fun v =>
      Bitmap.isSet ⟨[2]⟩ (renamedSet.validators.rank v)) = [keyed 2 2] := by decide +kernel
  refine ⟨by decide, hrank, ?_, hset, ?_⟩
  · rw [(hweight ⟨[2]⟩).1, (hweight ⟨[2]⟩).2, hbit]
    rfl
  · rw [htrusts _ _ _ _ _ _ hset]
    decide +kernel

end ImpliedFinality
