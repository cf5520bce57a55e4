import Mathlib.Data.List.Nodup
import ImpliedFinality.Proofs.Canonical
import ImpliedFinality.Proofs.Handover

/-!
# What the hash of a validator set stands for

The bytes that are hashed list the key and weight of each validator in BLS key order, followed by
the certificate threshold. With different keys this order is that of the keys and of nothing else,
and the wire format reads back what was written. So two sets have the same bytes exactly if they give
the same weights to the same keys under the same threshold.
-/

namespace ImpliedFinality

/-- What the hash of a set commits to for a validator. -/
def Validator.keyWeight (v : Validator) : BlsKey × Weight := (v.blsKey, v.weight)

namespace Validators

variable {vs a b : Validators} {threshold : Weight}

/-- The bytes that are hashed, if keys and weights have a written form. -/
def preimage (vs : Validators) (threshold : Weight) : Except WireError Bytes :=
  (KeyWeights.codec.pair Codec.weight).write (vs.keyWeights, threshold)

instance (vs : Validators) : Decidable vs.IsShort := decidable_of_iff _ (fits_iff vs)

theorem keyWeights_eq_sortBy (vs : Validators) :
    vs.keyWeights = sortBy Prod.fst (vs.map Validator.keyWeight) :=
  map_sortBy Prod.fst Validator.keyWeight vs

theorem mem_keyWeights {e : BlsKey × Weight} :
    e ∈ vs.keyWeights ↔ e ∈ vs.map Validator.keyWeight := by
  rw [keyWeights_eq_sortBy, (sortBy_perm Prod.fst _).mem_iff]

theorem isShort_keyWeights : vs.keyWeights.IsShort ↔ vs.IsShort := by
  apply and_congr
  · rw [Short, Short, keyWeights_eq_sortBy, (sortBy_perm Prod.fst _).length_eq, List.length_map]
  · simp only [mem_keyWeights, List.forall_mem_map]
    rfl

/-- Lists and keys that can be counted in four bytes have bytes to hash, and no others. -/
theorem preimage_eq_ok {bytes : Bytes} :
    vs.preimage threshold = .ok bytes ↔ vs.IsShort ∧ vs.hashInput threshold = bytes := by
  have hfits : (KeyWeights.codec.pair Codec.weight).fits (vs.keyWeights, threshold) = true ↔
      vs.IsShort := by
    simp only [Codec.fits_pair, Codec.fits_weight, and_true, KeyWeights.fits_iff, isShort_keyWeights]
  rw [preimage, Codec.write_eq_ok, hfits]
  rfl

/-- With different keys, the list of keys and weights is determined by its entries. -/
theorem keyWeights_eq_iff (ha : (a.map Validator.blsKey).Nodup)
    (hb : (b.map Validator.blsKey).Nodup) :
    a.keyWeights = b.keyWeights ↔
      ∀ e, e ∈ a.map Validator.keyWeight ↔ e ∈ b.map Validator.keyWeight := by
  have hkeys : ∀ vs : Validators,
      (vs.map Validator.keyWeight).map Prod.fst = vs.map Validator.blsKey := by
    intro vs
    rw [List.map_map]
    rfl
  rw [← hkeys] at ha hb
  constructor
  · intro h e
    rw [← mem_keyWeights, ← mem_keyWeights, h]
  · intro h
    have hperm := (List.perm_ext_iff_of_nodup (List.Nodup.of_map _ ha)
      (List.Nodup.of_map _ hb)).mpr h
    rw [keyWeights_eq_sortBy, keyWeights_eq_sortBy, sortBy_eq_of_perm hperm ha]

/-- The bytes that are hashed for two sets with different keys are the same exactly if the sets give
the same weights to the same keys and the thresholds are equal. There are such bytes for every set
in which the list and the keys are short enough to be written. -/
theorem preimage_eq_iff (a b : Validators) (s t : Weight) (ha : (a.map Validator.blsKey).Nodup)
    (hb : (b.map Validator.blsKey).Nodup) :
    (∀ x, a.preimage s = .ok x ↔ a.IsShort ∧ a.hashInput s = x) ∧
    ∀ x y, a.preimage s = .ok x → b.preimage t = .ok y →
      (x = y ↔
        (∀ e, e ∈ a.map Validator.keyWeight ↔ e ∈ b.map Validator.keyWeight) ∧ s = t) := by
  refine ⟨fun x => preimage_eq_ok, fun x y hx hy => ?_⟩
  have hlawful := Codec.pair_lawful KeyWeights.codec_lawful Codec.weight_lawful
  obtain ⟨hfits, rfl⟩ := Codec.write_eq_ok.mp hx
  obtain ⟨hfits', rfl⟩ := Codec.write_eq_ok.mp hy
  rw [← keyWeights_eq_iff ha hb]
  constructor
  · intro h
    exact Prod.mk.inj (hlawful.encode_inj hfits hfits' h)
  · rintro ⟨hsame, rfl⟩
    rw [hsame]

open Solo (keyed weight) in
/-- Other addresses in another order leave the bytes alone, and another threshold changes them. -/
theorem preimage_eq_iff_readdressed :
    let a := [keyed 1 254, keyed 2 253]
    let b := [keyed 4 253, keyed 3 254]
    ∃ x y, preimage a (weight 1) = .ok x ∧ preimage b (weight 1) = .ok x ∧
      preimage b (weight 2) = .ok y ∧ x ≠ y := by
  intro a b
  have ha : (a.map Validator.blsKey).Nodup := by decide
  have hb : (b.map Validator.blsKey).Nodup := by decide
  have hshort : ∀ t, preimage b t = .ok (hashInput b t) :=
    fun t => preimage_eq_ok.mpr ⟨by decide, rfl⟩
  have hwritten := ((preimage_eq_iff a b (weight 1) (weight 1) ha hb).1 (hashInput a (weight 1))).mpr
    ⟨by decide, rfl⟩
  have hpairs : b.map Validator.keyWeight = (a.map Validator.keyWeight).reverse := rfl
  have hsame := ((preimage_eq_iff a b (weight 1) (weight 1) ha hb).2 _ _ hwritten (hshort _)).mpr
    ⟨fun e => by rw [hpairs, List.mem_reverse], rfl⟩
  refine ⟨_, _, hwritten, ?_, hshort (weight 2), ?_⟩
  · rw [hsame]
    exact hshort (weight 1)
  · intro h
    have hthreshold := ((preimage_eq_iff a b (weight 1) (weight 2) ha hb).2 _ _ hwritten
      (hshort _)).mp h
    exact absurd hthreshold.2 (by decide)

end Validators

end ImpliedFinality
