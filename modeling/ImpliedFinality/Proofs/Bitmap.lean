import ImpliedFinality.Bitmap

/-!
# A bitmap and its indices

Bitmaps over the same number of bytes are told apart by their set bits, and the bits that are set
one after the other are those that are set in the end, in whatever order and however often. So a
list of indices comes back from its bitmap in ascending order, without repetitions and without what
lies out of range, and a bitmap comes back from its indices.
-/

namespace ImpliedFinality

namespace Bitmap

variable {a b : Bitmap} {bits i : Nat} {indices : List Nat}

theorem testBit_getElem {k j : Nat} (hk : k < b.bytes.length) (hj : j < 8) :
    b.bytes[k].toNat.testBit j = b.isSet (8 * k + j) := by
  have hbyte : (8 * k + j) / 8 = k := by omega
  have hbit : (8 * k + j) % 8 = j := by omega
  rw [isSet, hbyte, hbit, List.getElem?_eq_getElem hk]

/-- A bitmap is given by its number of bytes and its set bits. -/
theorem ext_isSet (length_eq : a.bytes.length = b.bytes.length)
    (same : ∀ i, a.isSet i = true ↔ b.isSet i = true) : a = b := by
  have hbytes : a.bytes = b.bytes := by
    apply List.ext_getElem length_eq
    intro k ha hb
    apply UInt8.toNat_inj.mp
    apply Nat.eq_of_testBit_eq
    intro j
    by_cases hj : j < 8
    · rw [testBit_getElem ha hj, testBit_getElem hb hj, Bool.eq_iff_iff]
      exact same (8 * k + j)
    · have hhigh : ∀ byte : UInt8, byte.toNat.testBit j = false := fun byte =>
        Nat.testBit_lt_two_pow (Nat.lt_of_lt_of_le byte.toNat_lt
          (Nat.pow_le_pow_right (by decide) (Nat.not_lt.mp hj)))
      rw [hhigh, hhigh]
  cases a
  cases b
  exact congrArg mk hbytes

/-! ## Setting many bits -/

theorem length_bytes_foldl_set : (indices.foldl set b).bytes.length = b.bytes.length := by
  induction indices generalizing b with
  | nil => rfl
  | cons j rest ih => rw [List.foldl_cons, ih, length_bytes_set]

theorem isSet_foldl_set : (indices.foldl set b).isSet i = true ↔
    b.isSet i = true ∨ i ∈ indices ∧ i / 8 < b.bytes.length := by
  induction indices generalizing b with
  | nil => simp
  | cons j rest ih =>
    rw [List.foldl_cons, ih, isSet_set, length_bytes_set, List.mem_cons, or_assoc]
    apply or_congr_right
    constructor
    · rintro (⟨rfl, hin⟩ | ⟨hmem, hin⟩)
      · exact ⟨.inl rfl, hin⟩
      · exact ⟨.inr hmem, hin⟩
    · rintro ⟨rfl | hmem, hin⟩
      · exact .inl ⟨rfl, hin⟩
      · exact .inr ⟨hmem, hin⟩

theorem length_bytes_ofIndices (bits : Nat) (indices : List Nat) :
    (ofIndices bits indices).bytes.length = (bits + 7) / 8 := by
  rw [ofIndices, length_bytes_foldl_set, clear, List.length_replicate]

/-- The set bits are those with a listed index in range, and no padding bit is set. -/
theorem isSet_ofIndices :
    (ofIndices bits indices).isSet i = true ↔ i ∈ indices ∧ i < bits := by
  rw [ofIndices, isSet_foldl_set, isSet_clear, clear, List.length_replicate, List.mem_filter,
    decide_eq_true_eq]
  constructor
  · rintro (hset | ⟨hlisted, -⟩)
    · contradiction
    · exact hlisted
  · intro hlisted
    refine .inr ⟨hlisted, ?_⟩
    omega

/-- Nothing is lost if all bits of a bitmap are listed and set again. -/
theorem ofIndices_setIndices (b : Bitmap) : ofIndices (8 * b.bytes.length) b.setIndices = b := by
  apply ext_isSet
  · rw [length_bytes_ofIndices]
    omega
  · intro i
    rw [isSet_ofIndices, mem_setIndices]
    constructor
    · exact And.left
    · intro hset
      refine ⟨hset, Nat.lt_of_not_le fun hout => ?_⟩
      rw [isSet_eq_false_of_le hout] at hset
      contradiction

/-- The indices of the bitmap of a list are those of the list that are in range, ascending and each
one once. The bitmap of the indices of a bitmap is that bitmap. And the indices are those of the
set bits, none of which is beyond the last byte. -/
theorem indices_round_trip :
    (∀ (bits : Nat) (indices : List Nat),
      (ofIndices bits indices).setIndices.Pairwise (· < ·) ∧
        ∀ i, i ∈ (ofIndices bits indices).setIndices ↔ i ∈ indices ∧ i < bits) ∧
    (∀ b : Bitmap, ofIndices (8 * b.bytes.length) b.setIndices = b) ∧
    ∀ (b : Bitmap) (i : Nat), (b.isSet i = true ↔ i ∈ b.setIndices) ∧
      b.isSet (8 * b.bytes.length + i) = false := by
  refine ⟨fun bits indices => ⟨pairwise_setIndices _, fun i => ?_⟩, ofIndices_setIndices,
    fun b i => ⟨mem_setIndices.symm, ?_⟩⟩
  · rw [mem_setIndices, isSet_ofIndices]
  · exact isSet_eq_false_of_le (Nat.le_add_right _ _)

/-- Repeated indices and those out of range do not matter, and bits of a byte are listed from the
least significant one on. -/
example : ofIndices 10 [9, 3, 12, 0, 3] = ⟨[0b00001001, 0b00000010]⟩ ∧
    (ofIndices 10 [9, 3, 12, 0, 3]).setIndices = [0, 3, 9] := by
  decide

end Bitmap

end ImpliedFinality
