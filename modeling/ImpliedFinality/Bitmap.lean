import ImpliedFinality.Bytes

/-! # Bitmaps

Bit `i` of a bitmap is bit `i % 8`, least significant first, of its byte `i / 8`. Bits beyond the
last byte are unset. `mem_setIndices` says that the listed indices are exactly those of the set
bits. -/

namespace ImpliedFinality

/-- A list of bits, packed into bytes. As a wire value it is its bytes, so bitmaps of different
lengths differ even if the same bits are set. -/
structure Bitmap where
  bytes : Bytes
deriving DecidableEq

namespace Bitmap

def empty : Bitmap := ⟨[]⟩

instance : Inhabited Bitmap := ⟨empty⟩

/-- Whether a bitmap has no bytes. One of zero bytes only is not empty. -/
def isEmpty (b : Bitmap) : Bool := b.bytes.isEmpty

/-- Whether a bit is set. Beyond the last byte none is. -/
def isSet (b : Bitmap) (i : Nat) : Bool :=
  match b.bytes[i / 8]? with
  | some byte => byte.toNat.testBit (i % 8)
  | none => false

/-- The indices of the set bits, ascending. -/
def setIndices (b : Bitmap) : List Nat := (List.range (8 * b.bytes.length)).filter b.isSet

/-- Sets a bit, if the bitmap has the byte that it is in. -/
def set (b : Bitmap) (i : Nat) : Bitmap :=
  ⟨b.bytes.modify (i / 8) fun byte => byte ||| UInt8.ofNat (1 <<< (i % 8))⟩

/-- A bitmap with room for a number of bits, all of them unset. -/
def clear (bits : Nat) : Bitmap := ⟨List.replicate ((bits + 7) / 8) 0⟩

/-- A bitmap over `bits` positions with those of the given indices set that lie below `bits`. -/
def ofIndices (bits : Nat) (indices : List Nat) : Bitmap :=
  (indices.filter (· < bits)).foldl set (clear bits)

/-- No bit is set beyond the last byte. -/
theorem isSet_eq_false_of_le {b : Bitmap} {i : Nat} (h : 8 * b.bytes.length ≤ i) :
    b.isSet i = false := by
  have hnone : b.bytes[i / 8]? = none := List.getElem?_eq_none (by omega)
  rw [isSet, hnone]

/-- The listed indices are those of the set bits. -/
theorem mem_setIndices {b : Bitmap} {i : Nat} : i ∈ b.setIndices ↔ b.isSet i = true := by
  rw [setIndices, List.mem_filter, List.mem_range]
  constructor
  · exact And.right
  · intro h
    refine ⟨?_, h⟩
    apply Nat.lt_of_not_le
    intro hle
    rw [isSet_eq_false_of_le hle] at h
    contradiction

/-- Indices are listed in ascending order, each of them once. -/
theorem pairwise_setIndices (b : Bitmap) : b.setIndices.Pairwise (· < ·) :=
  List.pairwise_lt_range.sublist List.filter_sublist

@[simp] theorem length_bytes_set (b : Bitmap) (i : Nat) :
    (b.set i).bytes.length = b.bytes.length := by
  simp [set]

/-- Setting a bit leaves all others as they are, and there is nothing to set beyond the last
byte. -/
theorem isSet_set {b : Bitmap} {i j : Nat} :
    (b.set i).isSet j = true ↔ b.isSet j = true ∨ i = j ∧ i / 8 < b.bytes.length := by
  have hmask : (UInt8.ofNat (1 <<< (i % 8))).toNat = 2 ^ (i % 8) := by
    have hlt : 2 ^ (i % 8) < 2 ^ 8 := Nat.pow_lt_pow_right (by decide) (Nat.mod_lt i (by decide))
    rw [Nat.one_shiftLeft, UInt8.toNat_ofNat', Nat.mod_eq_of_lt hlt]
  rw [isSet, isSet, set, List.getElem?_modify]
  cases hbyte : b.bytes[j / 8]? with
  | none =>
    have hout : b.bytes.length ≤ j / 8 := List.getElem?_eq_none_iff.mp hbyte
    simp only [Option.map_eq_map, Option.map_none, Bool.false_eq_true, false_or, false_iff]
    rintro ⟨rfl, hin⟩
    omega
  | some byte =>
    have hin : j / 8 < b.bytes.length := (List.getElem?_eq_some_iff.mp hbyte).1
    by_cases hsame : i / 8 = j / 8
    · simp only [hsame, Option.map_eq_map, Option.map_some, if_true, UInt8.toNat_or, hmask,
        Nat.testBit_or, Nat.testBit_two_pow, Bool.or_eq_true, decide_eq_true_eq]
      apply or_congr_right
      omega
    · simp only [hsame, Option.map_eq_map, Option.map_some, if_false]
      constructor
      · exact .inl
      · rintro (hset | ⟨rfl, -⟩)
        · exact hset
        · exact absurd rfl hsame

@[simp] theorem isSet_clear (bits i : Nat) : (clear bits).isSet i = false := by
  rw [isSet, clear, List.getElem?_replicate]
  split
  · rename_i h
    split at h
    · cases h
      simp
    · contradiction
  · rfl

end Bitmap

end ImpliedFinality
