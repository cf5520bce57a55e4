/-! # Byte strings

Byte strings are lists of octets, ordered lexicographically. Numbers are written with a fixed
width, least significant byte first (`ofNatLE`) or most significant byte first (`ofNatBE`). A
number below the capacity of its width is read back as it was written, and every byte string is
the written form of the number read from it. Of big-endian numbers of the same width the byte order
is the numeric order: `compare_eq_toNatBE`. -/

namespace ImpliedFinality

/-- A byte string. Its order is the lexicographic one of its octets. -/
abbrev Bytes := List UInt8

namespace Bytes

/-- How many byte strings there are of a given length. -/
def capacity : Nat → Nat
  | 0 => 1
  | width + 1 => 256 * capacity width

/-- The `width` low-order bytes of a number, least significant first. -/
def ofNatLE : Nat → Nat → Bytes
  | 0, _ => []
  | width + 1, n => UInt8.ofNat n :: ofNatLE width (n / 256)

/-- The number that is written with its least significant byte first. -/
def toNatLE : Bytes → Nat
  | [] => 0
  | b :: rest => b.toNat + 256 * toNatLE rest

/-- The `width` low-order bytes of a number, most significant first. -/
def ofNatBE (width n : Nat) : Bytes := (ofNatLE width n).reverse

/-- The number that is written with its most significant byte first. -/
def toNatBE (bytes : Bytes) : Nat := toNatLE bytes.reverse

@[simp] theorem length_ofNatLE (width n : Nat) : (ofNatLE width n).length = width := by
  induction width generalizing n with
  | zero => rfl
  | succ width ih => simp [ofNatLE, ih]

@[simp] theorem length_ofNatBE (width n : Nat) : (ofNatBE width n).length = width := by
  simp [ofNatBE]

/-- What is read back is the number modulo the capacity of its width. -/
theorem toNatLE_ofNatLE (width n : Nat) : toNatLE (ofNatLE width n) = n % capacity width := by
  induction width generalizing n with
  | zero => simp [ofNatLE, toNatLE, capacity, Nat.mod_one]
  | succ width ih =>
    have h : (UInt8.ofNat n).toNat = n % 256 := by simp
    rw [ofNatLE, toNatLE, ih, h, capacity, Nat.mod_mul]

/-- Bytes stand for a number below the capacity of their width. -/
theorem toNatLE_lt (bytes : Bytes) : toNatLE bytes < capacity bytes.length := by
  induction bytes with
  | nil => exact Nat.one_pos
  | cons b rest ih =>
    have hb := b.toNat_lt
    simp only [toNatLE, List.length_cons, capacity]
    omega

/-- Every byte string is the written form of the number it stands for. -/
theorem ofNatLE_toNatLE (bytes : Bytes) : ofNatLE bytes.length (toNatLE bytes) = bytes := by
  induction bytes with
  | nil => rfl
  | cons b rest ih =>
    have hb := b.toNat_lt
    have hlow : UInt8.ofNat (b.toNat + 256 * toNatLE rest) = b := by
      apply UInt8.toNat_inj.mp
      rw [UInt8.toNat_ofNat']
      omega
    have hhigh : (b.toNat + 256 * toNatLE rest) / 256 = toNatLE rest := by omega
    simp only [List.length_cons, toNatLE, ofNatLE, hlow, hhigh, ih]

theorem toNatBE_ofNatBE (width n : Nat) : toNatBE (ofNatBE width n) = n % capacity width := by
  simp [toNatBE, ofNatBE, toNatLE_ofNatLE]

theorem toNatBE_lt (bytes : Bytes) : toNatBE bytes < capacity bytes.length := by
  simpa [toNatBE] using toNatLE_lt bytes.reverse

theorem ofNatBE_toNatBE (bytes : Bytes) : ofNatBE bytes.length (toNatBE bytes) = bytes := by
  have h := ofNatLE_toNatLE bytes.reverse
  rw [List.length_reverse] at h
  simp [ofNatBE, toNatBE, h]

/-! ## Order -/

/-- Bytes that follow count for more, by the capacity of those before them. -/
theorem toNatLE_append (low high : Bytes) :
    toNatLE (low ++ high) = toNatLE low + capacity low.length * toNatLE high := by
  induction low with
  | nil => simp [toNatLE, capacity]
  | cons b rest ih =>
    simp only [List.cons_append, toNatLE, ih, List.length_cons, capacity, Nat.mul_add,
      Nat.mul_assoc, Nat.add_assoc]

/-- The first byte of a big-endian number counts for most. -/
theorem toNatBE_cons (b : UInt8) (rest : Bytes) :
    toNatBE (b :: rest) = capacity rest.length * b.toNat + toNatBE rest := by
  simp [toNatBE, toNatLE_append, toNatLE, Nat.add_comm]

theorem compare_octet (a b : UInt8) : compare a b = compare a.toNat b.toNat := by
  rcases Nat.lt_trichotomy a.toNat b.toNat with h | h | h
  · rw [Nat.compare_eq_lt.mpr h]
    exact Std.compare_eq_lt.mpr h
  · rw [UInt8.toNat_inj.mp h, Std.ReflOrd.compare_self, Std.ReflOrd.compare_self]
  · rw [Nat.compare_eq_gt.mpr h]
    exact Std.compare_eq_gt.mpr h

private theorem compare_add_left (n a b : Nat) : compare (n + a) (n + b) = compare a b := by
  rcases Nat.lt_trichotomy a b with h | h | h
  · rw [Nat.compare_eq_lt.mpr h, Nat.compare_eq_lt.mpr (Nat.add_lt_add_left h n)]
  · rw [h, Std.ReflOrd.compare_self, Std.ReflOrd.compare_self]
  · rw [Nat.compare_eq_gt.mpr h, Nat.compare_eq_gt.mpr (Nat.add_lt_add_left h n)]

/-- Byte strings of the same length have the order of the numbers that are read from them. -/
theorem compare_eq_toNatBE {a b : Bytes} (h : a.length = b.length) :
    compare a b = compare (toNatBE a) (toNatBE b) := by
  induction a generalizing b with
  | nil =>
    cases b with
    | nil => rfl
    | cons => contradiction
  | cons x xs ih =>
    cases b with
    | nil => contradiction
    | cons y ys =>
      simp only [List.length_cons, Nat.add_right_cancel_iff] at h
      have hx := toNatBE_lt xs
      have hy := toNatBE_lt ys
      rw [List.compare_cons_cons, ih h, toNatBE_cons, toNatBE_cons, compare_octet, ← h]
      rw [← h] at hy
      rcases Nat.lt_trichotomy x.toNat y.toNat with hxy | hxy | hxy
      · have hstep := Nat.mul_le_mul_left (capacity xs.length) hxy
        rw [Nat.mul_succ] at hstep
        have hlt : capacity xs.length * x.toNat + toNatBE xs
            < capacity xs.length * y.toNat + toNatBE ys := by omega
        rw [Nat.compare_eq_lt.mpr hxy, Nat.compare_eq_lt.mpr hlt]
        rfl
      · rw [hxy, Std.ReflOrd.compare_self, Ordering.eq_then, compare_add_left]
      · have hstep := Nat.mul_le_mul_left (capacity xs.length) hxy
        rw [Nat.mul_succ] at hstep
        have hgt : capacity xs.length * y.toNat + toNatBE ys
            < capacity xs.length * x.toNat + toNatBE xs := by omega
        rw [Nat.compare_eq_gt.mpr hxy, Nat.compare_eq_gt.mpr hgt]
        rfl

/-! ## Text -/

/-- A bracketed list of decimal byte values, such as `[1, 2, 255]`. -/
def decimalList (bytes : Bytes) : String :=
  "[" ++ ", ".intercalate (bytes.map fun b => toString b.toNat) ++ "]"

end Bytes

end ImpliedFinality
