import ImpliedFinality.Bytes

/-! # Block heights

A height is a number below `2 ^ 32`. No operation wraps around: `add?`, `sub?` and `gap?` have no
value where the exact result is not a height or is negative, and `below` stops at zero. The
big-endian form is part of store keys, so that the byte order of keys is the order of heights. -/

namespace ImpliedFinality

/-- The height of a block: its distance from the block at height zero. -/
structure Height where
  toNat : Nat
  isLt : toNat < 4294967296
deriving DecidableEq

namespace Height

@[ext] theorem ext {a b : Height} (h : a.toNat = b.toNat) : a = b := by
  cases a; cases b; simp_all

/-- Heights are numbers and nothing more. -/
theorem toNat_inj {a b : Height} : a.toNat = b.toNat ↔ a = b :=
  ⟨ext, fun h => h ▸ rfl⟩

def zero : Height := ⟨0, by decide⟩

/-- The largest height, `2 ^ 32 - 1`. -/
def top : Height := ⟨4294967295, by decide⟩

instance : Inhabited Height := ⟨zero⟩

instance : LE Height := ⟨fun a b => a.toNat ≤ b.toNat⟩
instance : LT Height := ⟨fun a b => a.toNat < b.toNat⟩
instance (a b : Height) : Decidable (a ≤ b) := inferInstanceAs (Decidable (a.toNat ≤ b.toNat))
instance (a b : Height) : Decidable (a < b) := inferInstanceAs (Decidable (a.toNat < b.toNat))
instance : Max Height := maxOfLe
instance : Min Height := minOfLe
instance : Ord Height := ⟨fun a b => compare a.toNat b.toNat⟩
instance : ToString Height := ⟨fun h => toString h.toNat⟩

theorem le_iff {a b : Height} : a ≤ b ↔ a.toNat ≤ b.toNat := Iff.rfl

theorem lt_iff {a b : Height} : a < b ↔ a.toNat < b.toNat := Iff.rfl

theorem not_le {a b : Height} : ¬ a ≤ b ↔ b < a := Nat.not_le

theorem not_lt {a b : Height} : ¬ a < b ↔ b ≤ a := Nat.not_lt

theorem le_top (h : Height) : h ≤ top := Nat.le_of_lt_succ h.isLt

@[simp] theorem toNat_max (a b : Height) : (max a b).toNat = max a.toNat b.toNat := by
  show (if a ≤ b then b else a).toNat = _
  split <;> rename_i h <;> rw [le_iff] at h <;> omega

@[simp] theorem toNat_min (a b : Height) : (min a b).toNat = min a.toNat b.toNat := by
  show (if a ≤ b then a else b).toNat = _
  split <;> rename_i h <;> rw [le_iff] at h <;> omega

instance : Std.IsLinearOrder Height where
  le_refl h := Nat.le_refl h.toNat
  le_trans _ _ _ := Nat.le_trans
  le_antisymm _ _ hab hba := ext (Nat.le_antisymm hab hba)
  le_total a b := Nat.le_total a.toNat b.toNat

instance : Std.LawfulOrderMax Height where
  max_eq_or a b := by
    show (if a ≤ b then b else a) = a ∨ (if a ≤ b then b else a) = b
    split
    · exact .inr rfl
    · exact .inl rfl
  max_le_iff a b c := by
    rw [le_iff, le_iff, le_iff, toNat_max, Nat.max_le]

theorem compare_def (a b : Height) : compare a b = compare a.toNat b.toNat := rfl

instance : Std.TransOrd Height where
  eq_swap {a b} := by simpa only [compare_def] using Std.OrientedOrd.eq_swap
  isLE_trans {a b c} := by simpa only [compare_def] using Std.TransOrd.isLE_trans

instance : Std.LawfulEqOrd Height where
  compare_self := Std.ReflOrd.compare_self (α := Nat)
  eq_of_compare h := ext (Std.LawfulEqOrd.eq_of_compare h)

theorem compare_eq_lt {a b : Height} : compare a b = .lt ↔ a < b := Nat.compare_eq_lt

/-- The height of a number, if it is below `2 ^ 32`. -/
def ofNat? (n : Nat) : Option Height := if h : n < 4294967296 then some ⟨n, h⟩ else none

theorem ofNat?_eq_some {n : Nat} {h : Height} : ofNat? n = some h ↔ n = h.toNat := by
  unfold ofNat?
  split
  · rw [Option.some.injEq, ← toNat_inj]
  · have := h.isLt
    constructor
    · exact fun hn => nomatch hn
    · omega

/-- The height `n` above, unless there is none. -/
def add? (h : Height) (n : Nat) : Option Height := ofNat? (h.toNat + n)

theorem add?_eq_some {h k : Height} {n : Nat} : h.add? n = some k ↔ h.toNat + n = k.toNat :=
  ofNat?_eq_some

/-- A sum has no value exactly if it leaves the range. -/
theorem add?_eq_none {h : Height} {n : Nat} : h.add? n = none ↔ 4294967296 ≤ h.toNat + n := by
  unfold add? ofNat?
  split <;> simp <;> omega

/-- The next height, unless there is none. -/
def succ? (h : Height) : Option Height := h.add? 1

/-- The next height is one above. -/
theorem succ?_eq_some {h k : Height} : h.succ? = some k ↔ h.toNat + 1 = k.toNat := add?_eq_some

/-- Only the largest height has none above. -/
theorem succ?_eq_none {h : Height} : h.succ? = none ↔ h = top := by
  have := h.isLt
  rw [succ?, add?_eq_none, ← toNat_inj]
  show _ ↔ h.toNat = 4294967295
  omega

/-- What is below another height has one above. -/
theorem exists_succ? {h k : Height} (hlt : h < k) : ∃ next, h.succ? = some next := by
  cases hsucc : h.succ? with
  | some next => exact ⟨next, rfl⟩
  | none =>
    rw [succ?_eq_none.mp hsucc] at hlt
    exact absurd k.le_top (not_le.mpr hlt)

/-- The height `n` below, unless that is negative. -/
def sub? (h : Height) (n : Nat) : Option Height :=
  if n ≤ h.toNat then some ⟨h.toNat - n, Nat.lt_of_le_of_lt (Nat.sub_le ..) h.isLt⟩ else none

theorem sub?_eq_some {h k : Height} {n : Nat} : h.sub? n = some k ↔ h.toNat = k.toNat + n := by
  unfold sub?
  split
  · rw [Option.some.injEq, ← toNat_inj]
    show h.toNat - n = k.toNat ↔ _
    omega
  · constructor
    · exact fun hn => nomatch hn
    · omega

/-- The height `n` below, or zero. -/
def below (h : Height) (n : Nat) : Height :=
  ⟨h.toNat - n, Nat.lt_of_le_of_lt (Nat.sub_le ..) h.isLt⟩

/-- Natural subtraction stops at zero, as `below` does. -/
@[simp] theorem toNat_below (h : Height) (n : Nat) : (h.below n).toNat = h.toNat - n := rfl

/-- How far a height lies above another, if it does not lie below it. -/
def gap? (h low : Height) : Option Nat := if low ≤ h then some (h.toNat - low.toNat) else none

/-- A gap is the number to add to the lower height. -/
theorem gap?_eq_some {h low : Height} {n : Nat} :
    h.gap? low = some n ↔ h.toNat = low.toNat + n := by
  unfold gap?
  split <;> rename_i hle <;> rw [le_iff] at hle
  · rw [Option.some.injEq]
    omega
  · constructor
    · exact fun hn => nomatch hn
    · omega

/-- The four bytes of a height, most significant first. -/
def toBytes (h : Height) : Bytes := Bytes.ofNatBE 4 h.toNat

@[simp] theorem length_toBytes (h : Height) : h.toBytes.length = 4 := Bytes.length_ofNatBE ..

/-- Reads a height from exactly four bytes. -/
def ofBytes? (bytes : Bytes) : Option Height :=
  if bytes.length = 4 then ofNat? (Bytes.toNatBE bytes) else none

/-- A height is read back as it was written. -/
theorem ofBytes?_toBytes (h : Height) : ofBytes? h.toBytes = some h := by
  have hlt : h.toNat < Bytes.capacity 4 := h.isLt
  rw [ofBytes?, if_pos h.length_toBytes, ofNat?_eq_some, toBytes, Bytes.toNatBE_ofNatBE,
    Nat.mod_eq_of_lt hlt]

/-- A height is read from its own four bytes and from nothing else. -/
theorem ofBytes?_eq_some {bytes : Bytes} {h : Height} :
    ofBytes? bytes = some h ↔ bytes = h.toBytes := by
  constructor
  · intro hb
    unfold ofBytes? at hb
    split at hb
    · rename_i hlen
      rw [ofNat?_eq_some] at hb
      rw [toBytes, ← hb, ← hlen, Bytes.ofNatBE_toNatBE]
    · contradiction
  · rintro rfl
    exact ofBytes?_toBytes h

/-- Different heights are written differently. -/
theorem toBytes_inj {a b : Height} : a.toBytes = b.toBytes ↔ a = b := by
  constructor
  · intro h
    have := ofBytes?_toBytes a
    rw [h, ofBytes?_toBytes] at this
    exact (Option.some.inj this).symm
  · rintro rfl
    rfl

/-- Keys that end in a height are in the order of heights. -/
theorem compare_toBytes (a b : Height) : compare a.toBytes b.toBytes = compare a b := by
  rw [Bytes.compare_eq_toNatBE (by simp), compare_def]
  have ha : a.toNat < Bytes.capacity 4 := a.isLt
  have hb : b.toNat < Bytes.capacity 4 := b.isLt
  rw [toBytes, toBytes, Bytes.toNatBE_ofNatBE, Bytes.toNatBE_ofNatBE, Nat.mod_eq_of_lt ha,
    Nat.mod_eq_of_lt hb]

end Height

end ImpliedFinality
