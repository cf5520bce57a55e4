/-! # Voting weights

A weight is a number below `2 ^ 64`. Sums either have no value when they leave that range (`add?`)
or stop at its top (`+`). Both kinds of sum over a list are functions of its exact total, and so
do not depend on its order. -/

namespace ImpliedFinality

/-- What a vote of a validator counts for. -/
structure Weight where
  toNat : Nat
  isLt : toNat < 18446744073709551616
deriving DecidableEq

namespace Weight

@[ext] theorem ext {a b : Weight} (h : a.toNat = b.toNat) : a = b := by
  cases a; cases b; simp_all

theorem toNat_inj {a b : Weight} : a.toNat = b.toNat ↔ a = b :=
  ⟨ext, fun h => h ▸ rfl⟩

def zero : Weight := ⟨0, by decide⟩

/-- The largest weight, `2 ^ 64 - 1`. -/
def top : Weight := ⟨18446744073709551615, by decide⟩

instance : Inhabited Weight := ⟨zero⟩

instance : LE Weight := ⟨fun a b => a.toNat ≤ b.toNat⟩
instance : LT Weight := ⟨fun a b => a.toNat < b.toNat⟩
instance (a b : Weight) : Decidable (a ≤ b) := inferInstanceAs (Decidable (a.toNat ≤ b.toNat))
instance (a b : Weight) : Decidable (a < b) := inferInstanceAs (Decidable (a.toNat < b.toNat))
instance : Ord Weight := ⟨fun a b => compare a.toNat b.toNat⟩
instance : ToString Weight := ⟨fun w => toString w.toNat⟩

theorem le_iff {a b : Weight} : a ≤ b ↔ a.toNat ≤ b.toNat := Iff.rfl

theorem lt_iff {a b : Weight} : a < b ↔ a.toNat < b.toNat := Iff.rfl

theorem not_le {a b : Weight} : ¬ a ≤ b ↔ b < a := Nat.not_le

theorem not_lt {a b : Weight} : ¬ a < b ↔ b ≤ a := Nat.not_lt

def isZero (w : Weight) : Bool := w.toNat == 0

theorem isZero_iff {w : Weight} : w.isZero = true ↔ w.toNat = 0 := by simp [isZero]

/-- The weight of a number, if it is below `2 ^ 64`. -/
def ofNat? (n : Nat) : Option Weight := if h : n < 18446744073709551616 then some ⟨n, h⟩ else none

theorem ofNat?_eq_some {n : Nat} {w : Weight} : ofNat? n = some w ↔ n = w.toNat := by
  unfold ofNat?
  split
  · rw [Option.some.injEq, ← toNat_inj]
  · have := w.isLt
    constructor
    · exact fun hn => nomatch hn
    · omega

/-- The exact sum of two weights, if it is a weight. -/
def add? (a b : Weight) : Option Weight := ofNat? (a.toNat + b.toNat)

theorem add?_eq_some {a b w : Weight} : a.add? b = some w ↔ a.toNat + b.toNat = w.toNat :=
  ofNat?_eq_some

/-- A sum has no value exactly if it leaves the range. -/
theorem add?_eq_none {a b : Weight} :
    a.add? b = none ↔ 18446744073709551616 ≤ a.toNat + b.toNat := by
  unfold add? ofNat?
  split <;> simp <;> omega

/-- The weight of a number, capped at the largest weight. -/
def capped (n : Nat) : Weight := ⟨min n 18446744073709551615, by omega⟩

@[simp] theorem toNat_capped (n : Nat) : (capped n).toNat = min n 18446744073709551615 := rfl

instance : Add Weight := ⟨fun a b => capped (a.toNat + b.toNat)⟩

/-- The sum of two weights is the exact one or the largest weight, whichever is less. -/
@[simp] theorem toNat_add (a b : Weight) :
    (a + b).toNat = min (a.toNat + b.toNat) 18446744073709551615 := rfl

/-- Adding a weight never makes less. -/
theorem le_add_right (a b : Weight) : a ≤ a + b := by
  have := a.isLt
  rw [le_iff, toNat_add]
  omega

/-- The exact sum of weights, whether or not it is a weight. The zero is named, since that of the
core library is the one that `List.Perm.sum_nat` and `List.sum_append_nat` are about. -/
def total (weights : List Weight) : Nat := @List.sum Nat _ Zero.ofOfNat0 (weights.map toNat)

/-- The sum of weights, capped at the largest weight. -/
def sum (weights : List Weight) : Weight := weights.foldl (· + ·) zero

/-- Capping each partial sum from any start on is capping the exact sum once. -/
private theorem toNat_foldl_add (weights : List Weight) (start : Weight) :
    (weights.foldl (· + ·) start).toNat
      = min (start.toNat + total weights) 18446744073709551615 := by
  induction weights generalizing start with
  | nil =>
    have := start.isLt
    rw [List.foldl_nil, total, List.map_nil, List.sum_nil]
    omega
  | cons w rest ih =>
    rw [List.foldl_cons, ih, toNat_add, total, total, List.map_cons, List.sum_cons]
    omega

/-- Capping each partial sum is capping the exact sum once. -/
theorem toNat_sum (weights : List Weight) :
    (sum weights).toNat = min (total weights) 18446744073709551615 := by
  rw [sum, toNat_foldl_add]
  simp [zero]

/-- The capped sum is a function of the exact total. -/
theorem sum_eq_capped (weights : List Weight) : sum weights = capped (total weights) :=
  ext (toNat_sum weights)

/-- The exact sum of weights, if it is a weight. -/
def sum? (weights : List Weight) : Option Weight := weights.foldlM add? zero

/-- No partial sum leaves the range if the total does not. -/
private theorem foldlM_add?_eq_some (weights : List Weight) (start w : Weight) :
    weights.foldlM add? start = some w ↔ start.toNat + total weights = w.toNat := by
  induction weights generalizing start with
  | nil =>
    rw [List.foldlM_nil, total, List.map_nil, List.sum_nil, Nat.add_zero]
    exact ⟨fun h => by cases h; rfl, fun h => congrArg some (ext h)⟩
  | cons v rest ih =>
    rw [List.foldlM_cons, total, List.map_cons, List.sum_cons, ← total]
    cases hv : start.add? v with
    | none =>
      rw [add?_eq_none] at hv
      have := w.isLt
      constructor
      · exact fun h => nomatch h
      · omega
    | some u =>
      rw [add?_eq_some] at hv
      show rest.foldlM add? u = some w ↔ _
      rw [ih]
      omega

/-- The exact sum is there if and only if the total is a weight. -/
theorem sum?_eq_some {weights : List Weight} {w : Weight} :
    sum? weights = some w ↔ total weights = w.toNat := by
  rw [sum?, foldlM_add?_eq_some]
  simp [zero]

/-- The capped sum does not depend on the order of the weights. -/
theorem sum_perm {a b : List Weight} (h : a.Perm b) : sum a = sum b :=
  ext (by rw [toNat_sum, toNat_sum, total, (h.map toNat).sum_nat, ← total])

theorem sum?_perm {a b : List Weight} (h : a.Perm b) : sum? a = sum? b := by
  apply Option.ext
  intro w
  rw [sum?_eq_some, sum?_eq_some, total, (h.map toNat).sum_nat, ← total]

end Weight

end ImpliedFinality
