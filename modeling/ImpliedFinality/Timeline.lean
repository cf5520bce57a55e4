import ImpliedFinality.Height

/-! # Records by activation height

A timeline lists records in ascending order of the height from which they apply. Each record applies
until the next one does. -/

namespace ImpliedFinality

/-- Records with the heights from which they apply. -/
abbrev Timeline (α : Type) := List (Height × α)

namespace Timeline

variable {α : Type}

def heights (t : Timeline α) : List Height := t.map (·.1)

/-- The record that applies at a height: the last one that does not start above it. -/
def at? (t : Timeline α) (h : Height) : Option (Height × α) := (t.filter fun r => r.1 ≤ h).getLast?

/-- What the record says that applies at a height. -/
def effective? (t : Timeline α) (h : Height) : Option α := (t.at? h).map (·.2)

/-- The records that another one has replaced by a height. -/
def stale (t : Timeline α) (h : Height) : List Height := (t.heights.filter (· ≤ h)).dropLast

theorem at?_eq_none {t : Timeline α} {h : Height} : t.at? h = none ↔ ∀ r ∈ t, h < r.1 := by
  simp only [at?, List.getLast?_eq_none_iff, List.filter_eq_nil_iff, decide_eq_true_eq,
    Height.not_le]

end Timeline

end ImpliedFinality
