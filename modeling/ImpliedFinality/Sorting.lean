/-! # Stable sorting by a key

`sortBy key` puts a list into ascending order of `key`. Items with equal keys keep their order. It
is the library's merge sort by that order (`sortBy_eq_mergeSort`) in a form that the kernel can
evaluate, and what is said of it here follows from what the library says of merge sort. -/

namespace ImpliedFinality

variable {α κ : Type} [Ord κ]

/-- Whether the key of an item is at most that of another one. -/
def keyLE (key : α → κ) (a b : α) : Bool := (compare (key a) (key b)).isLE

/-- Puts an item behind all those with smaller keys, and in front of the others. -/
def placeBy (key : α → κ) (x : α) (sorted : List α) : List α :=
  sorted.takeWhile (fun y => !keyLE key x y) ++ x :: sorted.dropWhile fun y => !keyLE key x y

/-- The items in ascending order of their keys. -/
def sortBy (key : α → κ) (items : List α) : List α := items.foldr (placeBy key) []

/-- Whether an item may stand before another one: its key is smaller, or the keys are equal and it
stood before the other. -/
def Precede (key : α → κ) (before : α → α → Prop) (a b : α) : Prop :=
  compare (key a) (key b) = .lt ∨ compare (key a) (key b) = .eq ∧ before a b

theorem precede_of_keyLE {key : α → κ} {before : α → α → Prop} {a b : α}
    (hle : keyLE key a b = true) (h : before a b) : Precede key before a b := by
  rw [keyLE] at hle
  cases hc : compare (key a) (key b) with
  | lt => exact .inl hc
  | eq => exact .inr ⟨hc, h⟩
  | gt =>
    rw [hc] at hle
    contradiction

section Merge

variable [Std.TransOrd κ]

theorem keyLE_trans (key : α → κ) (a b c : α) (hab : keyLE key a b) (hbc : keyLE key b c) :
    keyLE key a c :=
  Std.TransOrd.isLE_trans hab hbc

/-- Of two keys one is at most the other. -/
theorem keyLE_total (key : α → κ) (a b : α) : (keyLE key a b || keyLE key b a) = true := by
  rw [keyLE, keyLE, Std.OrientedOrd.eq_swap (a := key b)]
  cases compare (key a) (key b) <;> rfl

/-- An item with a key that is not at most another one's has the larger key. -/
theorem compare_eq_lt_of_not_keyLE {key : α → κ} {a b : α} (h : (!keyLE key a b) = true) :
    compare (key b) (key a) = .lt := by
  rw [Std.OrientedOrd.eq_swap]
  rw [keyLE] at h
  cases hc : compare (key a) (key b) <;> simp_all

/-- The first item of a list goes between those with smaller keys and the others. -/
theorem exists_mergeSort_cons (key : α → κ) (x : α) (rest : List α) :
    ∃ smaller others, (x :: rest).mergeSort (keyLE key) = smaller ++ x :: others ∧
      rest.mergeSort (keyLE key) = smaller ++ others ∧
      (∀ y ∈ smaller, (!keyLE key x y) = true) ∧ ∀ y ∈ others, keyLE key x y = true := by
  obtain ⟨smaller, others, hplaced, hrest, hsmaller⟩ :=
    List.mergeSort_cons (keyLE_trans key) (keyLE_total key) x rest
  have hsorted := List.pairwise_mergeSort (keyLE_trans key) (keyLE_total key) (x :: rest)
  rw [hplaced, List.pairwise_append, List.pairwise_cons] at hsorted
  exact ⟨smaller, others, hplaced, hrest, hsmaller, hsorted.2.1.1⟩

/-- Placing one item after the other is merge sort. -/
theorem sortBy_eq_mergeSort (key : α → κ) (items : List α) :
    sortBy key items = items.mergeSort (keyLE key) := by
  induction items with
  | nil => exact List.mergeSort_nil.symm
  | cons x rest ih =>
    obtain ⟨smaller, others, hplaced, hrest, hsmaller, hothers⟩ := exists_mergeSort_cons key x rest
    rw [sortBy, List.foldr_cons, ← sortBy, ih, hplaced, hrest, placeBy,
      List.takeWhile_append_of_pos hsmaller, List.dropWhile_append_of_pos hsmaller]
    cases others with
    | nil => rw [List.takeWhile_nil, List.dropWhile_nil, List.append_nil]
    | cons y _ =>
      have hy := hothers y List.mem_cons_self
      simp only [List.takeWhile_cons, List.dropWhile_cons, hy, Bool.not_true, Bool.false_eq_true,
        if_false, List.append_nil]

/-- Sorting neither adds nor drops items. -/
theorem sortBy_perm (key : α → κ) (items : List α) : (sortBy key items).Perm items := by
  rw [sortBy_eq_mergeSort]
  exact List.mergeSort_perm items _

/-- Sorting by what a map keeps of the items is sorting what it makes of them. -/
theorem map_sortBy {β : Type} (key : β → κ) (f : α → β) (items : List α) :
    (sortBy (fun x => key (f x)) items).map f = sortBy key (items.map f) := by
  rw [sortBy_eq_mergeSort, sortBy_eq_mergeSort]
  exact List.map_mergeSort fun _ _ _ _ => rfl

/-- Items with equal keys stay in the order in which they were. -/
theorem stable_sortBy {before : α → α → Prop} {items : List α} (key : α → κ)
    (h : items.Pairwise before) : (sortBy key items).Pairwise (Precede key before) := by
  rw [sortBy_eq_mergeSort]
  induction h with
  | nil => simp
  | @cons x rest hx _ ih =>
    obtain ⟨smaller, others, hplaced, hrest, hsmaller, hothers⟩ := exists_mergeSort_cons key x rest
    have hmem : ∀ y ∈ others, y ∈ rest := by
      intro y hy
      have hmerged : y ∈ rest.mergeSort (keyLE key) := by
        rw [hrest]
        exact List.mem_append_right smaller hy
      exact List.mem_mergeSort.mp hmerged
    rw [hrest, List.pairwise_append] at ih
    obtain ⟨hsmaller', hothers', hbetween⟩ := ih
    rw [hplaced, List.pairwise_append, List.pairwise_cons]
    refine ⟨hsmaller', ⟨fun y hy => ?_, hothers'⟩, fun a ha b hb => ?_⟩
    · exact precede_of_keyLE (hothers y hy) (hx y (hmem y hy))
    · rcases List.mem_cons.mp hb with rfl | hb
      · exact .inl (compare_eq_lt_of_not_keyLE (hsmaller a ha))
      · exact hbetween a ha b hb

end Merge

section Canonical

variable {key : α → κ} {items other : List α} [Std.TransOrd κ] [Std.LawfulEqOrd κ]

/-- Items with different keys are put into strictly ascending order. -/
theorem ascending_sortBy (distinct : (items.map key).Nodup) :
    (sortBy key items).Pairwise fun a b => compare (key a) (key b) = .lt := by
  apply (stable_sortBy key (List.pairwise_map.mp distinct)).imp
  intro a b h
  rcases h with hlt | ⟨heq, hne⟩
  · exact hlt
  · exact absurd (Std.LawfulEqOrd.eq_of_compare heq) hne

/-- Items with different keys have one order only, in whatever order they come. -/
theorem sortBy_eq_of_perm (h : items.Perm other) (distinct : (items.map key).Nodup) :
    sortBy key items = sortBy key other := by
  apply List.Perm.eq_of_pairwise _ (ascending_sortBy distinct)
    (ascending_sortBy (((h.map key).nodup_iff).mp distinct))
    ((sortBy_perm key items).trans (h.trans (sortBy_perm key other).symm))
  intro a b _ _ hab hba
  rw [Std.OrientedOrd.eq_swap, hba] at hab
  contradiction

/-- In a strictly ascending list, the position of an item is the number of items with smaller
keys. -/
theorem countP_of_ascending (h : items.Pairwise fun a b => compare (key a) (key b) = .lt)
    {i : Nat} {x : α} (hx : items[i]? = some x) :
    items.countP (fun y => compare (key y) (key x) = .lt) = i := by
  induction h generalizing i with
  | nil => contradiction
  | @cons y rest hy _ ih =>
    cases i with
    | zero =>
      cases hx
      rw [List.countP_eq_zero]
      intro z hz
      rcases List.mem_cons.mp hz with rfl | hz
      · simp [Std.ReflOrd.compare_self]
      · simp [Std.OrientedOrd.eq_swap (a := key z), hy z hz]
    | succ i =>
      rw [List.getElem?_cons_succ] at hx
      rw [List.countP_cons_of_pos (by simpa using hy x (List.mem_of_getElem? hx)), ih hx]

end Canonical

end ImpliedFinality
