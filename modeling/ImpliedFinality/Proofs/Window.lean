import ImpliedFinality.Ledger.Finality
import ImpliedFinality.Ledger.Contradiction

/-!
# Windows of consecutive blocks

A window lists blocks newest first, and its heights go down by one from block to block. So a block
is found by the distance of its height from the newest one, heights tell blocks apart, and the
blocks from a height on are the first ones of the window.
-/

namespace ImpliedFinality

namespace BlockVotes

/-- The block without the votes that it got. -/
def bare (b : BlockVotes) : BlockVotes := { b with prevotes := .zero, precommits := .zero }

@[simp] theorem height_bare (b : BlockVotes) : b.bare.height = b.height := rfl

@[simp] theorem generator_bare (b : BlockVotes) : b.bare.generator = b.generator := rfl

@[simp] theorem maxHeightGenerated_bare (b : BlockVotes) :
    b.bare.maxHeightGenerated = b.maxHeightGenerated := rfl

@[simp] theorem bare_ofHeader (h : Header) : (ofHeader h).bare = ofHeader h := rfl

theorem height_eq_of_bare {a b : BlockVotes} (h : a.bare = b.bare) : a.height = b.height := by
  rw [← height_bare a, h, height_bare]

/-- Votes play no part in whether blocks contradict each other. -/
theorem contradicts_bare (a b : BlockVotes) : a.bare.contradicts b.bare = a.contradicts b := rfl

end BlockVotes

/-- Each block is one height below the one in front of it. -/
def Consecutive (window : List BlockVotes) : Prop :=
  ∀ i a b, window[i]? = some a → window[i + 1]? = some b → a.height.toNat = b.height.toNat + 1

namespace Consecutive

variable {window : List BlockVotes}

theorem nil : Consecutive [] := by
  intro i a b ha
  simp at ha

/-- Positions measure heights. -/
theorem height_eq (h : Consecutive window) {i k : Nat} {a b : BlockVotes}
    (ha : window[i]? = some a) (hb : window[i + k]? = some b) :
    a.height.toNat = b.height.toNat + k := by
  induction k generalizing b with
  | zero =>
    rw [Nat.add_zero, ha] at hb
    cases hb
    rfl
  | succ k ih =>
    have hlt : i + (k + 1) < window.length := (List.getElem?_eq_some_iff.mp hb).1
    have hmid : window[i + k]? = some window[i + k] := List.getElem?_eq_getElem (by omega)
    have hstep := h (i + k) _ b hmid hb
    rw [ih hmid, hstep]
    omega

theorem height_eq_of_newest (h : Consecutive window) {i : Nat} {newest b : BlockVotes}
    (hnewest : window.head? = some newest) (hb : window[i]? = some b) :
    newest.height.toNat = b.height.toNat + i := by
  rw [List.head?_eq_getElem?] at hnewest
  exact h.height_eq hnewest (by rwa [Nat.zero_add])

theorem height_le_of_newest (h : Consecutive window) {newest b : BlockVotes}
    (hnewest : window.head? = some newest) (hb : b ∈ window) : b.height ≤ newest.height := by
  obtain ⟨i, hi⟩ := List.getElem?_of_mem hb
  have hheight := h.height_eq_of_newest hnewest hi
  rw [Height.le_iff]
  omega

/-- A block in front of another one is higher. -/
theorem lt_iff (h : Consecutive window) {i j : Nat} {a b : BlockVotes}
    (ha : window[i]? = some a) (hb : window[j]? = some b) : b.height < a.height ↔ i < j := by
  rw [Height.lt_iff]
  rcases Nat.le_total i j with hij | hij
  · obtain ⟨k, rfl⟩ := Nat.exists_eq_add_of_le hij
    have hheight := h.height_eq ha hb
    omega
  · obtain ⟨k, rfl⟩ := Nat.exists_eq_add_of_le hij
    have hheight := h.height_eq hb ha
    omega

/-- Heights tell the blocks of a window apart. -/
theorem eq_of_height (h : Consecutive window) {a b : BlockVotes} (ha : a ∈ window)
    (hb : b ∈ window) (hab : a.height = b.height) : a = b := by
  obtain ⟨i, hi⟩ := List.getElem?_of_mem ha
  obtain ⟨j, hj⟩ := List.getElem?_of_mem hb
  have hij := h.lt_iff hi hj
  have hji := h.lt_iff hj hi
  rw [hab, Height.lt_iff] at hij hji
  have heq : i = j := by omega
  rw [heq, hj] at hi
  exact (Option.some.inj hi).symm

theorem pairwise (h : Consecutive window) : window.Pairwise fun a b => b.height < a.height := by
  rw [List.pairwise_iff_getElem]
  intro i j hi hj hij
  exact (h.lt_iff (List.getElem?_eq_getElem hi) (List.getElem?_eq_getElem hj)).mpr hij

theorem take (h : Consecutive window) (n : Nat) : Consecutive (window.take n) := by
  intro i a b ha hb
  rw [List.getElem?_take] at ha hb
  split at hb
  · rw [if_pos (by omega)] at ha
    exact h i a b ha hb
  · contradiction

theorem cons (h : Consecutive window) {b : BlockVotes}
    (hb : ∀ newest, window.head? = some newest → b.height.toNat = newest.height.toNat + 1) :
    Consecutive (b :: window) := by
  intro i x y hx hy
  cases i with
  | zero =>
    rw [List.getElem?_cons_zero, Option.some.injEq] at hx
    rw [List.getElem?_cons_succ, ← List.head?_eq_getElem?] at hy
    rw [← hx, hb y hy]
  | succ i =>
    rw [List.getElem?_cons_succ] at hx hy
    exact h i x y hx hy

theorem map (h : Consecutive window) {f : BlockVotes → BlockVotes}
    (hf : ∀ b, (f b).height = b.height) : Consecutive (window.map f) := by
  intro i a b ha hb
  rw [List.getElem?_map, Option.map_eq_some_iff] at ha hb
  obtain ⟨x, hx, rfl⟩ := ha
  obtain ⟨y, hy, rfl⟩ := hb
  rw [hf, hf, h i x y hx hy]

theorem tail {b : BlockVotes} (h : Consecutive (b :: window)) : Consecutive window := by
  intro i x y hx hy
  exact h (i + 1) x y hx hy

theorem lt_head {b x : BlockVotes} (h : Consecutive (b :: window)) (hx : x ∈ window) :
    x.height < b.height := by
  obtain ⟨i, hi⟩ := List.getElem?_of_mem hx
  exact (h.lt_iff (i := 0) (j := i + 1) rfl hi).mpr (Nat.succ_pos i)

/-- Dropping the oldest blocks keeps every block above one that is kept. -/
theorem mem_take_of_le (h : Consecutive window) {n : Nat} {a b : BlockVotes}
    (hb : b ∈ window.take n) (ha : a ∈ window) (hab : b.height ≤ a.height) :
    a ∈ window.take n := by
  obtain ⟨j, hj⟩ := List.getElem?_of_mem hb
  obtain ⟨i, hi⟩ := List.getElem?_of_mem ha
  rw [List.getElem?_take] at hj
  split at hj
  · rename_i hjn
    have hji := h.lt_iff hj hi
    have hle : ¬ a.height < b.height := Height.not_lt.mpr hab
    have hin : i < n := by
      rw [hji] at hle
      omega
    apply List.mem_of_getElem?
    rw [List.getElem?_take, if_pos hin]
    exact hi
  · contradiction

theorem getLast_le (h : Consecutive window) {oldest b : BlockVotes}
    (holdest : window.getLast? = some oldest) (hb : b ∈ window) : oldest.height ≤ b.height := by
  rw [List.getLast?_eq_getElem?] at holdest
  obtain ⟨i, hi⟩ := List.getElem?_of_mem hb
  have hlt := h.lt_iff holdest hi
  have hlen : i < window.length := (List.getElem?_eq_some_iff.mp hi).1
  apply Height.not_lt.mp
  rw [hlt]
  omega

/-- The blocks from a height on are the first ones. -/
theorem takeWhile_eq_filter (h : Consecutive window) (lowest : Height) :
    window.takeWhile (fun b => decide (lowest ≤ b.height))
      = window.filter fun b => decide (lowest ≤ b.height) := by
  induction window with
  | nil => rfl
  | cons b rest ih =>
    by_cases hb : lowest ≤ b.height
    · rw [List.takeWhile_cons_of_pos (by simpa using hb),
        List.filter_cons_of_pos (by simpa using hb), ih h.tail]
    · have hrest : ∀ x ∈ rest, ¬ decide (lowest ≤ x.height) = true := by
        intro x hx hle
        have hlt := h.lt_head hx
        exact hb (Nat.le_of_lt (Nat.lt_of_le_of_lt (of_decide_eq_true hle) hlt))
      rw [List.takeWhile_cons_of_neg (by simpa using hb),
        List.filter_cons_of_neg (by simpa using hb), List.filter_eq_nil_iff.mpr hrest]

theorem mapWhile_eq_map (h : Consecutive window) (lowest : Height)
    (f : BlockVotes → BlockVotes) :
    mapWhile (fun b => decide (lowest ≤ b.height)) f window
      = window.map fun b => if lowest ≤ b.height then f b else b := by
  induction window with
  | nil => rfl
  | cons b rest ih =>
    have hcons := ih h.tail
    rw [mapWhile] at hcons ⊢
    by_cases hb : lowest ≤ b.height
    · rw [List.takeWhile_cons_of_pos (by simpa using hb),
        List.dropWhile_cons_of_pos (by simpa using hb), List.map_cons, List.cons_append, hcons,
        List.map_cons, if_pos hb]
    · have hrest : ∀ x ∈ rest, (if lowest ≤ x.height then f x else x) = x := by
        intro x hx
        rw [if_neg]
        intro hle
        exact hb (Nat.le_of_lt (Nat.lt_of_le_of_lt hle (h.lt_head hx)))
      rw [List.takeWhile_cons_of_neg (by simpa using hb),
        List.dropWhile_cons_of_neg (by simpa using hb), List.map_nil, List.nil_append,
        List.map_cons, if_neg hb, List.map_congr_left hrest, List.map_id']

end Consecutive

/-! ## Appending a block -/

namespace Ledger

variable {l : Ledger} {header : Header}

/-- A block that follows the newest one extends a consecutive window. -/
theorem consecutive_cons (h : Consecutive l.window) (follows : l.checkFollows header = .ok ()) :
    Consecutive (BlockVotes.ofHeader header :: l.window) :=
  h.cons (checkFollows_eq_ok.mp follows)

theorem consecutive_append (h : Consecutive l.window) (follows : l.checkFollows header = .ok ())
    (limit : Nat) : Consecutive (l.append header limit).window :=
  (consecutive_cons h follows).take limit

/-- A block is above every retained one that it follows. -/
theorem lt_of_checkFollows (h : Consecutive l.window) (follows : l.checkFollows header = .ok ())
    {b : BlockVotes} (hb : b ∈ l.window) : b.height < header.height :=
  (consecutive_cons h follows).lt_head hb

theorem newest?_append {limit : Nat} (hlimit : 0 < limit) :
    (l.append header limit).newest? = some (.ofHeader header) := by
  cases limit with
  | zero => contradiction
  | succ n => rfl

theorem newest?_eq_of_append {limit : Nat} {newest : BlockVotes}
    (h : (l.append header limit).newest? = some newest) : newest = .ofHeader header := by
  cases limit with
  | zero => contradiction
  | succ n => exact (Option.some.inj h).symm

theorem pos_of_mem_append {limit : Nat} {b : BlockVotes} (hb : b ∈ (l.append header limit).window) :
    0 < limit := by
  cases limit with
  | zero => contradiction
  | succ n => exact Nat.succ_pos n

theorem mem_append {limit : Nat} {b : BlockVotes} (hb : b ∈ (l.append header limit).window) :
    b = .ofHeader header ∨ b ∈ l.window := by
  have hmem := (List.take_sublist limit _).subset hb
  exact List.mem_cons.mp hmem

end Ledger

end ImpliedFinality
