/-! # Ordered tables

A table maps keys to values and lists its entries in ascending order of key. `get?_insert` and
`get?_erase` say how writes look to a reader; `ext_get?` says that a table is nothing but what it
answers. -/

namespace ImpliedFinality

/-- Entries in strictly ascending order of their keys, so that no key has two of them. -/
structure Table (κ α : Type) [Ord κ] where
  entries : List (κ × α)
  ascending : entries.Pairwise fun a b => compare a.1 b.1 = .lt

namespace Table

variable {κ α : Type} [Ord κ]

instance [DecidableEq κ] [DecidableEq α] : DecidableEq (Table κ α) := fun a b =>
  if h : a.entries = b.entries then isTrue (by cases a; cases b; simp_all)
  else isFalse fun hab => h (hab ▸ rfl)

@[ext] theorem ext {a b : Table κ α} (h : a.entries = b.entries) : a = b := by
  cases a; cases b; simp_all

def empty : Table κ α := ⟨[], .nil⟩

instance : Inhabited (Table κ α) := ⟨empty⟩

/-- The value of a key, if it has an entry. -/
def get? (t : Table κ α) (k : κ) : Option α :=
  (t.entries.find? fun e => compare e.1 k == .eq).map (·.2)

@[simp] theorem get?_empty (k : κ) : (empty : Table κ α).get? k = none := rfl

/-- The keys in ascending order. -/
def keys (t : Table κ α) : List κ := t.entries.map (·.1)

def size (t : Table κ α) : Nat := t.entries.length

/-- The entry with the greatest key. -/
def last? (t : Table κ α) : Option (κ × α) := t.entries.getLast?

/-- The entries that satisfy a test. -/
def filter (t : Table κ α) (p : κ → α → Bool) : Table κ α :=
  ⟨t.entries.filter fun e => p e.1 e.2, t.ascending.sublist List.filter_sublist⟩

/-- The table without the entry of a key. -/
def erase (t : Table κ α) (k : κ) : Table κ α := t.filter fun key _ => compare key k != .eq

/-- Puts an entry into its place among entries in ascending order. -/
def place (k : κ) (v : α) : List (κ × α) → List (κ × α)
  | [] => [(k, v)]
  | e :: rest =>
    match compare k e.1 with
    | .lt => (k, v) :: e :: rest
    | .eq => (k, v) :: rest
    | .gt => e :: place k v rest

theorem mem_place {k : κ} {v : α} {entries : List (κ × α)} {e : κ × α} (h : e ∈ place k v entries) :
    e = (k, v) ∨ e ∈ entries := by
  induction entries with
  | nil => simpa [place] using h
  | cons a rest ih =>
    rw [place] at h
    split at h <;> simp only [List.mem_cons] at h ⊢ <;> grind

section Reading

variable [Std.LawfulEqOrd κ]

/-- A table answers with what its entries say. -/
theorem get?_eq_some {t : Table κ α} {k : κ} {v : α} : t.get? k = some v ↔ (k, v) ∈ t.entries := by
  obtain ⟨entries, h⟩ := t
  unfold get?
  induction entries with
  | nil => simp
  | cons e rest ih =>
    rw [List.pairwise_cons] at h
    obtain ⟨j, w⟩ := e
    have hrest := ih h.2
    simp only [List.find?_cons, List.mem_cons] at hrest ⊢
    split <;> rename_i hj
    · have hjk : j = k := Std.LawfulEqOrd.eq_of_compare (by simpa using hj)
      subst hjk
      constructor
      · intro hv
        simp only [Option.map_some, Option.some.injEq] at hv
        exact .inl (by rw [hv])
      · rintro (hv | hv)
        · simpa using (Prod.mk.inj hv).2.symm
        · have hlt := h.1 _ hv
          rw [Std.ReflOrd.compare_self] at hlt
          contradiction
    · rw [hrest]
      constructor
      · exact .inr
      · rintro (hv | hv)
        · rw [(Prod.mk.inj hv).1, Std.ReflOrd.compare_self] at hj
          contradiction
        · exact hv

theorem mem_keys {t : Table κ α} {k : κ} : k ∈ t.keys ↔ ∃ v, t.get? k = some v := by
  simp [keys, get?_eq_some]

/-- A filtered table has those answers that satisfy the test. -/
theorem get?_filter (t : Table κ α) (p : κ → α → Bool) (k : κ) :
    (t.filter p).get? k = (t.get? k).filter (p k) := by
  apply Option.ext
  intro v
  rw [get?_eq_some, Option.filter_eq_some_iff, get?_eq_some]
  simp [filter]

end Reading

variable [Std.TransOrd κ]

theorem pairwise_place {k : κ} {v : α} {entries : List (κ × α)}
    (h : entries.Pairwise fun a b => compare a.1 b.1 = .lt) :
    (place k v entries).Pairwise fun a b => compare a.1 b.1 = .lt := by
  induction entries with
  | nil => simp [place]
  | cons e rest ih =>
    rw [List.pairwise_cons] at h
    rw [place]
    split <;> rename_i hke
    · rw [List.pairwise_cons, List.pairwise_cons]
      refine ⟨fun a ha => ?_, h⟩
      rcases List.mem_cons.mp ha with rfl | ha
      · exact hke
      · exact Std.TransCmp.lt_trans hke (h.1 a ha)
    · rw [List.pairwise_cons]
      exact ⟨fun a ha => Std.TransCmp.lt_of_eq_of_lt hke (h.1 a ha), h.2⟩
    · rw [List.pairwise_cons]
      refine ⟨fun a ha => ?_, ih h.2⟩
      rcases mem_place ha with rfl | ha
      · exact Std.OrientedCmp.gt_iff_lt.mp hke
      · exact h.1 a ha

/-- Adds an entry, in place of the one with the same key if there is one. -/
def insert (t : Table κ α) (k : κ) (v : α) : Table κ α :=
  ⟨place k v t.entries, pairwise_place t.ascending⟩

/-- The table of a list of entries. Of entries with the same key the last one counts. -/
def ofList (entries : List (κ × α)) : Table κ α := entries.foldl (fun t e => t.insert e.1 e.2) empty

variable [Std.LawfulEqOrd κ]

/-- A reader sees the new value at its own key and the old table at all others. -/
theorem get?_insert (t : Table κ α) (k j : κ) (v : α) :
    (t.insert k v).get? j = if compare k j = .eq then some v else t.get? j := by
  obtain ⟨entries, h⟩ := t
  have hb : (compare k j == .eq) = decide (compare k j = .eq) := by cases compare k j <;> rfl
  simp only [insert, get?]
  induction entries with
  | nil =>
    simp only [place, List.find?_cons, List.find?_nil, hb]
    by_cases hkj : compare k j = .eq <;> simp [hkj]
  | cons e rest ih =>
    rw [List.pairwise_cons] at h
    have hrest := ih h.2
    rw [place]
    split <;> rename_i hke
    · simp only [List.find?_cons, hb]
      by_cases hkj : compare k j = .eq <;> simp [hkj]
    · have hke' : k = e.1 := Std.LawfulEqOrd.eq_of_compare hke
      simp only [List.find?_cons, ← hke', hb]
      by_cases hkj : compare k j = .eq <;> simp [hkj]
    · simp only [List.find?_cons]
      by_cases hej : compare e.1 j = .eq
      · have hej' : e.1 = j := Std.LawfulEqOrd.eq_of_compare hej
        rw [← hej', hke, Std.ReflOrd.compare_self]
        simp
      · have hej' : (compare e.1 j == .eq) = false := by simpa using hej
        rw [hej']
        exact hrest

/-- A reader sees nothing at the erased key and the old table at all others. -/
theorem get?_erase (t : Table κ α) (k j : κ) :
    (t.erase k).get? j = if compare k j = .eq then none else t.get? j := by
  rw [erase, get?_filter]
  split <;> rename_i hkj
  · rw [Std.LawfulEqOrd.eq_of_compare hkj, Std.ReflOrd.compare_self]
    cases t.get? j <;> simp
  · have hjk : compare j k ≠ .eq := fun h => hkj (Std.OrientedCmp.eq_symm h)
    cases t.get? j <;> simp [Option.filter, hjk]

/-- Two tables with the same answers are the same table. -/
theorem ext_get? {s t : Table κ α} (h : ∀ k, s.get? k = t.get? k) : s = t := by
  have hmem : ∀ e, e ∈ s.entries ↔ e ∈ t.entries := fun e => by
    rw [← get?_eq_some (t := s), ← get?_eq_some (t := t), h]
  apply ext
  obtain ⟨xs, hx⟩ := s
  obtain ⟨ys, hy⟩ := t
  clear h
  simp only at hmem ⊢
  induction xs generalizing ys with
  | nil =>
    cases ys with
    | nil => rfl
    | cons y ys => exact absurd ((hmem y).mpr (List.mem_cons_self ..)) (by simp)
  | cons x xs ih =>
    cases ys with
    | nil => exact absurd ((hmem x).mp (List.mem_cons_self ..)) (by simp)
    | cons y ys =>
      rw [List.pairwise_cons] at hx hy
      have irrefl : ∀ a : κ × α, compare a.1 a.1 ≠ .lt := fun a => by
        rw [Std.ReflOrd.compare_self]
        exact fun h => nomatch h
      have hxy : x = y := by
        rcases List.mem_cons.mp ((hmem x).mp (List.mem_cons_self ..)) with hxy | hxys
        · exact hxy
        rcases List.mem_cons.mp ((hmem y).mpr (List.mem_cons_self ..)) with hyx | hyxs
        · exact hyx.symm
        exact absurd (Std.TransCmp.lt_trans (hx.1 y hyxs) (hy.1 x hxys)) (irrefl x)
      subst hxy
      congr 1
      refine ih hx.2 ys hy.2 fun e => ?_
      have he := hmem e
      simp only [List.mem_cons] at he
      constructor
      · intro hmemx
        rcases he.mp (.inr hmemx) with rfl | h
        · exact absurd (hx.1 e hmemx) (irrefl e)
        · exact h
      · intro hmemy
        rcases he.mpr (.inr hmemy) with rfl | h
        · exact absurd (hy.1 e hmemy) (irrefl e)
        · exact h

end Table

end ImpliedFinality
