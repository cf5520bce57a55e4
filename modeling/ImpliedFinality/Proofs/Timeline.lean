import ImpliedFinality.Table
import ImpliedFinality.Timeline

/-!
# Timelines that are kept in a table

The entries of a table by height are a timeline with at most one record a height. What applies at a
height depends on the entries up to it only, and of these on the last one only. So neither a record
that starts above a height nor the removal of stale records changes what applies there.
-/

namespace ImpliedFinality

namespace Table

/-- The entries of a table by height, in ascending order. -/
abbrev timeline {α : Type} (t : Table Height α) : Timeline α := t.entries

section Writing

variable {κ α : Type} [Ord κ]

/-- Removes the entries of some keys. -/
def eraseAll (t : Table κ α) (keys : List κ) : Table κ α := keys.foldl erase t

variable [Std.TransOrd κ] [Std.LawfulEqOrd κ]

/-- A key reads as before unless it is among the removed ones. -/
theorem get?_eraseAll [DecidableEq κ] (t : Table κ α) (keys : List κ) (k : κ) :
    (t.eraseAll keys).get? k = if k ∈ keys then none else t.get? k := by
  induction keys generalizing t with
  | nil => simp [eraseAll]
  | cons j rest ih =>
    have hj : (compare j k = .eq) ↔ k = j := by
      rw [Std.LawfulEqOrd.compare_eq_iff_eq]
      exact eq_comm
    have hrest := ih (t.erase j)
    rw [get?_erase] at hrest
    simp only [hj] at hrest
    rw [eraseAll, List.foldl_cons, ← eraseAll, hrest]
    by_cases hkj : k = j <;> simp [hkj]

/-- An entry reads as inserted at its own key and as before at the others. -/
theorem get?_insert_ite [DecidableEq κ] (t : Table κ α) (k j : κ) (v : α) :
    (t.insert k v).get? j = if k = j then some v else t.get? j := by
  simp only [get?_insert, Std.LawfulEqOrd.compare_eq_iff_eq]

theorem insert_ne_empty (t : Table κ α) (k : κ) (v : α) : t.insert k v ≠ .empty := by
  intro hempty
  have hget := get?_insert t k k v
  rw [hempty, Std.ReflOrd.compare_self, if_pos rfl] at hget
  contradiction

/-- What holds of the entries of a table and of a new one holds after the insertion. -/
theorem forall_get?_insert {t : Table κ α} {k : κ} {v : α} {P : κ → α → Prop}
    (h : ∀ j w, t.get? j = some w → P j w) (hv : P k v) :
    ∀ j w, (t.insert k v).get? j = some w → P j w := by
  intro j w hw
  rw [get?_insert] at hw
  split at hw
  case isTrue hk =>
    rw [← Std.LawfulEqOrd.eq_of_compare hk, ← Option.some.inj hw]
    exact hv
  case isFalse => exact h j w hw

theorem forall_get?_erase {t : Table κ α} {k : κ} {P : κ → α → Prop}
    (h : ∀ j w, t.get? j = some w → P j w) : ∀ j w, (t.erase k).get? j = some w → P j w := by
  intro j w hw
  rw [get?_erase] at hw
  split at hw
  · contradiction
  · exact h j w hw

theorem forall_get?_eraseAll {t : Table κ α} {keys : List κ} {P : κ → α → Prop}
    (h : ∀ j w, t.get? j = some w → P j w) : ∀ j w, (t.eraseAll keys).get? j = some w → P j w := by
  induction keys generalizing t with
  | nil => exact h
  | cons k rest ih => exact ih (forall_get?_erase h)

end Writing

end Table

section LastItem

variable {α : Type} {before : α → α → Prop} {items : List α} {x : α}

/-- The last item of an ordered list comes after all others. -/
theorem before_of_mem_dropLast (h : items.Pairwise before) (hx : x ∈ items.dropLast) {last : α}
    (hlast : items.getLast? = some last) : before x last := by
  obtain ⟨front, rfl⟩ := List.getLast?_eq_some_iff.mp hlast
  rw [List.dropLast_concat] at hx
  exact (List.pairwise_append.mp h).2.2 x hx last List.mem_cons_self

/-- The items of an ordered list but the last one are those that come before another. -/
theorem mem_dropLast_iff (h : items.Pairwise before) (asymm : ∀ a b, before a b → ¬ before b a) :
    x ∈ items.dropLast ↔ x ∈ items ∧ ∃ y ∈ items, before x y := by
  cases hlast : items.getLast? with
  | none =>
    rw [List.getLast?_eq_none_iff.mp hlast]
    simp
  | some last =>
    have hmem : last ∈ items := List.mem_of_getLast? hlast
    refine ⟨fun hx => ⟨(List.dropLast_sublist _).subset hx, last, hmem,
      before_of_mem_dropLast h hx hlast⟩, ?_⟩
    obtain ⟨front, rfl⟩ := List.getLast?_eq_some_iff.mp hlast
    rw [List.dropLast_concat]
    rintro ⟨hx, y, hy, hxy⟩
    rcases List.mem_append.mp hx with hx | hx
    · exact hx
    · obtain rfl := List.mem_singleton.mp hx
      -- nothing comes after the last item
      rcases List.mem_append.mp hy with hy | hy
      · exact absurd hxy (asymm y x ((List.pairwise_append.mp h).2.2 y hy x List.mem_cons_self))
      · obtain rfl := List.mem_singleton.mp hy
        exact absurd hxy (asymm y y hxy)

end LastItem

namespace Timeline

variable {α : Type}

/-- The last item of an ascending list is the one that no item is above. -/
private theorem getLast?_eq_some_of_ascending {items : List (Height × α)} {r : Height × α}
    (ascending : items.Pairwise fun a b => a.1 < b.1) :
    items.getLast? = some r ↔ r ∈ items ∧ ∀ x ∈ items, x.1 ≤ r.1 := by
  constructor
  · intro hr
    obtain ⟨front, rfl⟩ := List.getLast?_eq_some_iff.mp hr
    refine ⟨by simp, fun x hx => ?_⟩
    rw [List.pairwise_append] at ascending
    rcases List.mem_append.mp hx with hx | hx
    · exact Nat.le_of_lt (ascending.2.2 x hx r (by simp))
    · rw [List.mem_singleton.mp hx]
      exact Nat.le_refl _
  · rintro ⟨hr, hmax⟩
    cases hlast : items.getLast? with
    | none =>
      rw [List.getLast?_eq_none_iff.mp hlast] at hr
      contradiction
    | some last =>
      obtain ⟨front, rfl⟩ := List.getLast?_eq_some_iff.mp hlast
      rw [List.pairwise_append] at ascending
      rcases List.mem_append.mp hr with hfront | hfront
      · have hlt := ascending.2.2 r hfront last (by simp)
        exact absurd (hmax last (by simp)) (Height.not_le.mpr hlt)
      · rw [List.mem_singleton.mp hfront]

/-- The entries of a table are in ascending order of height. -/
theorem ascending_entries (t : Table Height α) :
    t.entries.Pairwise fun a b => a.1 < b.1 := by
  apply t.ascending.imp
  intro a b hab
  exact Height.compare_eq_lt.mp hab

/-- What applies at a height is the record that no other one up to there is above. -/
theorem at?_eq_some {t : Table Height α} {h : Height} {r : Height × α} :
    t.timeline.at? h = some r ↔
      t.get? r.1 = some r.2 ∧ r.1 ≤ h ∧ ∀ k v, t.get? k = some v → k ≤ h → k ≤ r.1 := by
  have hsorted := (ascending_entries t).sublist
    (List.filter_sublist (p := fun r : Height × α => decide (r.1 ≤ h)))
  rw [at?, getLast?_eq_some_of_ascending hsorted]
  simp only [List.mem_filter, decide_eq_true_eq, and_assoc, Prod.forall, and_imp,
    Table.get?_eq_some]

theorem effective?_eq_some {t : Table Height α} {h : Height} {v : α} :
    t.timeline.effective? h = some v ↔
      ∃ k, t.get? k = some v ∧ k ≤ h ∧ ∀ k' v', t.get? k' = some v' → k' ≤ h → k' ≤ k := by
  rw [effective?, Option.map_eq_some_iff]
  constructor
  · rintro ⟨r, hr, rfl⟩
    exact ⟨r.1, at?_eq_some.mp hr⟩
  · rintro ⟨k, hk⟩
    exact ⟨(k, v), at?_eq_some.mpr hk, rfl⟩

/-- Some record applies from each height on at which there is one. -/
theorem exists_at?_of_get? {t : Table Height α} {j k : Height} {v : α} (hj : t.get? j = some v)
    (hjk : j ≤ k) : ∃ r, t.timeline.at? k = some r := by
  cases hat : t.timeline.at? k with
  | some r => exact ⟨r, rfl⟩
  | none =>
    have hlt : k < j := at?_eq_none.mp hat _ (Table.get?_eq_some.mp hj)
    exact absurd hjk (Height.not_le.mpr hlt)

theorem exists_get?_of_effective? {t : Table Height α} {h : Height} {v : α}
    (hv : t.timeline.effective? h = some v) : ∃ k, t.get? k = some v ∧ k ≤ h := by
  obtain ⟨k, hk, hle, -⟩ := effective?_eq_some.mp hv
  exact ⟨k, hk, hle⟩

/-- What applies at a height depends on the entries up to there only. -/
theorem at?_congr {s t : Table Height α} {h : Height}
    (same : ∀ k, k ≤ h → s.get? k = t.get? k) : s.timeline.at? h = t.timeline.at? h := by
  have hfilter : s.filter (fun k _ => decide (k ≤ h)) = t.filter fun k _ => decide (k ≤ h) := by
    apply Table.ext_get?
    intro k
    rw [Table.get?_filter, Table.get?_filter]
    by_cases hk : k ≤ h
    · rw [same k hk]
    · cases s.get? k <;> cases t.get? k <;> simp [Option.filter, hk]
  have hentries := congrArg Table.entries hfilter
  simp only [Table.filter] at hentries
  rw [at?, at?, hentries]

/-- A record changes nothing below the height from which it applies. -/
theorem effective?_insert_of_lt {t : Table Height α} {h n : Height} {v : α} (hn : h < n) :
    (t.insert n v).timeline.effective? h = t.timeline.effective? h := by
  rw [effective?, effective?]
  congr 1
  apply at?_congr
  intro k hk
  rw [Table.get?_insert, if_neg]
  intro hnk
  rw [Std.LawfulEqOrd.eq_of_compare hnk] at hn
  exact Height.not_le.mpr hn hk

/-- A record is stale at a height if another one has taken its place by then. -/
theorem mem_stale {t : Table Height α} {h k : Height} :
    k ∈ t.timeline.stale h ↔
      (∃ v, t.get? k = some v) ∧ ∃ k', (∃ v, t.get? k' = some v) ∧ k < k' ∧ k' ≤ h := by
  have hsorted : (t.timeline.heights.filter (· ≤ h)).Pairwise fun a b => a < b := by
    apply List.Pairwise.sublist List.filter_sublist
    exact List.pairwise_map.mpr (ascending_entries t)
  have hmem : ∀ j, j ∈ t.timeline.heights.filter (· ≤ h) ↔ (∃ v, t.get? j = some v) ∧ j ≤ h := by
    intro j
    simp [heights, Table.get?_eq_some]
  rw [stale, mem_dropLast_iff hsorted fun a b => Nat.lt_asymm, hmem]
  constructor
  · rintro ⟨⟨hk, -⟩, k', hk', hlt⟩
    obtain ⟨hstored, hle⟩ := (hmem k').mp hk'
    exact ⟨hk, k', hstored, hlt, hle⟩
  · rintro ⟨hk, k', hk', hlt, hle⟩
    have hkh : k ≤ h := Nat.le_of_lt (Nat.lt_of_lt_of_le hlt hle)
    exact ⟨⟨hk, hkh⟩, k', (hmem k').mpr ⟨hk', hle⟩, hlt⟩

/-- Without stale records a table starts at the record that applies. -/
theorem get?_eraseAll_stale {t : Table Height α} {h : Height} {r : Height × α}
    (hr : t.timeline.at? h = some r) (k : Height) :
    (t.eraseAll (t.timeline.stale h)).get? k = if r.1 ≤ k then t.get? k else none := by
  obtain ⟨hget, hrh, hmax⟩ := at?_eq_some.mp hr
  rw [Table.get?_eraseAll]
  split
  case isTrue hstale =>
    obtain ⟨-, j, ⟨v, hj⟩, hkj, hjh⟩ := mem_stale.mp hstale
    have hlt : k < r.1 := Nat.lt_of_lt_of_le hkj (hmax j v hj hjh)
    rw [if_neg (Height.not_le.mpr hlt)]
  case isFalse hfresh =>
    split
    case isTrue => rfl
    case isFalse hlt =>
      cases hk : t.get? k with
      | none => rfl
      | some v =>
        exact absurd (mem_stale.mpr ⟨⟨v, hk⟩, r.1, ⟨r.2, hget⟩, Height.not_le.mp hlt, hrh⟩) hfresh

/-- Nothing is stale where nothing applies. -/
theorem stale_eq_nil {t : Timeline α} {h : Height} (hnone : t.at? h = none) : t.stale h = [] := by
  have hfilter : t.heights.filter (· ≤ h) = [] := by
    rw [List.filter_eq_nil_iff, heights, List.forall_mem_map]
    intro r hr
    simpa using Height.not_le.mpr (at?_eq_none.mp hnone r hr)
  rw [stale, hfilter, List.dropLast_nil]

/-- Removing what is stale at a height changes nothing at that height or above. -/
theorem at?_eraseAll_stale {t : Table Height α} {h n : Height} (hn : n ≤ h) :
    (t.eraseAll (t.timeline.stale n)).timeline.at? h = t.timeline.at? h := by
  cases hat : t.timeline.at? n with
  | none =>
    rw [stale_eq_nil hat]
    rfl
  | some r =>
    apply Option.ext
    rintro ⟨k, v⟩
    rw [at?_eq_some, at?_eq_some]
    simp only [get?_eraseAll_stale hat]
    constructor
    · rintro ⟨hk, hkh, hmax⟩
      split at hk
      case isFalse => contradiction
      case isTrue hrk =>
        refine ⟨hk, hkh, fun k' v' hk' hk'h => ?_⟩
        by_cases hrk' : r.1 ≤ k'
        · exact hmax k' v' (by rw [if_pos hrk', hk']) hk'h
        · exact Nat.le_trans (Nat.le_of_lt (Height.not_le.mp hrk')) hrk
    · rintro ⟨hk, hkh, hmax⟩
      obtain ⟨hget, hrn, -⟩ := at?_eq_some.mp hat
      have hrk : r.1 ≤ k := hmax r.1 r.2 hget (Nat.le_trans hrn hn)
      refine ⟨by rw [if_pos hrk, hk], hkh, fun k' v' hk' hk'h => ?_⟩
      split at hk'
      · exact hmax k' v' hk' hk'h
      · contradiction

theorem effective?_eraseAll_stale {t : Table Height α} {h n : Height} (hn : n ≤ h) :
    (t.eraseAll (t.timeline.stale n)).timeline.effective? h = t.timeline.effective? h := by
  rw [effective?, effective?, at?_eraseAll_stale hn]

/-- A record applies at a height if it does not start above it, and no later one does neither. -/
theorem at?_insert (t : Table Height α) (n : Height) (v : α) (h : Height) :
    (t.insert n v).timeline.at? h =
      if n ≤ h ∧ ∀ r, t.timeline.at? h = some r → r.1 ≤ n then some (n, v)
      else t.timeline.at? h := by
  have hget := fun k => t.get?_insert_ite n k v
  split
  case isTrue hnew =>
    obtain ⟨hnh, hlast⟩ := hnew
    refine at?_eq_some.mpr ⟨by rw [hget, if_pos rfl], hnh, fun k w hk hkh => ?_⟩
    rw [hget] at hk
    split at hk
    case isTrue heq => exact heq ▸ Nat.le_refl _
    case isFalse =>
      obtain ⟨r, hat⟩ := exists_at?_of_get? hk hkh
      exact Nat.le_trans ((at?_eq_some.mp hat).2.2 k w hk hkh) (hlast r hat)
  case isFalse hold =>
    by_cases hnh : n ≤ h
    · cases hat : t.timeline.at? h with
      | none => exact absurd ⟨hnh, fun r hr => absurd (hat.symm.trans hr) nofun⟩ hold
      | some r =>
        have hrn : n < r.1 := by
          apply Height.not_le.mp
          intro hle
          refine hold ⟨hnh, fun x hx => ?_⟩
          cases hat.symm.trans hx
          exact hle
        obtain ⟨hget', hrh, hmax⟩ := at?_eq_some.mp hat
        refine at?_eq_some.mpr ⟨?_, hrh, fun k w hk hkh => ?_⟩
        · rw [hget, if_neg, hget']
          rintro rfl
          exact Nat.lt_irrefl _ hrn
        · rw [hget] at hk
          split at hk
          case isTrue heq => exact heq ▸ Nat.le_of_lt hrn
          case isFalse => exact hmax k w hk hkh
    · apply at?_congr
      intro k hk
      rw [hget, if_neg]
      rintro rfl
      exact hnh hk

/-- A record that is the only one applies from its height on. -/
theorem effective?_single {first h : Height} {v : α} (hle : first ≤ h) :
    (Table.empty.insert first v).timeline.effective? h = some v := by
  show (([(first, v)].filter fun r => r.1 ≤ h).getLast?).map (·.2) = some v
  rw [List.filter_cons, if_pos (decide_eq_true hle)]
  rfl

/-- A record that is the only one is never stale. -/
theorem stale_single {first h : Height} {v : α} :
    (Table.empty.insert first v).timeline.stale h = [] := by
  show ([first].filter (· ≤ h)).dropLast = []
  rw [List.filter_cons]
  split <;> rfl

/-- Inserting a record keeps what applies at a height in step with another table. -/
theorem at?_insert_map {β : Type} {f : α → β} {s : Table Height β} {t : Table Height α}
    {h : Height} (same : s.timeline.at? h = (t.timeline.at? h).map (Prod.map id f)) (n : Height)
    (v : α) :
    (s.insert n (f v)).timeline.at? h
      = ((t.insert n v).timeline.at? h).map (Prod.map id f) := by
  have hlast : (∀ x, s.timeline.at? h = some x → x.1 ≤ n) ↔
      ∀ x, t.timeline.at? h = some x → x.1 ≤ n := by
    rw [same]
    cases t.timeline.at? h <;> simp
  rw [at?_insert, at?_insert]
  simp only [hlast]
  split
  · rfl
  · exact same

end Timeline

end ImpliedFinality
