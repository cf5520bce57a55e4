import Mathlib.Logic.Function.Basic
import Mathlib.Tactic.MkIffOfInductiveProp
import ImpliedFinality.Proofs.Expiry

/-!
# A store is four maps

Behind its bytes a store stands for a ledger and three maps, which know nothing of keys, encodings
or orders. A batch is written exactly if all its values have a written form, and of the changes of
one record the last one counts. So whatever was written to an empty store, every typed read answers
as the maps do that the same changes were made to. Changes of one map never show in another.
-/

namespace ImpliedFinality

/-- The maps that a store stands for. -/
structure Tables where
  ledger : Option Ledger
  parameters : Height → Option Parameters
  generators : Height → Option Generators
  snapshots : Digest → Option Snapshot

namespace Tables

def empty : Tables := ⟨none, fun _ => none, fun _ => none, fun _ => none⟩

/-- A typed change sets or deletes one entry of one map. -/
def apply (t : Tables) : Change → Tables
  | .setParameters height p =>
    { t with parameters := Function.update t.parameters height (some p) }
  | .setLedger l => { t with ledger := some l }
  | .setSnapshot d =>
    { t with snapshots := Function.update t.snapshots d.validatorsHash (some d) }
  | .setGenerators height gs =>
    { t with generators := Function.update t.generators height (some gs) }
  | .deleteParameters height =>
    { t with parameters := Function.update t.parameters height none }
  | .deleteSnapshot hash => { t with snapshots := Function.update t.snapshots hash none }
  | .deleteGenerators height =>
    { t with generators := Function.update t.generators height none }

/-- A batch has no effect if one of its values has no written form. -/
def attempt (t : Tables) (changes : List Change) : Tables :=
  if changes.all Change.fits then changes.foldl apply t else t

def attemptAll (t : Tables) (batches : List (List Change)) : Tables := batches.foldl attempt t

/-- A ledger that was set stays, as nothing deletes it. -/
theorem ledger_foldl_apply_eq_none {t : Tables} {changes : List Change} :
    (changes.foldl apply t).ledger = none ↔
      t.ledger = none ∧ ∀ l, Change.setLedger l ∉ changes := by
  induction changes generalizing t with
  | nil => simp
  | cons change rest ih =>
    rw [List.foldl_cons, ih]
    cases change with
    | setLedger l =>
      constructor
      · rintro ⟨hnone, -⟩
        contradiction
      · rintro ⟨-, hunset⟩
        exact absurd List.mem_cons_self (hunset l)
    | _ => simp [apply]

theorem ledger_attemptAll_eq_none {t : Tables} {batches : List (List Change)} :
    (t.attemptAll batches).ledger = none ↔
      t.ledger = none ∧
        ∀ changes ∈ batches, changes.all Change.fits = true → ∀ l, Change.setLedger l ∉ changes := by
  induction batches generalizing t with
  | nil => simp [attemptAll]
  | cons changes rest ih =>
    have hstep : (t.attempt changes).ledger = none ↔ t.ledger = none ∧
        (changes.all Change.fits = true → ∀ l, Change.setLedger l ∉ changes) := by
      unfold attempt
      split
      case isTrue hfits => simp only [ledger_foldl_apply_eq_none, hfits, true_implies]
      case isFalse hlong => exact ⟨fun hnone => ⟨hnone, fun hfits => absurd hfits hlong⟩, And.left⟩
    rw [attemptAll, List.foldl_cons, ← attemptAll, ih, hstep, List.forall_mem_cons, and_assoc]

end Tables

namespace Table

variable {κ α : Type} [Ord κ] [Std.TransOrd κ] [Std.LawfulEqOrd κ] [DecidableEq κ]

theorem get?_insert_eq_update (t : Table κ α) (k : κ) (v : α) :
    (t.insert k v).get? = Function.update t.get? k (some v) := by
  funext j
  rw [get?_insert_ite, Function.update_apply]
  simp only [eq_comm]

theorem get?_erase_eq_update (t : Table κ α) (k : κ) :
    (t.erase k).get? = Function.update t.get? k none := by
  funext j
  rw [get?_erase, Function.update_apply]
  simp only [Std.LawfulEqOrd.compare_eq_iff_eq, eq_comm (a := j)]

end Table

namespace Contents

/-- The maps without their orders. -/
def tables (c : Contents) : Tables :=
  ⟨c.ledger, c.parameters.get?, c.generators.get?, c.snapshots.get?⟩

theorem tables_apply (c : Contents) (change : Change) :
    (c.apply change).tables = c.tables.apply change := by
  cases change <;>
    simp only [apply, Tables.apply, tables, Table.get?_insert_eq_update,
      Table.get?_erase_eq_update]

theorem tables_applyAll (c : Contents) (changes : List Change) :
    (c.applyAll changes).tables = changes.foldl Tables.apply c.tables := by
  induction changes generalizing c with
  | nil => rfl
  | cons change rest ih => rw [applyAll_cons, ih, tables_apply, List.foldl_cons]

theorem Named.apply {c : Contents} (h : c.Named) (change : Change) : (c.apply change).Named := by
  cases change with
  | setSnapshot d => exact Table.forall_get?_insert h rfl
  | deleteSnapshot hash => exact Table.forall_get?_erase h
  | setParameters height p => exact h
  | setLedger l => exact h
  | setGenerators height gs => exact h
  | deleteParameters height => exact h
  | deleteGenerators height => exact h

theorem Named.applyAll {c : Contents} (h : c.Named) (changes : List Change) :
    (c.applyAll changes).Named := by
  induction changes generalizing c with
  | nil => exact h
  | cons change rest ih => exact ih (h.apply change)

end Contents

namespace Store

variable {s t : Store} {c : Contents}

/-! ## Writing -/

/-- What a key holds after a batch: what the last change of its record stores, or what it held
before. -/
def valueAfter (s : Store) (changes : List Change) (key : Bytes) : Option Bytes :=
  ((changes.reverse.find? fun change => change.record.key = key).map Change.stored?).getD
    (s.get? key)

theorem get?_write {changes : List Change} (h : s.write changes = .ok t) (key : Bytes) :
    t.get? key = s.valueAfter changes key := by
  induction changes generalizing s with
  | nil =>
    cases h
    rfl
  | cons change rest ih =>
    rw [write, List.foldlM_cons] at h
    cases hs : s.apply change with
    | error e =>
      rw [hs] at h
      contradiction
    | ok mid =>
      rw [hs] at h
      obtain ⟨value, hvalue, hget⟩ := get?_apply hs
      obtain ⟨-, rfl⟩ := Change.value?_eq_ok.mp hvalue
      rw [ih h, valueAfter, valueAfter, List.reverse_cons, List.find?_append, hget]
      cases rest.reverse.find? fun change => change.record.key = key with
      | some last => rfl
      | none =>
        by_cases hkey : change.record.key = key <;> simp [hkey]

theorem fits_of_write {changes : List Change} (h : s.write changes = .ok t) :
    ∀ change ∈ changes, change.fits = true := by
  induction changes generalizing s with
  | nil => exact fun _ hchange => absurd hchange List.not_mem_nil
  | cons change rest ih =>
    rw [write, List.foldlM_cons] at h
    cases hs : s.apply change with
    | error e =>
      rw [hs] at h
      contradiction
    | ok mid =>
      rw [hs] at h
      obtain ⟨value, hvalue, -⟩ := get?_apply hs
      exact List.forall_mem_cons.mpr ⟨(Change.value?_eq_ok.mp hvalue).1, ih h⟩

/-- A batch is written exactly if all its values have a written form, and of the changes of a
record the last one counts. -/
theorem write_eq_ok_iff {changes : List Change} :
    s.write changes = .ok t ↔
      (∀ change ∈ changes, change.fits = true) ∧ ∀ key, t.get? key = s.valueAfter changes key := by
  refine ⟨fun h => ⟨fits_of_write h, get?_write h⟩, ?_⟩
  rintro ⟨hfits, hget⟩
  obtain ⟨written, hwritten⟩ := s.exists_write hfits
  rw [hwritten, Except.ok.injEq]
  apply Table.ext_get?
  intro key
  rw [hget, get?_write hwritten]

/-- The store after a batch, which leaves it alone if it cannot be written. -/
def attempt (s : Store) (changes : List Change) : Store :=
  match s.write changes with
  | .ok t => t
  | .error _ => s

def attemptAll (s : Store) (batches : List (List Change)) : Store := batches.foldl attempt s

/-- A batch of changes leaves alone the areas that none of them is about. -/
theorem get?_attempt_of_area {changes : List Change} {a : Area}
    (apart : ∀ change ∈ changes, change.record.area ≠ a) {key : Bytes}
    (hkey : key.head? = some a.tag) : (s.attempt changes).get? key = s.get? key := by
  unfold attempt
  cases hwrite : s.write changes with
  | error e => rfl
  | ok t =>
    have hnone : (changes.reverse.find? fun change => change.record.key = key) = none := by
      rw [List.find?_eq_none]
      intro change hchange hrecord
      have harea : change.record.area = a := by
        apply Record.head?_key_eq.mp
        rw [of_decide_eq_true hrecord, hkey]
      exact apart change (List.mem_reverse.mp hchange) harea
    rw [get?_write hwrite, valueAfter, hnone]
    rfl

theorem Holds.attempt (h : s.Holds c) (named : c.Named) (changes : List Change) :
    ∃ c', (s.attempt changes).Holds c' ∧ c'.Named ∧ c'.tables = c.tables.attempt changes := by
  unfold Store.attempt Tables.attempt
  cases hwrite : s.write changes with
  | ok t =>
    have hfits : changes.all Change.fits = true := List.all_eq_true.mpr (fits_of_write hwrite)
    rw [if_pos hfits]
    exact ⟨_, h.write hwrite, named.applyAll changes, c.tables_applyAll changes⟩
  | error e =>
    rw [if_neg]
    · exact ⟨c, h, named, rfl⟩
    · intro hfits
      obtain ⟨t, ht⟩ := s.exists_write (List.all_eq_true.mp hfits)
      rw [ht] at hwrite
      contradiction

theorem Holds.attemptAll (h : s.Holds c) (named : c.Named) (batches : List (List Change)) :
    ∃ c', (s.attemptAll batches).Holds c' ∧ c'.Named ∧ c'.tables = c.tables.attemptAll batches := by
  induction batches generalizing s c with
  | nil => exact ⟨c, h, named, rfl⟩
  | cons changes rest ih =>
    obtain ⟨mid, hmid, hnamed, htables⟩ := h.attempt named changes
    obtain ⟨last, hlast, hnamed', htables'⟩ := ih hmid hnamed
    rw [htables] at htables'
    exact ⟨last, hlast, hnamed', htables'⟩

end Store

/-! ## Reading -/

section Maps

variable {α : Type}

/-- A list has exactly the entries of a map, in ascending order of height. -/
structure Enumerates (m : Height → Option α) (entries : List (Height × α)) : Prop where
  ascending : entries.Pairwise fun a b => a.1 < b.1
  mem_iff : ∀ k v, (k, v) ∈ entries ↔ m k = some v

/-- The entry of a map with the greatest key up to a height. -/
@[mk_iff] structure AppliesAt (m : Height → Option α) (height k : Height) (v : α) : Prop where
  entry : m k = some v
  le : k ≤ height
  greatest : ∀ j w, m j = some w → j ≤ height → j ≤ k

/-- The least key of a map above a height. -/
@[mk_iff] structure ComesNext (m : Height → Option α) (height k : Height) : Prop where
  entry : ∃ v, m k = some v
  lt : height < k
  least : ∀ j w, m j = some w → height < j → k ≤ j

theorem enumerates_entries (t : Table Height α) : Enumerates t.get? t.entries where
  ascending := Timeline.ascending_entries t
  mem_iff _ _ := Table.get?_eq_some.symm

theorem at?_eq_some_iff {t : Table Height α} {height : Height} {r : Height × α} :
    t.timeline.at? height = some r ↔ AppliesAt t.get? height r.1 r.2 := by
  rw [Timeline.at?_eq_some, appliesAt_iff]

theorem effective?_eq_some_iff {t : Table Height α} {height : Height} {v : α} :
    t.timeline.effective? height = some v ↔ ∃ k, AppliesAt t.get? height k v := by
  simp only [Timeline.effective?_eq_some, appliesAt_iff]

/-- The first of some ascending heights above a height is the least of them. -/
theorem find?_lt_eq_some {heights : List Height} (ascending : heights.Pairwise (· < ·))
    {height k : Height} :
    heights.find? (height < ·) = some k ↔
      k ∈ heights ∧ height < k ∧ ∀ j ∈ heights, height < j → k ≤ j := by
  induction heights with
  | nil => simp
  | cons first rest ih =>
    rw [List.pairwise_cons] at ascending
    by_cases hfirst : height < first
    · rw [List.find?_cons_of_pos (by simpa using hfirst), Option.some.injEq]
      constructor
      · rintro rfl
        refine ⟨List.mem_cons_self, hfirst, fun j hj _ => ?_⟩
        rcases List.mem_cons.mp hj with rfl | hj
        · exact Nat.le_refl _
        · exact Nat.le_of_lt (ascending.1 j hj)
      · rintro ⟨hk, -, hleast⟩
        rcases List.mem_cons.mp hk with rfl | hk
        · rfl
        · exact absurd (hleast first List.mem_cons_self hfirst)
            (Height.not_le.mpr (ascending.1 k hk))
    · rw [List.find?_cons_of_neg (by simpa using hfirst), ih ascending.2, List.mem_cons,
        List.forall_mem_cons]
      constructor
      · rintro ⟨hk, hlt, hleast⟩
        exact ⟨.inr hk, hlt, fun h => absurd h hfirst, hleast⟩
      · rintro ⟨rfl | hk, hlt, -, hleast⟩
        · exact absurd hlt hfirst
        · exact ⟨hk, hlt, hleast⟩

end Maps

namespace Store

/-- Every typed read of a store answers as its maps do. Only a ledger that was never set cannot be
read. -/
structure Reads (s : Store) (t : Tables) : Prop where
  ledger : s.ledger = t.ledger.elim (.error (.absent .ledger)) .ok
  parametersAt? : ∀ height, s.parametersAt? height = .ok (t.parameters height)
  snapshot? : ∀ hash, s.snapshot? hash = .ok (t.snapshots hash)
  parameters : ∃ all, s.parameters = .ok all ∧ Enumerates t.parameters all
  generators : ∃ all, s.generators = .ok all ∧ Enumerates t.generators all
  effectiveParameters : ∀ height, ∃ found, s.parameters.map (·.at? height) = .ok found ∧
    ∀ k p, found = some (k, p) ↔ AppliesAt t.parameters height k p
  effectiveGenerators : ∀ height, ∃ found, s.generators.map (·.effective? height) = .ok found ∧
    ∀ gs, found = some gs ↔ ∃ k, AppliesAt t.generators height k gs
  nextParameters? : ∀ height k, s.nextParameters? height = some k ↔
    ComesNext t.parameters height k
  /-- Snapshots are in the order in which they became active. -/
  snapshots : ∃ all, s.snapshots = .ok all ∧ all.Pairwise Snapshot.Precedes ∧
    ∀ d, d ∈ all ↔ t.snapshots d.validatorsHash = some d

variable {s : Store} {c : Contents}

theorem Holds.nextParameters? (h : s.Holds c) {height k : Height} :
    s.nextParameters? height = some k ↔ ComesNext c.parameters.get? height k := by
  have hheights : (s.area .parameters).filterMap (fun e => Record.heightOfKey? e.1)
      = c.parameters.timeline.heights := by
    rw [h.area_parameters, List.filterMap_map, Timeline.heights, ← List.filterMap_eq_map]
    apply List.filterMap_congr
    intro e _
    exact Record.heightOfKey?_eq_some.mpr ⟨Area.parameters.tag, rfl⟩
  have hascending : c.parameters.timeline.heights.Pairwise (· < ·) :=
    List.pairwise_map.mpr (Timeline.ascending_entries c.parameters)
  have hmem : ∀ j, j ∈ c.parameters.timeline.heights ↔ ∃ p, c.parameters.get? j = some p := by
    intro j
    simp [Timeline.heights, Table.get?_eq_some]
  rw [Store.nextParameters?, hheights, find?_lt_eq_some hascending, comesNext_iff]
  simp only [hmem, forall_exists_index]

theorem Holds.reads (h : s.Holds c) (named : c.Named) : s.Reads c.tables where
  ledger := by
    have hread := read?_of_get? Ledger.codec_lawful (h.record .ledger) h.fits.ledger
    rw [Store.ledger, hread]
    show _ = c.ledger.elim _ _
    cases c.ledger <;> rfl
  parametersAt? := h.parametersAt?
  snapshot? := h.snapshot?
  parameters := ⟨_, h.parameters, enumerates_entries c.parameters⟩
  generators := ⟨_, h.generators, enumerates_entries c.generators⟩
  effectiveParameters height := by
    rw [h.parameters]
    exact ⟨_, rfl, fun _ _ => at?_eq_some_iff⟩
  effectiveGenerators height := by
    rw [h.generators]
    exact ⟨_, rfl, fun _ => effective?_eq_some_iff⟩
  nextParameters? _ _ := h.nextParameters?
  snapshots := by
    refine ⟨c.ordered, h.snapshots, named.pairwise_ordered, fun d => ?_⟩
    rw [Contents.mem_ordered]
    constructor
    · rintro ⟨hash, hget⟩
      rwa [← named hash d hget] at hget
    · exact fun hget => ⟨d.validatorsHash, hget⟩

/-- Whatever batches are written to an empty store, its typed reads answer as the maps do that the
same changes were made to. The ledger can be read as soon as it was set once. And no batch shows in
an area that none of its changes is about. -/
theorem reads_as_tables (batches : List (List Change)) :
    (Store.attemptAll .empty batches).Reads (Tables.attemptAll .empty batches) ∧
      ((Tables.attemptAll .empty batches).ledger = none ↔
        ∀ changes ∈ batches, changes.all Change.fits = true → ∀ l, .setLedger l ∉ changes) ∧
      ∀ (changes : List Change) (a : Area), (∀ change ∈ changes, change.record.area ≠ a) →
        ∀ key : Bytes, key.head? = some a.tag →
          ((Store.attemptAll .empty batches).attempt changes).get? key
            = (Store.attemptAll .empty batches).get? key := by
  have hnamed : Contents.empty.Named := fun _ _ hget => absurd hget nofun
  obtain ⟨c, hholds, named, htables⟩ := holds_empty.attemptAll hnamed batches
  refine ⟨?_, ?_, fun changes a apart key hkey => get?_attempt_of_area apart hkey⟩
  · have hreads := hholds.reads named
    rwa [htables] at hreads
  · rw [Tables.ledger_attemptAll_eq_none]
    exact and_iff_right rfl

end Store

end ImpliedFinality
