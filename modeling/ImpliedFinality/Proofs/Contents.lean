import ImpliedFinality.Proofs.Timeline
import ImpliedFinality.Store

/-!
# The typed contents of a store

A store that was written through typed changes only holds a ledger and three tables: parameters and
generators by height, and snapshots by the hash of their validators. `Holds` relates the bytes to
these contents. Each typed change keeps the relation, and typed reads answer from the contents.
-/

namespace ImpliedFinality

structure Contents where
  ledger : Option Ledger
  parameters : Table Height Parameters
  generators : Table Height Generators
  snapshots : Table Digest Snapshot

namespace Contents

def empty : Contents := ⟨none, .empty, .empty, .empty⟩

/-- The bytes of a record, if there is one. -/
def bytes? (c : Contents) : Record → Option Bytes
  | .parameters height => (c.parameters.get? height).map Parameters.codec.encode
  | .ledger => c.ledger.map Ledger.codec.encode
  | .snapshot validatorsHash => (c.snapshots.get? validatorsHash).map Snapshot.codec.encode
  | .generators height => (c.generators.get? height).map Generators.codec.encode

/-- Every value has a written form. -/
structure Fits (c : Contents) : Prop where
  ledger : ∀ l, c.ledger = some l → Ledger.codec.fits l = true
  parameters : ∀ height p, c.parameters.get? height = some p → Parameters.codec.fits p = true
  generators : ∀ height gs, c.generators.get? height = some gs → Generators.codec.fits gs = true
  snapshots : ∀ hash d, c.snapshots.get? hash = some d → Snapshot.codec.fits d = true

/-- Digests are in a total order, as all octets are. -/
local instance transOrd_digest : Std.TransOrd Digest := inferInstanceAs (Std.TransOrd (Octets 32))

/-- The effect of a typed change. -/
def apply (c : Contents) : Change → Contents
  | .setParameters height p => { c with parameters := c.parameters.insert height p }
  | .setLedger l => { c with ledger := some l }
  | .setSnapshot d => { c with snapshots := c.snapshots.insert d.validatorsHash d }
  | .setGenerators height gs => { c with generators := c.generators.insert height gs }
  | .deleteParameters height => { c with parameters := c.parameters.erase height }
  | .deleteSnapshot hash => { c with snapshots := c.snapshots.erase hash }
  | .deleteGenerators height => { c with generators := c.generators.erase height }

/-- The effect of a batch of changes, in order. -/
def applyAll (c : Contents) (changes : List Change) : Contents := changes.foldl apply c

@[simp] theorem applyAll_nil (c : Contents) : c.applyAll [] = c := rfl

@[simp] theorem applyAll_cons (c : Contents) (change : Change) (rest : List Change) :
    c.applyAll (change :: rest) = (c.apply change).applyAll rest := rfl

theorem applyAll_append (c : Contents) (first second : List Change) :
    c.applyAll (first ++ second) = (c.applyAll first).applyAll second := List.foldl_append

theorem applyAll_deleteParameters (c : Contents) (heights : List Height) :
    c.applyAll (heights.map .deleteParameters)
      = { c with parameters := c.parameters.eraseAll heights } := by
  induction heights generalizing c with
  | nil => rfl
  | cons height rest ih => exact ih _

theorem applyAll_deleteGenerators (c : Contents) (heights : List Height) :
    c.applyAll (heights.map .deleteGenerators)
      = { c with generators := c.generators.eraseAll heights } := by
  induction heights generalizing c with
  | nil => rfl
  | cons height rest ih => exact ih _

theorem applyAll_deleteSnapshot (c : Contents) (hashes : List Digest) :
    c.applyAll (hashes.map .deleteSnapshot)
      = { c with snapshots := c.snapshots.eraseAll hashes } := by
  induction hashes generalizing c with
  | nil => rfl
  | cons hash rest ih => exact ih _

end Contents

namespace Change

/-- Whether the value that a change stores has a written form. -/
def fits : Change → Bool
  | setParameters _ p => Parameters.codec.fits p
  | setLedger l => Ledger.codec.fits l
  | setSnapshot d => Snapshot.codec.fits d
  | setGenerators _ gs => Generators.codec.fits gs
  | deleteParameters _ => true
  | deleteSnapshot _ => true
  | deleteGenerators _ => true

/-- The bytes that a change leaves under its record. -/
def stored? : Change → Option Bytes
  | setParameters _ p => some (Parameters.codec.encode p)
  | setLedger l => some (Ledger.codec.encode l)
  | setSnapshot d => some (Snapshot.codec.encode d)
  | setGenerators _ gs => some (Generators.codec.encode gs)
  | deleteParameters _ => none
  | deleteSnapshot _ => none
  | deleteGenerators _ => none

/-- Replacing the error does not make a value. -/
private theorem mapError_eq_ok {α ε δ : Type} {x : Except ε α} {f : ε → δ} {v : α} :
    x.mapError f = .ok v ↔ x = .ok v := by
  cases x with
  | error e => exact ⟨nofun, nofun⟩
  | ok a =>
    change Except.ok a = Except.ok v ↔ _
    rw [Except.ok.injEq, Except.ok.injEq]

private theorem map_write_eq_ok {α : Type} {codec : Codec α} {v : α} {value : Option Bytes}
    {f : WireError → StoreError} :
    ((codec.write v).map some).mapError f = .ok value ↔
      codec.fits v = true ∧ some (codec.encode v) = value := by
  rw [mapError_eq_ok]
  unfold Codec.write
  cases codec.fits v <;> simp [Except.map]

/-- A change can be written exactly if its value has a written form. -/
theorem value?_eq_ok {change : Change} {value : Option Bytes} :
    change.value? = .ok value ↔ change.fits = true ∧ change.stored? = value := by
  cases change with
  | setParameters height p => exact map_write_eq_ok
  | setLedger l => exact map_write_eq_ok
  | setSnapshot d => exact map_write_eq_ok
  | setGenerators height gs => exact map_write_eq_ok
  | deleteParameters height => simp [value?, mapError_eq_ok, fits, stored?]
  | deleteSnapshot hash => simp [value?, mapError_eq_ok, fits, stored?]
  | deleteGenerators height => simp [value?, mapError_eq_ok, fits, stored?]

end Change

namespace Contents

/-- A change says what its own record holds and leaves the others alone. -/
theorem bytes?_apply (c : Contents) (change : Change) (r : Record) :
    (c.apply change).bytes? r = if change.record = r then change.stored? else c.bytes? r := by
  cases change <;> cases r <;>
    simp only [apply, bytes?, Change.record, Change.stored?, Table.get?_insert, Table.get?_erase,
      Std.LawfulEqOrd.compare_eq_iff_eq, Record.parameters.injEq, Record.snapshot.injEq,
      Record.generators.injEq, reduceCtorEq, if_true, if_false, Option.map_some] <;>
    split <;> rfl

/-- An inserted value has to fit by itself; whatever is read at another key was there before. -/
theorem Fits.apply {c : Contents} {change : Change} (h : c.Fits) (hfits : change.fits = true) :
    (c.apply change).Fits := by
  cases change with
  | setParameters height p =>
    exact ⟨h.ledger, Table.forall_get?_insert h.parameters hfits, h.generators, h.snapshots⟩
  | setLedger l =>
    refine ⟨fun v hv => ?_, h.parameters, h.generators, h.snapshots⟩
    cases hv
    exact hfits
  | setSnapshot d =>
    exact ⟨h.ledger, h.parameters, h.generators, Table.forall_get?_insert h.snapshots hfits⟩
  | setGenerators height gs =>
    exact ⟨h.ledger, h.parameters, Table.forall_get?_insert h.generators hfits, h.snapshots⟩
  | deleteParameters height =>
    exact ⟨h.ledger, Table.forall_get?_erase h.parameters, h.generators, h.snapshots⟩
  | deleteSnapshot hash =>
    exact ⟨h.ledger, h.parameters, h.generators, Table.forall_get?_erase h.snapshots⟩
  | deleteGenerators height =>
    exact ⟨h.ledger, h.parameters, Table.forall_get?_erase h.generators, h.snapshots⟩

end Contents

/-- The area that a record is kept in. -/
def Record.area : Record → Area
  | parameters _ => .parameters
  | ledger => .ledger
  | snapshot _ => .snapshots
  | generators _ => .generators

/-- The first byte of a key names the area of its record. -/
theorem Record.head?_key_eq {r : Record} {a : Area} : r.key.head? = some a.tag ↔ r.area = a := by
  rw [← Area.tag_inj]
  cases r <;> simp [key, area]

namespace Store

/-- A store holds contents if the records are written as these and nothing else is in it. -/
structure Holds (s : Store) (c : Contents) : Prop where
  record : ∀ r : Record, s.get? r.key = c.bytes? r
  keyed : ∀ key bytes, s.get? key = some bytes → ∃ r : Record, key = r.key
  fits : c.Fits

theorem holds_empty : Holds .empty .empty where
  record r := by cases r <;> rfl
  keyed _ _ h := by contradiction
  fits := by
    constructor
    · intro l h
      contradiction
    all_goals
      intro k v h
      contradiction

/-- A change of the store is the same change of its contents. -/
theorem Holds.apply {s t : Store} {c : Contents} {change : Change} (h : s.Holds c)
    (ht : s.apply change = .ok t) : t.Holds (c.apply change) := by
  obtain ⟨value, hvalue, hget⟩ := get?_apply ht
  obtain ⟨hfits, rfl⟩ := Change.value?_eq_ok.mp hvalue
  refine ⟨fun r => ?_, fun key bytes hkey => ?_, h.fits.apply hfits⟩
  · rw [hget, Contents.bytes?_apply, h.record r]
    simp only [Record.key_inj]
  · rw [hget] at hkey
    split at hkey
    · rename_i heq
      exact ⟨change.record, heq.symm⟩
    · exact h.keyed key bytes hkey

/-- A batch of changes of the store is the same batch of changes of its contents. -/
theorem Holds.write {s t : Store} {c : Contents} {changes : List Change} (h : s.Holds c)
    (ht : s.write changes = .ok t) : t.Holds (c.applyAll changes) := by
  induction changes generalizing s c with
  | nil =>
    cases ht
    exact h
  | cons change rest ih =>
    rw [Store.write, List.foldlM_cons] at ht
    cases hs : s.apply change with
    | error e =>
      rw [hs] at ht
      contradiction
    | ok mid =>
      rw [hs] at ht
      exact ih (h.apply hs) ht

/-- A batch can be written if every value in it has a written form. -/
theorem exists_write (s : Store) {changes : List Change}
    (fits : ∀ change ∈ changes, change.fits = true) : ∃ t, s.write changes = .ok t := by
  induction changes generalizing s with
  | nil => exact ⟨s, rfl⟩
  | cons change rest ih =>
    have hvalue : change.value? = .ok change.stored? :=
      Change.value?_eq_ok.mpr ⟨fits change List.mem_cons_self, rfl⟩
    rw [Store.write, List.foldlM_cons, Store.apply, hvalue]
    exact ih _ fun other hother => fits other (List.mem_cons_of_mem _ hother)

/-! ## Reading -/

/-- A record reads back as the value that was written. -/
theorem read?_of_get? {α : Type} {s : Store} {codec : Codec α} (lawful : codec.Lawful)
    {r : Record} {v : Option α} (hget : s.get? r.key = v.map codec.encode)
    (hfits : ∀ x, v = some x → codec.fits x = true) : s.read? codec r = .ok v := by
  unfold read?
  rw [hget]
  cases v with
  | none => rfl
  | some x =>
    have hwrite : codec.write x = .ok (codec.encode x) :=
      Codec.write_eq_ok.mpr ⟨hfits x rfl, rfl⟩
    simp only [Option.map_some, lawful.read_eq_ok_of_write hwrite]

variable {s : Store} {c : Contents}

theorem Holds.parametersAt? (h : s.Holds c) (height : Height) :
    s.parametersAt? height = .ok (c.parameters.get? height) :=
  read?_of_get? Parameters.codec_lawful (h.record (.parameters height)) (h.fits.parameters height)

theorem Holds.snapshot? (h : s.Holds c) (validatorsHash : Digest) :
    s.snapshot? validatorsHash = .ok (c.snapshots.get? validatorsHash) :=
  read?_of_get? Snapshot.codec_lawful (h.record (.snapshot validatorsHash))
    (h.fits.snapshots validatorsHash)

theorem Holds.ledger (h : s.Holds c) {l : Ledger} (hl : c.ledger = some l) :
    s.ledger = .ok l := by
  have hread := read?_of_get? Ledger.codec_lawful (h.record .ledger) h.fits.ledger
  rw [Store.ledger, hread, hl]

/-- The entries of an area are those of its table, in the same order, if keys are written in the
order of the table. -/
theorem area_eq_map {κ α : Type} [Ord κ] [Std.TransOrd κ] [Std.LawfulEqOrd κ] {a : Area}
    {codec : Codec α} {written : κ → Bytes} {t : Table κ α}
    (order : ∀ j k, compare (written j) (written k) = compare j k)
    (holds : ∀ k, s.get? (a.tag :: written k) = (t.get? k).map codec.encode)
    (keyed : ∀ key bytes, s.get? key = some bytes → key.head? = some a.tag →
      ∃ k, key = a.tag :: written k) :
    s.area a = t.entries.map fun e => (a.tag :: written e.1, codec.encode e.2) := by
  have hcompare : ∀ j k, compare (a.tag :: written j) (a.tag :: written k) = compare j k := by
    intro j k
    rw [List.compare_cons_cons, Std.ReflOrd.compare_self, Ordering.eq_then, order]
  have hinj : ∀ j k, written j = written k → j = k := by
    intro j k hjk
    apply Std.LawfulEqOrd.eq_of_compare
    rw [← order, hjk, Std.ReflOrd.compare_self]
  let raw : Table Bytes Bytes :=
    ⟨t.entries.map fun e => (a.tag :: written e.1, codec.encode e.2), by
      rw [List.pairwise_map]
      apply t.ascending.imp
      intro x y hxy
      rw [hcompare, hxy]⟩
  have hmem : ∀ key bytes, raw.get? key = some bytes ↔
      ∃ k v, t.get? k = some v ∧ key = a.tag :: written k ∧ bytes = codec.encode v := by
    intro key bytes
    rw [Table.get?_eq_some]
    simp only [raw, List.mem_map, Prod.exists, Prod.mk.injEq, Table.get?_eq_some]
    constructor
    · rintro ⟨k, v, hkv, rfl, rfl⟩
      exact ⟨k, v, hkv, rfl, rfl⟩
    · rintro ⟨k, v, hkv, rfl, rfl⟩
      exact ⟨k, v, hkv, rfl, rfl⟩
  have hraw : s.filter (fun key _ => decide (key.head? = some a.tag)) = raw := by
    apply Table.ext_get?
    intro key
    apply Option.ext
    intro bytes
    rw [Table.get?_filter, Option.filter_eq_some_iff, hmem, decide_eq_true_eq]
    constructor
    · rintro ⟨hget, hhead⟩
      obtain ⟨k, rfl⟩ := keyed key bytes hget hhead
      rw [holds, Option.map_eq_some_iff] at hget
      obtain ⟨v, hv, rfl⟩ := hget
      exact ⟨k, v, hv, rfl, rfl⟩
    · rintro ⟨k, v, hv, rfl, rfl⟩
      exact ⟨by rw [holds, hv, Option.map_some], rfl⟩
  exact congrArg Table.entries hraw

/-- Reading entry by entry gives back the values that the entries were made of. -/
theorem mapM_map_eq_ok {α β γ ε : Type} {write : α → β} {read : β → Except ε γ} {value : α → γ}
    {items : List α} (hread : ∀ x ∈ items, read (write x) = .ok (value x)) :
    (items.map write).mapM read = .ok (items.map value) := by
  induction items with
  | nil => rfl
  | cons x rest ih =>
    simp only [List.mem_cons, forall_eq_or_imp] at hread
    rw [List.map_cons, List.mapM_cons, hread.1, ih hread.2]
    rfl

/-- An area that is kept by height reads as the timeline of its table. -/
theorem heightEntries_eq_ok {α : Type} {a : Area} {codec : Codec α} (lawful : codec.Lawful)
    (record : Height → Record) {t : Table Height α}
    (harea : s.area a = t.entries.map fun e => (a.tag :: e.1.toBytes, codec.encode e.2))
    (fits : ∀ k v, t.get? k = some v → codec.fits v = true) :
    (s.area a).mapM (heightEntry codec record) = .ok t.timeline := by
  rw [harea, ← t.timeline.map_id]
  apply mapM_map_eq_ok
  intro e he
  have hwrite : codec.write e.2 = .ok (codec.encode e.2) :=
    Codec.write_eq_ok.mpr ⟨fits e.1 e.2 (Table.get?_eq_some.mpr he), rfl⟩
  have hheight : Record.heightOfKey? (a.tag :: e.1.toBytes) = some e.1 :=
    Record.heightOfKey?_eq_some.mpr ⟨a.tag, rfl⟩
  simp only [heightEntry, hheight, lawful.read_eq_ok_of_write hwrite, id_eq]

/-- A key that names an area belongs to a record of the area. -/
theorem Holds.exists_of_head? (h : s.Holds c) {a : Area} {key bytes : Bytes}
    (hget : s.get? key = some bytes) (hhead : key.head? = some a.tag) :
    ∃ r : Record, r.area = a ∧ key = r.key := by
  obtain ⟨r, rfl⟩ := h.keyed key bytes hget
  exact ⟨r, Record.head?_key_eq.mp hhead, rfl⟩

theorem Holds.area_parameters (h : s.Holds c) :
    s.area .parameters = c.parameters.entries.map
      fun e => (Area.parameters.tag :: e.1.toBytes, Parameters.codec.encode e.2) := by
  apply area_eq_map Height.compare_toBytes fun k => h.record (.parameters k)
  intro key bytes hget hhead
  obtain ⟨r, harea, rfl⟩ := h.exists_of_head? hget hhead
  cases r with
  | parameters k => exact ⟨k, rfl⟩
  | ledger => cases harea
  | snapshot hash => cases harea
  | generators k => cases harea

theorem Holds.parameters (h : s.Holds c) : s.parameters = .ok c.parameters.timeline :=
  heightEntries_eq_ok Parameters.codec_lawful _ h.area_parameters h.fits.parameters

theorem Holds.area_generators (h : s.Holds c) :
    s.area .generators = c.generators.entries.map
      fun e => (Area.generators.tag :: e.1.toBytes, Generators.codec.encode e.2) := by
  apply area_eq_map Height.compare_toBytes fun k => h.record (.generators k)
  intro key bytes hget hhead
  obtain ⟨r, harea, rfl⟩ := h.exists_of_head? hget hhead
  cases r with
  | parameters k => cases harea
  | ledger => cases harea
  | snapshot hash => cases harea
  | generators k => exact ⟨k, rfl⟩

theorem Holds.generators (h : s.Holds c) : s.generators = .ok c.generators.timeline :=
  heightEntries_eq_ok Generators.codec_lawful _ h.area_generators h.fits.generators

/-- Snapshots are read in the order in which they became active, and in the order of their names
where that is the same. -/
theorem Holds.snapshots (h : s.Holds c) :
    s.snapshots = .ok (sortBy Snapshot.activeFrom (c.snapshots.entries.map (·.2))) := by
  have harea : s.area .snapshots = c.snapshots.entries.map
      fun e => (Area.snapshots.tag :: e.1.bytes, Snapshot.codec.encode e.2) := by
    apply area_eq_map (fun j k => (Octets.compare_def j k).symm) fun d => h.record (.snapshot d)
    intro key bytes hget hhead
    obtain ⟨r, harea, rfl⟩ := h.exists_of_head? hget hhead
    cases r with
    | parameters k => cases harea
    | ledger => cases harea
    | snapshot d => exact ⟨d, rfl⟩
    | generators k => cases harea
  have hread : (s.area .snapshots).mapM snapshotEntry
      = .ok (c.snapshots.entries.map (·.2)) := by
    rw [harea]
    apply mapM_map_eq_ok
    intro e he
    have hwrite : Snapshot.codec.write e.2 = .ok (Snapshot.codec.encode e.2) :=
      Codec.write_eq_ok.mpr ⟨h.fits.snapshots e.1 e.2 (Table.get?_eq_some.mpr he), rfl⟩
    simp only [snapshotEntry, Snapshot.codec_lawful.read_eq_ok_of_write hwrite]
  rw [Store.snapshots, hread]

end Store

end ImpliedFinality
