import ImpliedFinality.Ledger.Basic
import ImpliedFinality.Rotation
import ImpliedFinality.Table

/-! # The store

All records live in one ordered table from bytes to bytes. Typed reads decode the records of an
area and name the record that is at fault. Typed changes are collected into a batch, which is
applied in order and as a whole, so that a store holds nothing that it cannot read back.
`get?_apply` says what a change does to the raw table. -/

namespace ImpliedFinality

/-- A store is nothing but an ordered table of bytes. -/
abbrev Store := Table Bytes Bytes

/-- A typed write. -/
inductive Change
  | setParameters (height : Height) (parameters : Parameters)
  | setLedger (ledger : Ledger)
  | setSnapshot (snapshot : Snapshot)
  | setGenerators (height : Height) (generators : Generators)
  | deleteParameters (height : Height)
  | deleteSnapshot (validatorsHash : Digest)
  | deleteGenerators (height : Height)
deriving DecidableEq

namespace Change

/-- The record that a change is about. -/
def record : Change → Record
  | setParameters height _ => .parameters height
  | setLedger _ => .ledger
  | setSnapshot snapshot => .snapshot snapshot.validatorsHash
  | setGenerators height _ => .generators height
  | deleteParameters height => .parameters height
  | deleteSnapshot validatorsHash => .snapshot validatorsHash
  | deleteGenerators height => .generators height

/-- The bytes that a change stores, or nothing if it deletes. -/
def value? (c : Change) : Except StoreError (Option Bytes) :=
  let written := match c with
    | setParameters _ parameters => (Parameters.codec.write parameters).map some
    | setLedger ledger => (Ledger.codec.write ledger).map some
    | setSnapshot snapshot => (Snapshot.codec.write snapshot).map some
    | setGenerators _ generators => (Generators.codec.write generators).map some
    | deleteParameters _ => .ok none
    | deleteSnapshot _ => .ok none
    | deleteGenerators _ => .ok none
  written.mapError fun e => .unencodable c.record e.message

end Change

namespace Store

/-- Makes a key hold some bytes, or nothing. -/
def put (s : Store) (key : Bytes) : Option Bytes → Store
  | some bytes => s.insert key bytes
  | none => s.erase key

/-- A write shows at its own key and nowhere else. -/
theorem get?_put (s : Store) (key other : Bytes) (value : Option Bytes) :
    (s.put key value).get? other = if key = other then value else s.get? other := by
  cases value with
  | none => simp only [put, Table.get?_erase, Std.LawfulEqOrd.compare_eq_iff_eq]
  | some bytes => simp only [put, Table.get?_insert, Std.LawfulEqOrd.compare_eq_iff_eq]

/-- Carries out one change, unless its value has no written form. -/
def apply (s : Store) (c : Change) : Except StoreError Store := c.value?.map (s.put c.record.key)

/-- A change shows at the key of its record and nowhere else. -/
theorem get?_apply {s t : Store} {c : Change} (h : s.apply c = .ok t) :
    ∃ value, c.value? = .ok value ∧
      ∀ key, t.get? key = if c.record.key = key then value else s.get? key := by
  unfold apply at h
  cases hv : c.value? with
  | error e =>
    rw [hv] at h
    contradiction
  | ok value =>
    rw [hv] at h
    cases h
    exact ⟨value, rfl, fun key => get?_put s c.record.key key value⟩

/-- Applies a batch of changes, unless one of them stores a value that has no written form. -/
def write (s : Store) (changes : List Change) : Except StoreError Store := changes.foldlM apply s

/-! ## Reading -/

/-- Reads a record, if it is there. One that cannot be decoded is an error that names it. -/
def read? {α : Type} (s : Store) (codec : Codec α) (record : Record) :
    Except StoreError (Option α) :=
  match s.get? record.key with
  | none => .ok none
  | some bytes =>
    match codec.read bytes with
    | .ok v => .ok (some v)
    | .error e => .error (.undecodable record e.message)

/-- The raw entries of an area, in the order of their keys. -/
def area (s : Store) (a : Area) : List (Bytes × Bytes) :=
  s.entries.filter fun e => e.1.head? = some a.tag

/-- The value of an entry that is kept by height. -/
def heightEntry {α : Type} (codec : Codec α) (record : Height → Record) (entry : Bytes × Bytes) :
    Except StoreError (Height × α) :=
  match Record.heightOfKey? entry.1 with
  | none => .error (.malformedKey entry.1)
  | some height =>
    match codec.read entry.2 with
    | .ok v => .ok (height, v)
    | .error e => .error (.undecodable (record height) e.message)

/-- All parameters, in the order of the heights from which they apply. -/
def parameters (s : Store) : Except StoreError (Timeline Parameters) :=
  (s.area .parameters).mapM (heightEntry Parameters.codec .parameters)

/-- All generators, in the order of the heights from which they apply. -/
def generators (s : Store) : Except StoreError (Timeline Generators) :=
  (s.area .generators).mapM (heightEntry Generators.codec .generators)

def parametersAt? (s : Store) (height : Height) : Except StoreError (Option Parameters) :=
  s.read? Parameters.codec (.parameters height)

/-- The least height above a given one at which parameters are kept, whether or not they can be
decoded. -/
def nextParameters? (s : Store) (height : Height) : Option Height :=
  ((s.area .parameters).filterMap fun e => Record.heightOfKey? e.1).find? (height < ·)

/-- The ledger, which must be there. -/
def ledger (s : Store) : Except StoreError Ledger :=
  match s.read? Ledger.codec .ledger with
  | .error e => .error e
  | .ok none => .error (.absent .ledger)
  | .ok (some l) => .ok l

def snapshot? (s : Store) (validatorsHash : Digest) : Except StoreError (Option Snapshot) :=
  s.read? Snapshot.codec (.snapshot validatorsHash)

/-- The value of an entry that is kept by validators hash. Its key matters only if it cannot be
decoded. -/
def snapshotEntry (entry : Bytes × Bytes) : Except StoreError Snapshot :=
  match Snapshot.codec.read entry.2 with
  | .ok v => .ok v
  | .error e =>
    match Octets.ofBytes? entry.1.tail with
    | some validatorsHash => .error (.undecodable (.snapshot validatorsHash) e.message)
    | none => .error (.malformedKey entry.1)

/-- All snapshots, in the order in which they became active. -/
def snapshots (s : Store) : Except StoreError (List Snapshot) :=
  match (s.area .snapshots).mapM snapshotEntry with
  | .ok all => .ok (sortBy Snapshot.activeFrom all)
  | .error e => .error e

/-! ## Genesis -/

/-- Makes the genesis block the start of the ledger. -/
def beginAt (s : Store) (genesis : Height) : Store :=
  s.put Record.ledger.key (some (Ledger.codec.encode (.genesis genesis)))

/-- Beginning at a genesis block is writing its ledger, which always fits. -/
theorem write_genesis (s : Store) (genesis : Height) :
    s.write [.setLedger (.genesis genesis)] = .ok (s.beginAt genesis) := rfl

end Store

end ImpliedFinality
