import ImpliedFinality.Parameters

/-! # Records and failures

A record is a place in the store. It has a key, which starts with the tag of its area, and a name,
which appears in error texts. Heights are big-endian in keys, so that the keys of an area are in
the order of heights. -/

namespace ImpliedFinality

/-- The four kinds of records. -/
inductive Area
  | parameters
  | ledger
  | snapshots
  | generators
deriving DecidableEq

/-- The byte with which all keys of an area start. -/
def Area.tag : Area → UInt8
  | parameters => 0
  | ledger => 1
  | snapshots => 2
  | generators => 3

/-- Areas have different tags, so they do not overlap. -/
theorem Area.tag_inj {a b : Area} : a.tag = b.tag ↔ a = b := by
  cases a <;> cases b <;> decide

/-- The parameters and the generators from each height on, one ledger, and the snapshots by the hash
of their set. -/
inductive Record
  | parameters (height : Height)
  | ledger
  | snapshot (validatorsHash : Digest)
  | generators (height : Height)
deriving DecidableEq

namespace Record

/-- The key of a record: the tag of its area, then what tells it from the others there. -/
def key : Record → Bytes
  | parameters height => Area.parameters.tag :: height.toBytes
  | ledger => [Area.ledger.tag]
  | snapshot validatorsHash => Area.snapshots.tag :: validatorsHash.bytes
  | generators height => Area.generators.tag :: height.toBytes

/-- Different records have different keys. -/
theorem key_inj {a b : Record} : a.key = b.key ↔ a = b := by
  constructor
  · intro h
    cases a <;> cases b <;>
      simp only [key, List.cons.injEq, Area.tag_inj, reduceCtorEq, false_and] at h
    · rw [Height.toBytes_inj.mp h.2]
    · rfl
    · rw [Octets.ext h.2]
    · rw [Height.toBytes_inj.mp h.2]
  · rintro rfl
    rfl

/-- The height in the key of a record that is kept by height. -/
def heightOfKey? : Bytes → Option Height
  | [] => none
  | _ :: rest => Height.ofBytes? rest

/-- A key has a height exactly if the bytes of that height follow its tag. -/
theorem heightOfKey?_eq_some {bytes : Bytes} {h : Height} :
    heightOfKey? bytes = some h ↔ ∃ tag, bytes = tag :: h.toBytes := by
  cases bytes with
  | nil => simp [heightOfKey?]
  | cons tag rest => simp [heightOfKey?, Height.ofBytes?_eq_some]

/-- The name of a record in error texts. -/
def describe : Record → String
  | parameters height => "BFT Parameters at height " ++ toString height
  | ledger => "BFT Votes"
  | snapshot validatorsHash =>
    "Validators Data for validators hash " ++ Bytes.decimalList validatorsHash.bytes
  | generators height => "Generator Keys at height " ++ toString height

end Record

/-- What can be wrong with a store. -/
inductive StoreError
  | undecodable (record : Record) (reason : String)
  | absent (record : Record)
  | malformedKey (key : Bytes)
  | unencodable (record : Record) (reason : String)
deriving DecidableEq

/-- The text of an error, which says where in the store it is. -/
def StoreError.message : StoreError → String
  | undecodable record reason => "failed to deserialize " ++ record.describe ++ ": " ++ reason
  | absent record => record.describe ++ " expected but not found"
  | malformedKey key => "malformed key " ++ Bytes.decimalList key
  | unencodable record reason => "failed to serialize " ++ record.describe ++ ": " ++ reason

/-- Why a request was not carried out. The first four blame the caller, the next three ask for
more chain history, and `store` passes on what is wrong with the store. `heightOutOfRange` says
that the heights in a header lead to one that does not exist, and `unwritable` that a value is too
long for the wire. -/
inductive Failure
  | parametersNotFound (height : Height)
  | rejected (reason : Rejection)
  | unexpectedHeight (height expected : Height)
  | commitMismatch (header commit : Height)
  | missingHeader (height : Height)
  | missingCommit (height : Height)
  | missingSnapshot (validatorsHash : Digest)
  | store (error : StoreError)
  | heightOutOfRange
  | unwritable (error : WireError)
deriving DecidableEq

def Failure.message : Failure → String
  | parametersNotFound height => "no BFT parameters found for height " ++ toString height
  | rejected reason => "invalid validator set: " ++ reason.describe
  | unexpectedHeight height expected =>
    "header height " ++ toString height ++ " does not follow the newest block, expected "
      ++ toString expected
  | commitMismatch header commit =>
    "block header height " ++ toString header ++ " does not match aggregate commit height "
      ++ toString commit
  | missingHeader height => "no block header available at height " ++ toString height
  | missingCommit height => "no aggregate commit available for height " ++ toString height
  | missingSnapshot validatorsHash =>
    "no validators data available for validators hash " ++ Bytes.decimalList validatorsHash.bytes
  | store error => error.message
  | heightOutOfRange => "height out of range"
  | unwritable error => error.message

namespace Failure

variable {α β : Type}

/-- Two steps succeed if the first one does, and the second one with its result. -/
theorem bind_eq_ok {first : Except Failure α} {second : α → Except Failure β} {b : β} :
    (first >>= second) = .ok b ↔ ∃ a, first = .ok a ∧ second a = .ok b := by
  cases first <;> simp [bind, Except.bind]

/-- A value that has to be there is found if it is there. -/
theorem elim_eq_ok {found : Option α} {failure : Failure} {a : α} :
    found.elim (.error failure) .ok = Except.ok a ↔ found = some a := by
  cases found <;> simp

end Failure

end ImpliedFinality
