import ImpliedFinality.Hex

/-! # Byte strings of a fixed width

Addresses, digests, keys and chain identifiers are byte strings whose width is part of their type.
-/

namespace ImpliedFinality

/-- A byte string of exactly `width` bytes. Its order is that of byte strings. -/
structure Octets (width : Nat) where
  bytes : Bytes
  length_eq : bytes.length = width
deriving DecidableEq

namespace Octets

variable {width : Nat}

@[ext] theorem ext {a b : Octets width} (h : a.bytes = b.bytes) : a = b := by
  cases a; cases b; simp_all

/-- The byte string as one of a fixed width, if it has that width. -/
def ofBytes? (bytes : Bytes) : Option (Octets width) :=
  if h : bytes.length = width then some ⟨bytes, h⟩ else none

@[simp] theorem ofBytes?_bytes (o : Octets width) : ofBytes? o.bytes = some o := by
  simp [ofBytes?, o.length_eq]

theorem bytes_of_ofBytes? {bytes : Bytes} {o : Octets width} (h : ofBytes? bytes = some o) :
    o.bytes = bytes := by
  unfold ofBytes? at h
  split at h
  · cases h; rfl
  · contradiction

def zero : Octets width := ⟨List.replicate width 0, List.length_replicate⟩

instance : Inhabited (Octets width) := ⟨zero⟩

instance : Ord (Octets width) := ⟨fun a b => compare a.bytes b.bytes⟩

theorem compare_def (a b : Octets width) : compare a b = compare a.bytes b.bytes := rfl

instance : Std.TransOrd (Octets width) where
  eq_swap {a b} := by simpa only [compare_def] using Std.OrientedOrd.eq_swap
  isLE_trans {a b c} := by simpa only [compare_def] using Std.TransOrd.isLE_trans

instance : Std.LawfulEqOrd (Octets width) where
  compare_self := Std.ReflOrd.compare_self (α := Bytes)
  eq_of_compare h := ext (Std.LawfulEqOrd.eq_of_compare h)

end Octets

/-- The address of a validator, by which votes are counted. -/
abbrev Address := Octets 20

/-- A SHA-256 digest. Blocks, state roots, validator sets and transactions are named by one. -/
abbrev Digest := Octets 32

/-- An Ed25519 verifying key, as its 32 bytes. -/
abbrev GeneratorKey := Octets 32

/-- The identifier of a chain, by which it is known to the chains that it talks to. -/
abbrev ChainId := Octets 4

def ChainId.describe (chain : ChainId) : String := "ChainID(" ++ Hex.bracketed chain.bytes ++ ")"

end ImpliedFinality
