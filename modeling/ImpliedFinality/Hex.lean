import ImpliedFinality.Bytes

/-! # Hexadecimal text

Each byte is two digits, of which only the lower-case letters are read. -/

namespace ImpliedFinality.Hex

/-- The digit of a number below sixteen. -/
def digit (n : Nat) : Char := Nat.digitChar n

/-- The number that a digit stands for. Upper-case letters are no digits. -/
def value? (c : Char) : Option Nat := (List.range 16).find? fun n => digit n == c

/-- Each digit is read as the number that it was written for. -/
theorem value?_digit {n : Nat} (h : n < 16) : value? (digit n) = some n := by
  revert n
  decide

/-- The two digits of a byte, the higher one first. -/
def digits (b : UInt8) : List Char := [digit (b.toNat / 16), digit (b.toNat % 16)]

/-- The text of a byte string, without separators. -/
def encode (bytes : Bytes) : List Char := bytes.flatMap digits

/-- Reads a text of digits, of which there must be an even number. -/
def decode? : List Char → Option Bytes
  | [] => some []
  | [_] => none
  | a :: b :: rest => do
    let high ← value? a
    let low ← value? b
    let bytes ← decode? rest
    some (UInt8.ofNat (16 * high + low) :: bytes)

/-- Every byte string is read back from its text. -/
theorem decode?_encode (bytes : Bytes) : decode? (encode bytes) = some bytes := by
  induction bytes with
  | nil => rfl
  | cons b rest ih =>
    have hb := b.toNat_lt
    have hvalue : UInt8.ofNat (16 * (b.toNat / 16) + b.toNat % 16) = b := by
      rw [Nat.div_add_mod]
      exact UInt8.ofNat_toNat
    have hhigh : value? (digit (b.toNat / 16)) = some (b.toNat / 16) := value?_digit (by omega)
    have hlow : value? (digit (b.toNat % 16)) = some (b.toNat % 16) := value?_digit (by omega)
    rw [encode, List.flatMap_cons, ← encode]
    simp only [digits, List.cons_append, List.nil_append, decode?, hhigh, hlow, ih,
      Option.bind_eq_bind, Option.bind_some, hvalue]

/-- A bracketed list of byte values, such as `[01, 02, ff]`. -/
def bracketed (bytes : Bytes) : String :=
  "[" ++ ", ".intercalate (bytes.map fun b => String.ofList (digits b)) ++ "]"

end ImpliedFinality.Hex
