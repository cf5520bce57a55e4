import ImpliedFinality.Bytes

/-! # Base64 text

Three bytes are four characters of six bits each. The last group is not padded, so a text has as
many characters as the bits need: `length_encode`. -/

namespace ImpliedFinality.Base64

/-- The characters of the standard alphabet, in the order of the numbers they stand for. -/
def alphabet : List Char :=
  "ABCDEFGHIJKLMNOPQRSTUVWXYZabcdefghijklmnopqrstuvwxyz0123456789+/".toList

/-- The character of the low six bits of a number. -/
def digit (n : Nat) : Char := alphabet.getD (n % 64) 'A'

/-- The text of a byte string: the bits from the first byte on, six to a character, and zeros behind
the last one. -/
def encode : Bytes → List Char
  | a :: b :: c :: rest =>
    let n := a.toNat * 65536 + b.toNat * 256 + c.toNat
    digit (n / 262144) :: digit (n / 4096) :: digit (n / 64) :: digit n :: encode rest
  | [a, b] =>
    let n := a.toNat * 1024 + b.toNat * 4
    [digit (n / 4096), digit (n / 64), digit n]
  | [a] =>
    let n := a.toNat * 16
    [digit (n / 64), digit n]
  | [] => []

/-- The first seven characters, which stand for a digest or address in a log line. -/
def short (bytes : Bytes) : String := String.ofList ((encode bytes).take 7)

/-- Eight bits to a byte, six to a character, and no padding. -/
theorem length_encode (bytes : Bytes) : (encode bytes).length = (8 * bytes.length + 5) / 6 := by
  fun_induction encode bytes with
  | case1 a b c rest n ih =>
    simp only [List.length_cons, ih]
    omega
  | case2 => simp
  | case3 => simp
  | case4 => simp

/-- A name in a log line has seven characters. -/
theorem length_short {bytes : Bytes} (h : 5 ≤ bytes.length) : (short bytes).length = 7 := by
  rw [short, String.length_ofList, List.length_take, length_encode]
  omega

end ImpliedFinality.Base64
