/-! # Arithmetic modulo `2 ^ 255 - 19`

Field elements are natural numbers below the modulus. `squareRootOfRatio?` finds the roots that
point decompression needs. -/

namespace ImpliedFinality.Ed25519.Field

/-- The prime `2 ^ 255 - 19`. -/
def modulus : Nat := (1 <<< 255) - 19

def add (a b : Nat) : Nat := (a + b) % modulus

/-- The difference of two elements, where the second one is below the modulus. -/
def sub (a b : Nat) : Nat := (a + modulus - b) % modulus

def mul (a b : Nat) : Nat := a * b % modulus

/-- The element that adds up to zero with another one. -/
def neg (a : Nat) : Nat := (modulus - a) % modulus

/-- The power of a base to the low `bits` bits of an exponent. -/
def powBits : Nat → Nat → Nat → Nat
  | 0, _, _ => 1
  | bits + 1, base, exponent =>
    let rest := powBits bits (mul base base) (exponent / 2)
    if exponent % 2 = 1 then mul base rest else rest

/-- The power of an element to an exponent below `2 ^ 256`. -/
def pow (base exponent : Nat) : Nat := powBits 256 base exponent

/-- The inverse of an element by the little theorem of Fermat. That of zero is zero. -/
def inv (a : Nat) : Nat := pow a (modulus - 2)

/-- A square root of minus one. -/
def imaginaryUnit : Nat := pow 2 ((modulus - 1) / 4)

/-- A root of `u / v`, if that is a square. -/
def squareRootOfRatio? (u v : Nat) : Option Nat :=
  let v3 := mul v (mul v v)
  let v7 := mul v (mul v3 v3)
  let root := mul (mul u v3) (pow (mul u v7) ((modulus - 5) / 8))
  let check := mul v (mul root root)
  if check = u then some root
  else if check = neg u then some (mul root imaginaryUnit)
  else none

end ImpliedFinality.Ed25519.Field
