import ImpliedFinality.Octets
import ImpliedFinality.Ed25519.Field

/-! # The twisted Edwards curve

Points of `-x² + y² = 1 + d x² y²` in extended coordinates. A point is written as the 32
little-endian bytes of `y`, with the parity of `x` in the top bit. Reading reduces `y` modulo the
field, and a set top bit does not matter where `x` is zero. -/

namespace ImpliedFinality.Ed25519

/-- A point `(x / z, y / z)`, with `t = x * y / z`. -/
structure Point where
  x : Nat
  y : Nat
  z : Nat
  t : Nat

namespace Point

/-- The neutral element `(0, 1)`. -/
def identity : Point := ⟨0, 1, 1, 0⟩

/-- The curve constant `-121665 / 121666`. -/
def curveD : Nat := Field.mul (Field.neg 121665) (Field.inv 121666)

/-- The sum of two points. The addition law is complete, so no pair of points needs a case of its
own. -/
def add (p q : Point) : Point :=
  let a := Field.mul (Field.sub p.y p.x) (Field.sub q.y q.x)
  let b := Field.mul (Field.add p.y p.x) (Field.add q.y q.x)
  let c := Field.mul (Field.mul 2 curveD) (Field.mul p.t q.t)
  let d := Field.mul 2 (Field.mul p.z q.z)
  let e := Field.sub b a
  let f := Field.sub d c
  let g := Field.add d c
  let h := Field.add b a
  ⟨Field.mul e f, Field.mul g h, Field.mul f g, Field.mul e h⟩

/-- The point with the opposite `x`. -/
def neg (p : Point) : Point := ⟨Field.neg p.x, p.y, p.z, Field.neg p.t⟩

/-- The multiple of a point by the low `bits` bits of a scalar. -/
def mulBits : Nat → Nat → Point → Point
  | 0, _, _ => identity
  | bits + 1, scalar, p =>
    let rest := mulBits bits (scalar / 2) (p.add p)
    if scalar % 2 = 1 then p.add rest else rest

/-- The multiple of a point by a scalar below `2 ^ 256`. -/
def mul (scalar : Nat) (p : Point) : Point := mulBits 256 scalar p

def affine (x y : Nat) : Point := ⟨x, y, 1, Field.mul x y⟩

/-- The number whose low 255 bits are `y` and whose top bit is the parity of `x`. -/
def toNat (p : Point) : Nat :=
  let scale := Field.inv p.z
  let x := Field.mul p.x scale
  let y := Field.mul p.y scale
  y + (x % 2) <<< 255

/-- The written form of a point, which depends on its affine coordinates only. -/
def toBytes (p : Point) : Bytes := Bytes.ofNatLE 32 p.toNat

/-- The point with a given `y` whose `x` has a given parity. -/
def ofNat? (n : Nat) : Option Point := do
  let y := n % (1 <<< 255) % Field.modulus
  let y2 := Field.mul y y
  let x ← Field.squareRootOfRatio? (Field.sub y2 1) (Field.add (Field.mul curveD y2) 1)
  some (affine (if x % 2 = n >>> 255 then x else Field.neg x) y)

/-- Reads a point, if there is one with the given `y`. -/
def ofBytes? (bytes : Octets 32) : Option Point := ofNat? (Bytes.toNatLE bytes.bytes)

/-- The generator of the group of prime order: the point with `y = 4 / 5` and an even `x`. -/
def base : Point :=
  affine 15112221349535400772501151409588531511454012693041857206046113283949847762202
    46316835694926478169428394003475163141307993866256225615783033603165251855960

/-- The order of the base point. -/
def order : Nat := (1 <<< 252) + 27742317777372353535851937790883648493

end Point

end ImpliedFinality.Ed25519
