import ImpliedFinality.Octets

/-! # The SHA-2 digests

Both members of the family run the same rounds on words of different width. A message is padded to
whole blocks of sixteen words, and the digest is the state after a fold of `compress` over the
blocks. -/

namespace ImpliedFinality

namespace Sha2

/-- The eight working words. -/
structure State (ω : Type) where
  a : ω
  b : ω
  c : ω
  d : ω
  e : ω
  f : ω
  g : ω
  h : ω

/-- What tells the members of the family apart. -/
structure Variant (ω : Type) where
  wordBytes : Nat
  read : Nat → ω
  value : ω → Nat
  bigSigma0 : ω → ω
  bigSigma1 : ω → ω
  smallSigma0 : ω → ω
  smallSigma1 : ω → ω
  constants : List ω
  start : State ω

variable {ω : Type} [Add ω] [AndOp ω] [XorOp ω] [Complement ω]

namespace State

def add (s t : State ω) : State ω :=
  ⟨s.a + t.a, s.b + t.b, s.c + t.c, s.d + t.d, s.e + t.e, s.f + t.f, s.g + t.g, s.h + t.h⟩

/-- The words of a state, the first one first. -/
def words (s : State ω) : List ω := [s.a, s.b, s.c, s.d, s.e, s.f, s.g, s.h]

/-- One round, with a round constant and a word of the message schedule. -/
def round (v : Variant ω) (s : State ω) (constant word : ω) : State ω :=
  let choice := (s.e &&& s.f) ^^^ (~~~s.e &&& s.g)
  let majority := (s.a &&& s.b) ^^^ (s.a &&& s.c) ^^^ (s.b &&& s.c)
  let t1 := s.h + v.bigSigma1 s.e + choice + constant + word
  let t2 := v.bigSigma0 s.a + majority
  ⟨t1 + t2, s.a, s.b, s.c, s.d + t1, s.e, s.f, s.g⟩

/-- The rounds that remain, with the sixteen words of the schedule that come next. -/
def rounds (v : Variant ω) : List ω → List ω → State ω → State ω
  | constant :: constants, w0 :: w1 :: w2 :: w3 :: w4 :: w5 :: w6 :: w7 :: w8 :: w9 :: later, s =>
    let next := match later with
      | [w10, w11, w12, w13, w14, w15] =>
        [w10, w11, w12, w13, w14, w15, v.smallSigma1 w14 + w9 + v.smallSigma0 w1 + w0]
      | _ => later
    rounds v constants (w1 :: w2 :: w3 :: w4 :: w5 :: w6 :: w7 :: w8 :: w9 :: next)
      (round v s constant w0)
  | _, _, s => s

/-- Takes one block of sixteen words into the state. -/
def compress (v : Variant ω) (s : State ω) (block : List ω) : State ω :=
  (rounds v v.constants block s).add s

end State

namespace Variant

/-- How many bytes make up a block. -/
def blockBytes (v : Variant ω) : Nat := 16 * v.wordBytes

/-- A one bit, zeros, and the bit length of the message in two words, up to a whole number of
blocks. -/
def padding (v : Variant ω) (length : Nat) : Bytes :=
  let tail := 2 * v.wordBytes
  let used := (length + 1 + tail) % v.blockBytes
  let zeros := List.replicate ((v.blockBytes - used) % v.blockBytes) 0
  0x80 :: (zeros ++ Bytes.ofNatBE tail (8 * length))

/-- The first `n` groups of `width` items. -/
def groups {α : Type} (width : Nat) : Nat → List α → List (List α)
  | 0, _ => []
  | n + 1, items => items.take width :: groups width n (items.drop width)

/-- The words of a block, each read with its most significant byte first. -/
def block (v : Variant ω) (bytes : Bytes) : List ω :=
  (groups v.wordBytes 16 bytes).map fun word => v.read (Bytes.toNatBE word)

/-- The digest of a message: the state after all blocks of the padded message. -/
def digest (v : Variant ω) (message : Bytes) : Bytes :=
  let padded := message ++ v.padding message.length
  let blocks := groups v.blockBytes (padded.length / v.blockBytes) padded
  let final := blocks.foldl (fun s bytes => s.compress v (v.block bytes)) v.start
  final.words.flatMap fun word => Bytes.ofNatBE v.wordBytes (v.value word)

end Variant

/-- Rotates a word to the right, by at least one bit and by fewer than all. -/
def rotate32 (w : UInt32) (n : UInt32) : UInt32 := (w >>> n) ||| (w <<< (32 - n))

/-- Rotates a long word to the right, in the same way. -/
def rotate64 (w : UInt64) (n : UInt64) : UInt64 := (w >>> n) ||| (w <<< (64 - n))

/-- The member with words of 32 bits. -/
def sha256 : Variant UInt32 where
  wordBytes := 4
  read := UInt32.ofNat
  value := UInt32.toNat
  bigSigma0 w := rotate32 w 2 ^^^ rotate32 w 13 ^^^ rotate32 w 22
  bigSigma1 w := rotate32 w 6 ^^^ rotate32 w 11 ^^^ rotate32 w 25
  smallSigma0 w := rotate32 w 7 ^^^ rotate32 w 18 ^^^ (w >>> 3)
  smallSigma1 w := rotate32 w 17 ^^^ rotate32 w 19 ^^^ (w >>> 10)
  constants := [
    0x428a2f98, 0x71374491, 0xb5c0fbcf, 0xe9b5dba5, 0x3956c25b, 0x59f111f1, 0x923f82a4, 0xab1c5ed5,
    0xd807aa98, 0x12835b01, 0x243185be, 0x550c7dc3, 0x72be5d74, 0x80deb1fe, 0x9bdc06a7, 0xc19bf174,
    0xe49b69c1, 0xefbe4786, 0x0fc19dc6, 0x240ca1cc, 0x2de92c6f, 0x4a7484aa, 0x5cb0a9dc, 0x76f988da,
    0x983e5152, 0xa831c66d, 0xb00327c8, 0xbf597fc7, 0xc6e00bf3, 0xd5a79147, 0x06ca6351, 0x14292967,
    0x27b70a85, 0x2e1b2138, 0x4d2c6dfc, 0x53380d13, 0x650a7354, 0x766a0abb, 0x81c2c92e, 0x92722c85,
    0xa2bfe8a1, 0xa81a664b, 0xc24b8b70, 0xc76c51a3, 0xd192e819, 0xd6990624, 0xf40e3585, 0x106aa070,
    0x19a4c116, 0x1e376c08, 0x2748774c, 0x34b0bcb5, 0x391c0cb3, 0x4ed8aa4a, 0x5b9cca4f, 0x682e6ff3,
    0x748f82ee, 0x78a5636f, 0x84c87814, 0x8cc70208, 0x90befffa, 0xa4506ceb, 0xbef9a3f7, 0xc67178f2]
  start := ⟨
    0x6a09e667, 0xbb67ae85, 0x3c6ef372, 0xa54ff53a, 0x510e527f, 0x9b05688c, 0x1f83d9ab, 0x5be0cd19⟩

/-- The member with words of 64 bits. -/
def sha512 : Variant UInt64 where
  wordBytes := 8
  read := UInt64.ofNat
  value := UInt64.toNat
  bigSigma0 w := rotate64 w 28 ^^^ rotate64 w 34 ^^^ rotate64 w 39
  bigSigma1 w := rotate64 w 14 ^^^ rotate64 w 18 ^^^ rotate64 w 41
  smallSigma0 w := rotate64 w 1 ^^^ rotate64 w 8 ^^^ (w >>> 7)
  smallSigma1 w := rotate64 w 19 ^^^ rotate64 w 61 ^^^ (w >>> 6)
  constants := [
    0x428a2f98d728ae22, 0x7137449123ef65cd, 0xb5c0fbcfec4d3b2f, 0xe9b5dba58189dbbc,
    0x3956c25bf348b538, 0x59f111f1b605d019, 0x923f82a4af194f9b, 0xab1c5ed5da6d8118,
    0xd807aa98a3030242, 0x12835b0145706fbe, 0x243185be4ee4b28c, 0x550c7dc3d5ffb4e2,
    0x72be5d74f27b896f, 0x80deb1fe3b1696b1, 0x9bdc06a725c71235, 0xc19bf174cf692694,
    0xe49b69c19ef14ad2, 0xefbe4786384f25e3, 0x0fc19dc68b8cd5b5, 0x240ca1cc77ac9c65,
    0x2de92c6f592b0275, 0x4a7484aa6ea6e483, 0x5cb0a9dcbd41fbd4, 0x76f988da831153b5,
    0x983e5152ee66dfab, 0xa831c66d2db43210, 0xb00327c898fb213f, 0xbf597fc7beef0ee4,
    0xc6e00bf33da88fc2, 0xd5a79147930aa725, 0x06ca6351e003826f, 0x142929670a0e6e70,
    0x27b70a8546d22ffc, 0x2e1b21385c26c926, 0x4d2c6dfc5ac42aed, 0x53380d139d95b3df,
    0x650a73548baf63de, 0x766a0abb3c77b2a8, 0x81c2c92e47edaee6, 0x92722c851482353b,
    0xa2bfe8a14cf10364, 0xa81a664bbc423001, 0xc24b8b70d0f89791, 0xc76c51a30654be30,
    0xd192e819d6ef5218, 0xd69906245565a910, 0xf40e35855771202a, 0x106aa07032bbd1b8,
    0x19a4c116b8d2d0c8, 0x1e376c085141ab53, 0x2748774cdf8eeb99, 0x34b0bcb5e19b48a8,
    0x391c0cb3c5c95a63, 0x4ed8aa4ae3418acb, 0x5b9cca4f7763e373, 0x682e6ff3d6b2b8a3,
    0x748f82ee5defb2fc, 0x78a5636f43172f60, 0x84c87814a1f0ab72, 0x8cc702081a6439ec,
    0x90befffa23631e28, 0xa4506cebde82bde9, 0xbef9a3f7b2c67915, 0xc67178f2e372532b,
    0xca273eceea26619c, 0xd186b8c721c0c207, 0xeada7dd6cde0eb1e, 0xf57d4f7fee6ed178,
    0x06f067aa72176fba, 0x0a637dc5a2c898a6, 0x113f9804bef90dae, 0x1b710b35131c471b,
    0x28db77f523047d84, 0x32caab7b40c72493, 0x3c9ebe0a15c9bebc, 0x431d67c49c100d4c,
    0x4cc5d4becb3e42b6, 0x597f299cfc657e2a, 0x5fcb6fab3ad6faec, 0x6c44198c4a475817]
  start := ⟨
    0x6a09e667f3bcc908, 0xbb67ae8584caa73b, 0x3c6ef372fe94f82b, 0xa54ff53a5f1d36f1,
    0x510e527fade682d1, 0x9b05688c2b3e6c1f, 0x1f83d9abfb41bd6b, 0x5be0cd19137e2179⟩

/-- A digest is eight words long. -/
theorem length_digest (v : Variant ω) (message : Bytes) :
    (v.digest message).length = 8 * v.wordBytes := by
  simp only [Variant.digest, State.words, List.flatMap_cons, List.flatMap_nil, List.length_append,
    Bytes.length_ofNatBE, List.length_nil]
  omega

end Sha2

/-- The SHA-256 digest of a byte string. -/
def Digest.ofBytes (message : Bytes) : Digest := ⟨Sha2.sha256.digest message, Sha2.length_digest ..⟩

end ImpliedFinality
