import ImpliedFinality.Octets
import ImpliedFinality.Height
import ImpliedFinality.Weight
import ImpliedFinality.Bitmap

/-! # The wire format

Records and messages are written field by field without separators: numbers little-endian in a
fixed width, byte strings of a fixed width as they are, and lists as a four-byte count followed by
the items. A codec pairs the writer of a type with its reader, which leaves the bytes it does not
need to the next reader. Values that are too long for their counts have no written form. A lawful
codec reads back what it writes, and reads nothing else: `Lawful.readAll_eq_ok`. -/

namespace ImpliedFinality

/-- Why bytes are not the written form of a value: they end too early, or more follow. A value that
is too long has no written form. -/
inductive WireError
  | truncated
  | leftover
  | tooLong
deriving DecidableEq

def WireError.message : WireError → String
  | .truncated => "Unexpected length of input"
  | .leftover => "Not all bytes read"
  | .tooLong => "invalid input parameter"

/-- The writer and reader of a type, and which values have a written form. -/
structure Codec (α : Type) where
  encode : α → Bytes
  decode : Bytes → Option (α × Bytes)
  fits : α → Bool := fun _ => true

namespace Codec

variable {α β : Type}

/-- The written form of a value, if it has one. -/
def write (c : Codec α) (v : α) : Except WireError Bytes :=
  if c.fits v then .ok (c.encode v) else .error .tooLong

/-- A value that fits has its encoding as its written form, and no other value has one. -/
theorem write_eq_ok {c : Codec α} {v : α} {bytes : Bytes} :
    c.write v = .ok bytes ↔ c.fits v = true ∧ c.encode v = bytes := by
  unfold write
  split <;> simp_all

/-- Reads a value and ignores the bytes behind it. -/
def read (c : Codec α) (bytes : Bytes) : Except WireError α :=
  match c.decode bytes with
  | some (v, _) => .ok v
  | none => .error .truncated

/-- Reads a value that must take all the bytes. -/
def readAll (c : Codec α) (bytes : Bytes) : Except WireError α :=
  match c.decode bytes with
  | some (v, []) => .ok v
  | some (_, _ :: _) => .error .leftover
  | none => .error .truncated

/-- A codec is lawful if a reader takes exactly the bytes that the writer has made, and the reader
accepts nothing that the writer does not make. -/
structure Lawful (c : Codec α) : Prop where
  decode_encode {v : α} (rest : Bytes) :
    c.fits v = true → c.decode (c.encode v ++ rest) = some (v, rest)
  eq_encode_of_decode {bytes rest : Bytes} {v : α} :
    c.decode bytes = some (v, rest) → c.fits v = true ∧ bytes = c.encode v ++ rest

/-- A lawful codec reads exactly the written forms, each as the value that it was written for. -/
theorem Lawful.readAll_eq_ok {c : Codec α} (h : c.Lawful) {bytes : Bytes} {v : α} :
    c.readAll bytes = .ok v ↔ c.write v = .ok bytes := by
  rw [write_eq_ok]
  unfold readAll
  constructor
  · intro hr
    split at hr
    · cases hr
      rename_i hd
      obtain ⟨hv, hbytes⟩ := h.eq_encode_of_decode hd
      rw [List.append_nil] at hbytes
      exact ⟨hv, hbytes.symm⟩
    · contradiction
    · contradiction
  · rintro ⟨hv, rfl⟩
    have hd := h.decode_encode [] hv
    rw [List.append_nil] at hd
    rw [hd]

/-- What was written is also read back where nothing follows. -/
theorem Lawful.read_eq_ok_of_write {c : Codec α} (h : c.Lawful) {bytes : Bytes} {v : α}
    (hw : c.write v = .ok bytes) : c.read bytes = .ok v := by
  obtain ⟨hv, rfl⟩ := write_eq_ok.mp hw
  have hd := h.decode_encode [] hv
  rw [List.append_nil] at hd
  rw [read, hd]

/-- Values that fit are written differently if they differ. -/
theorem Lawful.encode_inj {c : Codec α} (h : c.Lawful) {v w : α} (hv : c.fits v = true)
    (hw : c.fits w = true) (he : c.encode v = c.encode w) : v = w := by
  have h1 := h.decode_encode [] hv
  rw [he, h.decode_encode [] hw] at h1
  exact (Prod.mk.inj (Option.some.inj h1)).1.symm

/-! ## Numbers and byte strings -/

/-- The next `n` bytes and what follows them. -/
def split? (n : Nat) (bytes : Bytes) : Option (Bytes × Bytes) :=
  if n ≤ bytes.length then some (bytes.take n, bytes.drop n) else none

theorem split?_append (front rest : Bytes) :
    split? front.length (front ++ rest) = some (front, rest) := by
  simp [split?]

theorem split?_eq_some {n : Nat} {bytes front rest : Bytes} :
    split? n bytes = some (front, rest) ↔ front.length = n ∧ bytes = front ++ rest := by
  constructor
  · intro h
    unfold split? at h
    split at h
    · obtain ⟨rfl, rfl⟩ := Prod.mk.inj (Option.some.inj h)
      exact ⟨by rw [List.length_take]; omega, (List.take_append_drop n bytes).symm⟩
    · contradiction
  · rintro ⟨rfl, rfl⟩
    exact split?_append front rest

/-- The numbers of a fixed width, little-endian. -/
def number (width : Nat) : Codec { n : Nat // n < Bytes.capacity width } where
  encode n := Bytes.ofNatLE width n.1
  decode bytes :=
    if h : width ≤ bytes.length then
      some (⟨Bytes.toNatLE (bytes.take width), by
        have := Bytes.toNatLE_lt (bytes.take width)
        rwa [List.length_take, Nat.min_eq_left h] at this⟩, bytes.drop width)
    else none

/-- Every byte string of the right width is a number. -/
theorem number_lawful (width : Nat) : (number width).Lawful where
  decode_encode {n} rest _ := by
    have hlen : (Bytes.ofNatLE width n.1).length = width := Bytes.length_ofNatLE ..
    have htake : (Bytes.ofNatLE width n.1 ++ rest).take width = Bytes.ofNatLE width n.1 :=
      List.take_left' hlen
    have hdrop : (Bytes.ofNatLE width n.1 ++ rest).drop width = rest := List.drop_left' hlen
    simp only [number, List.length_append, hlen, Nat.le_add_right, ↓reduceDIte, htake, hdrop,
      Bytes.toNatLE_ofNatLE, Nat.mod_eq_of_lt n.2]
  eq_encode_of_decode {bytes rest n} h := by
    simp only [number] at h
    split at h
    · rename_i hle
      obtain ⟨rfl, rfl⟩ := Prod.mk.inj (Option.some.inj h)
      have hlen : (bytes.take width).length = width := by rw [List.length_take]; omega
      have hval := Bytes.ofNatLE_toNatLE (bytes.take width)
      rw [hlen] at hval
      exact ⟨rfl, by simp only [number, hval, List.take_append_drop]⟩
    · contradiction

/-- Byte strings of a fixed width, as they are. -/
def octets (width : Nat) : Codec (Octets width) where
  encode o := o.bytes
  decode bytes :=
    if h : width ≤ bytes.length then
      some (⟨bytes.take width, by rw [List.length_take, Nat.min_eq_left h]⟩, bytes.drop width)
    else none

/-- Byte strings of a fixed width are all that these bytes can be. -/
theorem octets_lawful (width : Nat) : (octets width).Lawful where
  decode_encode {o} rest _ := by
    have htake : (o.bytes ++ rest).take width = o.bytes := List.take_left' o.length_eq
    have hdrop : (o.bytes ++ rest).drop width = rest := List.drop_left' o.length_eq
    simp only [octets, List.length_append, o.length_eq, Nat.le_add_right, ↓reduceDIte, htake, hdrop]
  eq_encode_of_decode {bytes rest o} h := by
    simp only [octets] at h
    split at h
    · obtain ⟨rfl, rfl⟩ := Prod.mk.inj (Option.some.inj h)
      exact ⟨rfl, by simp only [octets, List.take_append_drop]⟩
    · contradiction

/-! ## Combination -/

/-- One value behind another. -/
def pair (a : Codec α) (b : Codec β) : Codec (α × β) where
  encode v := a.encode v.1 ++ b.encode v.2
  decode bytes := do
    let (x, bytes) ← a.decode bytes
    let (y, bytes) ← b.decode bytes
    some ((x, y), bytes)
  fits v := a.fits v.1 && b.fits v.2

/-- Lawful codecs can be put one behind the other, as each knows where its value ends. -/
theorem pair_lawful {a : Codec α} {b : Codec β} (ha : a.Lawful) (hb : b.Lawful) :
    (a.pair b).Lawful where
  decode_encode {v} rest hv := by
    simp only [pair, Bool.and_eq_true] at hv
    simp only [pair, List.append_assoc, ha.decode_encode _ hv.1, hb.decode_encode _ hv.2,
      Option.bind_eq_bind, Option.bind_some]
  eq_encode_of_decode {bytes rest v} h := by
    simp only [pair, Option.bind_eq_bind, Option.bind_eq_some_iff, Prod.exists] at h
    obtain ⟨x, mid, hx, y, last, hy, hv⟩ := h
    obtain ⟨rfl, rfl⟩ := Prod.mk.inj (Option.some.inj hv)
    obtain ⟨fx, rfl⟩ := ha.eq_encode_of_decode hx
    obtain ⟨fy, rfl⟩ := hb.eq_encode_of_decode hy
    exact ⟨by simp only [pair, fx, fy, Bool.and_self], by simp only [pair, List.append_assoc]⟩

/-- A codec of a type whose values correspond one to one to those of another. -/
def iso (c : Codec α) (into : α → β) (back : β → α) : Codec β where
  encode v := c.encode (back v)
  decode bytes := (c.decode bytes).map fun (v, rest) => (into v, rest)
  fits v := c.fits (back v)

/-- A one-to-one correspondence keeps a codec lawful. -/
theorem iso_lawful {c : Codec α} (hc : c.Lawful) {into : α → β} {back : β → α}
    (hinto : ∀ v, into (back v) = v) (hback : ∀ v, back (into v) = v) :
    (c.iso into back).Lawful where
  decode_encode {v} rest hv := by
    simp only [iso, hc.decode_encode rest hv, Option.map_some, hinto]
  eq_encode_of_decode {bytes rest v} h := by
    simp only [iso, Option.map_eq_some_iff, Prod.exists] at h
    obtain ⟨w, mid, hw, hv⟩ := h
    obtain ⟨rfl, rfl⟩ := Prod.mk.inj hv
    simpa only [iso, hback] using hc.eq_encode_of_decode hw

/-- A number of values, one behind the other. -/
def decodeMany (c : Codec α) : Nat → Bytes → Option (List α × Bytes)
  | 0, bytes => some ([], bytes)
  | n + 1, bytes => do
    let (v, bytes) ← c.decode bytes
    let (vs, bytes) ← decodeMany c n bytes
    some (v :: vs, bytes)

/-- Values written one behind the other are read back in order. -/
theorem decodeMany_flatMap {c : Codec α} (hc : c.Lawful) {vs : List α}
    (hvs : ∀ v ∈ vs, c.fits v = true) (rest : Bytes) :
    c.decodeMany vs.length (vs.flatMap c.encode ++ rest) = some (vs, rest) := by
  induction vs with
  | nil => rfl
  | cons v vs ih =>
    simp only [List.mem_cons, forall_eq_or_imp] at hvs
    simp only [List.length_cons, List.flatMap_cons, List.append_assoc, decodeMany,
      hc.decode_encode _ hvs.1, ih hvs.2, Option.bind_eq_bind, Option.bind_some]

/-- What is read as a number of values is their encodings one behind the other. -/
theorem eq_flatMap_of_decodeMany {c : Codec α} (hc : c.Lawful) {n : Nat} {bytes rest : Bytes}
    {vs : List α} (h : c.decodeMany n bytes = some (vs, rest)) :
    vs.length = n ∧ (∀ v ∈ vs, c.fits v = true) ∧ bytes = vs.flatMap c.encode ++ rest := by
  induction n generalizing bytes vs with
  | zero =>
    obtain ⟨rfl, rfl⟩ := Prod.mk.inj (Option.some.inj h)
    simp
  | succ n ih =>
    simp only [decodeMany, Option.bind_eq_bind, Option.bind_eq_some_iff, Prod.exists] at h
    obtain ⟨v, mid, hv, ws, last, hws, heq⟩ := h
    obtain ⟨rfl, rfl⟩ := Prod.mk.inj (Option.some.inj heq)
    obtain ⟨fv, rfl⟩ := hc.eq_encode_of_decode hv
    obtain ⟨hlen, fws, rfl⟩ := ih hws
    refine ⟨by rw [List.length_cons, hlen], ?_, by simp only [List.flatMap_cons, List.append_assoc]⟩
    simpa only [List.mem_cons, forall_eq_or_imp] using ⟨fv, fws⟩

/-- Lists of fewer than `2 ^ 32` values: their count, then the values. -/
def list (c : Codec α) : Codec (List α) where
  encode vs := Bytes.ofNatLE 4 vs.length ++ vs.flatMap c.encode
  decode bytes := do
    let (n, bytes) ← (number 4).decode bytes
    c.decodeMany n.1 bytes
  fits vs := vs.length < Bytes.capacity 4 && vs.all c.fits

/-- A list is lawful if its items are, with the count in front. -/
theorem list_lawful {c : Codec α} (hc : c.Lawful) : c.list.Lawful where
  decode_encode {vs} rest hvs := by
    simp only [list, Bool.and_eq_true, decide_eq_true_eq, List.all_eq_true] at hvs
    have hn := (number_lawful 4).decode_encode (v := ⟨vs.length, hvs.1⟩)
      (vs.flatMap c.encode ++ rest) rfl
    rw [show (number 4).encode ⟨vs.length, hvs.1⟩ = Bytes.ofNatLE 4 vs.length from rfl] at hn
    simp only [list, List.append_assoc, hn, Option.bind_eq_bind, Option.bind_some,
      decodeMany_flatMap hc hvs.2]
  eq_encode_of_decode {bytes rest vs} h := by
    simp only [list, Option.bind_eq_bind, Option.bind_eq_some_iff, Prod.exists] at h
    obtain ⟨n, mid, hn, hvs⟩ := h
    obtain ⟨-, rfl⟩ := (number_lawful 4).eq_encode_of_decode hn
    obtain ⟨hlen, fvs, rfl⟩ := eq_flatMap_of_decodeMany hc hvs
    have hcount : vs.length < Bytes.capacity 4 := hlen ▸ n.2
    have hfits : c.list.fits vs = true := by
      simpa only [list, hcount, decide_true, Bool.true_and, List.all_eq_true] using fvs
    refine ⟨hfits, ?_⟩
    simp only [list, number, hlen, List.append_assoc]

/-- Byte strings of fewer than `2 ^ 32` bytes: their length, then the bytes. -/
def bytes : Codec Bytes where
  encode bs := Bytes.ofNatLE 4 bs.length ++ bs
  decode input := do
    let (n, input) ← (number 4).decode input
    split? n.1 input
  fits bs := bs.length < Bytes.capacity 4

theorem bytes_lawful : bytes.Lawful where
  decode_encode {bs} rest hbs := by
    have hbs : bs.length < Bytes.capacity 4 := of_decide_eq_true hbs
    have hn := (number_lawful 4).decode_encode (v := ⟨bs.length, hbs⟩) (bs ++ rest) rfl
    rw [show (number 4).encode ⟨bs.length, hbs⟩ = Bytes.ofNatLE 4 bs.length from rfl] at hn
    simp only [bytes, List.append_assoc, hn, Option.bind_eq_bind, Option.bind_some, split?_append]
  eq_encode_of_decode {input rest bs} h := by
    simp only [bytes, Option.bind_eq_bind, Option.bind_eq_some_iff, Prod.exists] at h
    obtain ⟨n, mid, hn, hbs⟩ := h
    obtain ⟨-, rfl⟩ := (number_lawful 4).eq_encode_of_decode hn
    obtain ⟨hlen, rfl⟩ := split?_eq_some.mp hbs
    refine ⟨decide_eq_true (show bs.length < Bytes.capacity 4 from hlen ▸ n.2), ?_⟩
    simp only [bytes, number, hlen, List.append_assoc]

/-! ## Scalars -/

/-- Words of 32 bits in four bytes. -/
def word : Codec UInt32 :=
  (number 4).iso (fun n => UInt32.ofNatLT n.1 n.2) (fun w => ⟨w.toNat, w.toNat_lt⟩)

theorem word_lawful : word.Lawful :=
  iso_lawful (number_lawful 4) (fun _ => rfl) (fun _ => rfl)

/-- Heights in four bytes, little-endian unlike in store keys. -/
def height : Codec Height :=
  (number 4).iso (fun n => ⟨n.1, n.2⟩) (fun h => ⟨h.toNat, h.isLt⟩)

theorem height_lawful : height.Lawful := iso_lawful (number_lawful 4) (fun _ => rfl) (fun _ => rfl)

def weight : Codec Weight :=
  (number 8).iso (fun n => ⟨n.1, n.2⟩) (fun w => ⟨w.toNat, w.isLt⟩)

theorem weight_lawful : weight.Lawful := iso_lawful (number_lawful 8) (fun _ => rfl) (fun _ => rfl)

/-- A bitmap is written as its bytes with their number in front. -/
def bitmap : Codec Bitmap := bytes.iso Bitmap.mk Bitmap.bytes

theorem bitmap_lawful : bitmap.Lawful := iso_lawful bytes_lawful (fun _ => rfl) (fun _ => rfl)

end Codec

end ImpliedFinality
