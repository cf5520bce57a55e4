import ImpliedFinality.Failure
import ImpliedFinality.Header
import ImpliedFinality.Timeline

/-! # The votes ledger

The ledger holds the newest blocks with the votes that they got, newest first, and the validators
whose votes count. Three watermarks say how far blocks are prevoted, precommitted and certified.
-/

namespace ImpliedFinality

/-- How far blocks are prevoted, precommitted and certified, from the genesis height on. -/
structure Watermarks where
  prevoted : Height
  precommitted : Height
  certified : Height
deriving DecidableEq

namespace Watermarks

def codec : Codec Watermarks :=
  (Codec.height.pair <| Codec.height.pair Codec.height).iso
    (fun (p, q, c) => ⟨p, q, c⟩) (fun w => (w.prevoted, w.precommitted, w.certified))

theorem codec_lawful : codec.Lawful :=
  Codec.iso_lawful
    (Codec.pair_lawful Codec.height_lawful <|
      Codec.pair_lawful Codec.height_lawful Codec.height_lawful)
    (fun _ => rfl) (fun _ => rfl)

end Watermarks

/-- A retained block and the weight of the votes that it got. -/
structure BlockVotes where
  height : Height
  generator : Address
  maxHeightGenerated : Height
  maxHeightPrevoted : Height
  prevotes : Weight
  precommits : Weight
deriving DecidableEq

namespace BlockVotes

/-- What a ledger keeps of a header. A new block has no votes yet. -/
def ofHeader (h : Header) : BlockVotes where
  height := h.height
  generator := h.generator
  maxHeightGenerated := h.maxHeightGenerated
  maxHeightPrevoted := h.maxHeightPrevoted
  prevotes := .zero
  precommits := .zero

def codec : Codec BlockVotes :=
  (Codec.height.pair <| (Codec.octets 20).pair <| Codec.height.pair <| Codec.height.pair <|
    Codec.weight.pair Codec.weight).iso
    (fun (h, g, mg, mp, pv, pc) => ⟨h, g, mg, mp, pv, pc⟩)
    (fun b => (b.height, b.generator, b.maxHeightGenerated, b.maxHeightPrevoted, b.prevotes,
      b.precommits))

theorem codec_lawful : codec.Lawful :=
  Codec.iso_lawful
    (Codec.pair_lawful Codec.height_lawful <| Codec.pair_lawful (Codec.octets_lawful 20) <|
      Codec.pair_lawful Codec.height_lawful <| Codec.pair_lawful Codec.height_lawful <|
      Codec.pair_lawful Codec.weight_lawful Codec.weight_lawful)
    (fun _ => rfl) (fun _ => rfl)

end BlockVotes

/-- A validator whose votes count, for blocks from `activeFrom` on. It never precommits a height
that is not above its last one. -/
structure Voter where
  address : Address
  activeFrom : Height
  lastPrecommit : Height
deriving DecidableEq

namespace Voter

def codec : Codec Voter :=
  ((Codec.octets 20).pair <| Codec.height.pair Codec.height).iso
    (fun (a, f, l) => ⟨a, f, l⟩) (fun v => (v.address, v.activeFrom, v.lastPrecommit))

theorem codec_lawful : codec.Lawful :=
  Codec.iso_lawful
    (Codec.pair_lawful (Codec.octets_lawful 20) <|
      Codec.pair_lawful Codec.height_lawful Codec.height_lawful)
    (fun _ => rfl) (fun _ => rfl)

end Voter

/-- The window lists the retained blocks, the newest one first. -/
structure Ledger where
  watermarks : Watermarks
  window : List BlockVotes
  voters : List Voter
deriving DecidableEq

namespace Ledger

/-- A ledger is its watermarks and two lists, each with its length in front. -/
def codec : Codec Ledger :=
  (Watermarks.codec.pair <| BlockVotes.codec.list.pair Voter.codec.list).iso
    (fun (m, w, v) => ⟨m, w, v⟩) (fun l => (l.watermarks, l.window, l.voters))

/-- A ledger that fits is read back as it was written. -/
theorem codec_lawful : codec.Lawful :=
  Codec.iso_lawful
    (Codec.pair_lawful Watermarks.codec_lawful <|
      Codec.pair_lawful (Codec.list_lawful BlockVotes.codec_lawful)
        (Codec.list_lawful Voter.codec_lawful))
    (fun _ => rfl) (fun _ => rfl)

/-- The ledger before any block above the genesis block. -/
def genesis (height : Height) : Ledger := ⟨⟨height, height, height⟩, [], []⟩

def newest? (l : Ledger) : Option BlockVotes := l.window.head?

/-- The height from which parameters apply that are set now: one above the newest block, or above
the prevoted height while there is none. -/
def nextHeight (l : Ledger) : Except Failure Height :=
  let newest := match l.newest? with
    | some block => block.height
    | none => l.watermarks.prevoted
  match newest.succ? with
  | some next => .ok next
  | none => .error (.unexpectedHeight newest newest)

/-- Blocks have consecutive heights, and the first one may have any. -/
def checkFollows (l : Ledger) (header : Header) : Except Failure Unit :=
  match l.newest? with
  | none => .ok ()
  | some newest =>
    match newest.height.succ? with
    | none => .error (.unexpectedHeight header.height newest.height)
    | some expected =>
      if expected = header.height then .ok () else .error (.unexpectedHeight header.height expected)

/-- A header follows if there is no block before it, or if its height is one above that of the
newest. -/
theorem checkFollows_eq_ok {l : Ledger} {header : Header} :
    l.checkFollows header = .ok () ↔
      ∀ newest, l.newest? = some newest → header.height.toNat = newest.height.toNat + 1 := by
  unfold checkFollows
  cases l.newest? with
  | none => simp
  | some newest =>
    simp only [Option.some.injEq, forall_eq']
    cases hs : newest.height.succ? with
    | none =>
      rw [Height.succ?_eq_none] at hs
      have := header.height.isLt
      simp only [reduceCtorEq, false_iff, hs]
      show ¬ header.height.toNat = 4294967295 + 1
      omega
    | some expected =>
      rw [Height.succ?_eq_some] at hs
      simp only [ite_eq_left_iff, reduceCtorEq, imp_false, Decidable.not_not, ← Height.toNat_inj,
        ← hs]
      exact eq_comm

def voter? (l : Ledger) (address : Address) : Option Voter :=
  l.voters.find? fun v => v.address = address

/-- Adds a block that has no votes yet, and keeps the newest `limit` blocks. -/
def append (l : Ledger) (header : Header) (limit : Nat) : Ledger :=
  { l with window := (BlockVotes.ofHeader header :: l.window).take limit }

/-- The voter of a validator, who is active from `next` on if nothing is known about it yet. -/
def voterFrom (l : Ledger) (next : Height) (v : Validator) : Voter :=
  (l.voter? v.address).getD ⟨v.address, next, next.below 1⟩

/-- Counts the votes of the validators that become active at `next`, and of known ones among those
that were active right below. -/
def track (l : Ledger) (next : Height) (incoming outgoing : Validators) : Ledger :=
  let stay := fun (voters : List Voter) (v : Validator) =>
    if voters.any fun voter => voter.address = v.address then voters
    else voters ++ (l.voter? v.address).toList
  { l with voters := outgoing.foldl stay (incoming.map (l.voterFrom next)) }

end Ledger

end ImpliedFinality
