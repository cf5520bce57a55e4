import Mathlib.Data.Nat.ModEq
import ImpliedFinality.Proofs.Progress

/-!
# Validators who take turns

If `n` validators generate blocks in a fixed order, the generator of a block made the one `n` blocks
before, and no other since. So each of them reports the height `n` below its own, apart from the
first round, whose blocks report nothing above the genesis height. Following these reports from the
newest block leads through the generator's blocks out of the window: it prevoted for every retained
block.
-/

namespace ImpliedFinality

/-- Blocks that validators make in a fixed order above the genesis height, the newest one first.
Each reports the height of its generator's block before, or nothing above the genesis height. -/
inductive TakesTurns (start : Height) (order : List Address) : List Header → Prop
  | nil : TakesTurns start order []
  | cons {past : List Header} {header : Header} (rest : TakesTurns start order past)
      (height : header.height.toNat = start.toNat + past.length + 1)
      (turn : order[past.length % order.length]? = some header.generator)
      (reported : match past.find? fun b => b.generator = header.generator with
        | some prior => header.maxHeightGenerated = prior.height
        | none => header.maxHeightGenerated ≤ start) :
      TakesTurns start order (header :: past)

namespace TakesTurns

variable {start : Height} {order : List Address} {blocks past : List Header} {header b : Header}
  {d : Nat}

/-- Positions measure heights. -/
theorem height_add (h : TakesTurns start order blocks) (hd : blocks[d]? = some b) :
    b.height.toNat + d = start.toNat + blocks.length := by
  induction h generalizing d with
  | nil => contradiction
  | @cons past header rest height turn reported ih =>
    rw [List.length_cons]
    cases d with
    | zero =>
      obtain rfl : header = b := Option.some.inj hd
      rw [height, Nat.add_zero, Nat.add_assoc]
    | succ d =>
      have hrest := ih hd
      omega

/-- Whose turn it was is told by how many blocks there were. -/
theorem generator_of_turn (h : TakesTurns start order blocks) (hd : blocks[d]? = some b) {m : Nat}
    (hm : m + d + 1 = blocks.length) : order[m % order.length]? = some b.generator := by
  induction h generalizing d with
  | nil => contradiction
  | @cons past header rest height turn reported ih =>
    rw [List.length_cons] at hm
    cases d with
    | zero =>
      obtain rfl : header = b := Option.some.inj hd
      obtain rfl : m = past.length := by omega
      exact turn
    | succ d => exact ih hd (by omega)

/-- Heights tell the blocks apart. -/
theorem eq_of_height (h : TakesTurns start order blocks) {x y : Header} (hx : x ∈ blocks)
    (hy : y ∈ blocks) (same : x.height = y.height) : x = y := by
  obtain ⟨i, hi⟩ := List.getElem?_of_mem hx
  obtain ⟨j, hj⟩ := List.getElem?_of_mem hy
  have hheight := h.height_add hi
  rw [same] at hheight
  obtain rfl : i = j := Nat.add_left_cancel (hheight.trans (h.height_add hj).symm)
  exact Option.some.inj (hi.symm.trans hj)

theorem start_lt (h : TakesTurns start order blocks) (hb : b ∈ blocks) : start < b.height := by
  obtain ⟨d, hd⟩ := List.getElem?_of_mem hb
  have hheight := h.height_add hd
  have hlt : d < blocks.length := (List.getElem?_eq_some_iff.mp hd).1
  rw [Height.lt_iff]
  omega

/-- Turns repeat after whole rounds, and not before. -/
theorem getElem?_mod_eq_iff (nodup : order.Nodup) (hpos : 0 < order.length) {m e : Nat} :
    order[m % order.length]? = order[(m + e) % order.length]? ↔ order.length ∣ e := by
  rw [List.getElem?_inj (Nat.mod_lt m hpos) nodup]
  have hmod := Nat.modEq_iff_dvd' (n := order.length) (Nat.le_add_right m e)
  rwa [Nat.add_sub_cancel_left] at hmod

section Newest

variable (h : TakesTurns start order (header :: past)) (nodup : order.Nodup)
include h

theorem turn_eq : order[past.length % order.length]? = some header.generator :=
  h.generator_of_turn (d := 0) rfl (by rw [List.length_cons])

theorem length_pos : 0 < order.length := by
  have hin := (List.getElem?_eq_some_iff.mp h.turn_eq).1
  omega

include nodup

/-- The generator of the newest block made those that are some rounds before. -/
theorem own_iff (hd : past[d]? = some b) :
    b.generator = header.generator ↔ order.length ∣ d + 1 := by
  have hlt : d < past.length := (List.getElem?_eq_some_iff.mp hd).1
  obtain ⟨m, hm⟩ : ∃ m, m + (d + 1) = past.length := ⟨past.length - (d + 1), by omega⟩
  have hb : order[m % order.length]? = some b.generator :=
    h.generator_of_turn (d := d + 1) hd (by rw [List.length_cons]; omega)
  have hheader := h.turn_eq
  rw [← hm] at hheader
  rw [← getElem?_mod_eq_iff nodup h.length_pos, hb, hheader, Option.some.injEq]

/-- In the next turns of the round other generators follow. -/
theorem turn_ne (hd : d + 1 < order.length) :
    order[(past.length + (d + 1)) % order.length]? ≠ some header.generator := by
  intro hagain
  have hdvd := (getElem?_mod_eq_iff nodup h.length_pos).mp (h.turn_eq.trans hagain.symm)
  exact Nat.not_dvd_of_pos_of_lt (Nat.succ_pos d) hd hdvd

/-- The block before is the one a round below. -/
theorem find?_own :
    (past.find? fun b => b.generator = header.generator) = past[order.length - 1]? := by
  have hpos := h.length_pos
  cases hround : past[order.length - 1]? with
  | none =>
    rw [List.getElem?_eq_none_iff] at hround
    rw [List.find?_eq_none]
    intro b hb own
    obtain ⟨d, hd⟩ := List.getElem?_of_mem hb
    have hlt : d < past.length := (List.getElem?_eq_some_iff.mp hd).1
    have hle := Nat.le_of_dvd (Nat.succ_pos d) ((h.own_iff nodup hd).mp (of_decide_eq_true own))
    omega
  | some b =>
    obtain ⟨hlt, hb⟩ := List.getElem?_eq_some_iff.mp hround
    rw [List.find?_eq_some_iff_getElem]
    refine ⟨decide_eq_true ((h.own_iff nodup hround).mpr ?_), order.length - 1, hlt, hb, ?_⟩
    · rw [Nat.sub_add_cancel hpos]
    · intro j hj
      have hother : ¬ past[j].generator = header.generator := by
        rw [h.own_iff nodup (List.getElem?_eq_getElem (by omega))]
        exact Nat.not_dvd_of_pos_of_lt (Nat.succ_pos j) (by omega)
      simpa using hother

/-- A block reports less than a height above the genesis block exactly if that is above the block
of the round before. -/
theorem reported_lt_iff {k : Height} (hk : start < k) :
    header.maxHeightGenerated < k ↔
      start.toNat + (past.length + 1 - order.length) < k.toNat := by
  have hfind := h.find?_own nodup
  have hpos := h.length_pos
  cases h with
  | cons rest height turn reported =>
    rw [hfind] at reported
    rw [Height.lt_iff] at hk ⊢
    cases hround : past[order.length - 1]? with
    | none =>
      rw [hround] at reported
      have hle : header.maxHeightGenerated.toNat ≤ start.toNat := reported
      rw [List.getElem?_eq_none_iff] at hround
      omega
    | some prior =>
      rw [hround] at reported
      have hheight := rest.height_add hround
      have hlt := (List.getElem?_eq_some_iff.mp hround).1
      rw [show header.maxHeightGenerated = prior.height from reported]
      omega

end Newest

/-- The newest block is above all others. -/
theorem lt_newest (h : TakesTurns start order (header :: past)) (hb : b ∈ past) :
    b.height < header.height := by
  obtain ⟨d, hd⟩ := List.getElem?_of_mem hb
  have hold := h.height_add (d := d + 1) hd
  have hnew := h.height_add (d := 0) rfl
  rw [Height.lt_iff]
  omega

/-- A block reports less than its own height, and no height of another generator. -/
theorem reported_own (h : TakesTurns start order blocks) (hb : b ∈ blocks) :
    b.maxHeightGenerated < b.height ∧
      ∀ x ∈ blocks, x.height = b.maxHeightGenerated → x.generator = b.generator := by
  induction h with
  | nil => exact absurd hb List.not_mem_nil
  | @cons past header rest height turn reported ih =>
    have hall : TakesTurns start order (header :: past) := .cons rest height turn reported
    rcases List.mem_cons.mp hb with rfl | hold
    · cases hprior : past.find? fun x => x.generator = b.generator with
      | none =>
        rw [hprior] at reported
        refine ⟨Nat.lt_of_le_of_lt reported (hall.start_lt hb), fun x hx hreported => ?_⟩
        have habove := hall.start_lt hx
        rw [hreported] at habove
        exact absurd reported (Height.not_le.mpr habove)
      | some prior =>
        rw [hprior] at reported
        have hmem : prior ∈ past := List.mem_of_find?_eq_some hprior
        refine ⟨?_, fun x hx hreported => ?_⟩
        · rw [show b.maxHeightGenerated = prior.height from reported]
          exact hall.lt_newest hmem
        · rw [hall.eq_of_height hx (List.mem_cons_of_mem b hmem) (hreported.trans reported)]
          simpa using List.find?_some hprior
    · obtain ⟨hlt, hown⟩ := ih hold
      refine ⟨hlt, fun x hx hreported => ?_⟩
      rcases List.mem_cons.mp hx with rfl | hx
      · have hloop := Nat.lt_trans hlt (hall.lt_newest hold)
        rw [← hreported] at hloop
        exact absurd hloop (Nat.lt_irrefl _)
      · exact hown x hx hreported

end TakesTurns

namespace Ledger

variable {l : Ledger} {newest : BlockVotes}

/-- A walk along blocks that report blocks of their own generator only leads out of the window. -/
theorem eq_below_of_walkBack? (hw : Consecutive l.window) (hnewest : l.newest? = some newest)
    (hown : ∀ b ∈ l.window, b.maxHeightGenerated < b.height ∧
      ∀ x ∈ l.window, x.height = b.maxHeightGenerated → x.generator = b.generator)
    {steps : Nat} {reported found : Height} (h : l.walkBack? newest steps reported = some found)
    {b : BlockVotes} (hb : b ∈ l.window) (own : b.generator = newest.generator)
    (hreported : b.maxHeightGenerated = reported) :
    found = newest.height.below l.window.length := by
  induction steps generalizing reported b with
  | zero => contradiction
  | succ steps ih =>
    obtain ⟨hlt, hprior⟩ := hown b hb
    have hle : reported ≤ newest.height := by
      rw [← hreported]
      exact Nat.le_of_lt (Nat.lt_of_lt_of_le hlt (hw.height_le_of_newest hnewest hb))
    rw [walkBack?, if_pos hle, Height.gap?_eq_some.mpr (by rw [Height.le_iff] at hle; omega :
      newest.height.toNat = reported.toNat + (newest.height.toNat - reported.toNat)),
      Option.bind_eq_bind, Option.bind_some] at h
    split at h
    case isFalse hout =>
      rw [← Option.some.inj h, belowWindow]
      apply Height.ext
      rw [Height.toNat_max, Height.toNat_below]
      rw [Height.le_iff] at hle
      omega
    case isTrue hin =>
      rw [List.getElem?_eq_getElem hin, Option.bind_eq_bind, Option.bind_some] at h
      have hx : l.window[newest.height.toNat - reported.toNat] ∈ l.window := List.getElem_mem hin
      have hheight : l.window[newest.height.toNat - reported.toNat].height = reported := by
        have hoffset := hw.height_eq_of_newest hnewest (List.getElem?_eq_getElem hin)
        rw [Height.le_iff] at hle
        apply Height.ext
        omega
      have hxown := (hprior _ hx (hheight.trans hreported.symm)).trans own
      have hgoes := (hown _ hx).1
      rw [hheight] at hgoes
      rw [if_neg (not_or.mpr ⟨not_not.mpr hxown, Height.not_le.mpr hgoes⟩)] at h
      exact ih h hx hxown rfl

/-- Whoever reports its own blocks only has prevoted for all that is retained. -/
theorem notPrevoted?_eq_below (hw : Consecutive l.window) (hnewest : l.newest? = some newest)
    (hown : ∀ b ∈ l.window, b.maxHeightGenerated < b.height ∧
      ∀ x ∈ l.window, x.height = b.maxHeightGenerated → x.generator = b.generator) :
    l.notPrevoted? = some (newest.height.below l.window.length) := by
  obtain ⟨found, hfound⟩ := l.exists_notPrevoted?
  have hwalk := hfound
  rw [notPrevoted?, hnewest] at hwalk
  rw [hfound, eq_below_of_walkBack? hw hnewest hown hwalk (List.mem_of_head? hnewest) rfl rfl]

end Ledger

end ImpliedFinality
