import ImpliedFinality.Proofs.Coverage

/-!
# What a header that contradicts no retained block reports

A header reports the greatest height at which its generator made a block before. If it contradicts
no retained block, then none of its generator's blocks is above the reported height: such a block
would have to report the new header's height. So the reported height is that of the generator's
greatest retained block if the block there is the generator's at all, which is what is asked of a
header that prevotes for all it may.
-/

namespace ImpliedFinality

namespace Ledger

variable {l : Ledger} {header : Header} {newest oldest b : BlockVotes} {k : Height} {offset : Nat}

/-- All retained heights of a generator. -/
def Generated (l : Ledger) (generator : Address) (k : Height) : Prop :=
  ∃ b ∈ l.window, b.generator = generator ∧ b.height = k

/-- The retained blocks of the generator are not above the height that a header reports. -/
theorem height_le_reported (hw : Consecutive l.window) (hnewest : l.newest? = some newest)
    (hnext : header.height.toNat = newest.height.toNat + 1)
    (agrees : l.contradictedBy header = false) (hb : b ∈ l.window)
    (own : b.generator = header.generator) (hle : b.maxHeightGenerated ≤ b.height) :
    b.height ≤ header.maxHeightGenerated := by
  have hagrees : b.contradicts (.ofHeader header) = false :=
    contradictedBy_eq_false.mp agrees b hb
  rcases BlockVotes.ordered_of_not_contradicts own hagrees with ⟨hreported, -⟩ | ⟨habove, -⟩
  · exact hreported
  · -- the block would report the header, which is above all blocks
    have hloop : header.height.toNat < header.height.toNat :=
      calc
        header.height.toNat ≤ b.maxHeightGenerated.toNat := habove
        _ ≤ b.height.toNat := hle
        _ ≤ newest.height.toNat := hw.height_le_of_newest hnewest hb
        _ < header.height.toNat := by omega
    exact absurd hloop (Nat.lt_irrefl _)

/-- A header that follows is asked for the generator of the block that it reports. -/
theorem impliesMaximalPrevotes_eq (hnewest : l.newest? = some newest)
    (hnext : header.height.toNat = newest.height.toNat + 1)
    (hoffset : newest.height.toNat = header.maxHeightGenerated.toNat + offset) :
    l.impliesMaximalPrevotes header =
      .ok (l.window[offset]?.all fun b => b.generator = header.generator) := by
  have hfollows : l.checkFollows header = .ok () := by
    rw [checkFollows_eq_ok, hnewest]
    rintro _ ⟨⟩
    exact hnext
  have hless : ¬ header.height ≤ header.maxHeightGenerated := by
    rw [Height.le_iff]
    omega
  have hat : (header.height.sub? 1).bind (fun h => h.gap? header.maxHeightGenerated) =
      some offset := by
    rw [Height.sub?_eq_some.mpr hnext, Option.bind_some, Height.gap?_eq_some.mpr hoffset]
  rw [impliesMaximalPrevotes, hfollows]
  simp only [bind, Except.bind, if_neg hless, hat]
  cases l.window[offset]? with
  | none => rfl
  | some block => rfl

/-- Every height between the oldest and the newest block is that of a block, at the distance from
the newest one. -/
theorem exists_getElem? (hw : Consecutive l.window) (hnewest : l.newest? = some newest)
    (holdest : l.window.getLast? = some oldest) (hle : oldest.height ≤ k)
    (hoffset : newest.height.toNat = k.toNat + offset) :
    ∃ b, l.window[offset]? = some b ∧ b.height = k := by
  rw [List.getLast?_eq_getElem?] at holdest
  have hlowest := hw.height_eq_of_newest hnewest holdest
  rw [Height.le_iff] at hle
  have hpos : 0 < l.window.length := List.length_pos_of_mem (List.mem_of_head? hnewest)
  have hlt : offset < l.window.length := by omega
  refine ⟨l.window[offset], List.getElem?_eq_getElem hlt, ?_⟩
  have hheight := hw.height_eq_of_newest hnewest (List.getElem?_eq_getElem hlt)
  apply Height.ext
  omega

/-- If a header reports a retained height, it prevotes for all it may exactly if this is the
greatest retained height of its generator. If it reports a height below the window, it always does,
and no retained block is its generator's. -/
theorem impliesMaximalPrevotes_iff_isGreatest (l : Ledger) (header : Header)
    (newest oldest : BlockVotes) (hw : Consecutive l.window) (hnewest : l.newest? = some newest)
    (holdest : l.window.getLast? = some oldest)
    (reports : ∀ b ∈ l.window, b.generator = header.generator → b.maxHeightGenerated ≤ b.height)
    (hnext : header.height.toNat = newest.height.toNat + 1)
    (hless : header.maxHeightGenerated < header.height)
    (agrees : l.contradictedBy header = false) :
    (oldest.height ≤ header.maxHeightGenerated →
      ∃ answer, l.impliesMaximalPrevotes header = .ok answer ∧
        (answer = true ↔
          IsGreatest {k | l.Generated header.generator k} header.maxHeightGenerated)) ∧
    (header.maxHeightGenerated < oldest.height →
      l.impliesMaximalPrevotes header = .ok true ∧
        ∀ b ∈ l.window, b.generator ≠ header.generator) := by
  have hbelow : ∀ b ∈ l.window, b.generator = header.generator →
      b.height ≤ header.maxHeightGenerated := fun b hb own =>
    height_le_reported hw hnewest hnext agrees hb own (reports b hb own)
  obtain ⟨offset, hoffset⟩ :
      ∃ offset, newest.height.toNat = header.maxHeightGenerated.toNat + offset := by
    rw [Height.lt_iff] at hless
    exact Nat.exists_eq_add_of_le (by omega)
  rw [impliesMaximalPrevotes_eq hnewest hnext hoffset]
  constructor
  · intro within
    obtain ⟨block, hblock, hheight⟩ := exists_getElem? hw hnewest holdest within hoffset
    have hmem : block ∈ l.window := List.mem_of_getElem? hblock
    refine ⟨_, rfl, ?_⟩
    rw [hblock, Option.all_some, decide_eq_true_eq]
    constructor
    · intro own
      refine ⟨⟨block, hmem, own, hheight⟩, ?_⟩
      rintro k ⟨b, hb, hown, rfl⟩
      exact hbelow b hb hown
    · rintro ⟨⟨b, hb, hown, hreported⟩, -⟩
      rwa [hw.eq_of_height hmem hb (hheight.trans hreported.symm)]
  · intro below
    constructor
    · cases hblock : l.window[offset]? with
      | none => rfl
      | some block =>
        have hheight := hw.height_eq_of_newest hnewest hblock
        have hle := hw.getLast_le holdest (List.mem_of_getElem? hblock)
        rw [Height.le_iff] at hle
        rw [Height.lt_iff] at below
        omega
    · intro b hb own
      exact Height.not_le.mpr below (Nat.le_trans (hw.getLast_le holdest hb) (hbelow b hb own))

open Quartet (handedBack consecutive_handedBack) in
/-- The third generator reports its only retained block, at height 6. -/
theorem impliesMaximalPrevotes_iff_isGreatest_handedBack :
    handedBack.impliesMaximalPrevotes (Quartet.block 10 6 3) = .ok true ∧
      IsGreatest {k | handedBack.Generated (Quartet.address 3) k} (Solo.height 6) := by
  have hanswer : handedBack.impliesMaximalPrevotes (Quartet.block 10 6 3) = .ok true := by
    decide +kernel
  obtain ⟨answer, hanswer', hiff⟩ := (impliesMaximalPrevotes_iff_isGreatest handedBack
    (Quartet.block 10 6 3) (.ofHeader (Quartet.block 9 7 1)) (.ofHeader (Quartet.block 5 0 2))
    consecutive_handedBack rfl rfl (by decide +kernel) rfl (by decide) (by decide +kernel)).1
    (by decide)
  cases hanswer.symm.trans hanswer'
  exact ⟨hanswer, hiff.mp rfl⟩

end Ledger

end ImpliedFinality
