import ImpliedFinality.History
import ImpliedFinality.Proofs.Chain

/-!
# Commits of certified blocks

The certified height rises to that of a commit whose signers reach the certificate threshold, and
no commit at or below it is looked at again. But the history keeps one commit a height, the last
one that is not empty, whoever signed it. So a certified block keeps the commit that certified it
only as long as no later header carries another commit for the same height.
-/

namespace ImpliedFinality

/-- Whether a header carries a commit for a height. -/
def Header.carries (header : Header) (k : Height) : Bool :=
  !header.commit.isEmpty && header.commit.height = k

/-! ## The history of a chain -/

namespace History

/-- The history of a chain that is listed newest first. -/
def ofChain (chain : List Header) : History :=
  chain.foldr (fun header history => history.insertHeader header) .empty

theorem get?_commits_insertHeader (history : History) (header : Header) (k : Height) :
    (history.insertHeader header).commits.get? k =
      if header.carries k then some header.commit else history.commits.get? k := by
  unfold insertHeader Header.carries
  cases header.commit.isEmpty with
  | true => rfl
  | false =>
    show (history.commits.insert header.commit.height header.commit).get? k = _
    rw [Table.get?_insert_ite]
    simp

/-- The commit that is kept for a height is that of the newest header which carries one. -/
theorem get?_commits_ofChain (chain : List Header) (k : Height) :
    (ofChain chain).commits.get? k
      = (chain.find? fun header => header.carries k).map Header.commit := by
  induction chain with
  | nil => rfl
  | cons header rest ih =>
    rw [ofChain, List.foldr_cons, ← ofChain, get?_commits_insertHeader, ih, List.find?_cons]
    cases header.carries k with
    | true => rfl
    | false => rfl

end History

/-! ## How the certified height rises -/

namespace Ledger

variable {l next : Ledger} {schedule : Timeline Parameters} {header : Header} {limit : Nat}

/-- A block raises the certified height only by its own commit. -/
theorem certifies_of_process (hw : Consecutive l.window) (follows : l.checkFollows header = .ok ())
    (h : l.process schedule header limit = .ok next)
    (rises : l.watermarks.certified < next.watermarks.certified) :
    header.commit.isEmpty = false ∧ next.watermarks.certified = header.commit.height ∧
      ∃ p, schedule.effective? header.commit.height = some p ∧ header.commit.Certifies p := by
  rcases certified_of_process hw follows h with ⟨advances, hheight⟩ | ⟨-, hsame⟩
  · exact ⟨advances.reports, hheight, advances.certifies⟩
  · rw [hsame] at rises
    exact absurd rises (Nat.lt_irrefl _)

end Ledger

namespace Gadget

variable {g : Gadget} {s : Core} {header : Header} {w w' : Watermarks}

/-- A header that raises the certified height is taken in, and its commit certifies. -/
theorem Shows.certifies (h : g.Shows s) (hs : s.Sound g.config.batchSize)
    (found : g.watermarks = .ok w)
    (raised : (g.step (.processBlock header)).1.watermarks = .ok w')
    (rises : w.certified < w'.certified) :
    g.taken? (.processBlock header) = some header ∧ header.carries w'.certified = true ∧
      ∃ p, g.parameters w'.certified = .ok p ∧ header.commit.Certifies p := by
  obtain ⟨s', hs', hstep⟩ := h.step (.processBlock header)
  rw [h.watermarks, Except.ok.injEq] at found
  rw [hs'.watermarks, Except.ok.injEq] at raised
  subst found raised
  generalize g.taken? (.processBlock header) = taken at hstep ⊢
  cases hstep with
  | unchanged => exact absurd rises (Nat.lt_irrefl _)
  | blockTaken follows processed =>
    obtain ⟨hcommit, hheight, p, hp, hcertifies⟩ :=
      Ledger.certifies_of_process hs.consecutive follows processed rises
    refine ⟨rfl, ?_, p, ?_, hcertifies⟩
    · rw [Header.carries, hcommit, hheight]
      simp
    · rw [h.parameters_eq_ok, hheight]
      exact hp

/-- A header that raises the certified height does so by a commit that certifies the block there.
The history of the whole run has the commit of the newest header which carries one for that height.
So what it has for the certified block certifies it exactly if the newest of the later commits for
it does, or there are none. -/
theorem cached_commit_certifies_iff (config : GadgetConfig) (height : Height)
    (before after : List Request) (header : Header) (w w' : Watermarks)
    (found : ((genesis config height).run before).1.watermarks = .ok w)
    (raised : (((genesis config height).run before).1.step (.processBlock header)).1.watermarks
      = .ok w')
    (rises : w.certified < w'.certified) :
    let g := ((genesis config height).run before).1
    let later := (g.step (.processBlock header)).1.chain after
    let history := History.ofChain
      ((genesis config height).chain (before ++ .processBlock header :: after))
    ∃ p commit, g.parameters w'.certified = .ok p ∧
      header.commit.height = w'.certified ∧ header.commit.Certifies p ∧
      history.view.commit? w'.certified = some commit ∧
      commit = ((later.find? fun other => other.carries w'.certified).getD header).commit ∧
      (commit.Certifies p ↔ ∀ other,
        later.find? (fun other => other.carries w'.certified) = some other →
          other.commit.Certifies p) := by
  intro g later history
  obtain ⟨s, hshows, hconfig, hsound⟩ := exists_sound config height before
  rw [← hconfig] at hsound
  obtain ⟨htaken, hcarries, p, hp, hcertifies⟩ := hshows.certifies hsound found raised rises
  have hkept : history.view.commit? w'.certified
      = some ((later.find? fun other => other.carries w'.certified).getD header).commit := by
    show (History.ofChain _).commits.get? _ = _
    rw [History.get?_commits_ofChain, chain_append, chain, htaken, List.append_assoc,
      List.find?_append]
    show ((later.find? _).or (List.find? _ (header :: _))).map Header.commit = _
    rw [List.find?_cons_of_pos (by simpa using hcarries)]
    cases later.find? fun other => other.carries w'.certified with
    | none => rfl
    | some other => rfl
  refine ⟨p, _, hp, ?_, hcertifies, hkept, rfl, ?_⟩
  · simpa using (Bool.and_eq_true_iff.mp hcarries).2
  · cases later.find? fun other => other.carries w'.certified with
    | none =>
      refine iff_of_true hcertifies fun other hother => ?_
      contradiction
    | some other =>
      refine ⟨fun hother x hx => ?_, fun hall => hall other rfl⟩
      rw [← Option.some.inj hx]
      exact hother

end Gadget

namespace Solo

/-- A block with a commit for the first one that nobody signed. -/
def unsigned : Header :=
  { confirming 3 with commit := ⟨height 1, .empty, ⟨[1]⟩⟩ }

end Solo

namespace Gadget

/-- The second block certifies the first one. Then the commit of the third one takes the place of
that of the second. -/
theorem cached_commit_certifies_iff_unsigned :
    let before := [.setParameters Solo.proposal, .processBlock (Solo.confirming 1)]
    let g := ((genesis Solo.config .zero).run before).1
    let history := History.ofChain ((genesis Solo.config .zero).chain
      (before ++ .processBlock (Solo.confirming 2) :: [.processBlock Solo.unsigned]))
    ∃ p, g.parameters (Solo.height 1) = .ok p ∧ (Solo.confirming 2).commit.Certifies p ∧
      history.view.commit? (Solo.height 1) = some Solo.unsigned.commit := by
  intro before g history
  have hlater : ((g.step (.processBlock (Solo.confirming 2))).1.chain
      [.processBlock Solo.unsigned]).find? (fun other => other.carries (Solo.height 1))
        = some Solo.unsigned := by decide +kernel
  obtain ⟨p, commit, hp, -, hcertifies, hkept, hcommit, -⟩ := cached_commit_certifies_iff
    Solo.config .zero before [.processBlock Solo.unsigned] (Solo.confirming 2)
    ⟨Solo.height 1, .zero, .zero⟩ ⟨Solo.height 2, Solo.height 1, Solo.height 1⟩ (by decide +kernel)
    (by decide +kernel) (by decide)
  rw [hcommit, hlater] at hkept
  exact ⟨p, hp, hcertifies, hkept⟩

/-- So a certified block may be left with a commit that does not certify it. -/
theorem cached_commit_replaced :
    let before := [.setParameters Solo.proposal, .processBlock (Solo.confirming 1)]
    let requests := before ++ [.processBlock (Solo.confirming 2), .processBlock Solo.unsigned]
    let g := ((genesis Solo.config .zero).run before).1
    let chain := (genesis Solo.config .zero).chain requests
    g.watermarks.map Watermarks.certified = .ok .zero ∧
      (g.step (.processBlock (Solo.confirming 2))).1.watermarks.map Watermarks.certified
        = .ok (Solo.height 1) ∧
      chain = [Solo.unsigned, Solo.confirming 2, Solo.confirming 1] ∧
      ∃ p commit, g.parameters (Solo.height 1) = .ok p ∧
        (History.ofChain chain).view.commit? (Solo.height 1) = some commit ∧
        ¬ commit.Certifies p := by
  intro before requests g chain
  refine ⟨by decide +kernel, by decide +kernel, by decide +kernel, Solo.proposal.outcome,
    Solo.unsigned.commit, ?_, ?_, ?_⟩
  · decide +kernel
  · decide +kernel
  · decide +kernel

end Gadget

end ImpliedFinality
