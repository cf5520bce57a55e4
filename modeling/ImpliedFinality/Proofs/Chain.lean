import ImpliedFinality.Proofs.Electorate
import ImpliedFinality.Proofs.Rounds

/-!
# The chain behind the window

The headers that a run takes in make up a chain. The window lists the newest of them and adds
nothing but votes, whatever was proposed, refused or dropped in between. So a header is taken in
only if it is one above the newest one, and then little can stand in its way: parameters that are
missing at a height which the ledger looks at, or one of the ends of the range of heights.
-/

namespace ImpliedFinality

namespace Gadget

/-- The headers that a list of requests makes part of the chain, newest first. -/
def chain (g : Gadget) : List Request → List Header
  | [] => []
  | r :: rest => (g.step r).1.chain rest ++ (g.taken? r).toList

theorem chain_append (g : Gadget) (first second : List Request) :
    g.chain (first ++ second) = (g.run first).1.chain second ++ g.chain first := by
  induction first generalizing g with
  | nil => rw [List.nil_append, chain, List.append_nil, run]
  | cons r rest ih => rw [List.cons_append, chain, chain, ih, run, List.append_assoc]

end Gadget

theorem Chronicle.headers_after (past : Chronicle) (batchSize : Nat) (s : Core)
    (taken : Option Header) :
    (past.after batchSize s taken).headers = taken.toList ++ past.headers := by
  cases taken with
  | none => rfl
  | some header => rfl

/-- The chronicle of a run keeps the whole chain. -/
theorem Gadget.Shows.headers_recordAll {g : Gadget} {s : Core} (h : g.Shows s) (past : Chronicle)
    (requests : List Request) :
    (g.recordAll past requests).headers = g.chain requests ++ past.headers := by
  induction requests generalizing g s past with
  | nil => rfl
  | cons r rest ih =>
    obtain ⟨s', hs', -⟩ := h.step r
    rw [recordAll, ih hs', h.record, Chronicle.headers_after, chain, List.append_assoc]

/-- A request keeps the newest blocks of the chain in the window. -/
theorem Core.Step.retains {batchSize : Nat} {s next : Core} {past : Chronicle} {r : Request}
    {taken : Option Header} (hstep : Step batchSize s r taken next)
    (hw : Consecutive s.ledger.window)
    (h : Retains (3 * batchSize) past.headers s.ledger.window) :
    Retains (3 * batchSize) (past.after batchSize s taken).headers next.ledger.window := by
  cases hstep with
  | unchanged => exact h
  | parametersSet accepted starts => exact h
  | blockTaken follows processed =>
    rw [(Ledger.takes_of_process hw follows processed).window]
    exact h.append.map fun b => Ledger.bare_counted _ _ _ b

/-! ## What stands in the way of a block -/

namespace Ledger

variable {l : Ledger} {header : Header}

/-- The headers that a ledger expects: any one at first, and then those one above the newest
block. -/
def Expects (l : Ledger) (header : Header) : Prop :=
  l.window = [] ∨
    ∃ newest, l.newest? = some newest ∧ header.height.toNat = newest.height.toNat + 1

theorem checkFollows_eq_ok_iff : l.checkFollows header = .ok () ↔ l.Expects header := by
  rw [checkFollows_eq_ok, Expects, ← List.head?_eq_none_iff, ← newest?]
  cases l.newest? with
  | none => simp
  | some newest => simp

end Ledger

namespace Gadget

/-- What keeps a gadget from taking in a header that its ledger expects. -/
inductive Obstructed (g : Gadget) (l : Ledger) (header : Header) : Prop
  /-- Parameters are missing at a height that the ledger looks at. -/
  | parametersMissing {k : Height} (needed : l.LooksAt header k)
      (missing : g.parameters k = .error (.parametersNotFound k))
      (answer : (g.processBlock header).answer = .error (.parametersNotFound k))
  /-- A voter reports the greatest height of all, and there is none above to prevote from. -/
  | nothingAbove (retains : 0 < g.config.batchSize) (reported : header.maxHeightGenerated = .top)
      (votes : header.generator ∈ l.electorate)
      (answer : (g.processBlock header).answer = .error .heightOutOfRange)
  /-- The window has a block at every height below the greatest one, and has to retain them all. -/
  | windowFull {e : StoreError} (last : header.height = .top)
      (full : l.window.length = Height.top.toNat)
      (retains : Height.top.toNat < 3 * g.config.batchSize)
      (answer : (g.processBlock header).answer = .error (.store e))

/-- What a header of the right height needs in order to be taken in. -/
structure Unobstructed (g : Gadget) (l : Ledger) (header : Header) : Prop where
  /-- Parameters apply at all heights that the ledger may look at. -/
  parameters : ∀ k, l.LooksAt header k → ∃ p, g.parameters k = .ok p
  /-- There is a height above the one that the generator reports. -/
  reported : header.maxHeightGenerated < .top
  /-- The window has room for one more block, or drops blocks before it is full. -/
  room : l.window.length < Height.top.toNat ∨ 3 * g.config.batchSize ≤ Height.top.toNat

variable {g : Gadget} {s : Core} {l : Ledger} {header : Header}

theorem Unobstructed.not_obstructed (h : g.Unobstructed l header) : ¬ g.Obstructed l header := by
  intro hobstructed
  cases hobstructed with
  | @parametersMissing k needed missing answer =>
    obtain ⟨p, hp⟩ := h.parameters k needed
    rw [hp] at missing
    contradiction
  | nothingAbove retains reported votes answer =>
    exact Nat.lt_irrefl _ (reported ▸ h.reported)
  | windowFull last full retains answer =>
    rcases h.room with hroom | hdrops
    · exact Nat.lt_irrefl _ (full ▸ hroom)
    · exact Nat.lt_irrefl _ (Nat.lt_of_lt_of_le retains hdrops)

theorem Obstructed.isOk_eq_false (h : g.Obstructed l header) :
    (g.processBlock header).answer.isOk = false := by
  cases h with
  | parametersMissing _ _ answer => rw [answer]; rfl
  | nothingAbove _ _ _ answer => rw [answer]; rfl
  | windowFull _ _ _ answer => rw [answer]; rfl

/-- A header that is taken in is one that the ledger expects. -/
theorem Shows.expects_of_taken (h : g.Shows s)
    (taken : (g.processBlock header).answer.isOk = true) : s.ledger.Expects header := by
  obtain ⟨c, hc, hledger, -⟩ := h
  rcases processBlock_cases hc hledger header with ⟨e, he⟩ | ⟨_, _, follows, -⟩
  · rw [he] at taken
    contradiction
  · exact Ledger.checkFollows_eq_ok_iff.mp follows

/-- A header that the ledger expects is taken in, or something stands in its way. -/
theorem Shows.taken_or_obstructed (h : g.Shows s) (hs : s.Sound g.config.batchSize)
    (expected : s.ledger.Expects header) :
    (g.processBlock header).answer.isOk = true ∨ g.Obstructed s.ledger header := by
  have hschedule := h.schedule
  obtain ⟨c, hc, hledger, hparameters⟩ := h
  have follows := Ledger.checkFollows_eq_ok_iff.mpr expected
  cases processed : s.ledger.process c.parameters.timeline header (3 * g.config.batchSize) with
  | error e =>
    right
    have hanswer : (g.processBlock header).answer = .error e := by
      rw [processBlock, hc.planBlock hledger, follows, processed]
      rfl
    rcases Ledger.process_eq_error hs.ordered hs.consecutive follows processed with
      ⟨k, hk, hnone, rfl⟩ | ⟨hpos, hreported, hvoter, rfl⟩
    · refine .parametersMissing hk ?_ hanswer
      rw [hparameters] at hnone
      rw [Gadget.parameters, hschedule]
      show s.schedule.timeline.require k = _
      rw [Timeline.require, hnone]
    · exact .nothingAbove (Nat.pos_of_mul_pos_left hpos) hreported hvoter hanswer
  | ok next =>
    rcases processBlock_of_process hc hledger hs.consecutive follows processed with
      hok | ⟨hlast, hfull, hlimit, e, hanswer⟩
    · exact .inl hok
    · exact .inr (.windowFull hlast hfull hlimit hanswer)

/-- Nothing is above a block at the greatest height. -/
theorem Shows.processBlock_top (h : g.Shows s) {newest : BlockVotes}
    (hnewest : s.ledger.newest? = some newest) (htop : newest.height = .top) :
    (g.processBlock header).answer = .error (.unexpectedHeight header.height .top) := by
  obtain ⟨c, hc, hledger, -⟩ := h
  have hsucc : newest.height.succ? = none := Height.succ?_eq_none.mpr htop
  have hrefused : s.ledger.checkFollows header = .error (.unexpectedHeight header.height .top) := by
    simp only [Ledger.checkFollows, hnewest, hsucc]
    rw [htop]
  rw [processBlock, hc.planBlock hledger, hrefused]
  rfl

/-- After every run the window lists the newest `3 * batchSize` headers of the chain with nothing
but votes added, and heights go down by one from block to block. A header is taken in exactly if
the ledger expects it and nothing else stands in its way. Above a block at the greatest height none
is. -/
theorem window_follows_chain (config : GadgetConfig) (height : Height) (requests : List Request) :
    let g := ((genesis config height).run requests).1
    let chain := (genesis config height).chain requests
    ∃ l, g.store.ledger = .ok l ∧
      l.window.map BlockVotes.bare
        = (chain.take (3 * config.batchSize)).map BlockVotes.ofHeader ∧
      (∀ i newest b, l.newest? = some newest → l.window[i]? = some b →
        newest.height.toNat = b.height.toNat + i) ∧
      ∀ header : Header,
        ((g.processBlock header).answer.isOk = true ↔
          l.Expects header ∧ ¬ g.Obstructed l header) ∧
        (∀ newest, l.newest? = some newest → newest.height = .top →
          (g.processBlock header).answer = .error (.unexpectedHeight header.height .top)) := by
  intro g chain
  have hobeys : (genesis config height).Obeys (fun _ _ => True) requests :=
    .of_forall fun _ _ => trivial
  obtain ⟨s, hshows, hconfig, hsound, hretains⟩ := hobeys.run_induction
    (P := fun s past => s.Sound config.batchSize ∧
      Retains (3 * config.batchSize) past.headers s.ledger.window)
    (fun _ _ hstep h => ⟨h.1.step hstep, hstep.retains h.1.consecutive h.2⟩) .empty
    (shows_genesis config height) rfl
    ⟨Core.sound_genesis _ height, .nil _⟩
  rw [(shows_genesis config height).headers_recordAll, Chronicle.empty, List.append_nil] at hretains
  have hsound' : s.Sound g.config.batchSize := by
    rw [hconfig]
    exact hsound
  refine ⟨s.ledger, hshows.ledger, hretains, ?_, fun header => ⟨⟨fun hok => ?_, ?_⟩, ?_⟩⟩
  · exact fun i newest b hnewest hb => hsound.consecutive.height_eq_of_newest hnewest hb
  · refine ⟨hshows.expects_of_taken hok, fun hobstructed => ?_⟩
    rw [hobstructed.isOk_eq_false] at hok
    contradiction
  · rintro ⟨hexpects, hfree⟩
    exact (hshows.taken_or_obstructed hsound' hexpects).resolve_right hfree
  · exact fun newest hnewest htop => hshows.processBlock_top hnewest htop

/-- Wherever a run leads to, a header that the ledger expects is taken in if parameters apply at all
heights that the ledger may look at, its generator reports a height with one above, and the window
has room. -/
theorem taken_of_unobstructed (config : GadgetConfig) (height : Height) (requests : List Request)
    {l : Ledger} {header : Header}
    (ledger : ((genesis config height).run requests).1.store.ledger = .ok l)
    (expected : l.Expects header)
    (free : ((genesis config height).run requests).1.Unobstructed l header) :
    (((genesis config height).run requests).1.processBlock header).answer.isOk = true := by
  obtain ⟨s, hshows, hconfig, hsound⟩ := exists_sound config height requests
  obtain rfl : l = s.ledger := Except.ok.inj (ledger.symm.trans hshows.ledger)
  rw [← hconfig] at hsound
  exact (hshows.taken_or_obstructed hsound expected).resolve_right free.not_obstructed

end Gadget

end ImpliedFinality
