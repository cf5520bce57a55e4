import Mathlib.Data.Finset.Dedup
import Mathlib.Data.Finset.Insert
import Mathlib.Data.Finset.SDiff
import ImpliedFinality.Proofs.Chain

/-!
# What the events tell

Somebody who hears every event of a gadget can keep an account of it: the heights that have
parameters, the watermarks, and the blocks of the chain. A request that does nothing has no events,
and the events of another one change the account just as the request changes the core. So after
every run the account is right.
-/

namespace ImpliedFinality

namespace Table

variable {κ α : Type} [Ord κ] [Std.TransOrd κ] [Std.LawfulEqOrd κ] [DecidableEq κ]

theorem toFinset_keys_insert (t : Table κ α) (k : κ) (v : α) :
    (t.insert k v).keys.toFinset = Insert.insert k t.keys.toFinset := by
  ext j
  rw [Finset.mem_insert, List.mem_toFinset, List.mem_toFinset, mem_keys, mem_keys,
    get?_insert_ite]
  by_cases hkj : k = j
  · simp [hkj]
  · simp [hkj, Ne.symm hkj]

theorem toFinset_keys_eraseAll (t : Table κ α) (keys : List κ) :
    (t.eraseAll keys).keys.toFinset = t.keys.toFinset \ keys.toFinset := by
  ext j
  rw [Finset.mem_sdiff, List.mem_toFinset, List.mem_toFinset, List.mem_toFinset, mem_keys,
    mem_keys, get?_eraseAll]
  by_cases hj : j ∈ keys <;> simp [hj]

end Table

/-- What a listener knows of a gadget: the heights that have parameters, the watermarks, and the
height and the generator of each block of the chain, the newest one first. -/
@[ext] structure Account where
  keys : Finset Height
  watermarks : Watermarks
  blocks : List (Height × Address)

namespace Account

/-- What is known of a gadget over an empty store before it has any events. -/
def genesis (height : Height) : Account := ⟨∅, ⟨height, height, height⟩, []⟩

/-- What is known after one more event. -/
def hear (known : Account) : GadgetEvent → Account
  | .parametersSet height _ _ _ _ => { known with keys := insert height known.keys }
  | .blockProcessed height generator =>
    { known with blocks := (height, generator) :: known.blocks }
  | .watermarksRaised watermarks => { known with watermarks }
  | .parametersPruned heights => { known with keys := known.keys \ heights.toFinset }
  | .snapshotsPruned _ => known

def hearAll (known : Account) (events : List GadgetEvent) : Account := events.foldl hear known

theorem hearAll_append (known : Account) (first second : List GadgetEvent) :
    known.hearAll (first ++ second) = (known.hearAll first).hearAll second := List.foldl_append

/-- Watermarks that stay the same need not be told. -/
theorem hearAll_watermarks {known : Account} {previous : Watermarks}
    (h : known.watermarks = previous) (current : Watermarks) :
    known.hearAll (if current = previous then [] else [.watermarksRaised current])
      = { known with watermarks := current } := by
  split
  case isTrue hsame =>
    rw [hsame, ← h]
    rfl
  case isFalse => rfl

/-- That nothing was pruned need not be told. -/
theorem hearAll_pruned (known : Account) (pruned : List Height) :
    known.hearAll (if pruned.isEmpty then [] else [.parametersPruned pruned])
      = { known with keys := known.keys \ pruned.toFinset } := by
  cases pruned with
  | nil =>
    rw [List.toFinset_nil, Finset.sdiff_empty]
    rfl
  | cons k rest => rfl

/-- The events of a block tell its outcome, whichever of them are left out. -/
theorem hearAll_blockEvents {known : Account} {outcome : BlockOutcome}
    (h : known.watermarks = outcome.previous) (header : Header) :
    known.hearAll (Gadget.blockEvents header outcome) =
      { keys := known.keys \ outcome.pruned.toFinset
        watermarks := outcome.current
        blocks := (header.height, header.generator) :: known.blocks } := by
  have hmarks : (known.hearAll [.blockProcessed header.height header.generator]).watermarks
      = outcome.previous := h
  rw [Gadget.blockEvents, hearAll_append, hearAll_pruned, ← List.singleton_append, hearAll_append,
    hearAll_watermarks hmarks]
  rfl

end Account

/-- The right account of a core with the chain behind it. -/
def Core.account (s : Core) (chain : List Header) : Account where
  keys := s.schedule.keys.toFinset
  watermarks := s.ledger.watermarks
  blocks := chain.map fun header => (header.height, header.generator)

namespace Gadget

variable {g : Gadget} {s : Core}

/-! ## The events of one request -/

/-- Whether a request is carried out: it does not fail, and there is something to do. -/
def carriesOut (g : Gadget) : Request → Bool
  | .setParameters proposal => ((g.setParameters proposal).answer matches .ok (some _))
  | .processBlock header => ((g.processBlock header).answer matches .ok _)
  | .pruneSnapshots height => ((g.pruneSnapshots height).answer matches .ok (_ :: _))

/-- A request that is carried out has events, and every other one changes nothing and has none. -/
theorem step_of_carriesOut (g : Gadget) (r : Request) :
    if g.carriesOut r then (g.step r).2 ≠ [] else g.step r = (g, []) := by
  cases r with
  | setParameters proposal =>
    rcases setParameters_eq g proposal with
      ⟨e, he, -⟩ | ⟨-, hsame⟩ | ⟨update, _, store, -, -, hdone⟩
    · simp [carriesOut, step, he, unchanged]
    · simp [carriesOut, step, hsame, unchanged]
    · simp [carriesOut, step, hdone, proposalEvents]
  | processBlock header =>
    rcases processBlock_eq g header with ⟨e, he, -⟩ | ⟨outcome, _, store, -, -, hdone⟩
    · simp [carriesOut, step, he, unchanged]
    · simp [carriesOut, step, hdone, blockEvents]
  | pruneSnapshots height =>
    rcases pruneSnapshots_eq g height with ⟨e, he⟩ | hsame | ⟨unused, store, hsome, -, hdone⟩
    · simp [carriesOut, step, he, unchanged]
    · simp [carriesOut, step, hsame, unchanged]
    · obtain ⟨hash, rest, rfl⟩ := List.exists_cons_of_ne_nil hsome
      simp [carriesOut, step, hdone]

/-! ## Keeping the account -/

namespace Shows

variable (h : g.Shows s) (past : List Header)
include h

theorem account_setParameters (proposal : Proposal) :
    ∃ s', (g.setParameters proposal).gadget.Shows s' ∧
      (s.account past).hearAll (g.setParameters proposal).events = s'.account past := by
  have hsame := h
  obtain ⟨c, hc, hledger, hschedule⟩ := h
  rcases setParameters_cases hc hledger proposal with
    ⟨e, he⟩ | ⟨hnone, -⟩ | ⟨aggregate, height, store, -, -, hdone, hstore⟩
  · rw [he]
    exact ⟨s, hsame, rfl⟩
  · rw [hnone]
    exact ⟨s, hsame, rfl⟩
  · obtain ⟨hledger', hschedule', -⟩ := c.applyAll_proposalChanges s.ledger height
      (proposal.sorted.parameters aggregate)
    rw [hschedule] at hledger' hschedule'
    rw [hdone]
    refine ⟨⟨_, _⟩, ⟨_, hstore, hledger', hschedule'⟩, Account.ext ?_ rfl rfl⟩
    exact (Table.toFinset_keys_insert ..).symm

theorem account_processBlock (header : Header) :
    ∃ s', (g.processBlock header).gadget.Shows s' ∧
      (s.account past).hearAll (g.processBlock header).events
        = s'.account ((g.taken? (.processBlock header)).toList ++ past) := by
  have hsame := h
  obtain ⟨c, hc, hledger, hschedule⟩ := h
  rcases processBlock_cases hc hledger header with
    ⟨e, he⟩ | ⟨next, store, -, -, hdone, hstore⟩
  · rw [taken?, he]
    exact ⟨s, hsame, rfl⟩
  · rw [Contents.applyAll_blockChanges] at hstore
    rw [taken?, hdone, Account.hearAll_blockEvents rfl]
    refine ⟨⟨next, _⟩, ⟨_, hstore, rfl, rfl⟩, Account.ext ?_ rfl rfl⟩
    rw [Contents.blockOutcome, hschedule]
    exact (Table.toFinset_keys_eraseAll ..).symm

theorem account_pruneSnapshots (height : Height) :
    ∃ s', (g.pruneSnapshots height).gadget.Shows s' ∧
      (s.account past).hearAll (g.pruneSnapshots height).events = s'.account past := by
  have hsame := h
  obtain ⟨c, hc, hledger, hschedule⟩ := h
  rcases pruneSnapshots_cases hc height with ⟨answer, hnone⟩ | ⟨unused, store, hdone, hstore⟩
  · rw [hnone]
    exact ⟨s, hsame, rfl⟩
  · rw [hdone]
    exact ⟨s, ⟨_, hstore, hledger, hschedule⟩, rfl⟩

/-- The events of a request tell a listener all that it did to the core. -/
theorem account_step (r : Request) :
    ∃ s', (g.step r).1.Shows s' ∧
      (s.account past).hearAll (g.step r).2 = s'.account ((g.taken? r).toList ++ past) := by
  cases r with
  | setParameters proposal => exact h.account_setParameters past proposal
  | processBlock header => exact h.account_processBlock past header
  | pruneSnapshots height => exact h.account_pruneSnapshots past height

/-- A listener who hears all events of a run keeps the right account. -/
theorem account_run (requests : List Request) :
    ∃ s', (g.run requests).1.Shows s' ∧
      (s.account past).hearAll (g.run requests).2 = s'.account (g.chain requests ++ past) := by
  -- by induction on the requests, as the first one leads to a right account with a longer chain
  induction requests generalizing g s past with
  | nil => exact ⟨s, h, rfl⟩
  | cons r rest ih =>
    obtain ⟨mid, hmid, hfirst⟩ := h.account_step past r
    obtain ⟨last, hlast, hrest⟩ := ih hmid ((g.taken? r).toList ++ past)
    refine ⟨last, hlast, ?_⟩
    rw [run, Account.hearAll_append, hfirst, hrest, chain, List.append_assoc]

end Shows

end Gadget

/-- All kinds of events. -/
def GadgetEvent.Subscription.all : Subscription := ⟨true, true, true, true, true⟩

theorem GadgetEvent.filter_isIn_all (events : List GadgetEvent) :
    events.filter (isIn .all) = events := by
  refine List.filter_eq_self.mpr fun event _ => ?_
  cases event <;> rfl

namespace Gadget

/-- After every run, a listener who has asked for all kinds of events has the right account of the
parameters by height, of the watermarks and of the headers that were taken in. Requests that fail
or that find nothing to do change nothing and have no events, and all others have some. -/
theorem events_tell_state (config : GadgetConfig) (height : Height) (requests : List Request) :
    let start := genesis config height
    let heard := (start.run requests).2.filter (GadgetEvent.isIn .all)
    let account := (Account.genesis height).hearAll heard
    (∃ schedule, (start.run requests).1.store.parameters = .ok schedule ∧
      account.keys = schedule.heights.toFinset) ∧
    (start.run requests).1.watermarks = .ok account.watermarks ∧
    account.blocks
      = (start.chain requests).map (fun header => (header.height, header.generator)) ∧
    ∀ (g : Gadget) (r : Request),
      if g.carriesOut r then (g.step r).2 ≠ [] else g.step r = (g, []) := by
  intro start heard account
  obtain ⟨s, hshows, haccount⟩ := (shows_genesis config height).account_run [] requests
  have hright : account = s.account (start.chain requests) := by
    rw [List.append_nil] at haccount
    exact (congrArg _ (GadgetEvent.filter_isIn_all _)).trans haccount
  rw [hright]
  exact ⟨⟨_, hshows.schedule, rfl⟩, hshows.watermarks, rfl, step_of_carriesOut⟩

end Gadget

end ImpliedFinality
