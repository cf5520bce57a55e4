import ImpliedFinality.Proofs.Protocol
import ImpliedFinality.Proofs.Submission

/-!
# How a relay talks to the receiving chain

Every stage of a notification adds actions that fit the state that they are done in, and leads to
the state that they tell of. Between two blocks a relay is either disconnected, or ready after a
call that did not fail, so the first call for a block fits as well.
-/

namespace ImpliedFinality

namespace Relay

variable {r s a b d : Relay} {setup : RelaySetup} {now : Nat} {block : NewBlock}

/-- What the actions of a relay should tell about it. -/
def memory (r : Relay) : RelayMemory :=
  ⟨r.phase, r.pending.map fun p => (p.transaction, p.certificate), r.last⟩

/-- From one state to another by actions that fit the state that they are done in. -/
inductive Tells (a : Relay) : Relay → Prop
  | same {b : Relay} (trace : b.trace = a.trace) (memory : b.memory = a.memory) : Tells a b
  | act {b d : Relay} (first : Tells a b) (action : RelayAction)
    (fits : action.Fits b.memory b.calls.head?) (trace : d.trace = action :: b.trace)
    (memory : d.memory = b.memory.after action) : Tells a d

namespace Tells

theorem refl (r : Relay) : Tells r r := .same rfl rfl

theorem trans (hab : Tells a b) (hbd : Tells b d) : Tells a d := by
  -- a step that tells nothing is absorbed by the last action before it
  induction hbd with
  | same trace memory =>
    cases hab with
    | same trace' memory' => exact .same (trace.trans trace') (memory.trans memory')
    | act first action fits trace' memory' =>
      exact .act first action fits (trace.trans trace') (memory.trans memory')
  | act first action fits trace memory ih => exact .act ih action fits trace memory

theorem suffix (h : Tells a b) : a.trace <:+ b.trace := by
  induction h with
  | same trace memory => exact trace ▸ List.suffix_refl _
  | act first action fits trace memory ih =>
    rw [trace]
    exact ih.trans (List.suffix_cons ..)

/-- One action of which the state is told. -/
theorem one (action : RelayAction) (fits : action.Fits a.memory a.calls.head?)
    (trace : b.trace = action :: a.trace) (memory : b.memory = a.memory.after action) :
    Tells a b := .act (.refl a) action fits trace memory

/-- A call whose answer changes nothing by itself. -/
theorem call (r : Relay) (e : Exchange) (fits : e.Fits r.memory r.calls.head?)
    (unchanged : r.memory.after (.exchange e) = r.memory) :
    Tells r (r.record (.exchange e)) := one (.exchange e) fits rfl unchanged.symm

theorem note (r : Relay) (action : RelayAction) (h : action.IsNote) :
    Tells r (r.record action) := one action (h.fits ..) rfl (h.after_eq r.memory).symm

theorem notes (h : Notes a b) : Tells a b := by
  obtain ⟨notes, hnotes, rfl⟩ := h
  induction notes with
  | nil => exact .refl a
  | cons n notes ih =>
    have hrest : ∀ n ∈ notes, n.IsNote := fun m hm => hnotes m (.tail _ hm)
    exact (ih hrest).trans (note { a with trace := notes ++ a.trace } n (hnotes n (.head _)))

theorem enter (r : Relay) (phase : RelayPhase) : Tells r (r.enter phase) := by
  unfold Relay.enter
  split
  case isTrue => exact .refl r
  case isFalse => exact .one (.event (.phaseChanged r.phase phase)) trivial rfl rfl

theorem disconnect (r : Relay) (e : ClientError) : Tells r (r.disconnect e) :=
  (notes (.log r e.logLevel e.message)).trans (enter ..)

theorem remember (r : Relay) (block : NewBlock) : Tells r (r.remember block) := .same rfl rfl

theorem forget (r : Relay) (setup : RelaySetup) : Tells r (r.forget setup) := by
  unfold Relay.forget
  split
  · exact .refl r
  · exact .same rfl rfl

end Tells

/-- A relay between two blocks. -/
structure Rests (r : Relay) : Prop where
  settled : r.phase = .disconnected ∨ r.phase = .ready
  answered : r.phase = .ready → r.calls.head?.bind Exchange.error? = none

namespace Rests

theorem of_disconnected (h : r.phase = .disconnected) : Rests r :=
  ⟨.inl h, fun hready => absurd (h.symm.trans hready) nofun⟩

theorem of_ready {e : Exchange} (h : r.phase = .ready) (hcalls : r.calls.head? = some e)
    (hanswer : e.error? = none) : Rests r :=
  ⟨.inr h, fun _ => by rw [hcalls]; exact hanswer⟩

theorem of_disconnect (r : Relay) (e : ClientError) : Rests (r.disconnect e) :=
  .of_disconnected (phase_disconnect r e)

theorem forget (h : Rests r) (setup : RelaySetup) : Rests (r.forget setup) := by
  constructor
  · rw [phase_forget]
    exact h.settled
  · rw [phase_forget, calls_forget]
    exact h.answered

end Rests

/-- A relay after connecting. -/
def Joins (r : Relay) : Prop :=
  Rests r ∨ (r.phase = .syncing ∧ r.calls.head? = some (.connect (.ok ())))

/-- The submission in flight is what is told to be in flight. -/
theorem pending_memory {p : PendingSubmission} (h : r.pending = some p) :
    r.memory.pending = some (p.transaction, p.certificate) := congrArg (Option.map _) h

theorem Settles.tells (h : Settles r s) (rests : Rests r) : Tells r s ∧ Rests s := by
  have hfits : ∀ p answer, r.pending = some p → r.phase = .ready →
      (Exchange.isIncluded p.transaction answer).Fits r.memory r.calls.head? :=
    fun p answer inFlight ready => ⟨ready, rests.answered ready, _, pending_memory inFlight⟩
  cases h with
  | idle free => exact ⟨.refl r, rests⟩
  | timedOut p inFlight =>
    exact ⟨.one (.event (.submissionTimedOut p.transaction)) ⟨_, pending_memory inFlight⟩ rfl rfl,
      rests.settled, rests.answered⟩
  | failed p e inFlight ready =>
    have hasks := Tells.call r _ (hfits p (.error e) inFlight ready) rfl
    exact ⟨hasks.trans (.disconnect ..), .of_disconnect ..⟩
  | waits p inFlight ready =>
    exact ⟨.call r _ (hfits p (.ok false) inFlight ready) rfl,
      .of_ready ready (head?_calls_record r (.isIncluded p.transaction (.ok false)) trivial) rfl⟩
  | included p inFlight ready =>
    have hasks : Tells r { r.record (.exchange (.isIncluded p.transaction (.ok true))) with
        pending := none, last := some (adopt r.last p.certificate) } := by
      apply Tells.one (.exchange (.isIncluded p.transaction (.ok true)))
        (hfits p (.ok true) inFlight ready) rfl
      simp only [RelayMemory.after, pending_memory inFlight]
      rfl
    exact ⟨hasks.trans (.note _ (.event _) trivial),
      .of_ready ready (head?_calls_record r (.isIncluded p.transaction (.ok true)) trivial) rfl⟩

theorem Connects.tells (h : Connects r s) (rests : Rests r) : Tells r s ∧ Joins s := by
  have hstart : (r.enter .connecting).memory.phase ≠ .ready := by
    show (r.enter .connecting).phase ≠ .ready
    rw [phase_enter]
    nofun
  cases h with
  | idle connected => exact ⟨.refl r, .inl rests⟩
  | failed e apart =>
    have hasks := (Tells.enter r .connecting).trans (.call _ (.connect (.error e)) hstart rfl)
    exact ⟨hasks.trans (.disconnect ..), .inl (.of_disconnect ..)⟩
  | connected apart =>
    have hasks := (Tells.enter r .connecting).trans (.call _ (.connect (.ok ())) hstart rfl)
    refine ⟨hasks.trans (.enter ..), .inr ⟨phase_enter .., ?_⟩⟩
    rw [calls_enter]
    exact head?_calls_record _ (.connect (.ok ())) trivial

theorem Joins.connected (h : Joins r) (syncing : r.phase = .syncing) :
    r.calls.head? = some (.connect (.ok ())) := by
  rcases h with rests | ⟨-, hcalls⟩
  · rcases rests.settled with hphase | hphase
    · exact absurd (hphase.symm.trans syncing) nofun
    · exact absurd (hphase.symm.trans syncing) nofun
  · exact hcalls

theorem Syncs.tells (h : Syncs r s) (joins : Joins r) : Tells r s ∧ Rests s := by
  cases h with
  | idle other => exact ⟨.refl r, joins.resolve_right fun h => other h.1⟩
  | failed e syncing =>
    have hasks := Tells.call r (.lastCertificate (.error e)) (joins.connected syncing) rfl
    exact ⟨hasks.trans (.disconnect ..), .of_disconnect ..⟩
  | synced last syncing =>
    have hasks : Tells r
        { r.record (.exchange (.lastCertificate (.ok last))) with last := some last } :=
      .one (.exchange (.lastCertificate (.ok last))) (joins.connected syncing) rfl rfl
    refine ⟨hasks.trans (.enter ..),
      .of_ready (e := .lastCertificate (.ok last)) (phase_enter ..) ?_ rfl⟩
    rw [calls_enter]
    exact head?_calls_record r _ trivial

/-- The update of a certificate can be read. -/
theorem last?_of_crossChainUpdate {view : ChainView} {chain : ChainId} {last : LastCertificate}
    {c : Certificate} {update : CrossChainUpdate}
    (h : crossChainUpdate view chain last c = .ok update) : update.last? = some c.last := by
  obtain ⟨named, -, hcarries⟩ := carries_of_crossChainUpdate h
  simp [CrossChainUpdate.last?, hcarries.certificate, Except.toOption]

theorem Submits.tells (h : Submits r s) (rests : Rests r) (ready : r.phase = .ready)
    (free : r.pending = none) : Tells r s ∧ Rests s := by
  have hfits : ∀ {found : Relay} {chain last c update} command answer, Notes r found →
      crossChainUpdate found.history.view chain last c = .ok update →
      (Exchange.submit command update answer).Fits found.memory found.calls.head? := by
    intro found chain last c update command answer notes built
    refine ⟨notes.phase.trans ready, ?_, ?_, ?_⟩
    · rw [notes.calls]
      exact rests.answered ready
    · exact congrArg (Option.map _) (notes.pending.trans free)
    · rw [last?_of_crossChainUpdate built]
      rfl
  cases h with
  | idle notes =>
    refine ⟨.notes notes, .inr (notes.phase.trans ready), fun _ => ?_⟩
    rw [notes.calls]
    exact rests.answered ready
  | @failed found command update c e notes chain last built =>
    have hasks := (Tells.notes notes).trans
      (.call found (.submit command update (.error e)) (hfits command _ notes built) rfl)
    exact ⟨hasks.trans (.disconnect ..), .of_disconnect ..⟩
  | @accepted found command update c transaction now notes chain last built =>
    have hasks : Tells found
        { found.record (.exchange (.submit command update (.ok transaction))) with
          pending := some ⟨transaction, c.last, now⟩ } := by
      apply Tells.one (.exchange (.submit command update (.ok transaction)))
        (hfits command (.ok transaction) notes built) rfl
      simp only [RelayMemory.after, last?_of_crossChainUpdate built]
      rfl
    exact ⟨((Tells.notes notes).trans hasks).trans (.note _ (.event _) trivial),
      .of_ready (notes.phase.trans ready)
        (head?_calls_record found (.submit command update (.ok transaction)) trivial) rfl⟩

/-- The states of a relay during a notification, one after each stage. -/
def moments (r : Relay) (setup : RelaySetup) (now : Nat) (block : NewBlock) : List Relay :=
  [r.remember block, (r.remember block).settle setup now,
    ((r.remember block).settle setup now).connect setup, r.prepare setup now block,
    r.onBlock setup now block]

theorem onBlock_mem_moments : r.onBlock setup now block ∈ r.moments setup now block := by
  simp [moments]

/-- A notification is told from its start, and leaves the relay at rest. -/
theorem tells_moments (rests : Rests r) (setup : RelaySetup) (now : Nat) (block : NewBlock) :
    (∀ q ∈ r.moments setup now block, Tells r q) ∧ Rests (r.onBlock setup now block) := by
  have hremember : Tells r (r.remember block) := .remember ..
  have hremembered : Rests (r.remember block) := ⟨rests.settled, rests.answered⟩
  obtain ⟨hsettle, hsettled⟩ := (settles (r.remember block) setup now).tells hremembered
  obtain ⟨hconnect, hconnected⟩ :=
    (connects ((r.remember block).settle setup now) setup).tells hsettled
  obtain ⟨hsync, hsynced⟩ :=
    (syncs (((r.remember block).settle setup now).connect setup) setup).tells hconnected
  obtain ⟨q, hq, hlast⟩ := exists_submits r setup now block
  have hsubmit : Tells (r.prepare setup now block) q ∧ Rests q := by
    rcases hlast with rfl | ⟨ready, free, hsubmits⟩
    · exact ⟨.refl _, hsynced⟩
    · exact hsubmits.tells hsynced ready free
  rw [moments, hq]
  have hupToSettle := hremember.trans hsettle
  have hupToConnect := hupToSettle.trans hconnect
  have hupToSync : Tells r (r.prepare setup now block) := hupToConnect.trans hsync
  have hwhole := (hupToSync.trans hsubmit.1).trans (.forget q setup)
  refine ⟨?_, hsubmit.2.forget setup⟩
  simp only [List.forall_mem_cons]
  exact ⟨hremember, hupToSettle, hupToConnect, hupToSync, hwhole, nofun⟩

theorem tells_run (rests : Rests r) (setup : RelaySetup) (blocks : List (Nat × NewBlock)) :
    Tells r (r.run setup blocks) ∧ Rests (r.run setup blocks) := by
  induction blocks generalizing r with
  | nil => exact ⟨.refl r, rests⟩
  | cons b rest ih =>
    obtain ⟨hmoments, hrests⟩ := tells_moments rests setup b.1 b.2
    obtain ⟨htells, hlast⟩ := ih hrests
    have hfirst : Tells r (r.onBlock setup b.1 b.2) := hmoments _ onBlock_mem_moments
    exact ⟨hfirst.trans htells, hlast⟩

/-- The trace of a relay tells its state. -/
structure Told (r : Relay) : Prop where
  memory : r.memory = memoryOf r.trace
  orderly : Orderly r.trace

theorem Tells.told (h : Tells a b) (told : Told a) : Told b := by
  induction h with
  | same trace memory =>
    exact ⟨by rw [memory, trace, told.memory], by rw [trace]; exact told.orderly⟩
  | @act b d first action fits trace memory ih =>
    rw [ih.memory] at fits memory
    constructor
    · rw [memory, trace]
      rfl
    · rw [trace]
      exact .cons ih.orderly fits

/-- A relay that learns of blocks keeps to the protocol, however the receiving chain answers. It
connects only while it is not ready, asks for the last certificate only after it connected, asks for
nothing but the submission in flight, submits only when nothing is in flight, and connects anew
after a call that failed. The trace tells the state of the relay after each stage, and after each
block the relay is disconnected or ready. -/
theorem follows_protocol (setup : RelaySetup) (history : History)
    (blocks : List (Nat × NewBlock)) (now : Nat) (block : NewBlock) :
    let r := (new history).run setup blocks
    let s := r.onBlock setup now block
    (s.phase = .disconnected ∨ s.phase = .ready) ∧
      (∀ q ∈ r.moments setup now block, r.trace <:+ q.trace ∧ q.memory = memoryOf q.trace) ∧
      FollowsProtocol s.trace := by
  intro r s
  have hnew : Rests (new history) := .of_disconnected rfl
  obtain ⟨hrun, hrests⟩ := tells_run hnew setup blocks
  obtain ⟨hmoments, hlast⟩ := tells_moments hrests setup now block
  have htold : Told r := hrun.told ⟨rfl, .nil⟩
  refine ⟨hlast.settled, ?_, ?_⟩
  · intro q hq
    exact ⟨(hmoments q hq).suffix, ((hmoments q hq).told htold).memory⟩
  · have hs : Tells r s := hmoments s onBlock_mem_moments
    exact (hs.told htold).orderly.followsProtocol

end Relay

end ImpliedFinality
