import ImpliedFinality.Relay.Basic

/-!
# What each stage of a relay can come to

A stage makes at most one call to the receiving chain, and the answer decides how it ends. The
relations below list the outcomes of a stage for every answer there is, so that what a relay keeps
to can be proved by their cases. Signature checks and log lines on the way to a submission are
notes: they change the trace and nothing else.
-/

namespace ImpliedFinality

/-- A call to the receiving chain. -/
def Exchange.IsCall : Exchange → Prop
  | verify _ _ => False
  | _ => True

/-- The error that a call ended with. -/
def Exchange.error? : Exchange → Option ClientError
  | connect (.error e) => some e
  | lastCertificate (.error e) => some e
  | submit _ _ (.error e) => some e
  | isIncluded _ (.error e) => some e
  | _ => none

/-- The call that an action is. -/
def RelayAction.call? : RelayAction → Option Exchange
  | exchange (.verify _ _) => none
  | exchange e => some e
  | _ => none

theorem RelayAction.call?_eq_some {action : RelayAction} {e : Exchange} :
    action.call? = some e ↔ action = .exchange e ∧ e.IsCall := by
  cases action with
  | exchange other => cases other <;> cases e <;> simp [call?, Exchange.IsCall]
  | _ => simp [call?]

/-- The calls among some actions, in the same order. -/
def callsOf (actions : List RelayAction) : List Exchange := actions.filterMap RelayAction.call?

/-- An action that is no call, and tells of no change that a call did not tell of already. -/
def RelayAction.IsNote : RelayAction → Prop
  | log _ => True
  | event (.certificateFound _ _) => True
  | event (.updateSubmitted _ _) => True
  | event (.submissionIncluded _) => True
  | exchange (.verify _ _) => True
  | _ => False

theorem RelayAction.IsNote.call? {action : RelayAction} (h : action.IsNote) :
    action.call? = none := by
  cases action with
  | log line => rfl
  | event event => rfl
  | exchange e =>
    cases e with
    | verify query answer => rfl
    | _ => exact h.elim

namespace Relay

variable {r s a b d : Relay}

/-- The calls of a relay to the receiving chain, newest first. -/
def calls (r : Relay) : List Exchange := callsOf r.trace

theorem calls_record (r : Relay) {e : Exchange} (h : e.IsCall) :
    (r.record (.exchange e)).calls = e :: r.calls :=
  List.filterMap_cons_some (RelayAction.call?_eq_some.mpr ⟨rfl, h⟩)

theorem head?_calls_record (r : Relay) (e : Exchange) (h : e.IsCall) :
    (r.record (.exchange e)).calls.head? = some e := by
  rw [calls_record r h]
  rfl

theorem phase_enter (r : Relay) (phase : RelayPhase) : (r.enter phase).phase = phase := by
  unfold enter
  split
  case isTrue h => exact h
  case isFalse => rfl

theorem calls_enter (r : Relay) (phase : RelayPhase) : (r.enter phase).calls = r.calls := by
  unfold enter
  split <;> rfl

theorem pending_enter (r : Relay) (phase : RelayPhase) : (r.enter phase).pending = r.pending := by
  unfold enter
  split <;> rfl

theorem phase_disconnect (r : Relay) (e : ClientError) :
    (r.disconnect e).phase = .disconnected := phase_enter ..

theorem calls_disconnect (r : Relay) (e : ClientError) : (r.disconnect e).calls = r.calls :=
  calls_enter ..

theorem pending_disconnect (r : Relay) (e : ClientError) :
    (r.disconnect e).pending = r.pending := pending_enter ..

theorem history_disconnect (r : Relay) (e : ClientError) :
    (r.disconnect e).history = r.history := by
  unfold disconnect enter
  split <;> rfl

/-- From one state to another only notes were made. -/
def Notes (a b : Relay) : Prop :=
  ∃ notes : List RelayAction, (∀ n ∈ notes, n.IsNote) ∧ b = { a with trace := notes ++ a.trace }

namespace Notes

theorem refl (r : Relay) : Notes r r := ⟨[], by simp, rfl⟩

theorem trans (hab : Notes a b) (hbd : Notes b d) : Notes a d := by
  obtain ⟨first, hfirst, rfl⟩ := hab
  obtain ⟨second, hsecond, rfl⟩ := hbd
  refine ⟨second ++ first, ?_, by simp⟩
  intro n hn
  exact (List.mem_append.mp hn).elim (hsecond n) (hfirst n)

theorem record (r : Relay) (action : RelayAction) (h : action.IsNote) :
    Notes r (r.record action) := ⟨[action], by simpa using h, rfl⟩

theorem log (r : Relay) (level : LogLevel) (text : String) : Notes r (r.log level text) :=
  record r _ trivial

theorem phase (h : Notes a b) : b.phase = a.phase := by
  obtain ⟨notes, -, rfl⟩ := h
  rfl

theorem pending (h : Notes a b) : b.pending = a.pending := by
  obtain ⟨notes, -, rfl⟩ := h
  rfl

theorem history (h : Notes a b) : b.history = a.history := by
  obtain ⟨notes, -, rfl⟩ := h
  rfl

theorem calls (h : Notes a b) : b.calls = a.calls := by
  obtain ⟨notes, hnotes, rfl⟩ := h
  have hnone : callsOf notes = [] := List.filterMap_eq_nil_iff.mpr fun n hn => (hnotes n hn).call?
  calc callsOf (notes ++ a.trace)
    _ = callsOf notes ++ callsOf a.trace := List.filterMap_append
    _ = a.calls := by rw [hnone]; rfl

theorem verify (r : Relay) (setup : RelaySetup) (c : Certificate) :
    Notes r (r.verify setup c).1 := by
  unfold Relay.verify
  split
  case h_1 => exact refl r
  case h_2 check hcheck =>
    split
    case h_1 => exact log ..
    case h_2 => exact log ..
    case h_3 query hquery =>
      apply (record r (.exchange (.verify query (query.holds check))) trivial).trans
      dsimp only
      split
      · exact refl _
      · exact log ..

end Notes

/-- How settling the submission in flight can end. -/
inductive Settles (r : Relay) : Relay → Prop
  | idle (free : r.pending = none ∨ r.phase ≠ .ready) : Settles r r
  | timedOut (p : PendingSubmission) (inFlight : r.pending = some p) :
    Settles r ({ r with pending := none }.publish (.submissionTimedOut p.transaction))
  | failed (p : PendingSubmission) (e : ClientError) (inFlight : r.pending = some p)
    (ready : r.phase = .ready) :
    Settles r ((r.record (.exchange (.isIncluded p.transaction (.error e)))).disconnect e)
  | waits (p : PendingSubmission) (inFlight : r.pending = some p) (ready : r.phase = .ready) :
    Settles r (r.record (.exchange (.isIncluded p.transaction (.ok false))))
  | included (p : PendingSubmission) (inFlight : r.pending = some p) (ready : r.phase = .ready) :
    Settles r
      ({ r.record (.exchange (.isIncluded p.transaction (.ok true))) with
        pending := none, last := some (adopt r.last p.certificate) }.publish
          (.submissionIncluded p.transaction))

/-- How connecting can end. -/
inductive Connects (r : Relay) : Relay → Prop
  | idle (connected : r.phase = .syncing ∨ r.phase = .ready) : Connects r r
  | failed (e : ClientError) (apart : r.phase = .disconnected ∨ r.phase = .connecting) :
    Connects r (((r.enter .connecting).record (.exchange (.connect (.error e)))).disconnect e)
  | connected (apart : r.phase = .disconnected ∨ r.phase = .connecting) :
    Connects r (((r.enter .connecting).record (.exchange (.connect (.ok ())))).enter .syncing)

/-- How asking for the last certificate can end. -/
inductive Syncs (r : Relay) : Relay → Prop
  | idle (other : r.phase ≠ .syncing) : Syncs r r
  | failed (e : ClientError) (syncing : r.phase = .syncing) :
    Syncs r ((r.record (.exchange (.lastCertificate (.error e)))).disconnect e)
  | synced (last : LastCertificate) (syncing : r.phase = .syncing) :
    Syncs r ({ r.record (.exchange (.lastCertificate (.ok last))) with last := some last }.enter
      .ready)

/-- How looking for a certificate and submitting it can end. -/
inductive Submits (r : Relay) : Relay → Prop
  | idle {s : Relay} (notes : Notes r s) : Submits r s
  | failed {found : Relay} (command : String) (update : CrossChainUpdate) (c : Certificate)
    (e : ClientError) (notes : Notes r found) {chain : ChainId} {last : LastCertificate}
    (built : crossChainUpdate found.history.view chain last c = .ok update) :
    Submits r ((found.record (.exchange (.submit command update (.error e)))).disconnect e)
  | accepted {found : Relay} (command : String) (update : CrossChainUpdate)
    (c : Certificate) (transaction : Digest) (now : Nat) (notes : Notes r found) {chain : ChainId}
    {last : LastCertificate}
    (built : crossChainUpdate found.history.view chain last c = .ok update) :
    Submits r
      ({ found.record (.exchange (.submit command update (.ok transaction))) with
        pending := some ⟨transaction, c.last, now⟩ }.publish
          (.updateSubmitted c.body.height transaction))

theorem settles (r : Relay) (setup : RelaySetup) (now : Nat) :
    Settles r (r.settle setup now) := by
  unfold settle
  split
  case h_1 hnone => exact .idle (.inl hnone)
  case h_2 p hp =>
    split
    case isTrue => exact .timedOut p hp
    case isFalse =>
      split
      case isTrue hphase => exact .idle (.inr hphase)
      case isFalse hready =>
        have hready : r.phase = .ready := Decidable.of_not_not hready
        dsimp only
        generalize setup.chain.isIncluded r.exchanges p.transaction = answer
        match answer with
        | .error e => exact .failed p e hp hready
        | .ok false => exact .waits p hp hready
        | .ok true => exact .included p hp hready

/-- A relay that is apart enters the phase of connecting, if it is not in it. -/
theorem connect_of_apart (setup : RelaySetup)
    (apart : r.phase = .disconnected ∨ r.phase = .connecting) :
    Connects r (r.connect setup) := by
  have hstart : (if r.phase = .disconnected then r.enter .connecting else r) =
      r.enter .connecting := by
    split
    case isTrue => rfl
    case isFalse h => exact (if_pos (apart.resolve_left h)).symm
  unfold connect
  rw [hstart]
  dsimp only
  rw [if_neg (fun h => h (phase_enter r .connecting))]
  match setup.chain.connect (r.enter .connecting).exchanges with
  | .error e => exact .failed e apart
  | .ok () => exact .connected apart

theorem connects (r : Relay) (setup : RelaySetup) : Connects r (r.connect setup) := by
  cases hphase : r.phase with
  | disconnected => exact connect_of_apart setup (.inl hphase)
  | connecting => exact connect_of_apart setup (.inr hphase)
  | syncing =>
    have hsame : r.connect setup = r := by simp [connect, hphase]
    rw [hsame]
    exact .idle (.inl hphase)
  | ready =>
    have hsame : r.connect setup = r := by simp [connect, hphase]
    rw [hsame]
    exact .idle (.inr hphase)

theorem syncs (r : Relay) (setup : RelaySetup) : Syncs r (r.sync setup) := by
  unfold sync
  split
  case isTrue h => exact .idle h
  case isFalse h =>
    have hsyncing : r.phase = .syncing := Decidable.of_not_not h
    dsimp only
    match setup.chain.lastCertificate r.exchanges with
    | .error e => exact .failed e hsyncing
    | .ok last => exact .synced last hsyncing

/-- Submitting a certificate after some notes. -/
theorem submits_submit {found : Relay} (notes : Notes r found) (setup : RelaySetup) (now : Nat)
    (last : LastCertificate) (c : Certificate) : Submits r (found.submit setup now last c) := by
  unfold submit
  split
  case h_1 => exact .idle (notes.trans (.log ..))
  case h_2 update hupdate =>
    dsimp only
    generalize setup.chain.submit found.exchanges setup.config.role.submitCommand update = answer
    match answer with
    | .error e => exact .failed _ update c e notes hupdate
    | .ok transaction => exact .accepted _ update c transaction now notes hupdate

theorem submits (r : Relay) (setup : RelaySetup) (now : Nat) (certified : Height) :
    Submits r (r.submitNext setup now certified) := by
  unfold submitNext
  split
  case h_1 => exact .idle (.refl r)
  case h_2 last hlast =>
    split
    case h_1 => exact .idle (.log ..)
    case h_2 => exact .idle (.refl r)
    case h_3 c hfound =>
      have hfound : Notes r (r.publish (.certificateFound c.body.height c.body.block)) :=
        .record r _ trivial
      have hasked := hfound.trans (.verify _ setup c)
      dsimp only
      split
      · exact submits_submit hasked setup now last c
      · exact .idle hasked

theorem Submits.history (h : Submits r s) : s.history = r.history := by
  cases h with
  | idle notes => exact notes.history
  | failed command update c e notes built => exact (history_disconnect ..).trans notes.history
  | accepted command update c transaction now notes built => exact notes.history

theorem phase_forget (r : Relay) (setup : RelaySetup) : (r.forget setup).phase = r.phase := by
  unfold forget
  split <;> rfl

theorem calls_forget (r : Relay) (setup : RelaySetup) : (r.forget setup).calls = r.calls := by
  unfold forget
  split <;> rfl

/-- A prepared relay submits if it is ready and nothing is in flight, and then forgets. -/
theorem exists_submits (r : Relay) (setup : RelaySetup) (now : Nat) (block : NewBlock) :
    ∃ q, r.onBlock setup now block = q.forget setup ∧
      (q = r.prepare setup now block ∨ (r.prepare setup now block).phase = .ready ∧
        (r.prepare setup now block).pending = none ∧ Submits (r.prepare setup now block) q) := by
  refine ⟨_, rfl, ?_⟩
  split
  case isTrue h => exact .inr ⟨h.1, h.2, submits ..⟩
  case isFalse => exact .inl rfl

end Relay

end ImpliedFinality
