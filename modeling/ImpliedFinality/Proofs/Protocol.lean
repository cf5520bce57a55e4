import ImpliedFinality.Proofs.Stages

/-!
# The protocol of a relay's calls

What a relay did determines its phase, the submission in flight and the last certificate. So the
protocol of its calls is a rule on its actions: each one has to fit the state that the actions
before it lead to. Actions that fit also settle each submission before the next one is made, and
connect after a call that failed.

## Implementation notes

`RelayMemory` recomputes the state from the actions alone, so that the rules can be read off a
trace. That it is the state of the relay is a theorem about relays.

-/

namespace ImpliedFinality

/-- What the certificate of an update makes the last certificate, if it can be read. -/
def CrossChainUpdate.last? (update : CrossChainUpdate) : Option LastCertificate :=
  (Certificate.codec.readAll update.certificate).toOption.map Certificate.last

/-- The part of a relay's state that its actions tell. -/
structure RelayMemory where
  phase : RelayPhase
  /-- The submission in flight, and the certificate that it carries. -/
  pending : Option (Digest × LastCertificate)
  last : Option LastCertificate

/-- What an action changes. -/
def RelayMemory.after (m : RelayMemory) : RelayAction → RelayMemory
  | .event (.phaseChanged _ phase) => { m with phase := phase }
  | .event (.submissionTimedOut _) => { m with pending := none }
  | .exchange (.lastCertificate (.ok last)) => { m with last := some last }
  | .exchange (.isIncluded _ (.ok true)) =>
    match m.pending with
    | none => m
    | some (_, c) => { m with pending := none, last := some (Relay.adopt m.last c) }
  | .exchange (.submit _ update (.ok transaction)) =>
    { m with pending := update.last?.map (transaction, ·) }
  | _ => m

/-- An included certificate never lowers the last one. -/
theorem Relay.le_adopt (known included : LastCertificate) :
    known.height ≤ (adopt (some known) included).height := by
  unfold adopt
  dsimp only
  split
  case isTrue h => exact Nat.le_of_lt h
  case isFalse => exact Nat.le_refl _

/-- The state after some actions of a new relay, newest first. -/
def memoryOf : List RelayAction → RelayMemory
  | [] => ⟨.disconnected, none, none⟩
  | action :: earlier => (memoryOf earlier).after action

/-- Whether a relay may make a call in a state, after a previous call. -/
def Exchange.Fits (m : RelayMemory) (previous : Option Exchange) : Exchange → Prop
  | connect _ => m.phase ≠ .ready
  | lastCertificate _ => previous = some (.connect (.ok ()))
  | isIncluded transaction _ =>
    m.phase = .ready ∧ previous.bind error? = none ∧ ∃ c, m.pending = some (transaction, c)
  | submit _ update _ =>
    m.phase = .ready ∧ previous.bind error? = none ∧ m.pending = none ∧ update.last?.isSome
  | verify _ _ => True

/-- Only the submission in flight can time out, and calls have their own rule. -/
def RelayAction.Fits (m : RelayMemory) (previous : Option Exchange) : RelayAction → Prop
  | exchange e => e.Fits m previous
  | event (.submissionTimedOut transaction) => ∃ c, m.pending = some (transaction, c)
  | _ => True

/-- Each action fits what was done before. -/
inductive Orderly : List RelayAction → Prop
  | nil : Orderly []
  | cons {action : RelayAction} {earlier : List RelayAction} (orderly : Orderly earlier)
    (fits : action.Fits (memoryOf earlier) (callsOf earlier).head?) : Orderly (action :: earlier)

/-- The submitted transaction is included, or it is given up. -/
def RelayAction.EndsWait (transaction : Digest) (action : RelayAction) : Prop :=
  action = .exchange (.isIncluded transaction (.ok true)) ∨
    action = .event (.submissionTimedOut transaction)

/-- An answer to the question for the last certificate. -/
def RelayAction.IsSync (action : RelayAction) : Prop :=
  ∃ last, action = .exchange (.lastCertificate (.ok last))

/-- Notes may be made at any time. -/
theorem RelayAction.IsNote.fits {action : RelayAction} (h : action.IsNote) (m : RelayMemory)
    (previous : Option Exchange) : action.Fits m previous := by
  cases action with
  | log line => trivial
  | event event =>
    cases event with
    | submissionTimedOut transaction => exact h.elim
    | _ => trivial
  | exchange e =>
    cases e with
    | verify query answer => trivial
    | _ => exact h.elim

theorem RelayAction.IsNote.after_eq {action : RelayAction} (h : action.IsNote) (m : RelayMemory) :
    m.after action = m := by
  cases action with
  | log line => rfl
  | event event =>
    cases event with
    | phaseChanged before after => exact h.elim
    | submissionTimedOut transaction => exact h.elim
    | _ => rfl
  | exchange e =>
    cases e with
    | verify query answer => rfl
    | _ => exact h.elim

namespace RelayMemory

variable {m : RelayMemory} {previous : Option Exchange} {action : RelayAction}
  {transaction : Digest} {c known : LastCertificate}

/-- What is in flight stays so until its transaction is settled. -/
theorem pending_after (fits : action.Fits m previous) (hpending : m.pending = some (transaction, c))
    (unsettled : ¬action.EndsWait transaction) :
    (m.after action).pending = some (transaction, c) := by
  have hsame : ∀ {other : Digest}, (∃ c, m.pending = some (other, c)) → other = transaction := by
    rintro other ⟨c', hother⟩
    cases hpending.symm.trans hother
    rfl
  unfold after
  split
  case h_1 before phase => exact hpending
  case h_2 other =>
    cases hsame fits
    exact absurd (.inr rfl) unsettled
  case h_3 last => exact hpending
  case h_4 other =>
    cases hsame fits.2.2
    exact absurd (.inl rfl) unsettled
  case h_5 command update other => exact absurd (fits.2.2.1.symm.trans hpending) nofun
  case h_6 => exact hpending

/-- Only the receiving chain's own answer can lower the last certificate. -/
theorem exists_last_after (hlast : m.last = some known) (hsync : ¬action.IsSync) :
    ∃ risen, (m.after action).last = some risen ∧ known.height ≤ risen.height := by
  unfold after
  split
  case h_3 last => exact absurd ⟨last, rfl⟩ hsync
  case h_4 other =>
    split
    case h_1 => exact ⟨known, hlast, Nat.le_refl _⟩
    case h_2 transaction c hpending =>
      refine ⟨_, rfl, ?_⟩
      rw [hlast]
      exact Relay.le_adopt known c
  all_goals exact ⟨known, hlast, Nat.le_refl _⟩

end RelayMemory

/-- Between two answers about the last certificate, its height does not fall. -/
theorem exists_last_of_append {between earlier : List RelayAction} {known : LastCertificate}
    (hlast : (memoryOf earlier).last = some known) (hsync : ∀ action ∈ between, ¬action.IsSync) :
    ∃ risen, (memoryOf (between ++ earlier)).last = some risen ∧ known.height ≤ risen.height := by
  induction between with
  | nil => exact ⟨known, hlast, Nat.le_refl _⟩
  | cons action between ih =>
    obtain ⟨middle, hmiddle, hle⟩ := ih fun other hother => hsync other (.tail _ hother)
    obtain ⟨risen, hrisen, hmore⟩ :=
      RelayMemory.exists_last_after hmiddle (hsync action (.head _))
    exact ⟨risen, hrisen, Nat.le_trans hle hmore⟩

namespace Orderly

variable {trace later between earlier : List RelayAction} {transaction : Digest}
  {c known : LastCertificate}

theorem tail {action : RelayAction} (h : Orderly (action :: earlier)) : Orderly earlier := by
  cases h with
  | cons orderly fits => exact orderly

theorem of_append (h : Orderly (later ++ earlier)) : Orderly earlier := by
  induction later with
  | nil => exact h
  | cons action later ih => exact ih h.tail

theorem fits {action : RelayAction} (h : Orderly (later ++ action :: earlier)) :
    action.Fits (memoryOf earlier) (callsOf earlier).head? := by
  cases h.of_append with
  | cons orderly fits => exact fits

/-- The calls of a trace are among its actions. -/
theorem exists_of_callsOf {e : Exchange} {after before : List Exchange}
    (h : callsOf trace = after ++ e :: before) :
    e.IsCall ∧
      ∃ later earlier, trace = later ++ .exchange e :: earlier ∧ callsOf earlier = before := by
  obtain ⟨first, rest, htrace, -, hrest⟩ := List.filterMap_eq_append_iff.mp h
  obtain ⟨middle, action, earlier, hsplit, -, haction, hearlier⟩ :=
    List.filterMap_eq_cons_iff.mp hrest
  obtain ⟨rfl, hcall⟩ := RelayAction.call?_eq_some.mp haction
  refine ⟨hcall, first ++ middle, earlier, ?_, hearlier⟩
  rw [htrace, hsplit, List.append_assoc]

/-- After a call that failed, a relay connects before it calls anything else. -/
theorem connect_of_failed (h : Orderly trace) {e failed : Exchange} {error : ClientError}
    {after before : List Exchange} (hcalls : callsOf trace = after ++ e :: failed :: before)
    (hfailed : failed.error? = some error) : ∃ answer, e = .connect answer := by
  obtain ⟨hcall, later, earlier, rfl, hearlier⟩ := exists_of_callsOf hcalls
  have hfits : e.Fits (memoryOf earlier) (callsOf earlier).head? := h.fits
  rw [hearlier, List.head?_cons] at hfits
  cases e with
  | connect answer => exact ⟨answer, rfl⟩
  | lastCertificate answer =>
    cases hfits
    cases hfailed
  | isIncluded transaction answer => exact absurd (hfits.2.1.symm.trans hfailed) nofun
  | submit command update answer => exact absurd (hfits.2.1.symm.trans hfailed) nofun
  | verify query answer => exact hcall.elim

/-- A submission stays in flight until its transaction is settled. -/
theorem pending_of_unsettled (h : Orderly (between ++ earlier))
    (hpending : (memoryOf earlier).pending = some (transaction, c))
    (hunsettled : ∀ action ∈ between, ¬action.EndsWait transaction) :
    (memoryOf (between ++ earlier)).pending = some (transaction, c) := by
  induction between with
  | nil => exact hpending
  | cons action between ih =>
    cases h with
    | cons orderly fits =>
      have hbefore := ih orderly fun other hother => hunsettled other (.tail _ hother)
      exact RelayMemory.pending_after fits hbefore (hunsettled action (.head _))

/-- Before the next submission, the one in flight is settled. -/
theorem exists_settles {command next : String} {update fresh : CrossChainUpdate}
    {answer : Except ClientError Digest}
    (h : Orderly (later ++ .exchange (.submit next fresh answer) ::
      (between ++ .exchange (.submit command update (.ok transaction)) :: earlier))) :
    ∃ action ∈ between, action.EndsWait transaction := by
  apply Classical.byContradiction
  intro hnone
  -- the first submission would be in flight still, and the second one fits only without it
  have hunsettled : ∀ action ∈ between, ¬action.EndsWait transaction :=
    fun action haction hsettles => hnone ⟨action, haction, hsettles⟩
  have hnext : (RelayAction.exchange (.submit next fresh answer)).Fits _ _ := h.fits
  have hbetween : Orderly
      (between ++ .exchange (.submit command update (.ok transaction)) :: earlier) :=
    h.of_append.tail
  have hfirst : (RelayAction.exchange (.submit command update (.ok transaction))).Fits _ _ :=
    hbetween.fits
  obtain ⟨c, hc⟩ := Option.isSome_iff_exists.mp hfirst.2.2.2
  have hpending : (memoryOf (.exchange (.submit command update (.ok transaction)) ::
      earlier)).pending = some (transaction, c) := by
    simp [memoryOf, RelayMemory.after, hc]
  have hkept := hbetween.pending_of_unsettled hpending hunsettled
  exact absurd (hnext.2.2.1.symm.trans hkept) nofun

end Orderly

/-- The protocol of a relay's calls, as rules on what it did so far, newest first. -/
structure FollowsProtocol (trace : List RelayAction) : Prop where
  orderly : Orderly trace
  /-- After a call that failed, the next one connects. -/
  retries : ∀ after e failed before error, callsOf trace = after ++ e :: failed :: before →
    failed.error? = some error → ∃ answer, e = .connect answer
  /-- Before the next submission, the one that was accepted is included or timed out. -/
  settles : ∀ later next fresh answer between command update transaction earlier,
    trace = later ++ .exchange (.submit next fresh answer) ::
      (between ++ .exchange (.submit command update (.ok transaction)) :: earlier) →
    ∃ action ∈ between, action.EndsWait transaction
  /-- As long as the receiving chain does not tell of its last certificate, it does not fall. -/
  rises : ∀ later between earlier known, trace = later ++ (between ++ earlier) →
    (memoryOf earlier).last = some known → (∀ action ∈ between, ¬action.IsSync) →
    ∃ risen, (memoryOf (between ++ earlier)).last = some risen ∧ known.height ≤ risen.height

theorem Orderly.followsProtocol {trace : List RelayAction} (h : Orderly trace) :
    FollowsProtocol trace where
  orderly := h
  retries := fun _ _ _ _ _ hcalls hfailed => h.connect_of_failed hcalls hfailed
  settles := fun _ _ _ _ _ _ _ _ _ htrace => (htrace ▸ h).exists_settles
  rises := fun _ _ _ _ _ hlast hsync => exists_last_of_append hlast hsync

end ImpliedFinality
