import ImpliedFinality.Proofs.Chronicle
import ImpliedFinality.Proofs.Search
import ImpliedFinality.Proofs.Stages

/-!
# What stands behind a submission

Only the last stage of a relay submits an update. The stages before it may change what the relay
knows of the receiving chain, but not the history, and the last stage reads the history only: the
search, the signature check and the update see the same headers, commits and snapshots.
-/

namespace ImpliedFinality

/-- The update of a submission, whether it was accepted or not. -/
def Exchange.submitted? : Exchange → Option CrossChainUpdate
  | submit _ update _ => some update
  | _ => none

/-- An update tells of a certificate to a chain that accepted the last one. -/
structure CrossChainUpdate.Carries (update : CrossChainUpdate) (chain : ChainId)
    (last : LastCertificate) (c : Certificate) (named : Snapshot) : Prop where
  sendingChain : update.sendingChain = chain
  certificate : Certificate.codec.readAll update.certificate = .ok c
  threshold : update.certificateThreshold = named.certificateThreshold
  validators : update.validators =
    if c.body.validatorsHash = last.validatorsHash then []
    else named.validators.registered.keyWeights

/-- The set that the header below names signed a certificate with enough weight. -/
structure ChainView.Signed (view : ChainView) (check : SignatureCheck) (c : Certificate)
    (commit : AggregateCommit) (parent : Header) (signing : Snapshot) : Prop where
  parentAt : view.header? (c.body.height.below 1) = some parent
  named : view.snapshot? parent.validatorsHash = some signing
  weight : signing.certificateThreshold ≤ signing.validators.signersWeight commit.bits
  signature :
    check signing.validators.blsKeys commit.bits c.body.signingBytes commit.signature = true

namespace Relay

variable {r a b d : Relay} {setup : RelaySetup} {now : Nat} {certified : Height}
  {last : LastCertificate} {header : Header} {commit : AggregateCommit} {c : Certificate}
  {update : CrossChainUpdate}

/-- The updates that a relay submitted so far, newest first. -/
def submissions (r : Relay) : List CrossChainUpdate := r.exchanges.filterMap Exchange.submitted?

theorem submissions_eq (r : Relay) : r.submissions = r.calls.filterMap Exchange.submitted? := by
  simp only [submissions, exchanges, calls, callsOf, List.filterMap_filterMap]
  congr 1
  funext action
  cases action with
  | exchange e => cases e <;> rfl
  | _ => rfl

/-- Between two states nothing was submitted, and the history stayed as it was. -/
structure Quiet (a b : Relay) : Prop where
  history : b.history = a.history
  submissions : b.submissions = a.submissions

namespace Quiet

theorem refl (r : Relay) : Quiet r r := ⟨rfl, rfl⟩

theorem trans (hab : Quiet a b) (hbd : Quiet b d) : Quiet a d :=
  ⟨hbd.history.trans hab.history, hbd.submissions.trans hab.submissions⟩

theorem publish (r : Relay) (event : RelayEvent) : Quiet r (r.publish event) := ⟨rfl, rfl⟩

theorem log (r : Relay) (level : LogLevel) (text : String) : Quiet r (r.log level text) :=
  ⟨rfl, rfl⟩

theorem enter (r : Relay) (phase : RelayPhase) : Quiet r (r.enter phase) := by
  unfold Relay.enter
  split <;> exact ⟨rfl, rfl⟩

theorem disconnect (r : Relay) (error : ClientError) : Quiet r (r.disconnect error) :=
  (log r error.logLevel error.message).trans (enter _ _)

/-- Every exchange but a submission is quiet. -/
theorem exchange (r : Relay) {e : Exchange} (he : e.submitted? = none) :
    Quiet r (r.record (.exchange e)) := by
  refine ⟨rfl, ?_⟩
  show (e :: r.exchanges).filterMap Exchange.submitted? = _
  rw [List.filterMap_cons_none he]
  rfl

theorem of_settles (h : Settles a b) : Quiet a b := by
  cases h with
  | idle free => exact refl a
  | timedOut p inFlight => exact ⟨rfl, rfl⟩
  | failed p e inFlight ready =>
    exact (exchange a (e := .isIncluded p.transaction (.error e)) rfl).trans (disconnect ..)
  | waits p inFlight ready => exact exchange a rfl
  | included p inFlight ready => exact ⟨rfl, rfl⟩

theorem of_connects (h : Connects a b) : Quiet a b := by
  cases h with
  | idle connected => exact refl a
  | failed e apart =>
    have hasked := (enter a .connecting).trans (exchange _ (e := .connect (.error e)) rfl)
    exact hasked.trans (disconnect ..)
  | connected apart =>
    have hasked := (enter a .connecting).trans (exchange _ (e := .connect (.ok ())) rfl)
    exact hasked.trans (enter ..)

theorem of_syncs (h : Syncs a b) : Quiet a b := by
  cases h with
  | idle other => exact refl a
  | failed e syncing =>
    exact (exchange a (e := .lastCertificate (.error e)) rfl).trans (disconnect ..)
  | synced last syncing =>
    have hasked : Quiet a
        { a.record (.exchange (.lastCertificate (.ok last))) with last := some last } := ⟨rfl, rfl⟩
    exact hasked.trans (enter ..)

theorem of_notes (h : Notes a b) : Quiet a b := by
  refine ⟨h.history, ?_⟩
  rw [submissions_eq, submissions_eq, h.calls]

end Quiet

/-- The update tells what the certificate and the history say. -/
theorem carries_of_crossChainUpdate {view : ChainView} {chain : ChainId}
    (h : crossChainUpdate view chain last c = .ok update) :
    ∃ named, view.snapshot? c.body.validatorsHash = some named ∧
      update.Carries chain last c named := by
  unfold crossChainUpdate at h
  dsimp only at h
  split at h
  case h_1 => cases h
  case h_2 named hnamed =>
    split at h
    case h_1 => cases h
    case h_2 bytes hbytes =>
      cases h
      exact ⟨named, hnamed, rfl, Certificate.codec_lawful.readAll_eq_ok.mpr hbytes, rfl, rfl⟩

/-- A signature is checked for signers of enough weight, over the certificate of the commit. -/
theorem signatureQuery_eq_some {s : Snapshot} (derived : Certificate.ofCommit commit header = .ok c)
    {query : SignatureQuery} (h : s.signatureQuery? commit header = .ok (some query)) :
    s.certificateThreshold ≤ s.validators.signersWeight commit.bits ∧
      query = ⟨s.validators.blsKeys, commit.bits, c.body.signingBytes, commit.signature⟩ := by
  obtain ⟨found, hfound, h⟩ := Failure.bind_eq_ok.mp h
  cases derived.symm.trans hfound
  obtain ⟨-, rfl⟩ := Certificate.ofCommit_eq_ok.mp derived
  split at h
  case isTrue => cases h
  case isFalse hweight =>
    cases h
    exact ⟨Weight.not_lt.mp hweight, rfl⟩

/-- The signature check reads the header and the commit that the search found. -/
theorem certificateQuery_eq_some {view : ChainView}
    {trusted : AggregateCommit → Except Failure Bool}
    (tops : view.Tops trusted certified header commit c) {query : SignatureQuery}
    (h : certificateQuery view c = .ok (some query)) :
    ∃ parent signing, view.header? (c.body.height.below 1) = some parent ∧
      view.snapshot? parent.validatorsHash = some signing ∧
      signing.signatureQuery? commit header = .ok (some query) := by
  obtain ⟨foundHeader, hheader, h⟩ := Failure.bind_eq_ok.mp h
  cases tops.headerAt.symm.trans (Failure.elim_eq_ok.mp hheader)
  obtain ⟨foundCommit, hcommit, h⟩ := Failure.bind_eq_ok.mp h
  cases tops.commitAt.symm.trans (Failure.elim_eq_ok.mp hcommit)
  obtain ⟨parent, hparent, h⟩ := Failure.bind_eq_ok.mp h
  obtain ⟨signing, hsigning, h⟩ := Failure.bind_eq_ok.mp h
  exact ⟨parent, signing, Failure.elim_eq_ok.mp hparent, Failure.elim_eq_ok.mp hsigning, h⟩

/-- A certificate passes a configured signature check only if the set that signed it says so. -/
theorem signed_of_verify {trusted : AggregateCommit → Except Failure Bool}
    (tops : r.history.view.Tops trusted certified header commit c)
    (h : (r.verify setup c).2 = true) {check : SignatureCheck} (hcheck : setup.check = some check) :
    ∃ parent signing, r.history.view.Signed check c commit parent signing := by
  unfold verify at h
  rw [hcheck] at h
  dsimp only at h
  split at h
  case h_1 => contradiction
  case h_2 => contradiction
  case h_3 query hquery =>
    obtain ⟨parent, signing, hparent, hsigning, hasked⟩ := certificateQuery_eq_some tops hquery
    obtain ⟨hweight, rfl⟩ := signatureQuery_eq_some tops.derived hasked
    exact ⟨parent, signing, hparent, hsigning, hweight, h⟩

/-- What stands behind an update when a relay submits it. -/
structure Backs (r : Relay) (setup : RelaySetup) (certified : Height) (update : CrossChainUpdate)
    (last : LastCertificate) (known named : Snapshot) (header : Header) (commit : AggregateCommit)
    (c : Certificate) : Prop where
  accepted : r.last = some last
  above : last.height < c.body.height
  knownAt : r.history.view.snapshot? last.validatorsHash = some known
  tops : r.history.view.Tops (r.history.view.trustsAfter last known) certified header commit c
  namedAt : r.history.view.snapshot? c.body.validatorsHash = some named
  carries : update.Carries setup.config.sendingChain last c named
  signed : ∀ check, setup.check = some check →
    ∃ parent signing, r.history.view.Signed check c commit parent signing

/-- Whatever the answer is, a submission is one update of the certificate. -/
theorem submit_cases (r : Relay) (setup : RelaySetup) (now : Nat) (last : LastCertificate)
    (c : Certificate) :
    Quiet r (r.submit setup now last c) ∨
      ∃ update, crossChainUpdate r.history.view setup.config.sendingChain last c = .ok update ∧
        (r.submit setup now last c).submissions = update :: r.submissions := by
  unfold submit
  cases hupdate : crossChainUpdate r.history.view setup.config.sendingChain last c with
  | error e => exact .inl (.log ..)
  | ok update =>
    dsimp only
    generalize setup.chain.submit r.exchanges setup.config.role.submitCommand update = answer
    refine .inr ⟨update, rfl, ?_⟩
    cases answer with
    | error e =>
      exact (Quiet.disconnect (r.record (.exchange
        (.submit setup.config.role.submitCommand update (.error e)))) e).submissions
    | ok transaction => rfl

/-- The last stage submits nothing, or one update for which everything is there. -/
theorem submitNext_cases (filed : r.history.view.Filed) (setup : RelaySetup) (now : Nat)
    (certified : Height) :
    Quiet r (r.submitNext setup now certified) ∨
      ∃ update last known named header commit c,
        r.Backs setup certified update last known named header commit c ∧
          (r.submitNext setup now certified).submissions = update :: r.submissions := by
  unfold submitNext
  split
  case h_1 => exact .inl (.refl r)
  case h_2 last hlast =>
    split
    case h_1 => exact .inl (.log ..)
    case h_2 => exact .inl (.refl r)
    case h_3 c hfound =>
      obtain ⟨habove, known, header, commit, hknown, htops⟩ :=
        filed.byHeight.nextCertificate_eq_some_iff.mp hfound
      have hasked : Quiet r ((r.publish (.certificateFound c.body.height c.body.block)).verify setup
          c).1 := (Quiet.publish ..).trans (.of_notes (.verify ..))
      have hsigned : ((r.publish (.certificateFound c.body.height c.body.block)).verify setup
          c).2 = true → ∀ check, setup.check = some check →
            ∃ parent signing, r.history.view.Signed check c commit parent signing :=
        fun hverified check hcheck => signed_of_verify
          (r := r.publish (.certificateFound c.body.height c.body.block)) htops hverified hcheck
      dsimp only
      generalize (r.publish (.certificateFound c.body.height c.body.block)).verify setup c = asked
        at hasked hsigned ⊢
      obtain ⟨next, verified⟩ := asked
      cases verified with
      | false => exact .inl hasked
      | true =>
        rcases submit_cases next setup now last c with
          hquiet | ⟨update, hupdate, hsubmissions⟩
        · exact .inl (hasked.trans hquiet)
        · rw [hasked.history] at hupdate
          obtain ⟨named, hnamed, hcarries⟩ := carries_of_crossChainUpdate hupdate
          exact .inr ⟨update, last, known, named, header, commit, c,
            ⟨hlast, habove, hknown, htops, hnamed, hcarries, hsigned rfl⟩,
            hsubmissions.trans (congrArg (update :: ·) hasked.submissions)⟩

section Notification

variable (r : Relay) (setup : RelaySetup) (now : Nat) (block : NewBlock)

theorem quiet_prepare : Quiet (r.remember block) (r.prepare setup now block) :=
  ((Quiet.of_settles (settles ..)).trans (.of_connects (connects ..))).trans (.of_syncs (syncs ..))

theorem submissions_prepare : (r.prepare setup now block).submissions = r.submissions :=
  (quiet_prepare ..).submissions

theorem submissions_forget : (r.forget setup).submissions = r.submissions := by
  unfold forget
  split <;> rfl

variable {r}

theorem lasting_prepare {P : History → Prop} {right : Snapshot → Prop}
    (lasting : History.Lasting P right) (h : P r.history)
    (hblock : ∀ s, block.snapshot = some s → right s) : P (r.prepare setup now block).history := by
  have hheader := lasting.insertHeader block.header h
  rw [(quiet_prepare r setup now block).history]
  unfold remember
  dsimp only
  split
  case h_1 snapshot hsnapshot => exact lasting.insertSnapshot (hblock snapshot hsnapshot) hheader
  case h_2 => exact hheader

theorem lasting_forget {P : History → Prop} {right : Snapshot → Prop}
    (lasting : History.Lasting P right) (h : P r.history) : P (r.forget setup).history := by
  unfold forget
  split
  · exact h
  · exact lasting.pruneBelow _ h

/-- A notification keeps what lasts, if the snapshot that comes with the block is right. -/
theorem lasting_onBlock {P : History → Prop} {right : Snapshot → Prop}
    (lasting : History.Lasting P right) (h : P r.history)
    (hblock : ∀ s, block.snapshot = some s → right s) :
    P (r.onBlock setup now block).history := by
  have hprepared := lasting_prepare setup now block lasting h hblock
  obtain ⟨q, hq, hlast⟩ := exists_submits r setup now block
  rw [hq]
  apply lasting_forget setup lasting
  rcases hlast with rfl | ⟨-, -, hsubmits⟩
  · exact hprepared
  · rwa [hsubmits.history]

theorem lasting_run {P : History → Prop} {right : Snapshot → Prop}
    (lasting : History.Lasting P right) (h : P r.history) (blocks : List (Nat × NewBlock))
    (hblocks : ∀ b ∈ blocks, ∀ s, b.2.snapshot = some s → right s) :
    P (r.run setup blocks).history := by
  induction blocks generalizing r with
  | nil => exact h
  | cons b rest ih =>
    have hfirst := lasting_onBlock setup b.1 b.2 lasting h (hblocks b (.head _))
    exact ih hfirst fun other hother => hblocks other (.tail _ hother)

/-- A notification submits nothing, or one update for which everything is there once the relay is
prepared. -/
theorem onBlock_cases (filed : r.history.view.Filed) :
    (r.onBlock setup now block).history.view.Filed ∧
      ((r.onBlock setup now block).submissions = r.submissions ∨
        ∃ update last known named header commit c,
          (r.onBlock setup now block).submissions = update :: r.submissions ∧
            (r.prepare setup now block).Backs setup block.watermarks.certified update last known
              named header commit c) := by
  refine ⟨lasting_onBlock setup now block History.lasting_filed filed fun _ _ => trivial, ?_⟩
  have hprepared : (r.prepare setup now block).history.view.Filed :=
    lasting_prepare setup now block History.lasting_filed filed fun _ _ => trivial
  have hbefore := submissions_prepare r setup now block
  unfold onBlock
  dsimp only
  rw [submissions_forget]
  split
  case isFalse => exact .inl hbefore
  case isTrue =>
    rcases submitNext_cases hprepared setup now block.watermarks.certified with
      hquiet | ⟨update, last, known, named, header, commit, c, hbacks, hsubmissions⟩
    · exact .inl (hquiet.submissions.trans hbefore)
    · refine .inr ⟨update, last, known, named, header, commit, c, ?_, hbacks⟩
      rw [hsubmissions, hbefore]

theorem filed_run (filed : r.history.view.Filed) (blocks : List (Nat × NewBlock)) :
    (r.run setup blocks).history.view.Filed :=
  lasting_run setup History.lasting_filed filed blocks fun _ _ _ _ => trivial

end Notification

/-- After any notifications, and whatever the receiving chain answers, a relay submits at most one
update for the next one. Its certificate is the one of the highest commit that is trusted after the
last certificate, the update tells what the history says about it, and its signature was checked if
the relay does so. -/
theorem submission_backed (setup : RelaySetup) (history : History) (filed : history.view.Filed)
    (blocks : List (Nat × NewBlock)) (now : Nat) (block : NewBlock) :
    let r := (new history).run setup blocks
    (r.onBlock setup now block).submissions = r.submissions ∨
      ∃ update last known named header commit c,
        (r.onBlock setup now block).submissions = update :: r.submissions ∧
          (r.prepare setup now block).Backs setup block.watermarks.certified update last known named
            header commit c := by
  intro r
  have hfiled : r.history.view.Filed := filed_run setup filed blocks
  exact (onBlock_cases setup now block hfiled).2

end Relay

namespace Solo

/-- A chain that knows the genesis block of one validator, and accepts everything. -/
def receiver : ReceivingChain where
  connect _ := .ok ()
  lastCertificate _ := .ok ⟨.zero, .zero⟩
  submit _ _ _ := .ok .zero
  isIncluded _ _ := .ok true

/-- A relay to this chain that takes every signature for right. -/
def relaySetup : RelaySetup where
  config := { role := .mainchain, sendingChain := .zero, timeout := 1, logEvents := false }
  chain := receiver
  check := some fun _ _ _ _ => true

/-- The blocks at heights 1 and 2. -/
def notifications : List (Nat × NewBlock) :=
  [(0, ⟨header (height 1) .zero .zero 0, ⟨.zero, .zero, .zero⟩,
      some ⟨[validator], validator.weight, .zero, .zero⟩⟩),
    (0, ⟨header (height 2) .zero .zero 0, ⟨.zero, .zero, .zero⟩, none⟩)]

/-- The block at height 3, which certifies the one below. -/
def certifying : NewBlock where
  header := { header (height 3) .zero .zero 0 with commit := ⟨height 2, ⟨[1]⟩, .empty⟩ }
  watermarks := ⟨height 2, height 2, height 2⟩
  snapshot := none

end Solo

namespace Relay

open Solo (relaySetup notifications certifying)

/-- The third block makes a relay submit the certificate of the second one. -/
theorem submission_backed_solo :
    let r := (new .empty).run relaySetup notifications
    ∃ update last known named header commit c,
      (r.onBlock relaySetup 0 certifying).submissions = [update] ∧
        (r.prepare relaySetup 0 certifying).Backs relaySetup certifying.watermarks.certified update
          last known named header commit c := by
  intro r
  have hbefore : r.submissions = [] := by decide +kernel
  have hsubmits : (r.onBlock relaySetup 0 certifying).submissions.length = 1 := by decide +kernel
  rcases submission_backed relaySetup .empty History.filed_empty notifications 0 certifying with
    hsame | ⟨update, last, known, named, header, commit, c, hsubmissions, hbacks⟩
  · rw [hsame, hbefore] at hsubmits
    contradiction
  · rw [hbefore] at hsubmissions
    exact ⟨update, last, known, named, header, commit, c, hsubmissions, hbacks⟩

end Relay

end ImpliedFinality
