import ImpliedFinality.Gadget.Basic
import ImpliedFinality.Relay.Client
import ImpliedFinality.Relay.Event

/-! # The relay

A relay carries certificates of one chain to another. It acts on each new block: it settles the
submission that is in flight, connects as far as the receiving chain allows, and submits the next
certificate if nothing is in flight. Whatever it does is a stage that extends its trace. -/

namespace ImpliedFinality

/-- The chains that a relay serves, and how it treats what is old. -/
structure RelayConfig where
  role : ChainRole
  sendingChain : ChainId
  /-- How long a submission may stay in flight. -/
  timeout : Nat
  /-- How many heights below the last certificate the history reaches. -/
  retention : Nat := 1000
  logEvents : Bool
deriving DecidableEq

/-- What a relay works with and does not change. Without a check, aggregate signatures are taken
on trust. -/
structure RelaySetup where
  config : RelayConfig
  chain : ReceivingChain
  check : Option SignatureCheck

/-- A submitted update that is not known to be included. -/
structure PendingSubmission where
  transaction : Digest
  certificate : LastCertificate
  since : Nat
deriving DecidableEq

/-- One thing that a relay did. -/
inductive RelayAction
  | exchange (exchange : Exchange)
  | event (event : RelayEvent)
  | log (line : LogLine)

/-- The exchange with the receiving chain, if an action is one. -/
def RelayAction.exchange? : RelayAction → Option Exchange
  | .exchange e => some e
  | _ => none

def RelayAction.event? : RelayAction → Option RelayEvent
  | .event e => some e
  | _ => none

def RelayAction.log? : RelayAction → Option LogLine
  | .log l => some l
  | _ => none

/-- The trace lists what the relay did so far, newest first. -/
structure Relay where
  phase : RelayPhase
  history : History
  last : Option LastCertificate
  pending : Option PendingSubmission
  trace : List RelayAction

namespace Relay

/-- A relay that has not done anything. -/
def new (history : History) : Relay := ⟨.disconnected, history, none, none, []⟩

/-- What was said so far to the receiving chain and by it, newest first. -/
def exchanges (r : Relay) : List Exchange := r.trace.filterMap RelayAction.exchange?

def record (r : Relay) (action : RelayAction) : Relay := { r with trace := action :: r.trace }

/-- Tells of an event. -/
def publish (r : Relay) (event : RelayEvent) : Relay := r.record (.event event)

def log (r : Relay) (level : LogLevel) (text : String) : Relay := r.record (.log ⟨level, text⟩)

/-- Changes the phase and tells of it, unless the relay is in that phase already. -/
def enter (r : Relay) (phase : RelayPhase) : Relay :=
  if r.phase = phase then r
  else { r with phase := phase }.publish (.phaseChanged r.phase phase)

/-- Gives up the connection because of an error. -/
def disconnect (r : Relay) (error : ClientError) : Relay :=
  (r.log error.logLevel error.message).enter .disconnected

/-- Adds a new block to the history. -/
def remember (r : Relay) (block : NewBlock) : Relay :=
  let history := r.history.insertHeader block.header
  { r with history := match block.snapshot with
      | some snapshot => history.insertSnapshot snapshot
      | none => history }

/-- The higher one of the last certificate and an included one. -/
def adopt (last : Option LastCertificate) (included : LastCertificate) : LastCertificate :=
  match last with
  | none => included
  | some known => if known.height < included.height then included else known

/-- Forgets a submission that is in flight for too long, or asks whether it is included. -/
def settle (r : Relay) (setup : RelaySetup) (now : Nat) : Relay :=
  match r.pending with
  | none => r
  | some p =>
    if setup.config.timeout ≤ now - p.since then
      { r with pending := none }.publish (.submissionTimedOut p.transaction)
    else if r.phase ≠ .ready then r
    else
      let answer := setup.chain.isIncluded r.exchanges p.transaction
      let r := r.record (.exchange (.isIncluded p.transaction answer))
      match answer with
      | .error e => r.disconnect e
      | .ok false => r
      | .ok true =>
        { r with pending := none, last := some (adopt r.last p.certificate) }.publish
          (.submissionIncluded p.transaction)

/-- Connects if that is to be done. -/
def connect (r : Relay) (setup : RelaySetup) : Relay :=
  let r := if r.phase = .disconnected then r.enter .connecting else r
  if r.phase ≠ .connecting then r
  else
    let answer := setup.chain.connect r.exchanges
    let r := r.record (.exchange (.connect answer))
    match answer with
    | .error e => r.disconnect e
    | .ok () => r.enter .syncing

/-- Asks for the last certificate if the relay is connected without knowing it. -/
def sync (r : Relay) (setup : RelaySetup) : Relay :=
  if r.phase ≠ .syncing then r
  else
    let answer := setup.chain.lastCertificate r.exchanges
    let r := r.record (.exchange (.lastCertificate answer))
    match answer with
    | .error e => r.disconnect e
    | .ok last => { r with last := some last }.enter .ready

/-- The signature check of a certificate against the set that signed it, which the header below
names. -/
def certificateQuery (view : ChainView) (certificate : Certificate) :
    Except Failure (Option SignatureQuery) := do
  let height := certificate.body.height
  let header ← (view.header? height).elim (.error (.missingHeader height)) .ok
  let commit ← (view.commit? height).elim (.error (.missingCommit height)) .ok
  let below := height.below 1
  let parent ← (view.header? below).elim (.error (.missingHeader below)) .ok
  let signing ← (view.snapshot? parent.validatorsHash).elim
    (.error (.missingSnapshot parent.validatorsHash)) .ok
  signing.signatureQuery? commit header

/-- Checks the signature of a certificate, and says whether it may be submitted. -/
def verify (r : Relay) (setup : RelaySetup) (certificate : Certificate) : Relay × Bool :=
  let height := toString certificate.body.height
  let unverified :=
    "aggregate signature of the certificate at height " ++ height ++ " does not verify"
  match setup.check with
  | none => (r, true)
  | some check =>
    match certificateQuery r.history.view certificate with
    | .error e =>
      let reason := "cannot verify the certificate at height " ++ height ++ ": " ++ e.message
      (r.log .debug reason, false)
    | .ok none => (r.log .warn unverified, false)
    | .ok (some query) =>
      let answer := query.holds check
      let r := r.record (.exchange (.verify query answer))
      (if answer then r else r.log .warn unverified, answer)

/-- The update that carries a certificate to a chain that accepted the last one. -/
def crossChainUpdate (view : ChainView) (chain : ChainId) (last : LastCertificate)
    (certificate : Certificate) : Except Failure CrossChainUpdate :=
  let validatorsHash := certificate.body.validatorsHash
  match view.snapshot? validatorsHash with
  | none => .error (.missingSnapshot validatorsHash)
  | some named =>
    match Certificate.codec.write certificate with
    | .error e => .error (.unwritable e)
    | .ok bytes => .ok {
        sendingChain := chain
        certificate := bytes
        validators :=
          if validatorsHash = last.validatorsHash then []
          else named.validators.registered.keyWeights
        certificateThreshold := named.certificateThreshold }

/-- Submits a certificate. -/
def submit (r : Relay) (setup : RelaySetup) (now : Nat) (last : LastCertificate)
    (certificate : Certificate) : Relay :=
  match crossChainUpdate r.history.view setup.config.sendingChain last certificate with
  | .error e => r.log .debug ("cannot build a cross-chain update: " ++ e.message)
  | .ok update =>
    let command := setup.config.role.submitCommand
    let answer := setup.chain.submit r.exchanges command update
    let r := r.record (.exchange (.submit command update answer))
    match answer with
    | .error e => r.disconnect e
    | .ok transaction =>
      { r with pending := some ⟨transaction, certificate.last, now⟩ }.publish
        (.updateSubmitted certificate.body.height transaction)

/-- Looks for a certificate above the last one, and submits it if its signature is right. -/
def submitNext (r : Relay) (setup : RelaySetup) (now : Nat) (certified : Height) : Relay :=
  match r.last with
  | none => r
  | some last =>
    match r.history.view.nextCertificate last certified with
    | .error e =>
      r.log .debug ("no certificate after height " ++ toString last.height ++ ": " ++ e.message)
    | .ok none => r
    | .ok (some certificate) =>
      let r := r.publish (.certificateFound certificate.body.height certificate.body.block)
      let (r, verified) := r.verify setup certificate
      if verified then r.submit setup now last certificate else r

/-- Drops the history that is too far below the last certificate. -/
def forget (r : Relay) (setup : RelaySetup) : Relay :=
  match r.last with
  | none => r
  | some last =>
    { r with history := r.history.pruneBelow (last.height.below setup.config.retention) }

/-- Learns of a new block, settles the submission in flight, and connects as far as the chain
allows. -/
def prepare (r : Relay) (setup : RelaySetup) (now : Nat) (block : NewBlock) : Relay :=
  (((r.remember block).settle setup now).connect setup).sync setup

/-- What a relay does about a new block. -/
def onBlock (r : Relay) (setup : RelaySetup) (now : Nat) (block : NewBlock) : Relay :=
  let r := r.prepare setup now block
  let r := if r.phase = .ready ∧ r.pending = none then
      r.submitNext setup now block.watermarks.certified
    else r
  r.forget setup

/-- What a relay does about a list of blocks, each with the time at which it comes. -/
def run (r : Relay) (setup : RelaySetup) (blocks : List (Nat × NewBlock)) : Relay :=
  blocks.foldl (fun r b => r.onBlock setup b.1 b.2) r

end Relay

end ImpliedFinality
