import ImpliedFinality.Base64
import ImpliedFinality.Height
import ImpliedFinality.Log
import ImpliedFinality.Octets

/-! # Events of a relay -/

namespace ImpliedFinality

/-- How far a relay is connected. In the phase `ready` it knows the last certificate. -/
inductive RelayPhase
  | disconnected
  | connecting
  | syncing
  | ready
deriving DecidableEq

def RelayPhase.name : RelayPhase → String
  | disconnected => "Disconnected"
  | connecting => "Connecting"
  | syncing => "Syncing"
  | ready => "Ready"

/-- What is told of a relay: its phases, and what becomes of each certificate that it finds. -/
inductive RelayEvent
  | phaseChanged (before after : RelayPhase)
  | certificateFound (height : Height) (block : Digest)
  | updateSubmitted (height : Height) (transaction : Digest)
  | submissionIncluded (transaction : Digest)
  | submissionTimedOut (transaction : Digest)
deriving DecidableEq

/-- The line about an event that happened at a time. -/
def RelayEvent.logLine (time : String) : RelayEvent → LogLine
  | phaseChanged before after =>
    .ofValues .info ["ConnectorStateChange", time, before.name, after.name]
  | certificateFound height block =>
    .ofValues .info ["NewCertificate", time, toString height, Base64.short block.bytes]
  | updateSubmitted height transaction =>
    .ofValues .info
      ["SubmitCrossChainUpdate", time, toString height, Base64.short transaction.bytes]
  | submissionIncluded transaction =>
    .ofValues .info ["SubmissionIncluded", time, Base64.short transaction.bytes]
  | submissionTimedOut transaction =>
    .ofValues .warn ["SubmissionTimeout", time, Base64.short transaction.bytes]

end ImpliedFinality
