import ImpliedFinality.Log
import ImpliedFinality.Trust

/-! # The receiving chain

A relay talks to the receiving chain by requests that may fail. How the chain answers a request
may depend on everything that was said before. -/

namespace ImpliedFinality

/-- Whether the sending chain is the mainchain or a sidechain. -/
inductive ChainRole
  | mainchain
  | sidechain
deriving DecidableEq

/-- The command by which a chain of this role submits an update. -/
def ChainRole.submitCommand : ChainRole → String
  | mainchain => "submitMainchainCrossChainUpdate"
  | sidechain => "submitSidechainCrossChainUpdate"

/-- Tells the receiving chain of a certificate, and of the keys and weights of the set that it
names if that set is new. -/
structure CrossChainUpdate where
  sendingChain : ChainId
  certificate : Bytes
  validators : KeyWeights
  certificateThreshold : Weight
deriving DecidableEq

namespace CrossChainUpdate

/-- The certificate is a byte string of its own in the written form of an update. -/
def codec : Codec CrossChainUpdate :=
  ((Codec.octets 4).pair <| Codec.bytes.pair <| KeyWeights.codec.pair Codec.weight).iso
    (fun (s, c, v, t) => ⟨s, c, v, t⟩)
    (fun u => (u.sendingChain, u.certificate, u.validators, u.certificateThreshold))

theorem codec_lawful : codec.Lawful :=
  Codec.iso_lawful
    (Codec.pair_lawful (Codec.octets_lawful 4) <| Codec.pair_lawful Codec.bytes_lawful <|
      Codec.pair_lawful KeyWeights.codec_lawful Codec.weight_lawful)
    (fun _ => rfl) (fun _ => rfl)

end CrossChainUpdate

/-- Why the receiving chain did not answer. The kind decides how loudly that is logged. -/
inductive ClientError
  | transient (reason : String)
  | fatal (reason : String)
deriving DecidableEq

/-- The text of an error, which starts with its kind. -/
def ClientError.message : ClientError → String
  | transient reason => "transient client error: " ++ reason
  | fatal reason => "fatal client error: " ++ reason

/-- Errors that may pass are warnings in the log. -/
def ClientError.logLevel : ClientError → LogLevel
  | transient _ => .warn
  | fatal _ => .error

/-- A request with its answer. Checks of aggregate signatures are part of the conversation too. -/
inductive Exchange
  | connect (answer : Except ClientError Unit)
  | lastCertificate (answer : Except ClientError LastCertificate)
  | submit (command : String) (update : CrossChainUpdate) (answer : Except ClientError Digest)
  | isIncluded (transaction : Digest) (answer : Except ClientError Bool)
  | verify (query : SignatureQuery) (answer : Bool)

/-- How a receiving chain answers, given the exchanges so far, newest first. -/
structure ReceivingChain where
  connect : List Exchange → Except ClientError Unit
  lastCertificate : List Exchange → Except ClientError LastCertificate
  submit : List Exchange → String → CrossChainUpdate → Except ClientError Digest
  isIncluded : List Exchange → Digest → Except ClientError Bool

end ImpliedFinality
