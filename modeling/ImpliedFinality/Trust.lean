import ImpliedFinality.Certificate
import ImpliedFinality.History

/-! # Chains of trust

A receiving chain accepts a certificate if validators that it knows signed with enough weight. The
search goes down from the certified height and ends at the first certificate that the receiving
chain can trust. -/

namespace ImpliedFinality

/-- The weights of registered keys. Of validators with the same key the last one counts. -/
def Snapshot.trustedWeights (s : Snapshot) : Table BlsKey Weight :=
  .ofList (s.validators.registered.map fun v => (v.blsKey, v.weight))

/-- The capped sum of the trusted weights of signers, if all of them are trusted. -/
def trustedWeight? (trusted : Table BlsKey Weight) (signers : Validators) : Option Weight := do
  let weights ← signers.mapM fun v => trusted.get? v.blsKey
  some (Weight.sum weights)

namespace ChainView

/-- Whether a receiving chain that trusts the set named by `lastHash` can trust a commit. The
commit is signed by the set that the header below it names. Any other set needs signers that are
all trusted and weigh at least the threshold. -/
def trusts (view : ChainView) (lastHash : Digest) (trusted : Table BlsKey Weight)
    (threshold : Weight) (commit : AggregateCommit) : Except Failure Bool :=
  match commit.height.sub? 1 with
  | none => .error (.missingHeader commit.height)
  | some below =>
    match view.header? below with
    | none => .error (.missingHeader below)
    | some parent =>
      if parent.validatorsHash = lastHash then .ok true
      else match view.snapshot? parent.validatorsHash with
      | none => .error (.missingSnapshot parent.validatorsHash)
      | some signing =>
        match trustedWeight? trusted (signing.validators.signers commit.bits) with
        | none => .ok false
        | some weight => .ok (threshold ≤ weight)

/-- The certificate at the greatest of the `count` heights down from `height` whose commit is
trusted. -/
def searchDown (view : ChainView) (trusted : AggregateCommit → Except Failure Bool) :
    Nat → Height → Except Failure (Option Certificate)
  | 0, _ => .ok none
  | count + 1, height =>
    match view.commit? height with
    | none => view.searchDown trusted count (height.below 1)
    | some commit =>
      match trusted commit with
      | .error e => .error e
      | .ok false => view.searchDown trusted count (height.below 1)
      | .ok true =>
        match view.header? height with
        | none => .error (.missingHeader height)
        | some header => (Certificate.ofCommit commit header).map some

/-- The certificate of the highest certified block above the last certificate that can be trusted.
-/
def nextCertificate (view : ChainView) (last : LastCertificate) (certified : Height) :
    Except Failure (Option Certificate) :=
  if certified ≤ last.height then .ok none
  else match view.snapshot? last.validatorsHash with
  | none => .error (.missingSnapshot last.validatorsHash)
  | some trusted =>
    match last.height.succ? with
    | none => .error .heightOutOfRange
    | some lowest =>
      view.searchDown
        (view.trusts last.validatorsHash trusted.trustedWeights trusted.certificateThreshold)
        (certified.toNat + 1 - lowest.toNat) certified

end ChainView

/-- A check of an aggregate signature: the keys of the whole set in BLS key order, the bitmap of the
signers, the message and the signature. -/
abbrev SignatureCheck := List BlsKey → Bitmap → Bytes → Signature → Bool

/-- The arguments of one call of a signature check. -/
structure SignatureQuery where
  keys : List BlsKey
  bits : Bitmap
  message : Bytes
  signature : Signature
deriving DecidableEq

/-- The question whether a commit's signature is right, if its signers weigh enough to ask it. -/
def Snapshot.signatureQuery? (s : Snapshot) (commit : AggregateCommit) (header : Header) :
    Except Failure (Option SignatureQuery) := do
  let certificate ← Certificate.ofCommit commit header
  if s.validators.signersWeight certificate.bits < s.certificateThreshold then return none
  return some
    ⟨s.validators.blsKeys, certificate.bits, certificate.body.signingBytes, certificate.signature⟩

def SignatureQuery.holds (check : SignatureCheck) (q : SignatureQuery) : Bool :=
  check q.keys q.bits q.message q.signature

/-- Whether a commit certifies a header: its signers weigh enough and the aggregate signature is
right. -/
def Snapshot.verifies (s : Snapshot) (check : SignatureCheck) (commit : AggregateCommit)
    (header : Header) : Except Failure Bool := do
  let query ← s.signatureQuery? commit header
  return query.any (·.holds check)

end ImpliedFinality
