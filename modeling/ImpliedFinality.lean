import ImpliedFinality.Base64
import ImpliedFinality.Bitmap
import ImpliedFinality.Bytes
import ImpliedFinality.Certificate
import ImpliedFinality.Ed25519.Curve
import ImpliedFinality.Ed25519.Field
import ImpliedFinality.Ed25519.Signing
import ImpliedFinality.Failure
import ImpliedFinality.Gadget.Basic
import ImpliedFinality.Gadget.Change
import ImpliedFinality.Gadget.Event
import ImpliedFinality.Gadget.Run
import ImpliedFinality.Header
import ImpliedFinality.Height
import ImpliedFinality.Hex
import ImpliedFinality.History
import ImpliedFinality.Ledger.Basic
import ImpliedFinality.Ledger.Contradiction
import ImpliedFinality.Ledger.Finality
import ImpliedFinality.Ledger.Votes
import ImpliedFinality.Log
import ImpliedFinality.Octets
import ImpliedFinality.Parameters
import ImpliedFinality.Relay.Basic
import ImpliedFinality.Relay.Client
import ImpliedFinality.Relay.Event
import ImpliedFinality.Rotation
import ImpliedFinality.Sha2
import ImpliedFinality.Sorting
import ImpliedFinality.Store
import ImpliedFinality.Table
import ImpliedFinality.Timeline
import ImpliedFinality.Trust
import ImpliedFinality.Validator
import ImpliedFinality.Weight
import ImpliedFinality.Wire
import ImpliedFinality.Proofs.Contents
import ImpliedFinality.Proofs.Transition
import ImpliedFinality.Proofs.Ballot
import ImpliedFinality.Proofs.Casting
import ImpliedFinality.Proofs.Intake
import ImpliedFinality.Proofs.Quorum
import ImpliedFinality.Proofs.Watermarks
import ImpliedFinality.Proofs.Canonical
import ImpliedFinality.Proofs.Chain
import ImpliedFinality.Proofs.Chronicle
import ImpliedFinality.Proofs.Commits
import ImpliedFinality.Proofs.Tally
import ImpliedFinality.Proofs.Prevotes
import ImpliedFinality.Proofs.Precommits
import ImpliedFinality.Proofs.Accountability
import ImpliedFinality.Proofs.Honesty
import ImpliedFinality.Proofs.Filing
import ImpliedFinality.Proofs.Search
import ImpliedFinality.Proofs.Stages
import ImpliedFinality.Proofs.Submission
import ImpliedFinality.Proofs.Protocol
import ImpliedFinality.Proofs.Conversation
import ImpliedFinality.Proofs.Retrying
import ImpliedFinality.Proofs.Handover
import ImpliedFinality.Proofs.Progress
import ImpliedFinality.Proofs.Pruning
import ImpliedFinality.Proofs.Course
import ImpliedFinality.Proofs.Retention
import ImpliedFinality.Proofs.Parameters
import ImpliedFinality.Proofs.Rotation
import ImpliedFinality.Proofs.Expiry
import ImpliedFinality.Proofs.Electorate
import ImpliedFinality.Proofs.Turns
import ImpliedFinality.Proofs.Rounds
import ImpliedFinality.Proofs.Lag
import ImpliedFinality.Proofs.Tables
import ImpliedFinality.Proofs.Announcements
import ImpliedFinality.Proofs.Symmetry
import ImpliedFinality.Proofs.Overlap
import ImpliedFinality.Proofs.Coverage
import ImpliedFinality.Proofs.Trust
import ImpliedFinality.Proofs.Raising
import ImpliedFinality.Proofs.Reports
import ImpliedFinality.Proofs.Forgetting
import ImpliedFinality.Proofs.Ranking
import ImpliedFinality.Proofs.Reordering
import ImpliedFinality.Proofs.Naming
import ImpliedFinality.Proofs.Bitmap
import ImpliedFinality.Proofs.Fairness
import ImpliedFinality.Proofs.Range
