import ImpliedFinality.Header
import ImpliedFinality.Store

/-! # Chain history

Certificates are found in the headers, aggregate commits and snapshots of the past. `ChainView` is
all that the search reads, and `History` keeps it for one relay. -/

namespace ImpliedFinality

/-- What is available of the past. -/
structure ChainView where
  header? : Height → Option Header
  commit? : Height → Option AggregateCommit
  snapshot? : Digest → Option Snapshot

/-- Headers by height, commits by the height that they are about, and snapshots by name. -/
structure History where
  headers : Table Height Header
  commits : Table Height AggregateCommit
  snapshots : Table Digest Snapshot
deriving DecidableEq

namespace History

def empty : History := ⟨.empty, .empty, .empty⟩

/-- What the search sees of a history. -/
def view (h : History) : ChainView := ⟨h.headers.get?, h.commits.get?, h.snapshots.get?⟩

/-- Files a commit under the height that it is about, in place of an earlier one. -/
def insertCommit (h : History) (commit : AggregateCommit) : History :=
  { h with commits := h.commits.insert commit.height commit }

/-- Adds a header, and the commit that it carries if that is not empty. -/
def insertHeader (h : History) (header : Header) : History :=
  let h := if header.commit.isEmpty then h else h.insertCommit header.commit
  { h with headers := h.headers.insert header.height header }

/-- Files a snapshot under its name, in place of an earlier one. -/
def insertSnapshot (h : History) (snapshot : Snapshot) : History :=
  { h with snapshots := h.snapshots.insert snapshot.validatorsHash snapshot }

/-- Adds all snapshots of a store, and counts them. -/
def loadSnapshots (h : History) (store : Store) : Except StoreError (Nat × History) := do
  let all ← store.snapshots
  .ok (all.length, all.foldl insertSnapshot h)

def newestHeight? (h : History) : Option Height := h.headers.last?.map (·.1)

/-- The greatest height, not above a given one, from which a kept snapshot is active. -/
def newestActive? (h : History) (height : Height) : Option Height :=
  ((h.snapshots.entries.map fun e => e.2.activeFrom).filter (· ≤ height)).max?

/-- Drops headers and commits below a height, and snapshots that went out of use before it. -/
def pruneBelow (h : History) (height : Height) : History where
  headers := h.headers.filter fun k _ => height ≤ k
  commits := h.commits.filter fun k _ => height ≤ k
  snapshots := match h.newestActive? height with
    | none => h.snapshots
    | some newest => h.snapshots.filter fun _ s => newest ≤ s.activeFrom

end History

end ImpliedFinality
