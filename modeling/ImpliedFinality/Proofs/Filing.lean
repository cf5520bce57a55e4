import ImpliedFinality.History

/-!
# Where a history keeps its records

A history keeps headers and commits under the heights that they are for, and snapshots under the
hashes that they name. Whatever is added to a history goes to its own place, and nothing is moved
when records are dropped.
-/

namespace ImpliedFinality

/-- Whatever is found under a name bears that name. -/
structure ChainView.Filed (view : ChainView) : Prop where
  headers : ∀ {k header}, view.header? k = some header → header.height = k
  commits : ∀ {k commit}, view.commit? k = some commit → commit.height = k
  snapshots : ∀ {k snapshot}, view.snapshot? k = some snapshot → snapshot.validatorsHash = k

/-- Headers and commits are found under their own heights. -/
structure ChainView.FiledByHeight (view : ChainView) : Prop where
  headers : ∀ {k header}, view.header? k = some header → header.height = k
  commits : ∀ {k commit}, view.commit? k = some commit → commit.height = k

theorem ChainView.Filed.byHeight {view : ChainView} (filed : view.Filed) : view.FiledByHeight :=
  ⟨filed.headers, filed.commits⟩

namespace Table

variable {κ α : Type} [Ord κ] [Std.TransOrd κ] [Std.LawfulEqOrd κ] {t : Table κ α} {n : α → κ}

/-- In a table of values under their names, a value is put under its own name. -/
theorem named_insert (h : ∀ {k v}, t.get? k = some v → n v = k) (w : α) {k : κ} {v : α}
    (hv : (t.insert (n w) w).get? k = some v) : n v = k := by
  rw [get?_insert] at hv
  split at hv
  case isTrue hk =>
    cases hv
    exact Std.LawfulEqOrd.eq_of_compare hk
  case isFalse => exact h hv

omit [Std.TransOrd κ] in
theorem named_filter (h : ∀ {k v}, t.get? k = some v → n v = k) (p : κ → α → Bool) {k : κ}
    {v : α} (hv : (t.filter p).get? k = some v) : n v = k := by
  rw [get?_filter] at hv
  exact h (Option.eq_some_of_filter_eq_some hv)

end Table

namespace History

variable {h : History}

theorem filed_empty : empty.view.Filed :=
  ⟨fun hv => absurd hv nofun, fun hv => absurd hv nofun, fun hv => absurd hv nofun⟩

theorem filed_insertCommit (filed : h.view.Filed) (commit : AggregateCommit) :
    (h.insertCommit commit).view.Filed :=
  ⟨filed.headers, Table.named_insert (n := AggregateCommit.height) filed.commits commit,
    filed.snapshots⟩

theorem filed_insertHeader (filed : h.view.Filed) (header : Header) :
    (h.insertHeader header).view.Filed := by
  have hheaders {k v} := Table.named_insert (k := k) (v := v) (n := Header.height)
    filed.headers header
  unfold insertHeader
  split
  · exact ⟨hheaders, filed.commits, filed.snapshots⟩
  · exact ⟨hheaders, (filed_insertCommit filed header.commit).commits, filed.snapshots⟩

theorem filed_foldl_insertHeader (filed : h.view.Filed) (headers : List Header) :
    (headers.foldl insertHeader h).view.Filed := by
  induction headers generalizing h with
  | nil => exact filed
  | cons header rest ih => exact ih (filed_insertHeader filed header)

theorem filed_insertSnapshot (filed : h.view.Filed) (snapshot : Snapshot) :
    (h.insertSnapshot snapshot).view.Filed :=
  ⟨filed.headers, filed.commits,
    Table.named_insert (n := Snapshot.validatorsHash) filed.snapshots snapshot⟩

theorem filed_loadSnapshots (filed : h.view.Filed) {store : Store} {n : Nat} {loaded : History}
    (hload : h.loadSnapshots store = .ok (n, loaded)) : loaded.view.Filed := by
  unfold loadSnapshots at hload
  cases hall : store.snapshots with
  | error e =>
    rw [hall] at hload
    contradiction
  | ok all =>
    rw [hall] at hload
    cases hload
    clear hall
    induction all generalizing h with
    | nil => exact filed
    | cons snapshot rest ih => exact ih (filed_insertSnapshot filed snapshot)

theorem filed_pruneBelow (filed : h.view.Filed) (height : Height) :
    (h.pruneBelow height).view.Filed := by
  refine ⟨Table.named_filter filed.headers _, Table.named_filter filed.commits _, ?_⟩
  intro k snapshot hsnapshot
  simp only [view, pruneBelow] at hsnapshot
  split at hsnapshot
  · exact filed.snapshots hsnapshot
  · exact Table.named_filter filed.snapshots _ hsnapshot

/-- A property of histories that lasts as headers and right snapshots are added, and as records are
dropped. -/
structure Lasting (P : History → Prop) (right : Snapshot → Prop) : Prop where
  insertHeader : ∀ {h : History} (header : Header), P h → P (h.insertHeader header)
  insertSnapshot : ∀ {h : History} {s : Snapshot}, right s → P h → P (h.insertSnapshot s)
  pruneBelow : ∀ {h : History} (height : Height), P h → P (h.pruneBelow height)

theorem lasting_filed : Lasting (fun h => h.view.Filed) fun _ => True where
  insertHeader header filed := filed_insertHeader filed header
  insertSnapshot _ filed := filed_insertSnapshot filed _
  pruneBelow height filed := filed_pruneBelow filed height

theorem lasting_snapshots (right : Snapshot → Prop) :
    Lasting (fun h => ∀ k s, h.view.snapshot? k = some s → right s) right where
  insertHeader := by
    intro h header hall
    unfold insertHeader
    split
    · exact hall
    · exact hall
  insertSnapshot := by
    intro h s hs hall k found hfound
    simp only [view, insertSnapshot, Table.get?_insert] at hfound
    split at hfound
    case isTrue =>
      cases hfound
      exact hs
    case isFalse => exact hall k found hfound
  pruneBelow := by
    intro h height hall k found hfound
    simp only [view, pruneBelow] at hfound
    split at hfound
    · exact hall k found hfound
    · rw [Table.get?_filter] at hfound
      exact hall k found (Option.eq_some_of_filter_eq_some hfound)

end History

end ImpliedFinality
