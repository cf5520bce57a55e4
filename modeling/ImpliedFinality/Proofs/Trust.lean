import Mathlib.Data.List.Induction
import Mathlib.Data.List.Nodup
import Mathlib.Data.List.Perm.Subperm
import ImpliedFinality.Proofs.Handover
import ImpliedFinality.Proofs.Search

/-!
# What a receiving chain trusts

A receiving chain knows a set of validators. A commit of another set counts by those of its signers
that are known: all of them have to be, and their known weights have to reach a threshold. So the
signers back a commit in the receiving chain as they do in their own set if both sets are the same,
and nobody backs it twice.
-/

namespace ImpliedFinality

/-- Of entries with the same key, a table keeps the last one. -/
theorem Table.get?_ofList {κ α : Type} [Ord κ] [Std.TransOrd κ] [Std.LawfulEqOrd κ]
    (entries : List (κ × α)) (k : κ) :
    (ofList entries).get? k =
      ((entries.filter fun e => compare e.1 k == .eq).getLast?).map (·.2) := by
  induction entries using List.reverseRecOn with
  | nil => rfl
  | append_singleton rest e ih =>
    have hinsert : ofList (rest ++ [e]) = (ofList rest).insert e.1 e.2 := by
      simp only [ofList, List.foldl_append, List.foldl_cons, List.foldl_nil]
    rw [hinsert, get?_insert, ih, List.filter_append, List.getLast?_append]
    by_cases hk : compare e.1 k = .eq
    · simp [hk]
    · simp [hk]

/-! ## The signers of a commit -/

/-- A list of what is found at each number below a bound does not depend on the bound. -/
theorem filterMap_range_of_le {α : Type} {f : Nat → Option α} {m n : Nat}
    (hnone : ∀ i, m ≤ i → f i = none) (hle : m ≤ n) :
    (List.range n).filterMap f = (List.range m).filterMap f := by
  obtain ⟨k, rfl⟩ := Nat.exists_eq_add_of_le hle
  rw [List.range_add, List.filterMap_append, List.append_right_eq_self, List.filterMap_eq_nil_iff]
  intro i hi
  obtain ⟨j, -, rfl⟩ := List.mem_map.mp hi
  exact hnone _ (Nat.le_add_right ..)

/-- Items whose positions pass a test, by their positions. -/
theorem map_filter_zipIdx {α : Type} (p : Nat → Bool) (xs : List α) :
    (xs.zipIdx.filter fun (_, i) => p i).map (·.1) =
      (List.range xs.length).filterMap fun i => if p i then xs[i]? else none := by
  induction xs using List.reverseRecOn with
  | nil => rfl
  | append_singleton xs x ih =>
    have hfront : ((List.range xs.length).filterMap fun i => if p i then (xs ++ [x])[i]? else none) =
        (List.range xs.length).filterMap fun i => if p i then xs[i]? else none := by
      apply List.filterMap_congr
      intro i hi
      rw [List.getElem?_append_left (List.mem_range.mp hi)]
    rw [List.zipIdx_append, List.filter_append, List.map_append, ih, List.length_append,
      List.length_singleton, List.range_succ, List.filterMap_append, hfront]
    by_cases hx : p xs.length = true
    · simp [hx]
    · simp [hx]

namespace Validators

variable {vs : Validators} {bits other : Bitmap} {v : Validator}

/-- The validators that the set bits of a bitmap stand for, bit by bit. -/
def atSetBits (vs : Validators) (bits : Bitmap) : Validators :=
  bits.setIndices.filterMap fun i => vs.byBlsKey[i]?

/-- Going over the validators and going over the bits lists the same signers. -/
theorem signers_eq_atSetBits (vs : Validators) (bits : Bitmap) :
    vs.signers bits = vs.atSetBits bits := by
  have hunlisted : ∀ i, vs.byBlsKey.length ≤ i →
      (if bits.isSet i then vs.byBlsKey[i]? else none) = none := by
    intro i hi
    rw [List.getElem?_eq_none hi, ite_self]
  have hunset : ∀ i, 8 * bits.bytes.length ≤ i →
      (if bits.isSet i then vs.byBlsKey[i]? else none) = none := by
    intro i hi
    rw [Bitmap.isSet_eq_false_of_le hi]
    rfl
  rw [signers, map_filter_zipIdx, atSetBits, Bitmap.setIndices, List.filterMap_filter]
  rcases Nat.le_total vs.byBlsKey.length (8 * bits.bytes.length) with hle | hle
  · exact (filterMap_range_of_le hunlisted hle).symm
  · exact filterMap_range_of_le hunset hle

theorem mem_atSetBits :
    v ∈ vs.atSetBits bits ↔ ∃ i, bits.isSet i = true ∧ vs.byBlsKey[i]? = some v := by
  simp [atSetBits, Bitmap.mem_setIndices]

/-- Bits beyond the set of validators stand for nobody. -/
theorem signers_congr (h : ∀ i < vs.length, bits.isSet i = other.isSet i) :
    vs.signers bits = vs.signers other := by
  rw [signers, signers]
  congr 1
  apply List.filter_congr
  rintro ⟨v, i⟩ hi
  have hlt : i < vs.byBlsKey.length := (List.mem_zipIdx' hi).1
  rw [byBlsKey, (sortBy_perm Validator.blsKey vs).length_eq] at hlt
  exact h i hlt

theorem signers_subperm (vs : Validators) (bits : Bitmap) : (vs.signers bits).Subperm vs := by
  have hsub : (vs.signers bits).Sublist (vs.byBlsKey.zipIdx.map (·.1)) :=
    List.filter_sublist.map _
  rw [List.zipIdx_map_fst] at hsub
  exact hsub.subperm.trans (sortBy_perm Validator.blsKey vs).subperm

theorem nodup_registered_signers (h : (vs.registered.map Validator.blsKey).Nodup) :
    ((vs.signers bits).registered.map Validator.blsKey).Nodup := by
  obtain ⟨c, hperm, hsub⟩ := signers_subperm vs bits
  exact (((hperm.filter _).map _).nodup_iff).mp (h.sublist ((hsub.filter _).map _))

end Validators

/-! ## The trusted weights -/

namespace Snapshot

variable {s : Snapshot} {key : BlsKey} {u : Validator} {signers : Validators}

/-- The last validator with a registered key. -/
def member? (s : Snapshot) (key : BlsKey) : Option Validator :=
  (s.validators.registered.filter fun v => v.blsKey = key).getLast?

/-- The validators of a set who have the keys of given signers. -/
def backers (s : Snapshot) (signers : Validators) : Validators :=
  signers.filterMap fun v => s.member? v.blsKey

theorem get?_trustedWeights (s : Snapshot) (key : BlsKey) :
    s.trustedWeights.get? key = (s.member? key).map Validator.weight := by
  rw [trustedWeights, Table.get?_ofList, List.filter_map, List.getLast?_map, Option.map_map, member?]
  have hsame : ((fun e : BlsKey × Weight => compare e.1 key == .eq) ∘
      fun v : Validator => (v.blsKey, v.weight)) = fun v => decide (v.blsKey = key) := by
    funext v
    rw [Function.comp_apply, Bool.eq_iff_iff, beq_iff_eq, decide_eq_true_eq]
    exact Std.compare_eq_iff_eq
  rw [hsame]
  rfl

theorem mem_of_member? (h : s.member? key = some u) :
    u ∈ s.validators ∧ u.blsKey = key ∧ key.isPlaceholder = false := by
  have hmem := List.mem_of_getLast? h
  rw [List.mem_filter, Validators.registered, List.mem_filter] at hmem
  obtain ⟨⟨hu, hregistered⟩, hkey⟩ := hmem
  have hkey : u.blsKey = key := by simpa using hkey
  rw [← hkey]
  exact ⟨hu, rfl, by simpa using hregistered⟩

/-- Whose key is registered in a set is a member of it. -/
theorem exists_member?_iff : (∃ u, s.member? key = some u) ↔
    key.isPlaceholder = false ∧ ∃ u ∈ s.validators, u.blsKey = key := by
  constructor
  · rintro ⟨u, hu⟩
    obtain ⟨hmem, hkey, hregistered⟩ := mem_of_member? hu
    exact ⟨hregistered, u, hmem, hkey⟩
  · rintro ⟨hregistered, u, hu, rfl⟩
    rw [← Option.isSome_iff_exists, member?, List.getLast?_isSome]
    apply List.ne_nil_of_mem (a := u)
    simp [Validators.registered, hu, hregistered]

theorem backers_subset (s : Snapshot) (signers : Validators) : s.backers signers ⊆ s.validators := by
  intro u hu
  obtain ⟨v, -, hv⟩ := List.mem_filterMap.mp hu
  exact (mem_of_member? hv).1

/-- If no registered key signs twice, nobody is a backer twice. -/
theorem nodup_backers (h : (signers.registered.map Validator.blsKey).Nodup) :
    ((s.backers signers).map Validator.blsKey).Nodup := by
  rw [List.Nodup, List.pairwise_map, Validators.registered, List.pairwise_filter] at h
  rw [List.Nodup, List.pairwise_map, backers, List.pairwise_filterMap]
  refine h.imp fun {v w} hne u hu u' hu' => ?_
  obtain ⟨-, hkey, hregistered⟩ := mem_of_member? hu
  obtain ⟨-, hkey', hregistered'⟩ := mem_of_member? hu'
  rw [hkey, hkey']
  exact hne (by simp [hregistered]) (by simp [hregistered'])

end Snapshot

/-- A list of partial results is there if each of them is. -/
theorem mapM_eq_some_iff {α β : Type} {f : α → Option β} {xs : List α} {ys : List β} :
    xs.mapM f = some ys ↔ (∀ x ∈ xs, ∃ y, f x = some y) ∧ ys = xs.filterMap f := by
  induction xs generalizing ys with
  | nil => simp [eq_comm]
  | cons x rest ih =>
    rw [List.mapM_cons, List.forall_mem_cons]
    cases hx : f x with
    | none => simp
    | some y =>
      rw [List.filterMap_cons_some hx]
      simp only [Option.bind_eq_bind, Option.bind_some, Option.bind_eq_some_iff, ih, Option.pure_def,
        Option.some.injEq, exists_eq', true_and, and_assoc, exists_and_left, exists_eq_left]
      rw [eq_comm (a := ys)]

/-- Signers have a trusted weight if each of them is trusted. -/
theorem trustedWeight?_eq_some {known : Snapshot} {signers : Validators} {w : Weight} :
    trustedWeight? known.trustedWeights signers = some w ↔
      (∀ v ∈ signers, ∃ u, known.member? v.blsKey = some u) ∧
        w = Weight.sum ((known.backers signers).map Validator.weight) := by
  have hweights : signers.filterMap (fun v => known.trustedWeights.get? v.blsKey) =
      (known.backers signers).map Validator.weight := by
    simp only [Snapshot.get?_trustedWeights, Snapshot.backers, List.map_filterMap]
  have htrusted : ∀ v : Validator, (∃ w, known.trustedWeights.get? v.blsKey = some w) ↔
      ∃ u, known.member? v.blsKey = some u := by
    intro v
    rw [Snapshot.get?_trustedWeights]
    simp
  simp only [trustedWeight?, Option.bind_eq_bind, Option.bind_eq_some_iff, mapM_eq_some_iff,
    Option.some.injEq, htrusted, hweights]
  constructor
  · rintro ⟨weights, ⟨hall, rfl⟩, rfl⟩
    exact ⟨hall, rfl⟩
  · rintro ⟨hall, rfl⟩
    exact ⟨_, ⟨hall, rfl⟩, rfl⟩

/-! ## The check of a commit -/

namespace ChainView

section Weighing

variable {view : ChainView} {lastHash : Digest} {known signing : Snapshot} {threshold : Weight}
  {below : Height} {parent : Header}

/-- A commit of a set that the receiving chain does not name is weighed. -/
theorem trusts_eq_of_changed (commit : AggregateCommit) {trusted : Table BlsKey Weight}
    (hbelow : commit.height.toNat = below.toNat + 1) (hparent : view.header? below = some parent)
    (hchanged : parent.validatorsHash ≠ lastHash)
    (hsigning : view.snapshot? parent.validatorsHash = some signing) :
    view.trusts lastHash trusted threshold commit =
      .ok ((trustedWeight? trusted (signing.validators.signers commit.bits)).any
        (threshold ≤ ·)) := by
  rw [trusts, Height.sub?_eq_some.mpr hbelow]
  dsimp only
  rw [hparent]
  dsimp only
  rw [if_neg hchanged, hsigning]
  dsimp only
  cases trustedWeight? trusted (signing.validators.signers commit.bits) with
  | none => rfl
  | some w => rfl

/-- The check of a commit depends on the header below it and on the signers that the set named there
has. -/
theorem trusts_congr {view other : ChainView} {lastHash : Digest} {trusted : Table BlsKey Weight}
    {threshold : Weight} {commit : AggregateCommit}
    (hheader : ∀ below, commit.height.sub? 1 = some below →
      view.header? below = other.header? below)
    (hsigners : ∀ below parent, commit.height.sub? 1 = some below →
      view.header? below = some parent →
      (view.snapshot? parent.validatorsHash).map (·.validators.signers commit.bits) =
        (other.snapshot? parent.validatorsHash).map (·.validators.signers commit.bits)) :
    view.trusts lastHash trusted threshold commit =
      other.trusts lastHash trusted threshold commit := by
  rw [trusts, trusts]
  cases hbelow : commit.height.sub? 1 with
  | none => rfl
  | some below =>
    dsimp only
    rw [← hheader below hbelow]
    cases hparent : view.header? below with
    | none => rfl
    | some parent =>
      dsimp only
      have hsame := hsigners below parent hbelow hparent
      split
      · rfl
      · cases hsigning : view.snapshot? parent.validatorsHash with
        | none =>
          rw [hsigning, Option.map_none, eq_comm, Option.map_eq_none_iff] at hsame
          rw [hsame]
        | some signing =>
          rw [hsigning, Option.map_some, eq_comm, Option.map_eq_some_iff] at hsame
          obtain ⟨signing', hsigning', hsame⟩ := hsame
          rw [hsigning']
          dsimp only
          rw [hsame]

/-- Whether signers are all trusted and weigh enough. -/
theorem any_trustedWeight?_iff {signers : Validators} :
    (trustedWeight? known.trustedWeights signers).any (threshold ≤ ·) = true ↔
      (∀ v ∈ signers, ∃ u, known.member? v.blsKey = some u) ∧
        threshold ≤ Weight.capped
          (Weight.total ((known.backers signers).map Validator.weight)) := by
  simp only [Option.any_eq_true, trustedWeight?_eq_some, Weight.sum_eq_capped, decide_eq_true_eq]
  constructor
  · rintro ⟨w, ⟨hall, rfl⟩, hreached⟩
    exact ⟨hall, hreached⟩
  · rintro ⟨hall, hreached⟩
    exact ⟨_, ⟨hall, rfl⟩, hreached⟩

/-- In a set with the same validators, each of them is found under its own key. -/
theorem member?_eq_self (hsame : ∀ v, v ∈ known.validators ↔ v ∈ signing.validators)
    (hregistered : signing.validators.AllRegistered)
    (hdistinct : (signing.validators.map Validator.blsKey).Nodup) {v : Validator}
    (hv : v ∈ signing.validators) : known.member? v.blsKey = some v := by
  obtain ⟨u, hu⟩ := Snapshot.exists_member?_iff.mpr ⟨hregistered v hv, v, (hsame v).mpr hv, rfl⟩
  obtain ⟨hmem, hkey, -⟩ := Snapshot.mem_of_member? hu
  rw [hu, List.inj_on_of_nodup_map hdistinct ((hsame u).mp hmem) hv hkey]

/-- A set that is known under another name weighs its signers as it does itself. -/
theorem trustedWeight?_of_same (hsame : ∀ v, v ∈ known.validators ↔ v ∈ signing.validators)
    (hregistered : signing.validators.AllRegistered)
    (hdistinct : (signing.validators.map Validator.blsKey).Nodup) (bits : Bitmap) :
    trustedWeight? known.trustedWeights (signing.validators.signers bits) =
      some (signing.validators.signersWeight bits) := by
  have hself : ∀ v ∈ signing.validators.signers bits, known.member? v.blsKey = some v :=
    fun v hv => member?_eq_self hsame hregistered hdistinct
      ((Validators.signers_subperm ..).subset hv)
  have hbackers : known.backers (signing.validators.signers bits) =
      signing.validators.signers bits := by
    rw [Snapshot.backers, List.filterMap_congr hself, List.filterMap_some]
  rw [trustedWeight?_eq_some, hbackers]
  exact ⟨fun v hv => ⟨v, hself v hv⟩, rfl⟩

end Weighing

/-- A commit that a set of other validators signed is trusted exactly if all signers are known and
their known weights, capped, reach the threshold. Bits beyond the set have no effect, nobody backs
a commit twice if no registered key is listed twice, and a set that is known under another name
weighs as much as by its own weights. -/
theorem trusts_by_weight (view : ChainView) (lastHash : Digest) (known signing : Snapshot)
    (threshold : Weight) (commit : AggregateCommit) (below : Height) (parent : Header)
    (hbelow : commit.height.toNat = below.toNat + 1) (hparent : view.header? below = some parent)
    (hchanged : parent.validatorsHash ≠ lastHash)
    (hsigning : view.snapshot? parent.validatorsHash = some signing) :
    let trusts bits := view.trusts lastHash known.trustedWeights threshold { commit with bits }
    let backers := known.backers (signing.validators.atSetBits commit.bits)
    (∃ answer, trusts commit.bits = .ok answer ∧
      (answer = true ↔
        (∀ i v, commit.bits.isSet i = true → signing.validators.byBlsKey[i]? = some v →
          v.blsKey.isPlaceholder = false ∧ ∃ u ∈ known.validators, u.blsKey = v.blsKey) ∧
        threshold ≤ Weight.capped (Weight.total (backers.map Validator.weight)))) ∧
    (∀ bits, (∀ i < signing.validators.length, bits.isSet i = commit.bits.isSet i) →
      trusts bits = trusts commit.bits) ∧
    ((signing.validators.registered.map Validator.blsKey).Nodup →
      (backers.map Validator.blsKey).Nodup ∧ backers ⊆ known.validators) ∧
    ((∀ v, v ∈ known.validators ↔ v ∈ signing.validators) → signing.validators.AllRegistered →
      (signing.validators.map Validator.blsKey).Nodup →
        trusts commit.bits =
          .ok (decide (threshold ≤ signing.validators.signersWeight commit.bits))) := by
  intro trusts backers
  have hweighed : ∀ bits, trusts bits = .ok ((trustedWeight? known.trustedWeights
      (signing.validators.signers bits)).any (threshold ≤ ·)) := fun bits =>
    trusts_eq_of_changed { commit with bits } hbelow hparent hchanged hsigning
  have hsigners : signing.validators.signers commit.bits =
      signing.validators.atSetBits commit.bits := Validators.signers_eq_atSetBits ..
  refine ⟨⟨_, hweighed _, ?_⟩, fun bits hbits => ?_, fun hdistinct => ⟨?_, ?_⟩, ?_⟩
  · rw [any_trustedWeight?_iff, hsigners]
    apply and_congr_left'
    simp only [Validators.mem_atSetBits, Snapshot.exists_member?_iff]
    exact ⟨fun h i v hi hv => h v ⟨i, hi, hv⟩, fun h v ⟨i, hi, hv⟩ => h i v hi hv⟩
  · rw [hweighed, hweighed, Validators.signers_congr hbits]
  · apply Snapshot.nodup_backers
    rw [← hsigners]
    exact Validators.nodup_registered_signers hdistinct
  · exact Snapshot.backers_subset ..
  · intro hsame hregistered hdistinct
    rw [hweighed, trustedWeight?_of_same hsame hregistered hdistinct, Option.any_some]

end ChainView

namespace Solo

def digest (n : UInt8) : Digest := ⟨List.replicate 32 n, by simp⟩

/-- The set that a receiving chain knows. -/
def knownSet : Snapshot := ⟨[keyed 1 1, keyed 2 2], weight 2, digest 1, height 1⟩

/-- The same validators under another name. -/
def renamedSet : Snapshot := ⟨[keyed 2 2, keyed 1 1], weight 1, digest 2, height 2⟩

/-- A set with a stranger. -/
def mixedSet : Snapshot := ⟨[keyed 1 1, keyed 3 3], weight 1, digest 3, height 3⟩

/-- A block that names a set and reports who signed the block below it. -/
def reporting (n : UInt8) (named : Snapshot) (bits : Bitmap) : Header :=
  { header (height n) .zero .zero 0 with
    validatorsHash := named.validatorsHash, commit := ⟨height (n - 1), bits, .empty⟩ }

/-- Block 2 is signed by the renamed set, and block 3 by the set with the stranger. There is no
commit for block 4. -/
def mixedHistory : History :=
  let snapshots := ((History.empty.insertSnapshot knownSet).insertSnapshot renamedSet).insertSnapshot
    mixedSet
  [reporting 1 renamedSet .empty, reporting 2 mixedSet .empty, reporting 3 mixedSet ⟨[7]⟩,
    reporting 4 mixedSet ⟨[3]⟩].foldl History.insertHeader snapshots

end Solo

open Solo in
/-- Two signers of the renamed set reach the threshold of the known one. The third bit stands for
nobody. -/
theorem ChainView.trusts_by_weight_renamed :
    mixedHistory.view.header? (height 1) = some (reporting 1 renamedSet .empty) ∧
    mixedHistory.view.snapshot? renamedSet.validatorsHash = some renamedSet ∧
    mixedHistory.view.trusts (digest 1) knownSet.trustedWeights (weight 2)
      ⟨height 2, ⟨[7]⟩, .empty⟩ = .ok true ∧
    mixedHistory.view.trusts (digest 1) knownSet.trustedWeights (weight 2)
      ⟨height 2, ⟨[3]⟩, .empty⟩ = .ok true ∧
    ((knownSet.backers (renamedSet.validators.atSetBits ⟨[7]⟩)).map Validator.blsKey).Nodup := by
  have hparent : mixedHistory.view.header? (height 1) = some (reporting 1 renamedSet .empty) := by
    decide +kernel
  have hsigning : mixedHistory.view.snapshot? (digest 2) = some renamedSet := by decide +kernel
  obtain ⟨-, hbits, honce, hown⟩ := trusts_by_weight mixedHistory.view (digest 1) knownSet renamedSet
    (weight 2) ⟨height 2, ⟨[7]⟩, .empty⟩ (height 1) (reporting 1 renamedSet .empty) rfl hparent
    (by decide +kernel) hsigning
  have htrusted := hown (by intro v; simp [knownSet, renamedSet, or_comm]) (by decide +kernel)
    (by decide +kernel)
  have hreached : decide (weight 2 ≤ renamedSet.validators.signersWeight ⟨[7]⟩) = true := by
    decide +kernel
  rw [hreached] at htrusted
  exact ⟨hparent, hsigning, htrusted, (hbits ⟨[3]⟩ (by decide +kernel)).trans htrusted,
    (honce (by decide +kernel)).1⟩

/-! ## The search for a certificate -/

/-- A relay can try again once it has more history. -/
def Failure.IsMissingHistory : Failure → Prop
  | missingHeader _ => True
  | missingCommit _ => True
  | missingSnapshot _ => True
  | _ => False

namespace ChainView

section Missing

variable {view : ChainView} {e : Failure}

/-- A commit is not told to be trusted or not only if some history is missing. -/
theorem isMissingHistory_of_trusts {lastHash : Digest} {weights : Table BlsKey Weight}
    {threshold : Weight} {commit : AggregateCommit}
    (h : view.trusts lastHash weights threshold commit = .error e) : e.IsMissingHistory := by
  unfold trusts at h
  split at h
  case h_1 =>
    cases h
    trivial
  case h_2 =>
    split at h
    case h_1 =>
      cases h
      trivial
    case h_2 =>
      split at h
      case isTrue => cases h
      case isFalse =>
        split at h
        case h_1 =>
          cases h
          trivial
        case h_2 => split at h <;> cases h

theorem Lacks.isMissingHistory {last : LastCertificate} {known : Snapshot}
    {certified height : Height}
    (h : view.Lacks (view.trustsAfter last known) certified height e) :
    e.IsMissingHistory := by
  obtain ⟨commit, -, hfails | ⟨-, -, rfl⟩⟩ := h.fails
  · exact isMissingHistory_of_trusts hfails
  · trivial

end Missing

/-- The next certificate is that of the highest commit which is trusted, if no commit above it is in
doubt. There is none exactly if nothing above the last certificate is certified or none of the
commits there is trusted. Otherwise history is missing: the known set, or what the search needed at
the highest height that it did not pass. -/
theorem nextCertificate_is_highest (view : ChainView) (filed : view.FiledByHeight)
    (last : LastCertificate) (certified : Height) :
    (∀ c, view.nextCertificate last certified = .ok (some c) ↔
      last.height < c.body.height ∧ ∃ known header commit,
        view.snapshot? last.validatorsHash = some known ∧
          view.Tops (view.trustsAfter last known) certified header commit c) ∧
    (view.nextCertificate last certified = .ok none ↔
      certified ≤ last.height ∨ ∃ known, view.snapshot? last.validatorsHash = some known ∧
        ∀ h, last.height < h → h ≤ certified → view.Passes (view.trustsAfter last known) h) ∧
    (∀ e, view.nextCertificate last certified = .error e ↔
      last.height < certified ∧
        (view.snapshot? last.validatorsHash = none ∧ e = .missingSnapshot last.validatorsHash ∨
          ∃ known height, view.snapshot? last.validatorsHash = some known ∧ last.height < height ∧
            view.Lacks (view.trustsAfter last known) certified height e)) ∧
    (∀ e, view.nextCertificate last certified = .error e → e.IsMissingHistory) := by
  refine ⟨fun c => filed.nextCertificate_eq_some_iff, nextCertificate_eq_none_iff,
    fun e => filed.nextCertificate_eq_error_iff, fun e he => ?_⟩
  obtain ⟨-, ⟨-, rfl⟩ | ⟨known, height, -, -, hlacks⟩⟩ := filed.nextCertificate_eq_error_iff.mp he
  · trivial
  · exact hlacks.isMissingHistory

open Solo in
/-- The search goes past a height without a commit and past the signature of the stranger. -/
theorem nextCertificate_is_highest_mixed :
    mixedHistory.view.FiledByHeight ∧ ∃ c : Certificate, c.body.height = height 2 ∧
      mixedHistory.view.nextCertificate ⟨.zero, digest 1⟩ (height 4) = .ok (some c) := by
  have snapshots := History.filed_insertSnapshot (History.filed_insertSnapshot
    (History.filed_insertSnapshot History.filed_empty knownSet) renamedSet) mixedSet
  have filed : mixedHistory.view.FiledByHeight := by
    apply ChainView.Filed.byHeight
    exact History.filed_insertHeader (History.filed_insertHeader (History.filed_insertHeader
      (History.filed_insertHeader snapshots _) _) _) _
  refine ⟨filed, ⟨.ofHeader (reporting 2 mixedSet .empty), ⟨[7]⟩, .empty⟩, rfl, ?_⟩
  apply ((nextCertificate_is_highest mixedHistory.view filed ⟨.zero, digest 1⟩ (height 4)).1 _).mpr
  refine ⟨by decide, knownSet, reporting 2 mixedSet .empty, ⟨height 2, ⟨[7]⟩, .empty⟩,
    by decide +kernel, ?_⟩
  refine ⟨by decide, by decide +kernel, by decide +kernel, rfl, by rfl, ?_⟩
  intro h habove hle commit hcommit
  have hlow : 2 < h.toNat := habove
  have hhigh : h.toNat ≤ 4 := hle
  have hbetween : h = height 3 ∨ h = height 4 := by
    rcases (by omega : h.toNat = 3 ∨ h.toNat = 4) with heq | heq
    · exact .inl (Height.ext heq)
    · exact .inr (Height.ext heq)
  rcases hbetween with rfl | rfl
  · have hcommit' : mixedHistory.view.commit? (height 3) = some ⟨height 3, ⟨[3]⟩, .empty⟩ := by
      decide +kernel
    cases hcommit'.symm.trans hcommit
    rfl
  · have hnone : mixedHistory.view.commit? (height 4) = none := by decide +kernel
    exact absurd (hnone.symm.trans hcommit) nofun

end ChainView

end ImpliedFinality
