import Mathlib.Algebra.GroupWithZero.Nat
import ImpliedFinality.Parameters
import ImpliedFinality.Proofs.Stages
import ImpliedFinality.Proofs.Submission

/-!
# What an update proves about the new validators

A certificate names the validators of its block by a hash, and an update that hands over to a new
set lists their keys and weights. The hash commits to the whole set in BLS key order, but the update
leaves out the validators whose key is a placeholder. So the bytes of the list are those that were
hashed exactly if every validator has registered a key.
-/

namespace ImpliedFinality

/-- A snapshot is named by the hash of its own set. -/
def Snapshot.IsNamed (s : Snapshot) : Prop :=
  s.validatorsHash = s.validators.hash s.certificateThreshold

/-- The bytes by which a receiving chain can check the keys and weights of an update. -/
def CrossChainUpdate.proofBytes (update : CrossChainUpdate) : Bytes :=
  (KeyWeights.codec.pair Codec.weight).encode (update.validators, update.certificateThreshold)

/-- What is left out of a list is missing from any sum over it. -/
theorem sum_map_filter_add_length_le {α : Type} {f : α → Nat} (p : α → Bool) (hf : ∀ x, 0 < f x)
    (xs : List α) :
    ((xs.filter p).map f).sum + xs.length ≤ (xs.map f).sum + (xs.filter p).length := by
  induction xs with
  | nil => simp
  | cons x xs ih =>
    have hx := hf x
    rw [List.filter_cons]
    split
    · simp only [List.map_cons, List.sum_cons, List.length_cons]
      omega
    · simp only [List.map_cons, List.sum_cons, List.length_cons]
      omega

namespace Validators

variable {vs : Validators} {threshold : Weight}

/-- Every validator has registered a BLS key. -/
def AllRegistered (vs : Validators) : Prop := ∀ v ∈ vs, v.blsKey.isPlaceholder = false

instance (vs : Validators) : Decidable vs.AllRegistered :=
  inferInstanceAs (Decidable (∀ v ∈ vs, v.blsKey.isPlaceholder = false))

theorem registered_eq_self : vs.registered = vs ↔ vs.AllRegistered := by
  simp [registered, AllRegistered]

/-- How many bytes are hashed for a validator: its key with a count, and its weight. -/
def entrySize (v : Validator) : Nat := 4 + (v.blsKey.bytes.length + 8)

theorem length_encode_keyWeight (v : Validator) :
    ((BlsKey.codec.pair Codec.weight).encode (v.blsKey, v.weight)).length = entrySize v := by
  simp [Codec.pair, BlsKey.codec, Codec.iso, Codec.bytes, Codec.weight, Codec.number, entrySize]

theorem length_hashInput :
    (vs.hashInput threshold).length = 12 + (vs.map entrySize).sum := by
  have hperm : (vs.byBlsKey.map entrySize).Perm (vs.map entrySize) :=
    (sortBy_perm Validator.blsKey vs).map entrySize
  have hentries : (vs.keyWeights.flatMap (BlsKey.codec.pair Codec.weight).encode).length =
      (vs.byBlsKey.map entrySize).sum := by
    simp only [keyWeights, List.length_flatMap, List.map_map]
    congr 1
    exact List.map_congr_left fun v _ => length_encode_keyWeight v
  have hlist : (KeyWeights.codec.encode vs.keyWeights).length =
      4 + (vs.byBlsKey.map entrySize).sum := by
    rw [← hentries]
    simp [KeyWeights.codec, Codec.list]
  calc (vs.hashInput threshold).length
    _ = (KeyWeights.codec.encode vs.keyWeights).length + 8 := by
      simp [hashInput, Codec.pair, Codec.weight, Codec.iso, Codec.number]
    _ = 12 + (vs.map entrySize).sum := by
      rw [hlist, hperm.sum_nat]
      omega

/-- The hash commits to the keys and weights of the registered validators exactly if there are no
others. -/
theorem hashInput_registered_iff :
    vs.registered.hashInput threshold = vs.hashInput threshold ↔ vs.AllRegistered := by
  constructor
  · intro h
    -- every entry is hashed to some bytes, so equal lengths leave no entry out
    have hlength := congrArg List.length h
    rw [length_hashInput, length_hashInput] at hlength
    have hle : (vs.registered.map entrySize).sum + vs.length ≤
        (vs.map entrySize).sum + vs.registered.length :=
      sum_map_filter_add_length_le _ (fun v => by unfold entrySize; omega) vs
    apply registered_eq_self.mp
    apply List.filter_sublist.eq_of_length_le
    show vs.length ≤ vs.registered.length
    omega
  · intro h
    rw [registered_eq_self.mpr h]

end Validators

/-- What an update shows of the set that a snapshot records. -/
structure CrossChainUpdate.HandsOver (update : CrossChainUpdate) (named : Snapshot) : Prop where
  validators : update.validators = named.validators.registered.keyWeights
  threshold : update.certificateThreshold = named.certificateThreshold
  /-- The bytes are those that the name of the set commits to, if no key is missing. -/
  proofBytes_iff : update.proofBytes =
    named.validators.hashInput named.certificateThreshold ↔ named.validators.AllRegistered

theorem CrossChainUpdate.Carries.handsOver {update : CrossChainUpdate} {chain : ChainId}
    {last : LastCertificate} {c : Certificate} {named : Snapshot}
    (h : update.Carries chain last c named) (changed : c.body.validatorsHash ≠ last.validatorsHash) :
    update.HandsOver named := by
  have hvalidators : update.validators = named.validators.registered.keyWeights := by
    rw [h.validators, if_neg changed]
  refine ⟨hvalidators, h.threshold, ?_⟩
  unfold proofBytes
  rw [hvalidators, h.threshold]
  exact Validators.hashInput_registered_iff

namespace Relay

/-- An update whose certificate names a new set lists the registered validators of the set that the
hash in the certificate stands for. The bytes of the list are the ones that were hashed, and so the
list proves itself, exactly if no validator of the set has a placeholder for a key. -/
theorem handover_of_submission (setup : RelaySetup) (history : History) (filed : history.view.Filed)
    (named : ∀ k s, history.view.snapshot? k = some s → s.IsNamed) (blocks : List (Nat × NewBlock))
    (hblocks : ∀ b ∈ blocks, ∀ s, b.2.snapshot = some s → s.IsNamed) (now : Nat) (block : NewBlock)
    (hblock : ∀ s, block.snapshot = some s → s.IsNamed) (update : CrossChainUpdate)
    (hsubmits : (((new history).run setup blocks).onBlock setup now block).submissions =
      update :: ((new history).run setup blocks).submissions) :
    let r := ((new history).run setup blocks).prepare setup now block
    ∃ last c, r.last = some last ∧ Certificate.codec.readAll update.certificate = .ok c ∧
      (c.body.validatorsHash ≠ last.validatorsHash →
        ∃ s, r.history.view.snapshot? c.body.validatorsHash = some s ∧ update.HandsOver s ∧
          s.validators.hash s.certificateThreshold = c.body.validatorsHash ∧
          (s.validators.AllRegistered →
            Digest.ofBytes update.proofBytes = c.body.validatorsHash)) := by
  intro r
  have hfiled := filed_run (r := new history) setup filed blocks
  have hnamed := lasting_run (r := new history) setup
    (History.lasting_snapshots Snapshot.IsNamed) named blocks hblocks
  rcases (onBlock_cases setup now block hfiled).2 with
    hsame | ⟨found, last, known, s, header, commit, c, hfound, hbacks⟩
  · rw [hsame] at hsubmits
    exact absurd (congrArg List.length hsubmits) (by simp)
  · obtain ⟨rfl, -⟩ := List.cons.inj (hfound.symm.trans hsubmits)
    refine ⟨last, c, hbacks.accepted, hbacks.carries.certificate, fun changed => ?_⟩
    have hs : s.IsNamed :=
      lasting_prepare setup now block (History.lasting_snapshots Snapshot.IsNamed) hnamed hblock _ s
        hbacks.namedAt
    have hname : s.validatorsHash = c.body.validatorsHash :=
      (lasting_prepare setup now block History.lasting_filed hfiled fun _ _ => trivial).snapshots
        hbacks.namedAt
    have hhash : s.validators.hash s.certificateThreshold = c.body.validatorsHash :=
      hs.symm.trans hname
    have hover := hbacks.carries.handsOver changed
    refine ⟨s, hbacks.namedAt, hover, hhash, fun hall => ?_⟩
    rw [hover.proofBytes_iff.mpr hall]
    exact hhash

end Relay

namespace Solo

/-- A validator of weight one with a key of its own. -/
def keyed (address key : UInt8) : Validator where
  address := ⟨address :: List.replicate 19 0, by simp⟩
  generatorKey := validator.generatorKey
  blsKey := ⟨List.replicate 48 key⟩
  weight := weight 1

/-- A proposal whose thresholds are one. -/
def proposing (vs : Validators) : Proposal := ⟨weight 1, weight 1, vs⟩

/-- The snapshot of the proposed set. -/
def recorded (vs : Validators) (activeFrom : Height) : Snapshot :=
  ((proposing vs).parameters vs.cappedWeight).snapshot activeFrom

/-- The name of the proposed set. -/
def hashOf (vs : Validators) : Digest := vs.hash (weight 1)

/-- A relay to a chain that knows the genesis block of a set. Signatures are taken on trust. -/
def trustingSetup (vs : Validators) : RelaySetup where
  config := relaySetup.config
  chain := { receiver with lastCertificate _ := .ok ⟨.zero, hashOf vs⟩ }
  check := none

/-- The header that names the next set. -/
def naming (next : Validators) : Header :=
  { header (height 2) .zero .zero 0 with validatorsHash := hashOf next }

/-- The blocks at heights 1 and 2, with the snapshots of the sets that they name. -/
def changing (vs next : Validators) : List (Nat × NewBlock) :=
  [(0, ⟨{ header (height 1) .zero .zero 0 with validatorsHash := hashOf vs },
      ⟨.zero, .zero, .zero⟩, some (recorded vs (height 1))⟩),
    (0, ⟨naming next, ⟨.zero, .zero, .zero⟩, some (recorded next (height 2))⟩)]

/-- The certificate of the header that names the next set. -/
def certificate (next : Validators) : Certificate := ⟨.ofHeader (naming next), ⟨[1]⟩, .empty⟩

/-- The update that carries this certificate. -/
def changed (next : Validators) : CrossChainUpdate where
  sendingChain := .zero
  certificate := Certificate.codec.encode (certificate next)
  validators := next.registered.keyWeights
  certificateThreshold := weight 1

theorem isNamed_recorded (vs : Validators) (activeFrom : Height) :
    (recorded vs activeFrom).IsNamed := rfl

theorem isNamed_changing (vs next : Validators) :
    ∀ b ∈ changing vs next, ∀ s, b.2.snapshot = some s → s.IsNamed := by
  intro b hb s hs
  simp only [changing, List.mem_cons, List.not_mem_nil, or_false] at hb
  rcases hb with rfl | rfl
  · cases hs
    exact isNamed_recorded ..
  · cases hs
    exact isNamed_recorded ..

theorem readAll_certificate (next : Validators) :
    Certificate.codec.readAll (Certificate.codec.encode (certificate next)) =
      .ok (certificate next) :=
  Certificate.codec_lawful.readAll_eq_ok.mpr (Codec.write_eq_ok.mpr ⟨rfl, rfl⟩)

end Solo

namespace Relay

open Solo (keyed proposing recorded height hashOf trustingSetup changing certificate changed
  certifying)

/-- The list of two registered validators proves itself. -/
theorem handover_of_submission_registered :
    let vs := [keyed 1 254]
    let next := [keyed 1 254, keyed 2 253]
    (((new .empty).run (trustingSetup vs) (changing vs next)).onBlock (trustingSetup vs) 0
        certifying).submissions = [changed next] ∧
      hashOf next ≠ hashOf vs ∧ Digest.ofBytes (changed next).proofBytes = hashOf next := by
  intro vs next
  have hbefore : ((new .empty).run (trustingSetup vs) (changing vs next)).submissions = [] := by
    decide +kernel
  have hsubmits : (((new .empty).run (trustingSetup vs) (changing vs next)).onBlock
      (trustingSetup vs) 0 certifying).submissions = [changed next] := by decide +kernel
  have hprepared :
      let r := ((new .empty).run (trustingSetup vs) (changing vs next)).prepare (trustingSetup vs) 0
        certifying;
      r.last = some ⟨.zero, hashOf vs⟩ ∧
        r.history.view.snapshot? (hashOf next) = some (recorded next (height 2)) := by
    decide +kernel
  have hchanged : hashOf next ≠ hashOf vs := by decide +kernel
  obtain ⟨last, c, hlast, hc, hover⟩ := handover_of_submission (trustingSetup vs) .empty
    History.filed_empty (fun _ _ h => absurd h nofun) (changing vs next)
    (Solo.isNamed_changing vs next) 0 certifying (fun _ h => absurd h nofun) (changed next)
    (by rw [hsubmits, hbefore])
  cases hlast.symm.trans hprepared.1
  cases (Solo.readAll_certificate next).symm.trans hc
  obtain ⟨s, hs, -, -, hproved⟩ := hover hchanged
  cases hs.symm.trans hprepared.2
  exact ⟨hsubmits, hchanged, hproved (by decide)⟩

/-- The list of the registered validators does not prove a set in which a key is missing, although
both sets are accepted and their snapshots bear the right names. -/
theorem not_proved_partly_registered :
    let vs := [keyed 1 254]
    let next := [Solo.validator, keyed 1 254]
    ((proposing vs).sorted.check 2 = .ok (Solo.weight 1) ∧
        (proposing next).sorted.check 2 = .ok (Solo.weight 2)) ∧
      (∀ b ∈ changing vs next, ∀ s, b.2.snapshot = some s → s.IsNamed) ∧
      (((new .empty).run (trustingSetup vs) (changing vs next)).onBlock (trustingSetup vs) 0
        certifying).submissions = [changed next] ∧
      Certificate.codec.readAll (changed next).certificate = .ok (certificate next) ∧
      (certificate next).body.validatorsHash ≠ hashOf vs ∧
      Digest.ofBytes (changed next).proofBytes ≠ (certificate next).body.validatorsHash := by
  intro vs next
  refine ⟨⟨Proposal.check_eq_ok.mpr ?_, Proposal.check_eq_ok.mpr ?_⟩, Solo.isNamed_changing vs next,
    ?_, Solo.readAll_certificate next, ?_, ?_⟩
  · decide +kernel
  · decide +kernel
  · decide +kernel
  · decide +kernel
  · decide +kernel

end Relay

end ImpliedFinality
