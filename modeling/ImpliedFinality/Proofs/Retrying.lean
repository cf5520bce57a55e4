import ImpliedFinality.Proofs.Stages
import ImpliedFinality.Proofs.Submission

/-!
# What a relay does after a call that failed

A call that fails leaves the relay disconnected, and the stages after it call nothing then, so the
work for the block ends. One call is different: when the question after the submission in flight
fails, the stage that connects is still to come, and the relay connects again for the same block.
It submits nothing then, since the submission is still in flight.
-/

namespace ImpliedFinality

/-- A call of the stages that connect. -/
def Exchange.IsJoining : Exchange → Prop
  | connect _ => True
  | lastCertificate _ => True
  | _ => False

/-- No call failed. -/
def Faultless (calls : List Exchange) : Prop := ∀ e ∈ calls, e.error? = none

namespace Relay

variable {r s p q : Relay} {setup : RelaySetup} {now : Nat} {block : NewBlock} {e : Exchange}
  {error : ClientError} {next : RelayPhase} {all later earlier : List Exchange}

/-- Nothing was called after a call that failed, and the relay is disconnected then. -/
def EndsWell (calls : List Exchange) (s : Relay) : Prop :=
  ∀ later e earlier error, calls = later ++ e :: earlier → e.error? = some error →
    later = [] ∧ s.phase = .disconnected

namespace EndsWell

theorem nil (s : Relay) : EndsWell [] s := fun later _ _ _ hsplit =>
  absurd hsplit (by cases later <;> nofun)

theorem of_phase (h : EndsWell all q) (hphase : s.phase = q.phase) : EndsWell all s :=
  fun later e earlier error hsplit he => hphase ▸ h later e earlier error hsplit he

theorem faultless (h : EndsWell all s) (hphase : s.phase ≠ .disconnected) : Faultless all := by
  intro e he
  obtain ⟨later, earlier, hsplit⟩ := List.mem_iff_append.mp he
  cases herror : e.error? with
  | none => rfl
  | some error => exact absurd (h later e earlier error hsplit herror).2 hphase

/-- Calls that did not fail may come before. -/
theorem append (h : EndsWell later s) (faultless : Faultless earlier) :
    EndsWell (later ++ earlier) s := by
  intro after e before error hsplit he
  rcases List.append_eq_append_iff.mp hsplit with ⟨middle, -, hearlier⟩ | ⟨middle, hlater, hbefore⟩
  · have hmem : e ∈ earlier := by simp [hearlier]
    exact absurd ((faultless e hmem).symm.trans he) nofun
  · cases middle with
    | nil =>
      have hmem : e ∈ earlier := by
        rw [show earlier = e :: before from hbefore.symm]
        exact .head _
      exact absurd ((faultless e hmem).symm.trans he) nofun
    | cons first middle =>
      obtain ⟨rfl, -⟩ := List.cons.inj hbefore
      exact h after e middle error hlater he

end EndsWell

/-- A stage made one call, and went on to a phase unless the call failed. -/
structure Asks (r : Relay) (e : Exchange) (next : RelayPhase) (s : Relay) : Prop where
  calls : s.calls = e :: r.calls
  phase : s.phase = if e.error?.isSome then .disconnected else next

namespace Asks

theorem failed (r : Relay) (e : Exchange) (isCall : e.IsCall) (he : e.error? = some error)
    (next : RelayPhase) : Asks r e next ((r.record (.exchange e)).disconnect error) where
  calls := by rw [calls_disconnect, calls_record r isCall]
  phase := by rw [phase_disconnect, he]; rfl

theorem endsWell (h : Asks r e next s) : EndsWell [e] s := by
  intro later other earlier error hsplit he
  cases later with
  | nil =>
    obtain ⟨rfl, -⟩ := List.cons.inj hsplit
    exact ⟨rfl, by rw [h.phase, he]; rfl⟩
  | cons first later => simp at hsplit

end Asks

theorem Settles.calls (h : Settles r s) :
    (s.calls = r.calls ∧ s.phase = r.phase) ∨
      ∃ t answer, r.phase = .ready ∧ Asks r (.isIncluded t answer) .ready s ∧
        ∀ error, answer = .error error → s.pending.isSome := by
  cases h with
  | idle free => exact .inl ⟨rfl, rfl⟩
  | timedOut p inFlight => exact .inl ⟨rfl, rfl⟩
  | failed p e inFlight ready =>
    refine .inr ⟨p.transaction, .error e, ready,
      .failed r (.isIncluded p.transaction (.error e)) trivial rfl _, fun _ _ => ?_⟩
    rw [pending_disconnect]
    exact Option.isSome_iff_exists.mpr ⟨p, inFlight⟩
  | waits p inFlight ready =>
    exact .inr ⟨p.transaction, .ok false, ready, ⟨rfl, ready⟩, nofun⟩
  | included p inFlight ready =>
    exact .inr ⟨p.transaction, .ok true, ready, ⟨rfl, ready⟩, nofun⟩

theorem Connects.calls (h : Connects r s) :
    (s = r ∧ r.phase ≠ .disconnected) ∨
      ∃ answer, Asks r (.connect answer) .syncing s ∧ s.pending = r.pending := by
  cases h with
  | idle connected =>
    refine .inl ⟨rfl, fun h => ?_⟩
    rcases connected with hphase | hphase
    · exact absurd (h.symm.trans hphase) nofun
    · exact absurd (h.symm.trans hphase) nofun
  | failed e apart =>
    have hcall := Asks.failed (r.enter .connecting) (.connect (.error e)) trivial rfl .syncing
    refine .inr ⟨.error e, ⟨?_, hcall.phase⟩, ?_⟩
    · rw [hcall.calls, calls_enter]
    · rw [pending_disconnect]
      exact pending_enter ..
  | connected apart =>
    refine .inr ⟨.ok (), ⟨?_, phase_enter ..⟩, ?_⟩
    · rw [calls_enter, calls_record (e := .connect (.ok ())) _ trivial, calls_enter]
    · rw [pending_enter]
      exact pending_enter ..

theorem Syncs.calls (h : Syncs r s) :
    (s = r ∧ r.phase ≠ .syncing) ∨
      ∃ answer, r.phase = .syncing ∧ Asks r (.lastCertificate answer) .ready s ∧
        s.pending = r.pending := by
  cases h with
  | idle other => exact .inl ⟨rfl, other⟩
  | failed e syncing =>
    exact .inr ⟨.error e, syncing, .failed r (.lastCertificate (.error e)) trivial rfl _,
      pending_disconnect ..⟩
  | synced last syncing =>
    exact .inr ⟨.ok last, syncing, ⟨calls_enter .., phase_enter ..⟩, pending_enter ..⟩

theorem Submits.calls (h : Submits r s) (ready : r.phase = .ready) :
    (s.calls = r.calls ∧ s.phase = r.phase) ∨
      ∃ command update answer, Asks r (.submit command update answer) .ready s := by
  cases h with
  | idle notes => exact .inl ⟨notes.calls, notes.phase⟩
  | @failed found command update c e notes chain last built =>
    have hcall := Asks.failed found (.submit command update (.error e)) trivial rfl .ready
    exact .inr ⟨command, update, .error e, by rw [hcall.calls, notes.calls], hcall.phase⟩
  | @accepted found command update c transaction now notes chain last built =>
    refine .inr ⟨command, update, .ok transaction, ?_, notes.phase.trans ready⟩
    exact (calls_record (e := .submit command update (.ok transaction)) found trivial).trans
      (congrArg _ notes.calls)

/-- What the stages that connect call. -/
structure Reaches (r s : Relay) (joining : List Exchange) : Prop where
  calls : s.calls = joining ++ r.calls
  pending : s.pending = r.pending
  isJoining : ∀ e ∈ joining, e.IsJoining
  connects : r.phase = .disconnected → ∃ answer, joining.getLast? = some (.connect answer)
  ends : EndsWell joining s

theorem exists_reaches (hconnect : Connects r q) (hsync : Syncs q s) :
    ∃ joining, Reaches r s joining := by
  rcases hconnect.calls with ⟨rfl, hphase⟩ | ⟨answer, hconnects, hpending⟩
  · rcases hsync.calls with ⟨rfl, -⟩ | ⟨answer, -, hsyncs, hpending⟩
    · exact ⟨[], rfl, rfl, nofun, fun h => absurd h hphase, .nil _⟩
    · exact ⟨[.lastCertificate answer], hsyncs.calls, hpending, by simp [Exchange.IsJoining],
        fun h => absurd h hphase, hsyncs.endsWell⟩
  · rcases hsync.calls with ⟨rfl, -⟩ | ⟨last, hsyncing, hsyncs, hpending'⟩
    · exact ⟨[.connect answer], hconnects.calls, hpending, by simp [Exchange.IsJoining],
        fun _ => ⟨answer, rfl⟩, hconnects.endsWell⟩
    · have hfaultless : Faultless [.connect answer] :=
        hconnects.endsWell.faultless (by rw [hsyncing]; nofun)
      refine ⟨[.lastCertificate last, .connect answer], ?_, hpending'.trans hpending, ?_,
        fun _ => ⟨answer, rfl⟩, hsyncs.endsWell.append hfaultless⟩
      · rw [hsyncs.calls, hconnects.calls]
        rfl
      · simp [Exchange.IsJoining]

/-- After the stages that connect, a relay calls nothing, or submits an update if it is ready and
nothing is in flight. -/
theorem calls_onBlock (r : Relay) (setup : RelaySetup) (now : Nat) (block : NewBlock) :
    ((r.onBlock setup now block).calls = (r.prepare setup now block).calls ∧
        (r.onBlock setup now block).phase = (r.prepare setup now block).phase) ∨
      ∃ command update answer, (r.prepare setup now block).phase = .ready ∧
        (r.prepare setup now block).pending = none ∧
        Asks (r.prepare setup now block) (.submit command update answer) .ready
          (r.onBlock setup now block) := by
  obtain ⟨q, hq, hlast⟩ := exists_submits r setup now block
  rw [hq, calls_forget, phase_forget]
  rcases hlast with rfl | ⟨ready, free, hsubmits⟩
  · exact .inl ⟨rfl, rfl⟩
  · rcases hsubmits.calls ready with hquiet | ⟨command, update, answer, hcall⟩
    · exact .inl hquiet
    · exact .inr ⟨command, update, answer, ready, free, (calls_forget ..).trans hcall.calls,
        (phase_forget ..).trans hcall.phase⟩

/-- What a relay calls after the submission in flight is settled. -/
structure Continues (q s : Relay) (rest : List Exchange) : Prop where
  calls : s.calls = rest ++ q.calls
  connects : q.phase = .disconnected → ∃ answer, rest.getLast? = some (.connect answer)
  isJoining : q.pending.isSome → ∀ e ∈ rest, e.IsJoining
  noQuestion : ∀ t answer, .isIncluded t answer ∉ rest
  ends : EndsWell rest s

theorem exists_continues (r : Relay) (setup : RelaySetup) (now : Nat) (block : NewBlock) :
    ∃ rest, Continues ((r.remember block).settle setup now) (r.onBlock setup now block) rest := by
  obtain ⟨joining, hreach⟩ :
      ∃ joining, Reaches ((r.remember block).settle setup now) (r.prepare setup now block) joining :=
    exists_reaches (connects ..) (syncs ..)
  have hnoQuestion : ∀ t answer, .isIncluded t answer ∉ joining :=
    fun t answer hmem => hreach.isJoining _ hmem
  rcases calls_onBlock r setup now block with
    ⟨hcalls, hphase⟩ | ⟨command, update, answer, hready, hfree, hsubmits⟩
  · exact ⟨joining, hcalls.trans hreach.calls, hreach.connects, fun _ => hreach.isJoining,
      hnoQuestion, hreach.ends.of_phase hphase⟩
  · have hfaultless : Faultless joining := hreach.ends.faultless (by rw [hready]; nofun)
    refine ⟨.submit command update answer :: joining, ?_, ?_, ?_, ?_, ?_⟩
    · rw [hsubmits.calls, hreach.calls]
      rfl
    · intro hphase
      obtain ⟨first, hfirst⟩ := hreach.connects hphase
      exact ⟨first, by rw [List.getLast?_cons, hfirst]; rfl⟩
    · intro hsome
      rw [← hreach.pending, hfree] at hsome
      cases hsome
    · simpa using hnoQuestion
    · exact hsubmits.endsWell.append hfaultless

/-- In a notification, nothing is called after a call that failed, and the relay is disconnected
then, unless the question after the submission in flight failed. After that one the relay connects
at once and submits nothing. A disconnected relay begins with connecting. -/
theorem failed_call_ends_block (r : Relay) (setup : RelaySetup) (now : Nat) (block : NewBlock) :
    let s := r.onBlock setup now block
    ∃ calls, s.calls = calls ++ r.calls ∧
      (r.phase = .disconnected → ∃ answer, calls.getLast? = some (.connect answer)) ∧
      ((EndsWell calls s ∧ ∀ t error, .isIncluded t (.error error) ∉ calls) ∨
        ∃ t error joining, calls = joining ++ [.isIncluded t (.error error)] ∧
          (∃ answer, joining.getLast? = some (.connect answer)) ∧
          (∀ e ∈ joining, e.IsJoining) ∧ EndsWell joining s) := by
  intro s
  obtain ⟨rest, hrest⟩ := exists_continues r setup now block
  rcases (settles (r.remember block) setup now).calls with
    ⟨hcalls, hphase⟩ | ⟨t, answer, hready, hasks, hpending⟩
  · refine ⟨rest, hrest.calls.trans (congrArg _ hcalls), fun h => hrest.connects (hphase.trans h),
      .inl ⟨hrest.ends, fun t error => hrest.noQuestion t _⟩⟩
  · refine ⟨rest ++ [.isIncluded t answer], ?_, ?_, ?_⟩
    · calc s.calls
        _ = rest ++ ((r.remember block).settle setup now).calls := hrest.calls
        _ = rest ++ .isIncluded t answer :: r.calls := congrArg _ hasks.calls
        _ = rest ++ [.isIncluded t answer] ++ r.calls := List.append_cons ..
    · exact fun h => absurd (h.symm.trans hready) nofun
    · cases answer with
      | ok included =>
        refine .inl ⟨hrest.ends.append ?_, ?_⟩
        · simp [Faultless, Exchange.error?]
        · intro other error hmem
          rcases List.mem_append.mp hmem with hmem | hmem
          · exact hrest.noQuestion other _ hmem
          · simp at hmem
      | error error =>
        exact .inr ⟨t, error, rest, rfl, hrest.connects hasks.phase,
          hrest.isJoining (hpending error rfl), hrest.ends⟩

end Relay

namespace Solo

/-- The chain of one validator, when it cannot be asked about a transaction. -/
def muteSetup : RelaySetup :=
  { relaySetup with
    chain := { receiver with isIncluded _ _ := .error (.transient "connection lost") } }

/-- The block after the one that makes a relay submit. -/
def following : NewBlock := { certifying with header := header (height 4) .zero .zero 0 }

end Solo

namespace Relay

open Solo (muteSetup notifications certifying following)

/-- A relay whose question fails is ready again when the notification ends. -/
theorem not_endsWell_mute :
    let r := (new .empty).run muteSetup (notifications ++ [(0, certifying)])
    let s := r.onBlock muteSetup 0 following
    s.phase = .ready ∧ ¬∃ calls, s.calls = calls ++ r.calls ∧ EndsWell calls s := by
  intro r s
  have hphase : s.phase = .ready := by decide +kernel
  refine ⟨hphase, ?_⟩
  rintro ⟨calls, hcalls, hends⟩
  have hfailures : s.calls.countP (·.error?.isSome) = r.calls.countP (·.error?.isSome) + 1 := by
    decide +kernel
  have hnone : calls.countP (·.error?.isSome) = 0 := by
    apply List.countP_eq_zero.mpr
    intro e he
    simp [hends.faultless (by simp [hphase]) e he]
  rw [hcalls, List.countP_append, hnone] at hfailures
  omega

end Relay

end ImpliedFinality
