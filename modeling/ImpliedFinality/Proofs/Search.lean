import ImpliedFinality.Proofs.Filing
import ImpliedFinality.Trust

/-!
# The certificate that a search finds

The search for the next certificate goes down height by height. It passes a height without commit or
with one that is not trusted, and stops at any other one, with a certificate or with the history
that is missing. So its result is the one at the highest height that it does not pass, and there is
only one such result.
-/

namespace ImpliedFinality

theorem Height.le_below_one {k h : Height} (hle : k ≤ h) (hne : k ≠ h) : k ≤ h.below 1 := by
  have hne' : k.toNat ≠ h.toNat := fun heq => hne (Height.ext heq)
  exact Nat.le_pred_of_lt (Nat.lt_of_le_of_ne hle hne')

namespace ChainView

variable {view : ChainView} {trusted : AggregateCommit → Except Failure Bool}
  {low certified height : Height} {result other : Except Failure (Option Certificate)}
  {header : Header} {commit : AggregateCommit} {c : Certificate} {e : Failure}

/-- A search goes past a height that has no commit, or none that is trusted. -/
def Passes (view : ChainView) (trusted : AggregateCommit → Except Failure Bool) (height : Height) :
    Prop :=
  ∀ commit, view.commit? height = some commit → trusted commit = .ok false

/-- What a search comes to at a height that it does not pass. -/
inductive StopsAt (view : ChainView) (trusted : AggregateCommit → Except Failure Bool)
    (height : Height) : Except Failure (Option Certificate) → Prop
  /-- Whether the commit is trusted cannot be told. -/
  | untold {commit : AggregateCommit} {e : Failure} (commitAt : view.commit? height = some commit)
      (fails : trusted commit = .error e) : StopsAt view trusted height (.error e)
  /-- The commit is trusted, but there is no header for it. -/
  | headless {commit : AggregateCommit} (commitAt : view.commit? height = some commit)
      (isTrusted : trusted commit = .ok true) (missing : view.header? height = none) :
      StopsAt view trusted height (.error (.missingHeader height))
  /-- The commit is trusted, and there is a header for it. -/
  | tried {commit : AggregateCommit} {header : Header}
      (commitAt : view.commit? height = some commit) (isTrusted : trusted commit = .ok true)
      (headerAt : view.header? height = some header) :
      StopsAt view trusted height ((Certificate.ofCommit commit header).map some)

/-- How a search of the heights above one and up to another ends. -/
inductive Search (view : ChainView) (trusted : AggregateCommit → Except Failure Bool)
    (low certified : Height) : Except Failure (Option Certificate) → Prop
  | exhausted (passed : ∀ h, low < h → h ≤ certified → view.Passes trusted h) :
      Search view trusted low certified (.ok none)
  | stopped {height : Height} {result : Except Failure (Option Certificate)}
      (above : low < height) (within : height ≤ certified)
      (stops : view.StopsAt trusted height result)
      (passed : ∀ h, height < h → h ≤ certified → view.Passes trusted h) :
      Search view trusted low certified result

theorem StopsAt.not_passes (h : view.StopsAt trusted height result) :
    ¬ view.Passes trusted height := by
  intro hpasses
  cases h with
  | untold commitAt fails => exact absurd (fails.symm.trans (hpasses _ commitAt)) nofun
  | headless commitAt isTrusted _ => exact absurd (isTrusted.symm.trans (hpasses _ commitAt)) nofun
  | tried commitAt isTrusted _ => exact absurd (isTrusted.symm.trans (hpasses _ commitAt)) nofun

theorem StopsAt.deterministic (h : view.StopsAt trusted height result)
    (h' : view.StopsAt trusted height other) : result = other := by
  cases h <;> cases h' <;> simp_all

/-- A search has one result. -/
theorem Search.deterministic (h : view.Search trusted low certified result)
    (h' : view.Search trusted low certified other) : result = other := by
  cases h with
  | exhausted passed =>
    cases h' with
    | exhausted => rfl
    | stopped above within stops => exact absurd (passed _ above within) stops.not_passes
  | @stopped height _ above within stops passed =>
    cases h' with
    | exhausted passed' => exact absurd (passed' _ above within) stops.not_passes
    | @stopped height' _ above' within' stops' passed' =>
      rcases Nat.lt_trichotomy height.toNat height'.toNat with hlt | heq | hlt
      · exact absurd (passed _ hlt within') stops'.not_passes
      · cases Height.ext heq
        exact stops.deterministic stops'
      · exact absurd (passed' _ hlt within) stops.not_passes

theorem Search.of_below (h : view.Search trusted low (certified.below 1) result)
    (passes : view.Passes trusted certified) : view.Search trusted low certified result := by
  have hpassed : ∀ k, (k ≤ certified.below 1 → view.Passes trusted k) → k ≤ certified →
      view.Passes trusted k := by
    intro k hbelow hle
    by_cases htop : k = certified
    · rw [htop]
      exact passes
    · exact hbelow (Height.le_below_one hle htop)
  cases h with
  | exhausted passed =>
    exact .exhausted fun k habove hle => hpassed k (passed k habove) hle
  | stopped above within stops passed =>
    refine .stopped above (Nat.le_trans within (Nat.sub_le ..)) stops ?_
    exact fun k habove hle => hpassed k (passed k habove) hle

/-- A search passes its first height and goes on below, or it stops there. -/
theorem searchDown_succ (view : ChainView) (trusted : AggregateCommit → Except Failure Bool)
    (count : Nat) (height : Height) :
    (view.Passes trusted height ∧
      view.searchDown trusted (count + 1) height = view.searchDown trusted count (height.below 1)) ∨
    view.StopsAt trusted height (view.searchDown trusted (count + 1) height) := by
  rw [searchDown]
  cases hcommit : view.commit? height with
  | none => exact .inl ⟨fun commit h => absurd (hcommit.symm.trans h) nofun, rfl⟩
  | some commit =>
    dsimp only
    cases htrusted : trusted commit with
    | error e => exact .inr (.untold hcommit htrusted)
    | ok isTrusted =>
      cases isTrusted with
      | false =>
        refine .inl ⟨fun other hother => ?_, rfl⟩
        cases hcommit.symm.trans hother
        exact htrusted
      | true =>
        dsimp only
        cases hheader : view.header? height with
        | none => exact .inr (.headless hcommit htrusted hheader)
        | some header => exact .inr (.tried hcommit htrusted hheader)

theorem search_searchDown {count : Nat} (hcount : certified.toNat = low.toNat + count) :
    view.Search trusted low certified (view.searchDown trusted count certified) := by
  induction count generalizing certified with
  | zero =>
    refine .exhausted fun h habove hle => ?_
    rw [Height.lt_iff] at habove
    rw [Height.le_iff] at hle
    omega
  | succ count ih =>
    rcases searchDown_succ view trusted count certified with ⟨hpasses, hbelow⟩ | hstops
    · rw [hbelow]
      apply Search.of_below (ih ?_) hpasses
      rw [Height.toNat_below]
      omega
    · refine .stopped ?_ (Nat.le_refl _) hstops fun h habove hle => ?_
      · rw [Height.lt_iff]
        omega
      · exact absurd hle (Height.not_le.mpr habove)

/-! ## The three kinds of results -/

/-- A certificate comes from the highest trusted commit that is not above a height. -/
structure Tops (view : ChainView) (trusted : AggregateCommit → Except Failure Bool)
    (certified : Height) (header : Header) (commit : AggregateCommit) (c : Certificate) : Prop where
  le_certified : c.body.height ≤ certified
  headerAt : view.header? c.body.height = some header
  commitAt : view.commit? c.body.height = some commit
  derived : Certificate.ofCommit commit header = .ok c
  isTrusted : trusted commit = .ok true
  highest : ∀ h, c.body.height < h → h ≤ certified → view.Passes trusted h

/-- History is missing at the highest height, not above a given one, that a search does not pass:
the check of the commit there fails, or the header of a trusted one is not available. -/
structure Lacks (view : ChainView) (trusted : AggregateCommit → Except Failure Bool)
    (certified height : Height) (e : Failure) : Prop where
  le_certified : height ≤ certified
  fails : ∃ commit, view.commit? height = some commit ∧ (trusted commit = .error e ∨
    trusted commit = .ok true ∧ view.header? height = none ∧ e = .missingHeader height)
  highest : ∀ h, height < h → h ≤ certified → view.Passes trusted h

/-- A commit and a header that are filed under one height belong together. -/
theorem FiledByHeight.exists_derived (filed : view.FiledByHeight)
    (hcommit : view.commit? height = some commit) (hheader : view.header? height = some header) :
    ∃ c, Certificate.ofCommit commit header = .ok c ∧ c.body.height = height := by
  have hheight : header.height = height := filed.headers hheader
  refine ⟨_, Certificate.ofCommit_eq_ok.mpr ⟨?_, rfl⟩, hheight⟩
  rw [hheight, filed.commits hcommit]

theorem search_none_iff : view.Search trusted low certified (.ok none) ↔
    ∀ h, low < h → h ≤ certified → view.Passes trusted h := by
  refine ⟨fun h => ?_, .exhausted⟩
  generalize hresult : Except.ok none = result at h
  cases h with
  | exhausted passed => exact passed
  | stopped above within stops passed =>
    cases stops with
    | untold => contradiction
    | headless => contradiction
    | @tried commit header =>
      cases hderived : Certificate.ofCommit commit header <;>
        simp [hderived, Except.map] at hresult

theorem FiledByHeight.search_some_iff (filed : view.FiledByHeight) :
    view.Search trusted low certified (.ok (some c)) ↔
      low < c.body.height ∧ ∃ header commit, view.Tops trusted certified header commit c := by
  constructor
  · intro h
    generalize hresult : Except.ok (some c) = result at h
    cases h with
    | exhausted => cases hresult
    | stopped above within stops passed =>
      cases stops with
      | untold => contradiction
      | headless => contradiction
      | @tried commit header commitAt isTrusted headerAt =>
        obtain ⟨found, hderived, rfl⟩ := filed.exists_derived commitAt headerAt
        rw [hderived] at hresult
        cases hresult
        exact ⟨above, header, commit, within, headerAt, commitAt, hderived, isTrusted, passed⟩
  · rintro ⟨habove, header, commit, h⟩
    refine .stopped habove h.le_certified ?_ h.highest
    have hstops := StopsAt.tried h.commitAt h.isTrusted h.headerAt
    rwa [h.derived] at hstops

theorem FiledByHeight.search_error_iff (filed : view.FiledByHeight) :
    view.Search trusted low certified (.error e) ↔
      ∃ height, low < height ∧ view.Lacks trusted certified height e := by
  constructor
  · intro h
    generalize hresult : Except.error e = result at h
    cases h with
    | exhausted => cases hresult
    | @stopped height _ above within stops passed =>
      refine ⟨height, above, within, ?_, passed⟩
      cases stops with
      | @untold commit e' commitAt fails =>
        cases hresult
        exact ⟨commit, commitAt, .inl fails⟩
      | @headless commit commitAt isTrusted missing =>
        cases hresult
        exact ⟨commit, commitAt, .inr ⟨isTrusted, missing, rfl⟩⟩
      | tried commitAt isTrusted headerAt =>
        obtain ⟨found, hderived, -⟩ := filed.exists_derived commitAt headerAt
        rw [hderived] at hresult
        cases hresult
  · rintro ⟨height, habove, h⟩
    obtain ⟨commit, hcommit, hfails | ⟨htrusted, hmissing, rfl⟩⟩ := h.fails
    · exact .stopped habove h.le_certified (.untold hcommit hfails) h.highest
    · exact .stopped habove h.le_certified (.headless hcommit htrusted hmissing) h.highest

/-! ## The next certificate -/

/-- Whether a chain that accepted the last certificate and knows its validators trusts a
commit. -/
abbrev trustsAfter (view : ChainView) (last : LastCertificate) (known : Snapshot) :
    AggregateCommit → Except Failure Bool :=
  view.trusts last.validatorsHash known.trustedWeights known.certificateThreshold

variable {last : LastCertificate} {known : Snapshot}

theorem nextCertificate_of_le (hle : certified ≤ last.height) :
    view.nextCertificate last certified = .ok none := if_pos hle

theorem nextCertificate_of_unknown (hlt : last.height < certified)
    (hunknown : view.snapshot? last.validatorsHash = none) :
    view.nextCertificate last certified = .error (.missingSnapshot last.validatorsHash) := by
  rw [nextCertificate, if_neg (Height.not_le.mpr hlt), hunknown]

/-- The next certificate is what a search above the last one comes to. -/
theorem nextCertificate_eq_iff (hlt : last.height < certified)
    (hknown : view.snapshot? last.validatorsHash = some known) :
    view.nextCertificate last certified = result ↔
      view.Search (view.trustsAfter last known) last.height certified result := by
  obtain ⟨lowest, hlowest⟩ := Height.exists_succ? hlt
  have hsearch : view.Search (view.trustsAfter last known) last.height certified
      (view.nextCertificate last certified) := by
    rw [nextCertificate, if_neg (Height.not_le.mpr hlt), hknown]
    dsimp only
    rw [hlowest]
    rw [Height.succ?_eq_some] at hlowest
    rw [Height.lt_iff] at hlt
    exact search_searchDown (by omega)
  exact ⟨fun h => h ▸ hsearch, hsearch.deterministic⟩

/-- The next certificate is above the last one, and comes from the highest commit that is trusted by
the validators of the last one. -/
theorem FiledByHeight.nextCertificate_eq_some_iff (filed : view.FiledByHeight) :
    view.nextCertificate last certified = .ok (some c) ↔
      last.height < c.body.height ∧ ∃ known header commit,
        view.snapshot? last.validatorsHash = some known ∧
          view.Tops (view.trustsAfter last known) certified header commit c := by
  constructor
  · intro h
    have hlt : last.height < certified := by
      apply Height.not_le.mp
      intro hle
      rw [nextCertificate_of_le hle] at h
      cases h
    cases hknown : view.snapshot? last.validatorsHash with
    | none =>
      rw [nextCertificate_of_unknown hlt hknown] at h
      cases h
    | some known =>
      rw [nextCertificate_eq_iff hlt hknown, filed.search_some_iff] at h
      obtain ⟨habove, header, commit, htops⟩ := h
      exact ⟨habove, known, header, commit, rfl, htops⟩
  · rintro ⟨habove, known, header, commit, hknown, htops⟩
    have hlt : last.height < certified := Nat.lt_of_lt_of_le habove htops.le_certified
    rw [nextCertificate_eq_iff hlt hknown, filed.search_some_iff]
    exact ⟨habove, header, commit, htops⟩

/-- There is no next certificate if nothing above the last one is certified, or no commit there is
trusted. -/
theorem nextCertificate_eq_none_iff :
    view.nextCertificate last certified = .ok none ↔
      certified ≤ last.height ∨ ∃ known, view.snapshot? last.validatorsHash = some known ∧
        ∀ h, last.height < h → h ≤ certified → view.Passes (view.trustsAfter last known) h := by
  by_cases hle : certified ≤ last.height
  · exact iff_of_true (nextCertificate_of_le hle) (.inl hle)
  · have hlt : last.height < certified := Height.not_le.mp hle
    rw [or_iff_right hle]
    cases hknown : view.snapshot? last.validatorsHash with
    | none => simp [nextCertificate_of_unknown hlt hknown]
    | some known =>
      rw [nextCertificate_eq_iff hlt hknown, search_none_iff]
      simp

theorem FiledByHeight.nextCertificate_eq_error_iff (filed : view.FiledByHeight) :
    view.nextCertificate last certified = .error e ↔
      last.height < certified ∧
        (view.snapshot? last.validatorsHash = none ∧ e = .missingSnapshot last.validatorsHash ∨
          ∃ known height, view.snapshot? last.validatorsHash = some known ∧ last.height < height ∧
            view.Lacks (view.trustsAfter last known) certified height e) := by
  by_cases hle : certified ≤ last.height
  · rw [nextCertificate_of_le hle]
    exact iff_of_false nofun fun h => Height.not_le.mpr h.1 hle
  · have hlt : last.height < certified := Height.not_le.mp hle
    rw [and_iff_right hlt]
    cases hknown : view.snapshot? last.validatorsHash with
    | none => simp [nextCertificate_of_unknown hlt hknown, eq_comm]
    | some known =>
      rw [nextCertificate_eq_iff hlt hknown, filed.search_error_iff]
      simp

end ChainView

end ImpliedFinality
