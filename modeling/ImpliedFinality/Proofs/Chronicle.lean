import ImpliedFinality.Proofs.Ballot
import ImpliedFinality.Proofs.Transition

/-!
# The chronicle of a run

A ledger only keeps the weights of votes on its newest blocks. The chronicle of a run keeps each
header that was taken in, and for each vote that was counted the block that implies it and the
height that it is for. An invariant of cores and chronicles that every request preserves holds
wherever a run leads to.
-/

namespace ImpliedFinality

/-- A vote that was counted: the block that implies it, and the height that it is for. -/
structure Vote where
  block : Header
  height : Height
deriving DecidableEq

/-- Whose vote it is and on which height. -/
def Vote.key (v : Vote) : Address × Height := (v.block.generator, v.height)

/-- The headers that were taken in and the votes that were counted, the newest ones first. -/
structure Chronicle where
  headers : List Header
  prevotes : List Vote
  precommits : List Vote
deriving DecidableEq

namespace Chronicle

def empty : Chronicle := ⟨[], [], []⟩

/-- Adds a header and the votes that it implies as the newest block of a ledger. -/
def extend (past : Chronicle) (l : Ledger) (schedule : Timeline Parameters) (header : Header) :
    Chronicle where
  headers := header :: past.headers
  prevotes := (l.prevotesCast schedule).map (Vote.mk header) ++ past.prevotes
  precommits := (l.precommitsCast schedule).map (Vote.mk header) ++ past.precommits

/-- The chronicle after a request that makes a header part of the chain, or none. -/
def after (past : Chronicle) (batchSize : Nat) (s : Core) : Option Header → Chronicle
  | none => past
  | some header => past.extend (s.ledger.append header (3 * batchSize)) s.schedule.timeline header

/-- Those whose votes on a height are listed, as often as they are. -/
def votersOn (votes : List Vote) (height : Height) : List Address :=
  (votes.filter fun v => v.height = height).map fun v => v.block.generator

theorem mem_votersOn {votes : List Vote} {height : Height} {a : Address} :
    a ∈ votersOn votes height ↔ ∃ v ∈ votes, v.height = height ∧ v.block.generator = a := by
  simp only [votersOn, List.mem_map, List.mem_filter, decide_eq_true_eq, and_assoc]

theorem mem_votersOn_iff_key {votes : List Vote} {height : Height} {a : Address} :
    a ∈ votersOn votes height ↔ (a, height) ∈ votes.map Vote.key := by
  simp only [mem_votersOn, List.mem_map, Vote.key, Prod.mk.injEq]
  constructor
  · rintro ⟨v, hv, hheight, hgenerator⟩
    exact ⟨v, hv, hgenerator, hheight⟩
  · rintro ⟨v, hv, hgenerator, hheight⟩
    exact ⟨v, hv, hheight, hgenerator⟩

/-- If nobody votes twice on a height, then nobody is listed twice among the voters on it. -/
theorem nodup_votersOn {votes : List Vote} (h : (votes.map Vote.key).Nodup) (height : Height) :
    (votersOn votes height).Nodup := by
  have hsub : ((votes.filter fun v => v.height = height).map Vote.key).Nodup :=
    h.sublist (List.filter_sublist.map _)
  have hkeys : (votes.filter fun v => v.height = height).map Vote.key
      = (votersOn votes height).map fun a => (a, height) := by
    rw [votersOn, List.map_map]
    apply List.map_congr_left
    intro v hv
    have hheight : v.height = height := by simpa using (List.mem_filter.mp hv).2
    exact Prod.ext rfl hheight
  rw [hkeys] at hsub
  rw [List.Nodup, List.pairwise_map] at hsub
  apply hsub.imp
  rintro a b hne rfl
  exact hne rfl

/-- Votes of one block on different heights add the block's generator once to each of these. -/
theorem votersOn_cast {heights : List Height} (hnodup : heights.Nodup) (header : Header)
    (votes : List Vote) (height : Height) :
    votersOn (heights.map (Vote.mk header) ++ votes) height =
      if height ∈ heights then header.generator :: votersOn votes height
      else votersOn votes height := by
  have hcast : (heights.map fun k => (⟨header, k⟩ : Vote)).filter (fun v => v.height = height)
      = (heights.filter fun k => k = height).map fun k => ⟨header, k⟩ := by
    rw [List.filter_map]
    rfl
  rw [votersOn, List.filter_append, List.map_append, hcast, List.map_map, ← votersOn,
    List.filter_eq, hnodup.count]
  split
  · rfl
  · rfl

/-- The votes of a block do not repeat any if they are for other heights than those that its
generator voted on before. -/
theorem nodup_cast {heights : List Height} {header : Header} {votes : List Vote}
    (hheights : heights.Nodup) (hvotes : (votes.map Vote.key).Nodup)
    (hfresh : ∀ v ∈ votes, v.block.generator = header.generator → v.height ∉ heights) :
    ((heights.map (Vote.mk header) ++ votes).map Vote.key).Nodup := by
  rw [List.map_append, List.map_map, List.nodup_append]
  refine ⟨?_, hvotes, ?_⟩
  · rw [List.Nodup, List.pairwise_map]
    apply hheights.imp
    intro j k hne heq
    exact hne (congrArg Prod.snd heq)
  · rintro _ hnew _ hold rfl
    obtain ⟨k, hk, hkey⟩ := List.mem_map.mp hnew
    obtain ⟨v, hv, hvkey⟩ := List.mem_map.mp hold
    have heq : v.key = (header.generator, k) := hvkey.trans hkey.symm
    have hheight : v.height = k := congrArg Prod.snd heq
    exact hfresh v hv (congrArg Prod.fst heq) (hheight ▸ hk)

end Chronicle

namespace Gadget

/-- The chronicle after a request to a gadget. -/
def record (g : Gadget) (past : Chronicle) (r : Request) : Chronicle :=
  match g.taken? r, g.store.ledger, g.store.parameters with
  | some header, .ok l, .ok schedule =>
    past.extend (l.append header (3 * g.config.batchSize)) schedule header
  | _, _, _ => past

/-- The chronicle after a list of requests to a gadget. -/
def recordAll (g : Gadget) (past : Chronicle) : List Request → Chronicle
  | [] => past
  | r :: rest => (g.step r).1.recordAll (g.record past r) rest

/-- Every request of a run meets a condition on the gadget that it finds. -/
def Obeys (condition : Gadget → Request → Prop) (g : Gadget) : List Request → Prop
  | [] => True
  | r :: rest => condition g r ∧ (g.step r).1.Obeys condition rest

instance decidableObeys {condition : Gadget → Request → Prop}
    [∀ g r, Decidable (condition g r)] :
    (g : Gadget) → (requests : List Request) → Decidable (g.Obeys condition requests)
  | _, [] => .isTrue trivial
  | g, r :: rest =>
    have := @decidableObeys condition _ (g.step r).1 rest
    inferInstanceAs (Decidable (condition g r ∧ (g.step r).1.Obeys condition rest))

theorem Shows.record {g : Gadget} {s : Core} (h : g.Shows s) (past : Chronicle) (r : Request) :
    g.record past r = past.after g.config.batchSize s (g.taken? r) := by
  rw [Gadget.record, h.ledger, h.schedule]
  cases g.taken? r <;> rfl

/-- Requests obey a condition if the first ones do, and the others where these lead to. -/
theorem obeys_append {condition : Gadget → Request → Prop} {g : Gadget}
    {first second : List Request} :
    g.Obeys condition (first ++ second) ↔
      g.Obeys condition first ∧ (g.run first).1.Obeys condition second := by
  induction first generalizing g with
  | nil => exact ⟨fun h => ⟨trivial, h⟩, fun h => h.2⟩
  | cons r rest ih =>
    rw [List.cons_append, Obeys, Obeys, ih, and_assoc]
    rfl

namespace Obeys

variable {condition : Gadget → Request → Prop} {g : Gadget} {requests : List Request}

theorem of_forall (h : ∀ g r, condition g r) : g.Obeys condition requests := by
  induction requests generalizing g with
  | nil => trivial
  | cons r rest ih => exact ⟨h g r, ih⟩

theorem and_mem (h : g.Obeys condition requests) :
    g.Obeys (fun g r => condition g r ∧ r ∈ requests) requests := by
  suffices hpart : ∀ part : List Request, (∀ r ∈ part, r ∈ requests) → ∀ g : Gadget,
      g.Obeys condition part → g.Obeys (fun g r => condition g r ∧ r ∈ requests) part from
    hpart requests (fun _ hr => hr) g h
  intro part hsub
  induction part with
  | nil => exact fun _ _ => trivial
  | cons r rest ih =>
    rintro g ⟨hr, hrest⟩
    rw [List.forall_mem_cons] at hsub
    exact ⟨⟨hr, hsub.1⟩, ih hsub.2 _ hrest⟩

/-- What every request preserves under a condition holds after every run that obeys it. -/
theorem run_induction {batchSize : Nat} {P : Core → Chronicle → Prop}
    (hstep : ∀ {g : Gadget} {s s' : Core} {past : Chronicle} {r : Request}, g.Shows s →
      condition g r → Core.Step batchSize s r (g.taken? r) s' → P s past →
        P s' (past.after batchSize s (g.taken? r)))
    (h : g.Obeys condition requests) (past : Chronicle) {s : Core} (hshows : g.Shows s)
    (hconfig : g.config.batchSize = batchSize) (hP : P s past) :
    ∃ s', (g.run requests).1.Shows s' ∧ (g.run requests).1.config = g.config ∧
      P s' (g.recordAll past requests) := by
  induction requests generalizing g s past with
  | nil => exact ⟨s, hshows, rfl, hP⟩
  | cons r rest ih =>
    obtain ⟨hr, hrest⟩ := h
    obtain ⟨s', hshows', hnext⟩ := hshows.step r
    rw [hconfig] at hnext
    have hP' := hstep hshows hr hnext hP
    have hconfig' := config_step g r
    obtain ⟨last, hlast, hlastConfig, hlastP⟩ := ih hrest _ hshows' (by rw [hconfig', hconfig]) hP'
    refine ⟨last, hlast, hlastConfig.trans hconfig', ?_⟩
    rw [recordAll, hshows.record, hconfig]
    exact hlastP

end Obeys

end Gadget

/-- Sets parameters once, then adds block by block. -/
def Request.chain (proposal : Proposal) (headers : List Header) : List Request :=
  .setParameters proposal :: headers.map .processBlock

/-! ## A chain of one validator -/

namespace Solo

def validator : Validator where
  address := .zero
  generatorKey := ⟨1 :: List.replicate 31 0, by decide⟩
  blsKey := .placeholder
  weight := ⟨1, by decide⟩

def proposal : Proposal := ⟨⟨1, by decide⟩, ⟨1, by decide⟩, [validator]⟩

def config : GadgetConfig := ⟨1, 1, false⟩

def height (n : UInt8) : Height := ⟨n.toNat, Nat.lt_trans n.toNat_lt (by decide)⟩

def weight (n : UInt8) : Weight := ⟨n.toNat, Nat.lt_trans n.toNat_lt (by decide)⟩

def header (height reported prevoted : Height) (timestamp : UInt32) : Header where
  version := 2
  height := height
  timestamp := timestamp
  previousBlock := .zero
  generator := .zero
  maxHeightPrevoted := prevoted
  maxHeightGenerated := reported
  stateRoot := .zero
  validatorsHash := .zero
  commit := .empty .zero
  signature := .empty

/-- Two blocks, of which the second one precommits the first. -/
def headers (timestamp : UInt32) : List Header :=
  [header ⟨1, by decide⟩ .zero .zero timestamp,
    header ⟨2, by decide⟩ ⟨1, by decide⟩ ⟨1, by decide⟩ timestamp]

/-- The two blocks over genesis height zero, made at a time. -/
def requests (timestamp : UInt32) : List Request := Request.chain proposal (headers timestamp)

end Solo

end ImpliedFinality
