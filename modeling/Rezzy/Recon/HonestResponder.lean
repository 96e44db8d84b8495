import Rezzy.Recon.SplitCheck
import Rezzy.Recon.Steps
import Rezzy.Recon.Advance

namespace Rezzy.Recon

open Region BucketExchange List Outcome
open BucketExchange (narrow)

variable {population : List ElementHash} {exchange : BucketExchange} {batch : BucketDecodeBatch} {round : List Slot}

section

theorem Faithful.congr (faithful : Faithful population exchange) (parents : other.parents = exchange.parents)
    (awaiting : other.awaiting = exchange.awaiting) : Faithful population other :=
  ⟨parents ▸ faithful.parents, awaiting ▸ faithful.awaiting⟩

theorem Faithful.ladderFail (faithful : Faithful population exchange) (region : Node) (batch : BucketDecodeBatch) :
    Faithful population (exchange.ladderFail region batch).1 :=
  ⟨fun entry mem => faithful.parents entry (mem_filter.mp mem).1,
    fun entry mem => faithful.awaiting entry (mem_filter.mp mem).1⟩

theorem Faithful.giveUps {state : Progress} (faithful : Faithful population state.1) (nodes : List Node) :
    Faithful population (nodes.foldl (fun state node => state.1.ladderFail node state.2) state).1 := by
  induction nodes generalizing state with
  | nil => exact faithful
  | cons node nodes ih => exact ih (faithful.ladderFail node state.2)

theorem Faithful.rejection (faithful : Faithful population state.1) (round : List Slot) (rejection : Rejected) :
    Faithful population (handlePhase1Rejection round state rejection).1 := by
  unfold handlePhase1Rejection
  dsimp only
  split
  · exact faithful
  · split
    · exact faithful
    · split
      · exact faithful.ladderFail rejection.1 state.2
      · exact faithful.congr rfl rfl

theorem Faithful.rejections (faithful : Faithful population state.1) (round : List Slot) (rejected : List Rejected) :
    Faithful population (rejected.foldl (handlePhase1Rejection round) state).1 := by
  induction rejected generalizing state with
  | nil => exact faithful
  | cons rejection rejected ih => exact ih (faithful.rejection round rejection)

variable (faithful : Faithful population exchange)
include faithful

theorem Faithful.remember (honest : FaithfulRound population round)
    (node : Node) : Faithful population (rememberFailedNode round exchange node) := by
  unfold rememberFailedNode
  split
  · exact faithful
  · rename_i slot found
    obtain ⟨inRound, rfl⟩ := slotOf_some found
    split
    · exact faithful
    · refine ⟨fun entry mem => ?_, faithful.awaiting⟩
      rcases mem_append.mp mem with known | new
      · exact faithful.parents entry known
      · rw [mem_singleton.mp new]
        exact honest slot inRound

theorem Faithful.remembers (honest : FaithfulRound population round)
    (nodes : List Node) : Faithful population (nodes.foldl (rememberFailedNode round) exchange) := by
  induction nodes generalizing exchange with
  | nil => exact faithful
  | cons node nodes ih => exact ih (faithful.remember honest node)

theorem Faithful.scheduled (batch : BucketDecodeBatch) (rejected : List Rejected) (round : List Slot) :
    Faithful population (exchange.scheduleOverflowRetries batch rejected round) := by
  obtain ⟨_, _, _, marked⟩ := exchange.scheduleOverflowRetries_marks batch rejected round
  rw [marked]
  exact faithful.congr rfl rfl

theorem Faithful.checkRound (honest : FaithfulRound population round)
    (outcome : VerifiedBatch) : Faithful population (exchange.checkRound outcome round).1 := by
  obtain ⟨parents, awaiting, checked, after⟩ := checkSplitConsistency_faithful (outcome.batch)
    (faithful.scheduled outcome.batch outcome.rejected round) honest
  unfold BucketExchange.checkRound
  rw [checked]
  exact ((after.giveUps _).rejections round outcome.rejected).remembers honest _

end

theorem narrow_ok {nodes : List Classified} {maxRounds maxBucketsPerRound maxAggregateCapacity : Nat}
    {exchange : BucketExchange} {first : List BucketRequest}
    (started : narrow nodes maxRounds maxBucketsPerRound maxAggregateCapacity = .ok (exchange, first)) :
    ∃ all, drainPendingRound { BucketExchange.new [] maxRounds maxBucketsPerRound maxAggregateCapacity with
      parents := nodes.map fun c : Classified => (c.node, c.remoteSummary), pending := all } = (exchange, some first) := by
  unfold narrow at started
  dsimp only at started
  split at started
  · obtain ⟨children, _, checked⟩ := bind_eq_ok.mp started
    obtain ⟨_, _, drained⟩ := bind_eq_ok.mp checked
    split at drained
    · rename_i reached
      obtain ⟨rfl, rfl⟩ := Prod.mk.inj (Except.ok.inj drained)
      exact ⟨_, reached⟩
    · cases drained
  · obtain ⟨_, none_, _⟩ := bind_eq_ok.mp started
    cases none_

/-- The exchanges that are reached when every summary of the responder is that of its population: the calls may have
    any requests, outcomes and local side. -/
inductive HonestRun (population : List ElementHash) : BucketExchange → Prop where
  | new (accumulatedRoots : List Nat) (maxRounds maxBucketsPerRound maxAggregateCapacity : Nat) :
      HonestRun population (.new accumulatedRoots maxRounds maxBucketsPerRound maxAggregateCapacity)
  | narrow {nodes : List Classified} {maxRounds maxBucketsPerRound maxAggregateCapacity : Nat}
      {exchange : BucketExchange} {first : List BucketRequest}
      (honest : ∀ c ∈ nodes, nodeSummary population c.node = .ok c.remoteSummary)
      (started : narrow nodes maxRounds maxBucketsPerRound maxAggregateCapacity = .ok (exchange, first)) :
      HonestRun population exchange
  | advance {exchange next : BucketExchange} {batch : BucketDecodeBatch} {requests : List BucketRequest}
      {globalEstimate : Option Nat} {action : ClientAction} (run : HonestRun population exchange)
      (advanced : exchange.advance batch requests globalEstimate = (next, action)) : HonestRun population next
  | advanceVerified {exchange next : BucketExchange} {batch : BucketDecodeBatch} {requests : List BucketRequest}
      {localSummaries remoteSummaries : List NodeSummary} {globalEstimate : Option Nat}
      {localCandidates : Nat → List Nat} {action : ClientAction} (run : HonestRun population exchange)
      (honest : ∀ slot ∈ slots requests localSummaries remoteSummaries,
        nodeSummary population slot.request.node = .ok slot.remoteSummary)
      (advanced : exchange.advanceVerified batch requests localSummaries remoteSummaries globalEstimate
        localCandidates = .ok (next, action)) : HonestRun population next

theorem HonestRun.faithful (run : HonestRun population exchange) : Faithful population exchange := by
  induction run with
  | new => exact ⟨(fun _ none => nomatch none), (fun _ none => nomatch none)⟩
  | @narrow nodes maxRounds maxBucketsPerRound maxAggregateCapacity exchange first honest started =>
    obtain ⟨all, drained⟩ := narrow_ok started
    have before : Faithful population { BucketExchange.new [] maxRounds maxBucketsPerRound maxAggregateCapacity with
        parents := nodes.map fun c : Classified => (c.node, c.remoteSummary), pending := all } := by
      refine ⟨fun entry mem => ?_, (fun _ none => nomatch none)⟩
      obtain ⟨node, inside, rfl⟩ := mem_map.mp mem
      exact honest node inside
    have frame := drainPendingRound_frame { BucketExchange.new [] maxRounds maxBucketsPerRound maxAggregateCapacity with
      parents := nodes.map fun c : Classified => (c.node, c.remoteSummary), pending := all }
    rw [drained] at frame
    exact before.congr frame.parents frame.awaiting
  | advance _ advanced ih => exact ih.congr (advance_frame advanced).parents (advance_frame advanced).awaiting
  | advanceVerified _ honest advanced ih =>
    obtain ⟨⟨middle, left⟩, verified, rest⟩ := bind_eq_ok.mp advanced
    obtain ⟨outcome, _, rfl, rfl⟩ := verifyRound_ok verified
    have frame := advance_frame (Except.ok.inj rest)
    exact (ih.checkRound honest outcome).congr frame.parents frame.awaiting

theorem Faithful.unblamed (faithful : Faithful population exchange) (parent : Node) :
    exchange.blames parent = false := by
  unfold blames
  split
  · rfl
  · rename_i node summary found
    split
    · rfl
    · rename_i total fits covered
      have same : node = parent := by simpa using find?_some found
      have own := faithful.parents _ (mem_of_find?_eq_some found)
      rw [same] at own
      obtain ⟨rfl, rfl⟩ := summarizeDescendantCover_exact faithful.awaiting own covered
      simp

theorem Faithful.eachBlame (faithful : Faithful population exchange) (candidates : List Node)
    (batch : BucketDecodeBatch) : EachBlame (fun _ _ => False) candidates (exchange, batch) := by
  induction candidates generalizing exchange with
  | nil => exact trivial
  | cons parent candidates ih =>
    refine ⟨fun blamed => absurd blamed (by simp [faithful.unblamed]), ?_⟩
    obtain ⟨parents, checked, kept⟩ := checkParent_faithful batch faithful parent
    rw [checked]
    exact ih ⟨fun entry mem => faithful.parents entry (kept entry mem), faithful.awaiting⟩

/-- A responder that reports its population is never found inconsistent: no parent is given up, and the check keeps
    the summaries that it waits for. -/
theorem HonestRun.blameless (run : HonestRun population exchange) {requests : List BucketRequest}
    {localSummaries remoteSummaries : List NodeSummary}
    (honest : ∀ slot ∈ slots requests localSummaries remoteSummaries,
      nodeSummary population slot.request.node = .ok slot.remoteSummary) (outcome : VerifiedBatch) :
    let round := slots requests localSummaries remoteSummaries
    let before := exchange.scheduleOverflowRetries outcome.batch outcome.rejected round
    EachBlame (fun _ _ => False) (before.parents.map Prod.fst) (before.withRound round, outcome.batch) ∧
      ∃ parents awaiting, before.checkSplitConsistency round outcome.batch =
        ({ before with parents := parents, awaiting := awaiting }, outcome.batch) := by
  have faithful := run.faithful.scheduled outcome.batch outcome.rejected
    (slots requests localSummaries remoteSummaries)
  obtain ⟨parents, awaiting, checked, _⟩ := checkSplitConsistency_faithful outcome.batch faithful honest
  have begun : Faithful population ((exchange.scheduleOverflowRetries outcome.batch outcome.rejected
      (slots requests localSummaries remoteSummaries)).withRound (slots requests localSummaries remoteSummaries)) :=
    ⟨faithful.parents, awaitSummaries_exact _ faithful.awaiting honest⟩
  exact ⟨begun.eachBlame _ _, parents, awaiting, checked⟩

namespace Sample

def lone : List ElementHash := [⟨7, 5⟩]

def losing : Classified := ⟨0, 0, [], [5], 0, ⟨0, 0⟩, ⟨1, 7⟩⟩

def halves : List BucketRequest := [.new 1 0 10, .new 1 1 10]

def narrowed : BucketExchange :=
  { BucketExchange.new [] 3 4 64 with parents := [((0, 0), ⟨1, 7⟩)], roundsEmitted := 1 }

theorem narrow_losing : narrow [losing] 3 4 64 = .ok (narrowed, halves) := by
  have split : [losing].mapM (fun node =>
      retryOrSplitBucketWithFanout (.new node.depth node.prefix_ maxBucketSketchCapacity) 0 true 1) = some [halves] := rfl
  have flat : [halves].flatten = halves := rfl
  have sorted : (halves.mergeSort fun a b => bucketRangeStart a ≤ bucketRangeStart b) = halves :=
    mergeSort_of_pairwise (by decide)
  unfold narrow
  rw [split]
  simp only [bind, Except.bind, flat, sorted]
  rfl

theorem narrowed_honest : HonestRun lone narrowed := by
  refine .narrow (fun c mem => ?_) narrow_losing
  rw [mem_singleton.mp mem]
  rfl

theorem halves_blameless :
    let round := slots halves [⟨0, 0⟩, ⟨0, 0⟩] [⟨1, 7⟩, ⟨0, 0⟩]
    let before := narrowed.scheduleOverflowRetries ⟨[⟨1, 1, []⟩], [(1, 0)]⟩ [] round
    EachBlame (fun _ _ => False) (before.parents.map Prod.fst) (before.withRound round, ⟨[⟨1, 1, []⟩], [(1, 0)]⟩) ∧
      ∃ parents awaiting, before.checkSplitConsistency round ⟨[⟨1, 1, []⟩], [(1, 0)]⟩ =
        ({ before with parents := parents, awaiting := awaiting }, ⟨[⟨1, 1, []⟩], [(1, 0)]⟩) :=
  narrowed_honest.blameless (by decide) ⟨⟨[⟨1, 1, []⟩], [(1, 0)]⟩, [], []⟩

end Sample

end Rezzy.Recon
