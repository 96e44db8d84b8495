import Rezzy.Recon.Advance
import Rezzy.Recon.Steps

namespace Rezzy.Recon

open List hiding next
open Region Relation BucketExchange Except
open Prod (fst)

def BucketDecodeBatch.nodes (batch : BucketDecodeBatch) : List Node :=
  batch.successfulBuckets.map BucketDecodeSuccess.node ++ batch.failedBuckets

def ClientAction.rounds : ClientAction → List (List BucketRequest)
  | .bucketSketches requests _ => [requests]
  | _ => []

inductive Call where
  | advance (batch : BucketDecodeBatch) (globalEstimate : Option Nat)
  | advanceVerified (batch : BucketDecodeBatch) (localSummaries remoteSummaries : List NodeSummary)
      (globalEstimate : Option Nat) (localCandidates : Nat → List Nat)

namespace Call

def batch : Call → BucketDecodeBatch
  | advance batch _ => batch
  | advanceVerified batch _ _ _ _ => batch

def globalEstimate : Call → Option Nat
  | advance _ globalEstimate => globalEstimate
  | advanceVerified _ _ _ globalEstimate _ => globalEstimate

def run (exchange : BucketExchange) (requests : List BucketRequest) :
    Call → Except AlgebraicError (BucketExchange × ClientAction)
  | advance batch globalEstimate => .ok (exchange.advance batch requests globalEstimate)
  | advanceVerified batch localSummaries remoteSummaries globalEstimate localCandidates =>
    exchange.advanceVerified batch requests localSummaries remoteSummaries globalEstimate localCandidates

def prepare (exchange : BucketExchange) (requests : List BucketRequest) : Call → Except AlgebraicError Progress
  | advance batch _ => .ok (exchange, batch)
  | advanceVerified batch localSummaries remoteSummaries _ localCandidates =>
    exchange.verifyRound batch requests localSummaries remoteSummaries localCandidates

def Answers (call : Call) (requests : List BucketRequest) : Prop :=
  call.batch.nodes.Perm (requests.map BucketRequest.node)

theorem run_ok {call : Call} (ran : call.run exchange requests = .ok (next, action)) :
    ∃ ready, call.prepare exchange requests = .ok ready ∧
      ready.1.advance ready.2 requests call.globalEstimate = (next, action) := by
  cases call with
  | advance batch globalEstimate => exact ⟨(exchange, batch), rfl, ok.inj ran⟩
  | advanceVerified batch localSummaries remoteSummaries globalEstimate localCandidates =>
    obtain ⟨ready, verified, advanced⟩ := Outcome.bind_eq_ok.mp ran
    exact ⟨ready, verified, ok.inj advanced⟩

end Call

namespace BucketExchange

variable {condition : BucketExchange → Node → Prop} {round : List Slot}

def openNodes (state : Progress) : List Node := state.1.pending.map BucketRequest.node ++ state.2.nodes

structure AllFormed (state : Progress) : Prop where
  opened : ∀ node ∈ openNodes state, Formed maxDepth node
  given : ∀ node ∈ state.1.ladderFailed, Formed maxDepth node
  parents : ∀ node ∈ state.1.parents.map fst, Formed maxDepth node

theorem openNodes_sublist (shrinks : Shrinks state next) : (openNodes next).Sublist (openNodes state) :=
  (shrinks.pending.map _).append ((shrinks.successes.map _).append shrinks.failed)

theorem mem_ladderFail_ladderFailed {exchange : BucketExchange}
    (mem : node ∈ (exchange.ladderFail region batch).1.ladderFailed) :
    node = region ∨ node ∈ exchange.ladderFailed := by
  have mem : node ∈ ite _ _ _ := mem
  split at mem
  · exact .inr mem
  · rcases mem_append.mp mem with known | new
    · exact .inr known
    · exact .inl (mem_singleton.mp new)

theorem Change.allFormed (change : Change condition round state next) (formed : AllFormed state) :
    AllFormed next := by
  have opened : ∀ node ∈ openNodes next, Formed maxDepth node :=
    fun node mem => formed.opened node ((openNodes_sublist change.shrinks).subset mem)
  cases change with
  | marks exchange batch failures forceSplit overflowRetry wideSplit => exact ⟨opened, formed.given, formed.parents⟩
  | awaits exchange batch awaiting => exact ⟨opened, formed.given, formed.parents⟩
  | settles exchange batch parent =>
    refine ⟨opened, formed.given, fun node mem => formed.parents node ?_⟩
    exact (eraseP_sublist.map fst).subset mem
  | blames exchange batch parent known meets =>
    refine ⟨opened, fun node mem => ?_, fun node mem => formed.parents node ?_⟩
    · rcases mem_ladderFail_ladderFailed mem with rfl | mem
      · exact formed.parents node known
      · exact formed.given node mem
    · exact ((filter_sublist.trans eraseP_sublist).map fst).subset mem
  | givesUp exchange batch node failed =>
    refine ⟨opened, fun other mem => ?_, fun other mem => formed.parents other ?_⟩
    · rcases mem_ladderFail_ladderFailed mem with rfl | mem
      · exact formed.opened other (mem_append_right _ (mem_append_right _ failed))
      · exact formed.given other mem
    · exact (filter_sublist.map fst).subset mem
  | remembers exchange batch slot inRound failed =>
    refine ⟨opened, formed.given, fun node mem => ?_⟩
    rw [map_append, mem_append] at mem
    rcases mem with known | new
    · exact formed.parents node known
    · rw [mem_singleton.mp new]
      exact formed.opened _ (mem_append_right _ (mem_append_right _ failed))

theorem Change.opened (change : Change condition round state next)
    (opened : node ∈ openNodes state ∨ ∃ region ∈ state.1.ladderFailed, Within region node) :
    node ∈ openNodes next ∨ ∃ region ∈ next.1.ladderFailed, Within region node := by
  rcases opened with opened | ⟨region, mem, inside⟩
  · have lost : ∀ (exchange : BucketExchange) (batch : BucketDecodeBatch) (region : Node),
        node ∈ openNodes (exchange, batch) → node ∈ openNodes (exchange.ladderFail region batch) ∨
          ∃ outer ∈ (exchange.ladderFail region batch).1.ladderFailed, Within outer node := by
      intro exchange batch region opened
      by_cases inside : covers region node = true
      · exact .inr ⟨region, mem_ladderFail exchange batch region, covers_within inside⟩
      · left
        rcases mem_append.mp opened with pending | answered
        · obtain ⟨request, mem, rfl⟩ := mem_map.mp pending
          exact mem_append_left _ (mem_map_of_mem (mem_filter.mpr ⟨mem, by simpa using inside⟩))
        · refine mem_append_right _ ?_
          rcases mem_append.mp answered with success | failed
          · obtain ⟨success, mem, rfl⟩ := mem_map.mp success
            exact mem_append_left _ (mem_map_of_mem (mem_filter.mpr ⟨mem, by simpa using inside⟩))
          · exact mem_append_right _ (mem_filter.mpr ⟨failed, by simpa using inside⟩)
    cases change with
    | blames exchange batch parent known meets => exact lost _ batch parent opened
    | givesUp exchange batch region failed => exact lost exchange batch region opened
    | _ => exact .inl opened
  · exact .inr ⟨region, change.ladderFailed mem, inside⟩

structure Prepared (exchange : BucketExchange) (batch : BucketDecodeBatch) (ready : Progress) : Prop where
  nodes : ∃ all, all.Perm (exchange.pending.map BucketRequest.node ++ batch.nodes) ∧ (openNodes ready).Sublist all
  pending : ready.1.pending.Sublist exchange.pending
  answered : ∀ node ∈ ready.2.nodes, node ∈ batch.nodes
  formed : AllFormed (exchange, batch) → AllFormed ready
  opened : ∀ node, node ∈ openNodes (exchange, batch) ∨ (∃ region ∈ exchange.ladderFailed, Within region node) →
    node ∈ openNodes ready ∨ ∃ region ∈ ready.1.ladderFailed, Within region node
  rounds : ready.1.roundsEmitted = exchange.roundsEmitted
  maxRounds : ready.1.maxRounds = exchange.maxRounds
  maxBucketsPerRound : ready.1.maxBucketsPerRound = exchange.maxBucketsPerRound
  maxAggregateCapacity : ready.1.maxAggregateCapacity = exchange.maxAggregateCapacity

theorem Changes.prepared (perm : remaining.nodes.Perm batch.nodes)
    (changes : Changes condition round (exchange, remaining) next) : Prepared exchange batch next := by
  have shrinks := Changes.shrinks changes
  have nodes : (openNodes (exchange, remaining)).Perm (openNodes (exchange, batch)) := perm.append_left _
  refine ⟨⟨openNodes (exchange, remaining), nodes, openNodes_sublist shrinks⟩, shrinks.pending, ?_, ?_, ?_,
    shrinks.rounds, shrinks.maxRounds, shrinks.maxBucketsPerRound, shrinks.maxAggregateCapacity⟩
  · intro node mem
    exact perm.mem_iff.mp (((shrinks.successes.map _).append shrinks.failed).subset mem)
  · intro formed
    have begun : AllFormed (exchange, remaining) :=
      ⟨fun node mem => formed.opened node (nodes.mem_iff.mp mem), formed.given, formed.parents⟩
    clear nodes shrinks perm
    induction changes with
    | refl => exact begun
    | tail _ change ih => exact change.allFormed ih
  · intro node opened
    rw [← nodes.mem_iff] at opened
    clear nodes shrinks perm
    induction changes with
    | refl => exact opened
    | tail _ change ih => exact change.opened ih

theorem Prepared.withVerified (prepared : Prepared exchange batch ready) (verified : List Classified) :
    Prepared exchange batch (ready.1.withVerified verified, ready.2) where
  nodes := prepared.nodes
  pending := prepared.pending
  answered := prepared.answered
  formed := fun formed => ⟨(prepared.formed formed).opened, (prepared.formed formed).given, (prepared.formed formed).parents⟩
  opened := prepared.opened
  rounds := prepared.rounds
  maxRounds := prepared.maxRounds
  maxBucketsPerRound := prepared.maxBucketsPerRound
  maxAggregateCapacity := prepared.maxAggregateCapacity

end BucketExchange

theorem Call.prepared {call : Call} (made : call.prepare exchange requests = .ok ready)
    (apart : call.batch.nodes.Pairwise Apart) (shallow : ∀ node ∈ call.batch.nodes, node.1 ≤ maxDepth) :
    Prepared exchange call.batch ready := by
  cases call with
  | advance batch globalEstimate =>
    obtain rfl := ok.inj made
    exact ⟨⟨_, .refl _, .refl _⟩, .refl _, fun _ => id, id, fun _ => id, rfl, rfl, rfl, rfl⟩
  | advanceVerified batch localSummaries remoteSummaries globalEstimate localCandidates =>
    obtain ⟨ready, left⟩ := ready
    obtain ⟨outcome, verified, rfl, rfl⟩ := verifyRound_ok made
    obtain ⟨_, perm, rejected⟩ := verifyBatch_ok verified
    have apart := (pairwise_append.mp ((perm.pairwise_iff Apart.symm).mpr apart)).2.1
    have shallow := fun node mem => shallow node (perm.mem_iff.mp (mem_append_right _ mem))
    have changes := checkRound_changes apart shallow rejected
      (eachBlame_of_forall (fun _ _ => trivial) (exchange.parents.map fst)
        (exchange.splitState outcome (slots requests localSummaries remoteSummaries)))
    exact (Changes.prepared perm changes).withVerified outcome.verified

/-- An exchange in the middle of a run: the requests it waits for, the nodes that decoded and the rounds emitted. -/
structure Session where
  exchange : BucketExchange
  outstanding : List BucketRequest
  decoded : List Node
  emitted : List (List BucketRequest)

namespace Session

def start (exchange : BucketExchange) (requests : List BucketRequest) : Session := ⟨exchange, requests, [], []⟩

/-- One answered round. What the call must meet is a condition on the exchange and the requests it answers. -/
inductive Step (meets : BucketExchange → List BucketRequest → Call → Prop) : Session → Session → Prop where
  | mk {session : Session} {call : Call} {ready : Progress} {next : BucketExchange} {action : ClientAction}
      (answers : call.Answers session.outstanding) (met : meets session.exchange session.outstanding call)
      (made : call.prepare session.exchange session.outstanding = .ok ready)
      (ran : call.run session.exchange session.outstanding = .ok (next, action)) :
      Step meets session
        { exchange := next
          outstanding := action.requests
          decoded := session.decoded ++ ready.2.successfulBuckets.map BucketDecodeSuccess.node
          emitted := session.emitted ++ action.rounds }

abbrev Steps (meets : BucketExchange → List BucketRequest → Call → Prop) : Session → Session → Prop :=
  ReflTransGen (Step meets)

structure Orderly (session : Session) : Prop where
  admissible : ∀ request ∈ session.exchange.pending ++ session.outstanding, Admissible request
  apart : ((session.exchange.pending ++ session.outstanding).map BucketRequest.node).Pairwise Apart
  given : ∀ node ∈ session.exchange.ladderFailed, Formed maxDepth node
  parents : ∀ node ∈ session.exchange.parents.map fst, Formed maxDepth node

variable {session : Session} {call : Call} {ready : Progress} {next : BucketExchange} {action : ClientAction}

theorem openNodes_answered (answers : call.Answers session.outstanding) :
    (BucketExchange.openNodes (session.exchange, call.batch)).Perm
      ((session.exchange.pending ++ session.outstanding).map BucketRequest.node) := by
  rw [map_append]
  exact answers.append_left _

section

variable (orderly : Orderly session) (answers : call.Answers session.outstanding)
include orderly answers

theorem Orderly.allFormed : AllFormed (session.exchange, call.batch) where
  opened := by
    intro _ mem
    obtain ⟨request, inside, rfl⟩ := mem_map.mp ((openNodes_answered answers).mem_iff.mp mem)
    exact (orderly.admissible request inside).formed
  given := orderly.given
  parents := orderly.parents

theorem Orderly.prepared (made : call.prepare session.exchange session.outstanding = .ok ready) :
    Prepared session.exchange call.batch ready := by
  have formed := (orderly.allFormed answers).opened
  have apart := ((openNodes_answered answers).pairwise_iff Apart.symm).mpr orderly.apart
  exact Call.prepared made (pairwise_append.mp apart).2.1 fun node mem =>
    (formed node (mem_append_right _ mem)).1

theorem Orderly.ready_apart
    (prepared : Prepared session.exchange call.batch ready) : (BucketExchange.openNodes ready).Pairwise Apart := by
  obtain ⟨all, perm, sublist⟩ := prepared.nodes
  exact (((perm.trans (openNodes_answered answers)).pairwise_iff Apart.symm).mpr orderly.apart).sublist sublist

theorem Orderly.failed_apart (prepared : Prepared session.exchange call.batch ready) :
    (ready.2.failedBuckets ++ ready.1.pending.map BucketRequest.node).Pairwise Apart := by
  have fewer : (ready.1.pending.map BucketRequest.node ++ ready.2.failedBuckets).Sublist
      (BucketExchange.openNodes ready) := (List.Sublist.refl _).append (sublist_append_right _ _)
  exact (perm_append_comm.pairwise_iff Apart.symm).mp ((orderly.ready_apart answers prepared).sublist fewer)

end

theorem Orderly.advanced (orderly : Orderly session) (answers : call.Answers session.outstanding)
    (prepared : Prepared session.exchange call.batch ready) {lossy : Prop}
    (fits : ¬lossy → ready.1.FrontierFits ready.2 session.outstanding call.globalEstimate)
    (advanced : ready.1.advance ready.2 session.outstanding call.globalEstimate = (next, action)) :
    Advanced lossy ready.1 ready.2 next action := by
  apply advance_advanced ?_ ?_ (orderly.failed_apart answers prepared) fits advanced
  · intro request mem
    apply orderly.admissible request
    exact ((prepared.pending.append (.refl _)).subset mem)
  · intro node mem
    have answered := prepared.answered node (mem_append_right _ mem)
    exact mem_map.mp (answers.mem_iff.mp answered)

theorem Orderly.step (orderly : Orderly session) (answers : call.Answers session.outstanding)
    (made : call.prepare session.exchange session.outstanding = .ok ready)
    (advanced : ready.1.advance ready.2 session.outstanding call.globalEstimate = (next, action))
    (decoded : List Node) (emitted : List (List BucketRequest)) : Orderly ⟨next, action.requests, decoded, emitted⟩ := by
  have prepared := orderly.prepared answers made
  have formed := prepared.formed (orderly.allFormed answers)
  have moved : Advanced True _ _ _ _ := orderly.advanced answers prepared (fun no => absurd trivial no) advanced
  have openFormed : ∀ node ∈ ready.2.failedBuckets ++ ready.1.pending.map BucketRequest.node, Formed maxDepth node := by
    intro node mem
    apply formed.opened node
    rcases mem_append.mp mem with failed | pending
    · exact mem_append_right _ (mem_append_right _ failed)
    · exact mem_append_left _ pending
  refine ⟨moved.admissible, Moves.apart moved.moves (orderly.failed_apart answers prepared), ?_, ?_⟩
  · exact (Moves.forall_mem moved.moves Formed.inner openFormed formed.given).2
  · rw [(advance_frame advanced).parents]
    exact formed.parents

theorem Orderly.start {exchange : BucketExchange} (pending : exchange.pending = [])
    (given : exchange.ladderFailed = []) (parents : exchange.parents = [])
    (valid : validateAdaptiveBucketRequests requests = .ok ()) : Orderly (start exchange requests) := by
  obtain ⟨admissible, apart⟩ := validateAdaptive_apart valid
  constructor
  · show ∀ request ∈ exchange.pending ++ requests, _
    rw [pending]
    exact admissible
  · show ((exchange.pending ++ requests).map _).Pairwise _
    rw [pending]
    exact apart
  · show ∀ node ∈ exchange.ladderFailed, _
    rw [given]
    exact fun node none => nomatch none
  · show ∀ node ∈ exchange.parents.map _, _
    rw [parents]
    exact fun node none => nomatch none

theorem Step.orderly {meets : BucketExchange → List BucketRequest → Call → Prop} {before after : Session}
    (step : Step meets before after) (orderly : Orderly before) : Orderly after := by
  cases step with
  | mk answers met made ran =>
    obtain ⟨_, prepared, advanced⟩ := Call.run_ok ran
    obtain rfl := ok.inj (made.symm.trans prepared)
    exact orderly.step answers made advanced _ _

end Session

end Rezzy.Recon

namespace Rezzy.Recon.Session

open Region Relation BucketExchange

def Fits (exchange : BucketExchange) (requests : List BucketRequest) (call : Call) : Prop :=
  ∀ ready, call.prepare exchange requests = .ok ready → ready.1.FrontierFits ready.2 requests call.globalEstimate

def known (session : Session) : List Node :=
  session.decoded ++ ((session.exchange.pending ++ session.outstanding).map BucketRequest.node ++
    session.exchange.ladderFailed)

structure Covering (initial : List BucketRequest) (session : Session) : Prop where
  orderly : Orderly session
  decoded : ∀ node ∈ session.decoded, Formed maxDepth node
  covers : ∀ key, (∃ request ∈ initial, Holds h64TrieWidth request.node key) →
    ∃ node ∈ session.known, Holds h64TrieWidth node key

variable {session : Session} {call : Call} {ready : Progress} {next : BucketExchange}

theorem Orderly.covered (orderly : Orderly session) (answers : call.Answers session.outstanding)
    (fits : ready.1.FrontierFits ready.2 session.outstanding call.globalEstimate)
    (made : call.prepare session.exchange session.outstanding = .ok ready)
    (advanced : ready.1.advance ready.2 session.outstanding call.globalEstimate = (next, action))
    (mem : node ∈ session.known) (holds : Holds h64TrieWidth node key) :
    ∃ node ∈ (session.decoded ++ ready.2.successfulBuckets.map BucketDecodeSuccess.node) ++
      ((next.pending ++ action.requests).map BucketRequest.node ++ next.ladderFailed), Holds h64TrieWidth node key := by
  have prepared := orderly.prepared answers made
  have formed := prepared.formed (orderly.allFormed answers)
  have moved : Advanced False _ _ _ _ := orderly.advanced answers prepared (fun _ => fits) advanced
  -- The frontier and the regions given up as the exchange begins to advance.
  have shallow : ∀ node ∈ (ready.2.failedBuckets ++ ready.1.pending.map BucketRequest.node) ++ ready.1.ladderFailed,
      node.1 ≤ maxDepth := by
    intro node mem
    rcases List.mem_append.mp mem with frontier | given
    · rcases List.mem_append.mp frontier with failed | pending
      · exact (formed.opened node (List.mem_append_right _ (List.mem_append_right _ failed))).1
      · exact (formed.opened node (List.mem_append_left _ pending)).1
    · exact (formed.given node given).1
  have onward : (∃ node ∈ (ready.2.failedBuckets ++ ready.1.pending.map BucketRequest.node) ++ ready.1.ladderFailed,
      Holds h64TrieWidth node key) → ∃ node ∈ (session.decoded ++ ready.2.successfulBuckets.map BucketDecodeSuccess.node) ++
        ((next.pending ++ action.requests).map BucketRequest.node ++ next.ladderFailed), Holds h64TrieWidth node key := by
    intro covered
    obtain ⟨node, mem, holds⟩ := Moves.covered moved.moves id (by decide) shallow covered
    exact ⟨node, List.mem_append_right _ mem, holds⟩
  rcases List.mem_append.mp mem with decoded | live
  · exact ⟨node, List.mem_append_left _ (List.mem_append_left _ decoded), holds⟩
  · have depth : node.1 ≤ maxDepth ∧ (node ∈ openNodes (session.exchange, call.batch) ∨
        ∃ region ∈ session.exchange.ladderFailed, Within region node) := by
      rcases List.mem_append.mp live with opened | given
      · have opened := (openNodes_answered answers).mem_iff.mpr opened
        exact ⟨((orderly.allFormed answers).opened node opened).1, .inl opened⟩
      · exact ⟨(orderly.given node given).1, .inr ⟨node, given, .refl node⟩⟩
    rcases prepared.opened node depth.2 with opened | ⟨region, given, inside⟩
    · rcases List.mem_append.mp opened with pending | answered
      · exact onward ⟨node, List.mem_append_left _ (List.mem_append_right _ pending), holds⟩
      · rcases List.mem_append.mp answered with success | failed
        · exact ⟨node, List.mem_append_left _ (List.mem_append_right _ success), holds⟩
        · exact onward ⟨node, List.mem_append_left _ (List.mem_append_left _ failed), holds⟩
    · exact onward ⟨region, List.mem_append_right _ given, inside.holds (depth.1.trans (by decide)) holds⟩

theorem Step.covering (step : Step Fits before after) (covering : Covering initial before) :
    Covering initial after := by
  have orderly := step.orderly covering.orderly
  cases step with
  | @mk call ready next action answers met made ran =>
    obtain ⟨_, prepared, advanced⟩ := Call.run_ok ran
    obtain rfl := Except.ok.inj (made.symm.trans prepared)
    have formed := (covering.orderly.prepared answers made).formed (covering.orderly.allFormed answers)
    refine ⟨orderly, ?_, fun key inside => ?_⟩
    · intro node mem
      rcases List.mem_append.mp mem with decoded | success
      · exact covering.decoded node decoded
      · exact formed.opened node (List.mem_append_right _ (List.mem_append_left _ success))
    · obtain ⟨node, known, holds⟩ := covering.covers key inside
      exact covering.orderly.covered answers (met ready made) made advanced known holds

theorem Steps.covering (steps : Steps Fits before after) (covering : Covering initial before) :
    Covering initial after := by
  induction steps with
  | refl => exact covering
  | tail _ step ih => exact step.covering ih

theorem Covering.start {exchange : BucketExchange} (pending : exchange.pending = [])
    (given : exchange.ladderFailed = []) (parents : exchange.parents = [])
    (valid : validateAdaptiveBucketRequests initial = .ok ()) : Covering initial (start exchange initial) where
  orderly := .start pending given parents valid
  decoded := fun node none => nomatch none
  covers := by
    rintro key ⟨request, mem, holds⟩
    refine ⟨request.node, ?_, holds⟩
    exact List.mem_append_right _ (List.mem_append_left _ (List.mem_map_of_mem (List.mem_append_right _ mem)))

/-- Where no call passes the frontier's limit with failed nodes left, every point of the first requests ends in a node
    that decoded or in one given up. -/
theorem resolve_covers {accumulatedRoots : List Nat} {maxRounds maxBucketsPerRound maxAggregateCapacity : Nat}
    {initial : List BucketRequest} (valid : validateAdaptiveBucketRequests initial = .ok ()) {session : Session}
    (run : Steps Fits (start (.new accumulatedRoots maxRounds maxBucketsPerRound maxAggregateCapacity) initial) session)
    {call : Call} (answers : call.Answers session.outstanding) (fits : Fits session.exchange session.outstanding call)
    {ready : Progress} (made : call.prepare session.exchange session.outstanding = .ok ready) {next : BucketExchange}
    {roots : List Nat} {ladderFailed : List Node}
    (ran : call.run session.exchange session.outstanding = .ok (next, .resolveRoots roots ladderFailed)) {h64 : Nat}
    (asked : ∃ request ∈ initial, inNode h64 request.node = true) :
    ∃ node ∈ session.decoded ++ ready.2.successfulBuckets.map BucketDecodeSuccess.node ++ ladderFailed,
      inNode h64 node = true := by
  have covering := Steps.covering run (.start rfl rfl rfl valid)
  obtain ⟨_, prepared, advanced⟩ := Call.run_ok ran
  obtain rfl := Except.ok.inj (made.symm.trans prepared)
  have last : Step Fits session _ := .mk answers fits made ran
  have finished := last.covering covering
  obtain ⟨request, member, inside⟩ := asked
  have held := (inNode_iff ((validateAdaptive_apart valid).1 request member).formed).mp inside
  obtain ⟨node, known, holds⟩ := finished.covers h64 ⟨request, member, held⟩
  have moved : Advanced False _ _ _ _ :=
    covering.orderly.advanced answers (covering.orderly.prepared answers made) (fun _ => fits ready made) advanced
  have emits := moved.emits
  cases emits with
  | resolve done counted =>
    have accounted : node ∈ (session.decoded ++ ready.2.successfulBuckets.map BucketDecodeSuccess.node) ++
        ((next.pending ++ []).map BucketRequest.node ++ next.ladderFailed) := known
    rw [done] at accounted
    have formed : Formed maxDepth node := by
      rcases List.mem_append.mp accounted with decoded | given
      · exact finished.decoded node decoded
      · exact finished.orderly.given node given
    exact ⟨node, accounted, (inNode_iff formed).mpr holds⟩

namespace Sample

def answered : Call := .advance ⟨[⟨1, 0, []⟩], [(1, 1)]⟩ none

def uneven : List BucketRequest := [.new 1 0 4, .new 1 1 32]

def generous : BucketExchange := .new [] 1 2 64

def halved : BucketExchange := { generous with roundsEmitted := 1 }

def quarters : List BucketRequest := [.new 2 2 10, .new 2 3 10]

def lastFails : Call := .advance ⟨[⟨2, 2, []⟩], [(2, 3)]⟩ none

theorem generous_splits : answered.run generous uneven = .ok (halved, .bucketSketches quarters []) := by
  have sorted : quarters.mergeSort (fun a b => bucketRangeStart a ≤ bucketRangeStart b) = quarters :=
    List.mergeSort_of_pairwise (by decide)
  show Except.ok (drainNextAction { generous with pending := quarters.mergeSort _ }) = _
  rw [sorted]
  rfl

theorem halved_resolves :
    lastFails.run halved quarters = .ok ({ halved with ladderFailed := [(2, 3)] }, .resolveRoots [] [(2, 3)]) := by
  decide +kernel

/-- The second half fails and is split, and the second of its parts fails when no round is left. -/
theorem pair_covered : ∃ node ∈ [] ++ [(1, 0)] ++ [(2, 2)] ++ [(2, 3)], inNode (3 * 2 ^ 62) node = true := by
  have fits : Fits generous uneven answered := by
    intro ready made
    obtain rfl := Except.ok.inj made
    show 0 ≤ 2
    decide
  have answers : answered.Answers uneven := List.Perm.refl _
  have step := @Step.mk Fits (start generous uneven) answered _ _ _ answers fits rfl generous_splits
  have fits : Fits halved quarters lastFails := by
    intro ready made
    obtain rfl := Except.ok.inj made
    show 0 ≤ 2
    decide
  have valid : validateAdaptiveBucketRequests uneven = .ok () := rfl
  have asked : ∃ request ∈ uneven, inNode (3 * 2 ^ 62) request.node = true := by decide
  have made : lastFails.prepare halved quarters = .ok (halved, ⟨[⟨2, 2, []⟩], [(2, 3)]⟩) := rfl
  have answers : lastFails.Answers quarters := List.Perm.refl _
  exact resolve_covers valid (.single step) answers fits made halved_resolves asked

def lopsided : List BucketRequest := [.new 1 0 32, .new 2 2 32]

def cramped : BucketExchange := .new [] 1 1 64

def failed : Call := .advance ⟨[], [(1, 0), (2, 2)]⟩ none

theorem cramped_resolves : failed.run cramped lopsided =
    .ok ({ cramped with ladderFailed := [(2, 0), (2, 1)] }, .resolveRoots [] [(2, 0), (2, 1)]) := by
  have one : [((2 : Nat), (0 : Nat))].mergeSort nodeLe = [(2, 0)] := List.mergeSort_singleton _
  have two : [((2 : Nat), (0 : Nat)), (2, 1)].mergeSort nodeLe = [(2, 0), (2, 1)] :=
    List.mergeSort_of_pairwise (by decide)
  have first : recordLadderFailed cramped (2, 0) = { cramped with ladderFailed := [(2, 0)] } := by
    show ({ cramped with ladderFailed := [((2 : Nat), (0 : Nat))].mergeSort nodeLe } : BucketExchange) = _
    rw [one]
  have second : recordLadderFailed { cramped with ladderFailed := [(2, 0)] } (2, 1) =
      { cramped with ladderFailed := [(2, 0), (2, 1)] } := by
    show ({ cramped with ladderFailed := [((2 : Nat), (0 : Nat)), (2, 1)].mergeSort nodeLe } : BucketExchange) = _
    rw [two]
  have given : recordLadderFailed (recordLadderFailed cramped (2, 0)) (2, 1) =
      { cramped with ladderFailed := [(2, 0), (2, 1)] } := by
    rw [first, second]
  show Except.ok (recordLadderFailed (recordLadderFailed cramped (2, 0)) (2, 1),
    partialAction (recordLadderFailed (recordLadderFailed cramped (2, 0)) (2, 1))) = _
  rw [given]
  rfl

/-- The second failed node is dropped: its keys are in no decoded node and in none given up. -/
theorem cramped_loses : validateAdaptiveBucketRequests lopsided = .ok () ∧ failed.Answers lopsided ∧
    ∃ next, failed.run cramped lopsided = .ok (next, .resolveRoots [] [(2, 0), (2, 1)]) ∧
      inNode (2 ^ 63) (2, 2) = true ∧ ∀ node ∈ [(2, 0), (2, 1)], inNode (2 ^ 63) node = false :=
  ⟨rfl, List.Perm.refl _, _, cramped_resolves, by decide, by decide⟩

end Sample

end Rezzy.Recon.Session
