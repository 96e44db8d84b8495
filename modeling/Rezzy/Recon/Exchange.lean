import Rezzy.Recon.Verify

namespace Rezzy.Recon

open Region

def maxBucketsPerRound : Nat := 128

def bucketRoundDepth (bucketCount : Nat) : Nat := Nat.log2 bucketCount

def maxBucketRoundDepth : Nat := bucketRoundDepth maxBucketsPerRound
def minBucketSketchCapacity : Nat := 4
def collisionGiveUpPopulation : Nat := 2 * maxBucketSketchCapacity

inductive ClientAction where
  | synchronized
  | extremityDiff
  | bucketSketches (requests : List BucketRequest) (accumulatedRoots : List Nat)
  | resolveRoots (roots : List Nat) (ladderFailed : List Node)
deriving DecidableEq, Repr

structure Phase1Failure where
  depth : Nat
  prefix_ : Nat
  capacity : Nat
  roots : List Nat
deriving DecidableEq, Repr

structure BucketExchange where
  pending : List BucketRequest
  accumulatedRoots : List Nat
  roundsEmitted : Nat
  maxRounds : Nat
  maxBucketsPerRound : Nat
  maxAggregateCapacity : Nat
  maxPendingRequests : Nat
  noProgressRounds : Nat
  classified : List Classified
  failures : List Phase1Failure
  ladderFailed : List Node
  parents : List (Node × NodeSummary)
  awaiting : List (Node × NodeSummary)
  forceSplit : List Node
  overflowRetry : List Node
  wideSplit : List Node
deriving DecidableEq, Repr

section

def covers (ancestor node : Node) : Bool :=
  ancestor.1 ≤ node.1 && node.1 - ancestor.1 < 128 && node.2 >>> (node.1 - ancestor.1) = ancestor.2

def nodeInterval (node : Node) : Option (Nat × Nat) :=
  if maxDepth < node.1 then none
  else some (node.2 <<< (maxDepth - node.1), (node.2 + 1) <<< (maxDepth - node.1))

def walkCover : List ((Nat × Nat) × NodeSummary) → Nat → Nat → Bool → Nat → Option (Nat × Nat × Bool × Nat)
  | [], cursor, count, countValid, digest => some (cursor, count, countValid, digest)
  | ((childStart, childEnd), summary) :: descendants, cursor, count, countValid, digest =>
    if childStart ≠ cursor then none
    else if count + summary.count ≤ u64Max then
      walkCover descendants childEnd (count + summary.count) countValid (digest ^^^ summary.digest)
    else walkCover descendants childEnd count false (digest ^^^ summary.digest)

def summarizeDescendantCover (parent : Node) (summaries : List (Node × NodeSummary)) : Option (NodeSummary × Bool) := do
  let descendants ← (summaries.filter fun s => parent.1 < s.1.1 && covers parent s.1).mapM fun s =>
    (nodeInterval s.1).map fun interval => (interval, s.2)
  let (start, stop) ← nodeInterval parent
  let sorted := descendants.mergeSort fun a b => a.1.1 ≤ b.1.1
  let (cursor, count, countValid, digest) ← walkCover sorted start 0 true 0
  if cursor = stop then some (⟨count, digest⟩, countValid) else none

def inNode (h64 : Nat) (node : Node) : Bool :=
  let bounds := boundsUnchecked (.new node.1 node.2 1)
  bounds.1 ≤ h64 && h64 < bounds.2

def restrict (roots : List Nat) (node : Node) : List Nat := roots.filter fun root => inNode root node

def provisionBucketCapacity (target floor : Nat) : Option Nat :=
  if target + target / 2 + target % 2 + 4 ≤ u64Max then
    some (max floor (min (target + target / 2 + target % 2 + 4) maxBucketSketchCapacity))
  else none

def retryOrSplitBucketWithFanout (previous : BucketRequest) (share : Nat) (forceSplit : Bool) (maxJump : Nat) :
    Option (List BucketRequest) :=
  if previous.capacity < maxBucketSketchCapacity ∧ forceSplit = false then
    let floor := previous.capacity + 1
    (provisionBucketCapacity (max share floor) floor).map fun capacity => [.new previous.depth previous.prefix_ capacity]
  else if maxDepth ≤ previous.depth then none
  else
    let jump := min (maxDepth - previous.depth) maxJump
    let fanout := 1 <<< jump
    let childShare := max (share / fanout) minBucketSketchCapacity
    (provisionBucketCapacity childShare minBucketSketchCapacity).map fun childCapacity =>
      (List.range fanout).map fun suffix =>
        .new (previous.depth + jump) ((previous.prefix_ <<< jump) % 2 ^ 64 ||| suffix) childCapacity

def retryFailedBucket (previousRequests : List BucketRequest) (node : Node) (share : Nat) (forceSplit : Bool)
    (maxJump : Nat) : Option (List BucketRequest) := do
  let previous ← previousRequests.find? fun request => request.node = node
  retryOrSplitBucketWithFanout previous share forceSplit maxJump

end

namespace BucketExchange

def new (accumulatedRoots : List Nat) (maxRounds maxBucketsPerRound maxAggregateCapacity : Nat) : BucketExchange where
  pending := []
  accumulatedRoots := accumulatedRoots
  roundsEmitted := 0
  maxRounds := maxRounds
  maxBucketsPerRound := maxBucketsPerRound
  maxAggregateCapacity := maxAggregateCapacity
  maxPendingRequests := min (maxRounds * maxBucketsPerRound) usizeMax
  noProgressRounds := 0
  classified := []
  failures := []
  ladderFailed := []
  parents := []
  awaiting := []
  forceSplit := []
  overflowRetry := []
  wideSplit := []

def ladderFail (exchange : BucketExchange) (region : Node) (batch : BucketDecodeBatch) :
    BucketExchange × BucketDecodeBatch :=
  ({ exchange with
      ladderFailed := if region ∈ exchange.ladderFailed then exchange.ladderFailed else exchange.ladderFailed ++ [region]
      classified := exchange.classified.filter fun c => !covers region c.node
      accumulatedRoots := exchange.accumulatedRoots.filter fun root => !inNode root region
      pending := exchange.pending.filter fun request => !covers region request.node
      failures := exchange.failures.filter fun f => !covers region (f.depth, f.prefix_)
      forceSplit := exchange.forceSplit.filter fun node => !covers region node
      overflowRetry := exchange.overflowRetry.filter fun node => !covers region node
      wideSplit := exchange.wideSplit.filter fun node => !covers region node
      parents := exchange.parents.filter fun p => !covers region p.1
      awaiting := exchange.awaiting.filter fun p => !covers region p.1 },
    { successfulBuckets := batch.successfulBuckets.filter fun s => !covers region s.node
      failedBuckets := batch.failedBuckets.filter fun node => !covers region node })

def awaitSummary (parents awaiting : List (Node × NodeSummary)) (slot : Slot) : List (Node × NodeSummary) :=
  let node := slot.request.node
  let others := awaiting.filter fun a => !covers a.1 node && !covers node a.1
  if parents.any fun p => p.1.1 < node.1 && covers p.1 node then others ++ [(node, slot.remoteSummary)] else others

def checkParent (state : BucketExchange × BucketDecodeBatch) (parent : Node) : BucketExchange × BucketDecodeBatch :=
  let (exchange, batch) := state
  match exchange.parents.find? fun p => p.1 = parent with
  | none => state
  | some (_, parentSummary) =>
    match summarizeDescendantCover parent exchange.awaiting with
    | none => state
    | some (descendantSummary, countValid) =>
      let exchange := { exchange with parents := exchange.parents.eraseP fun p => p.1 = parent }
      if countValid = false ∨ descendantSummary ≠ parentSummary then exchange.ladderFail parent batch
      else (exchange, batch)

def checkSplitConsistency (exchange : BucketExchange) (round : List Slot) (batch : BucketDecodeBatch) :
    BucketExchange × BucketDecodeBatch :=
  let awaiting := round.foldl (awaitSummary exchange.parents) exchange.awaiting
  let (exchange, batch) := (exchange.parents.map Prod.fst).foldl checkParent ({ exchange with awaiting := awaiting }, batch)
  ({ exchange with
      awaiting := exchange.awaiting.filter fun a => exchange.parents.any fun p => p.1.1 < a.1.1 && covers p.1 a.1 }, batch)

def repeatsEarlierFailure (exchange : BucketExchange) (node : Node) (capacity : Nat) (roots : List Nat) : Bool :=
  exchange.failures.any fun f => covers (f.depth, f.prefix_) node && (f.depth, f.capacity) ≠ (node.1, capacity) &&
    restrict f.roots node = restrict roots node

def isRejected (rejected : List Rejected) (node : Node) : Bool := rejected.any fun r => r.1 = node

def scheduleOverflowRetry (rejected : List Rejected) (round : List Slot) (exchange : BucketExchange) (node : Node) :
    BucketExchange :=
  if isRejected rejected node then exchange
  else
    match slotOf round node with
    | none => exchange
    | some slot =>
      let residualPopulation := min (slot.localSummary.count + slot.remoteSummary.count) u64Max
      if slot.request.overflow = false ∧ residualPopulation ≤ maxOverflowBucketCapacity ∧
          maxOverflowBucketCapacity ≤ exchange.maxAggregateCapacity then
        { exchange with overflowRetry := exchange.overflowRetry ++ [node] }
      else if slot.request.overflow = false ∧ node ∉ exchange.forceSplit then
        { exchange with forceSplit := exchange.forceSplit ++ [node], wideSplit := exchange.wideSplit ++ [node] }
      else exchange

def scheduleOverflowRetries (exchange : BucketExchange) (batch : BucketDecodeBatch) (rejected : List Rejected)
    (round : List Slot) : BucketExchange :=
  batch.failedBuckets.foldl (scheduleOverflowRetry rejected round) exchange

def smallFailedOverflow (rejected : List Rejected) (round : List Slot) (node : Node) : Bool :=
  if isRejected rejected node then false
  else
    match slotOf round node with
    | none => false
    | some slot => slot.request.overflow &&
        decide (max slot.localSummary.count slot.remoteSummary.count ≤ collisionGiveUpPopulation)

def giveUpSmallFailedOverflows (exchange : BucketExchange) (batch : BucketDecodeBatch) (rejected : List Rejected)
    (round : List Slot) : BucketExchange × BucketDecodeBatch :=
  (batch.failedBuckets.filter (smallFailedOverflow rejected round)).foldl
    (fun state node => state.1.ladderFail node state.2) (exchange, batch)

def handlePhase1Rejection (round : List Slot) (state : BucketExchange × BucketDecodeBatch) (rejection : Rejected) :
    BucketExchange × BucketDecodeBatch :=
  let (exchange, batch) := state
  let (node, roots) := rejection
  if exchange.ladderFailed.any fun region => covers region node then state
  else
    match slotOf round node with
    | none => state
    | some slot =>
      let repeats := exchange.repeatsEarlierFailure node slot.request.capacity roots
      let population := max slot.localSummary.count slot.remoteSummary.count
      let cannotNarrow := maxDepth ≤ node.1 || exchange.maxRounds ≤ min (exchange.roundsEmitted + 1) usizeMax
      if cannotNarrow || repeats && population ≤ collisionGiveUpPopulation then exchange.ladderFail node batch
      else
        ({ exchange with
            failures := exchange.failures ++ [⟨node.1, node.2, slot.request.capacity, roots⟩]
            forceSplit := exchange.forceSplit ++ [node] }, batch)

def handlePhase1Rejections (exchange : BucketExchange) (rejected : List Rejected) (round : List Slot)
    (batch : BucketDecodeBatch) : BucketExchange × BucketDecodeBatch :=
  rejected.foldl (handlePhase1Rejection round) (exchange, batch)

def rememberFailedNode (round : List Slot) (exchange : BucketExchange) (node : Node) : BucketExchange :=
  match slotOf round node with
  | none => exchange
  | some slot =>
    if exchange.parents.any fun p => p.1 = node then exchange
    else { exchange with parents := exchange.parents ++ [(node, slot.remoteSummary)] }

def rememberFailedNodes (exchange : BucketExchange) (batch : BucketDecodeBatch) (round : List Slot) : BucketExchange :=
  batch.failedBuckets.foldl (rememberFailedNode round) exchange

def nodeLe (a b : Node) : Bool := a.1 < b.1 || a.1 = b.1 && a.2 ≤ b.2

def recordLadderFailed (exchange : BucketExchange) (node : Node) : BucketExchange :=
  if exchange.ladderFailed.any fun existing => covers existing node then exchange
  else
    { exchange with
      ladderFailed := ((exchange.ladderFailed.filter fun existing => !covers node existing) ++ [node]).mergeSort nodeLe }

def partialAction (exchange : BucketExchange) : ClientAction :=
  .resolveRoots exchange.accumulatedRoots exchange.ladderFailed

/-- The pending requests that fit in a round, those that are left, and whether the sum of the capacities
    overflowed. -/
def drainLoop (maxBuckets maxAggregate : Nat) : List BucketRequest → Nat → List BucketRequest →
    List BucketRequest × List BucketRequest × Bool
  | [], _, requests => (requests, [], false)
  | candidate :: pending, total, requests =>
    if maxBuckets ≤ requests.length then (requests, candidate :: pending, false)
    else if usizeMax < total + candidate.capacity then (requests, candidate :: pending, true)
    else if maxAggregate < total + candidate.capacity then (requests, candidate :: pending, false)
    else drainLoop maxBuckets maxAggregate pending (total + candidate.capacity) (requests ++ [candidate])

def drainPendingRound (exchange : BucketExchange) : BucketExchange × Option (List BucketRequest) :=
  if exchange.maxRounds ≤ exchange.roundsEmitted then (exchange, none)
  else
    let (requests, pending, overflowed) :=
      drainLoop exchange.maxBucketsPerRound exchange.maxAggregateCapacity exchange.pending 0 []
    let exchange := { exchange with pending := pending }
    if overflowed || requests.isEmpty then (exchange, none)
    else ({ exchange with roundsEmitted := min (exchange.roundsEmitted + 1) usizeMax }, some requests)

def recordPending (exchange : BucketExchange) : BucketExchange :=
  exchange.pending.foldl (fun exchange request => exchange.recordLadderFailed request.node) { exchange with pending := [] }

def observeProgress (exchange : BucketExchange) (batch : BucketDecodeBatch) (previousRequests : List BucketRequest) :
    BucketExchange :=
  let anyNonemptySuccess := batch.successfulBuckets.any fun bucket => !bucket.roots.isEmpty
  let isSplitSiblingOf := fun node : Node => previousRequests.any fun request => request.node = (node.1, node.2 ^^^ 1)
  let sawSplitFailure := batch.failedBuckets.any isSplitSiblingOf
  let allSplitFailuresStalled := batch.failedBuckets.all fun node => !isSplitSiblingOf node ||
    !batch.successfulBuckets.any fun success => success.node = (node.1, node.2 ^^^ 1)
  { exchange with
    noProgressRounds :=
      if sawSplitFailure && allSplitFailuresStalled && !anyNonemptySuccess then
        min (exchange.noProgressRounds + 1) usizeMax
      else 0 }

def failedNodeShare (exchange : BucketExchange) (failedCount : Nat) (globalEstimate : Option Nat) : Nat :=
  (globalEstimate.getD 0 - exchange.accumulatedRoots.length) / failedCount

def takeRetry (exchange : BucketExchange) (previousRequests : List BucketRequest) (share : Nat) (node : Node) :
    BucketExchange × Option (List BucketRequest) :=
  let overflow := node ∈ exchange.overflowRetry
  let wideSplit := node ∈ exchange.wideSplit
  let maxJump := if wideSplit ∨ 0 < exchange.noProgressRounds then maxBucketRoundDepth else 1
  ({ exchange with
      forceSplit := exchange.forceSplit.filter (· ≠ node)
      overflowRetry := exchange.overflowRetry.filter (· ≠ node)
      wideSplit := exchange.wideSplit.filter (· ≠ node) },
    if overflow then some [.withOverflow node.1 node.2 maxOverflowBucketCapacity]
    else retryFailedBucket previousRequests node share (node ∈ exchange.forceSplit) maxJump)

def queueFailedNodes (previousRequests : List BucketRequest) (share : Nat) :
    List Node → BucketExchange → BucketExchange × Option ClientAction
  | [], exchange => (exchange, none)
  | node :: failedBuckets, exchange =>
    match exchange.takeRetry previousRequests share node with
    | (exchange, none) => queueFailedNodes previousRequests share failedBuckets (exchange.recordLadderFailed node)
    | (exchange, some requests) =>
      let exchange := { exchange with pending := exchange.pending ++ requests }
      if exchange.maxPendingRequests < exchange.pending.length then
        (exchange.recordPending, some exchange.recordPending.partialAction)
      else queueFailedNodes previousRequests share failedBuckets exchange

def drainNextAction (exchange : BucketExchange) : BucketExchange × ClientAction :=
  match exchange.drainPendingRound with
  | (exchange, none) => (exchange.recordPending, exchange.recordPending.partialAction)
  | (exchange, some requests) => (exchange, .bucketSketches requests exchange.accumulatedRoots)

def advance (exchange : BucketExchange) (batch : BucketDecodeBatch) (previousRequests : List BucketRequest)
    (globalEstimate : Option Nat) : BucketExchange × ClientAction :=
  let exchange := exchange.observeProgress batch previousRequests
  let exchange := { exchange with
    accumulatedRoots := exchange.accumulatedRoots ++ batch.successfulBuckets.flatMap BucketDecodeSuccess.roots }
  let share := exchange.failedNodeShare batch.failedBuckets.length globalEstimate
  match queueFailedNodes previousRequests share batch.failedBuckets exchange with
  | (exchange, some action) => (exchange, action)
  | (exchange, none) =>
    let exchange := { exchange with
      pending := exchange.pending.mergeSort fun a b => bucketRangeStart a ≤ bucketRangeStart b }
    if batch.failedBuckets.isEmpty && exchange.pending.isEmpty then (exchange, exchange.partialAction)
    else exchange.drainNextAction

/-- What `advance_verified` does before it advances: the exchange with the admitted nodes, and the batch that is left. -/
def verifyRound (exchange : BucketExchange) (batch : BucketDecodeBatch) (requests : List BucketRequest)
    (localSummaries remoteSummaries : List NodeSummary) (localCandidates : Nat → List Nat) :
    Except AlgebraicError (BucketExchange × BucketDecodeBatch) := do
  let ⟨batch, verified, rejected⟩ ← verifyBatch batch requests localSummaries remoteSummaries localCandidates
  let round := slots requests localSummaries remoteSummaries
  let exchange := exchange.scheduleOverflowRetries batch rejected round
  let (exchange, batch) := exchange.checkSplitConsistency round batch
  let (exchange, batch) := exchange.giveUpSmallFailedOverflows batch rejected round
  let (exchange, batch) := exchange.handlePhase1Rejections rejected round batch
  let exchange := exchange.rememberFailedNodes batch round
  let verified := verified.filter fun c => !exchange.ladderFailed.any fun region => covers region c.node
  .ok ({ exchange with classified := exchange.classified ++ verified }, batch)

def advanceVerified (exchange : BucketExchange) (batch : BucketDecodeBatch) (requests : List BucketRequest)
    (localSummaries remoteSummaries : List NodeSummary) (globalEstimate : Option Nat)
    (localCandidates : Nat → List Nat) : Except AlgebraicError (BucketExchange × ClientAction) := do
  let (exchange, batch) ← exchange.verifyRound batch requests localSummaries remoteSummaries localCandidates
  .ok (exchange.advance batch requests globalEstimate)

def narrow (nodes : List Classified) (maxRounds maxBucketsPerRound maxAggregateCapacity : Nat) :
    Except AlgebraicError (BucketExchange × List BucketRequest) := do
  let children ← match nodes.mapM fun node =>
      retryOrSplitBucketWithFanout (.new node.depth node.prefix_ maxBucketSketchCapacity) 0 true 1 with
    | some children => .ok children
    | none => .error .invalidBucketIndex
  let all := children.flatten.mergeSort fun a b => bucketRangeStart a ≤ bucketRangeStart b
  validateBucketRequests all
  let exchange := { new [] maxRounds maxBucketsPerRound maxAggregateCapacity with
    parents := nodes.map fun c : Classified => (c.node, c.remoteSummary)
    pending := all }
  match exchange.drainPendingRound with
  | (exchange, some first) => .ok (exchange, first)
  | (_, none) => .error .invalidSketchCapacity

end BucketExchange

end Rezzy.Recon
