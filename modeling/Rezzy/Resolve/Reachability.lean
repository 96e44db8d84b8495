import Mathlib.Data.Finset.Basic
import Rezzy.Lib.Peel
import Rezzy.Resolve.Sorting

namespace Rezzy.Resolve

open Basespec Auth State Permuted
open List (range replicate)
open Worklist (flood offer)

variable {Id C : Type}

structure Topology (Id : Type) where
  topo : List Id
  children : Id → List Id
  leftoverNodes : List Id

section

def denseItems [DecidableEq Id] (members : List Id) : List Id :=
  members.foldl (fun items item => if item ∈ items then items else items ++ [item]) []

def graphParents [DecidableEq Id] (graph : EventMap Id C) (id : Id) : List Id :=
  ((graph.get id).map fun ev => ev.authEvents.filter graph.containsKey).getD []

def collectTopology [LinearOrder Id] (order : Order) (graph : EventMap Id C) : Topology Id :=
  let nodes := order.iter .topology graph.keys
  let children := Peel.citers nodes (graphParents graph)
  let inDegree := fun id => (graphParents graph id).length
  let queue := (nodes.filter fun id => inDegree id = 0).insertionSort (· ≤ ·)
  let peeled := Peel.peel children inDegree queue nodes.length
  let leftoverNodes := (nodes.filter fun id => peeled.degree id ≠ 0).insertionSort (· ≤ ·)
  ⟨peeled.done ++ leftoverNodes, children, leftoverNodes⟩

/-- The children of every node by position. A slot is read at `idx` with no children past the end. -/
def buildIndexedChildren [DecidableEq Id] (items : List Id) (children : Id → List Id) : List (List Nat) :=
  items.map fun id => (children id).filterMap fun child => items.idxOf? child

def inDegreeByIndex (childrenByIndex : List (List Nat)) (idx : Nat) : Nat :=
  (childrenByIndex.map fun slot => slot.count idx).sum

def buildDescendantRanges (childrenByIndex : List (List Nat)) : List (Nat × Nat) :=
  (range childrenByIndex.length).reverse.foldl
    (fun ranges idx => ranges.set idx ((childrenByIndex.getD idx []).foldl (fun range childIdx =>
        let child := ranges.getD childIdx (0, 0)
        (min range.1 child.1, max range.2 child.2)) (idx, idx)))
    (replicate childrenByIndex.length (0, 0))

structure SegmentWalk where
  nodeSegment : List (Option Nat)
  nodeSegmentOffset : List Nat
  current : Nat
  offset : Nat

def segmentTurn (childrenByIndex : List (List Nat)) (segmentId : Nat) (s : SegmentWalk) :
    SegmentWalk × Option Nat :=
  let marked : SegmentWalk := ⟨s.nodeSegment.set s.current (some segmentId),
    s.nodeSegmentOffset.set s.current s.offset, s.current, s.offset + 1⟩
  (marked, match childrenByIndex.getD s.current [] with
    | [next] =>
      if inDegreeByIndex childrenByIndex s.current = 1 ∧ inDegreeByIndex childrenByIndex next = 1 ∧
          marked.nodeSegment.getD next none = none then some next
      else none
    | _ => none)

def segmentLoop (childrenByIndex : List (List Nat)) (segmentId : Nat) : Nat → SegmentWalk → SegmentWalk
  | 0, s => s
  | fuel + 1, s =>
    match segmentTurn childrenByIndex segmentId s with
    | (marked, some next) => segmentLoop childrenByIndex segmentId fuel { marked with current := next }
    | (marked, none) => marked

structure SegmentStats where
  nodeCount : Nat
  longSegmentNodeCount : Nat
  maxSegmentLength : Nat

def SegmentStats.shouldJump (stats : SegmentStats) : Bool :=
  4 ≤ stats.maxSegmentLength && stats.nodeCount ≤ stats.longSegmentNodeCount * 2

structure Segments where
  tails : List Nat
  nodeSegment : List (Option Nat)
  nodeSegmentOffset : List Nat
  stats : SegmentStats

def addSegment (childrenByIndex : List (List Nat)) (s : Segments) (idx : Nat) : Segments :=
  if s.nodeSegment.getD idx none ≠ none then s
  else
    let walk := segmentLoop childrenByIndex s.tails.length childrenByIndex.length
      ⟨s.nodeSegment, s.nodeSegmentOffset, idx, 0⟩
    { tails := s.tails ++ [walk.current]
      nodeSegment := walk.nodeSegment
      nodeSegmentOffset := walk.nodeSegmentOffset
      stats := ⟨s.stats.nodeCount,
        if 4 ≤ walk.offset then s.stats.longSegmentNodeCount + walk.offset
          else s.stats.longSegmentNodeCount,
        max s.stats.maxSegmentLength walk.offset⟩ }

def buildSegments (childrenByIndex : List (List Nat)) : Segments :=
  (range childrenByIndex.length).foldl (addSegment childrenByIndex)
    ⟨[], replicate childrenByIndex.length none, replicate childrenByIndex.length 0,
      ⟨childrenByIndex.length, 0, 0⟩⟩

end

/-- The forward reachability index. Positions are natural numbers: the source panics on graphs with more than `2 ^ 32`
    events. -/
structure RangePrefilterReachability (Id : Type) where
  items : List Id
  childrenByIndex : List (List Nat)
  descendantRanges : List (Nat × Nat)
  segments : Segments
  cyclicNodes : List Nat

inductive TraversalMode where
  | plainIndexedBfs
  | rangePruned
  | segmentJumps
deriving DecidableEq, Repr

structure CandidateQuery where
  candidateCount : Nat
  knownCandidatePositionCount : Nat
  uniqueCandidateCount : Nat
  candidatePositions : List (List Nat)
  minCandidateIndex : Option Nat
  maxCandidateIndex : Option Nat

namespace CandidateQuery

def span (query : CandidateQuery) (nodeCount : Nat) : Nat :=
  match query.minCandidateIndex, query.maxCandidateIndex with
  | some least, some greatest => greatest - least + 1
  | _, _ => nodeCount

def positionsAt (query : CandidateQuery) (nodeIdx : Nat) : List Nat :=
  query.candidatePositions.getD nodeIdx []

def remainingCandidateSet (query : CandidateQuery) : List Nat :=
  (range query.candidatePositions.length).filter fun idx => query.positionsAt idx ≠ []

end CandidateQuery

structure CandidateTraversal where
  found : List Nat
  frontier : Worklist.Frontier Nat
  remainingKnownCandidates : Nat
  remainingCandidates : List Nat
  halted : Bool

structure SegmentTraversal extends CandidateTraversal where
  segmentCoveredFrom : Nat → Option Nat
  segmentExpanded : List Nat

namespace RangePrefilterReachability

def build [LinearOrder Id] (order : Order) (graph : EventMap Id C) : RangePrefilterReachability Id :=
  let topology := collectTopology order graph
  let items := denseItems topology.topo
  let childrenByIndex := buildIndexedChildren items topology.children
  { items, childrenByIndex
    descendantRanges := buildDescendantRanges childrenByIndex
    segments := buildSegments childrenByIndex
    cyclicNodes := topology.leftoverNodes.filterMap fun id => items.idxOf? id }

variable [DecidableEq Id] (self : RangePrefilterReachability Id)

def children (idx : Nat) : List Nat := self.childrenByIndex.getD idx []

def keep (idx : Nat) : Bool := idx < self.childrenByIndex.length

def seedQueue (seeds : List Id) : Worklist.Frontier Nat :=
  (seeds.filterMap fun seed => self.items.idxOf? seed).foldl (offer self.keep) ⟨[], []⟩

def forwardReachableIds (seeds : List Id) : List Id :=
  (flood Worklist.popFront self.keep self.children (range self.childrenByIndex.length)
    (seeds.filterMap fun seed => self.items.idxOf? seed)).filterMap fun idx => self.items[idx]?

def collectCandidate (query : CandidateQuery) (candidate : Id × Nat) : CandidateQuery :=
  match self.items.idxOf? candidate.1 with
  | none => { query with candidateCount := candidate.2 + 1 }
  | some candidateIdx =>
    { candidateCount := candidate.2 + 1
      knownCandidatePositionCount := query.knownCandidatePositionCount + 1
      uniqueCandidateCount := if query.positionsAt candidateIdx = [] then query.uniqueCandidateCount + 1
        else query.uniqueCandidateCount
      candidatePositions := query.candidatePositions.set candidateIdx
        (query.positionsAt candidateIdx ++ [candidate.2])
      minCandidateIndex := some ((query.minCandidateIndex.map (min · candidateIdx)).getD candidateIdx)
      maxCandidateIndex := some ((query.maxCandidateIndex.map (max · candidateIdx)).getD candidateIdx) }

def collectCandidates (candidates : List Id) : CandidateQuery :=
  candidates.zipIdx.foldl self.collectCandidate
    ⟨0, 0, 0, replicate self.childrenByIndex.length [], none, none⟩

def selectTraversalMode (query : CandidateQuery) : TraversalMode :=
  if query.candidateCount = 0 ∨ query.knownCandidatePositionCount = 0 then .plainIndexedBfs
  else if self.cyclicNodes ≠ [] then .plainIndexedBfs
  else
    let nodeCount := max self.childrenByIndex.length 1
    let span := query.span nodeCount
    let narrowSpan : Bool := span * 4 ≤ nodeCount
    let broadSpan : Bool := nodeCount < span * 2
    let selective : Bool := query.uniqueCandidateCount * 50 ≤ nodeCount
    let jumpSelective : Bool := query.uniqueCandidateCount * 20 ≤ nodeCount
    if self.segments.stats.shouldJump && jumpSelective && narrowSpan then .segmentJumps
    else if selective && narrowSpan && !broadSpan then .rangePruned
    else .plainIndexedBfs

def enqueueUnvisitedChildren (parent : Nat) (frontier : Worklist.Frontier Nat) : Worklist.Frontier Nat :=
  (self.children parent).foldl (offer self.keep) frontier

def enqueueRangePrunedChildren (parent : Nat) (remainingCandidates : List Nat)
    (frontier : Worklist.Frontier Nat) : Worklist.Frontier Nat :=
  ((self.children parent).filter fun child =>
    let range := self.descendantRanges.getD child (0, 0)
    remainingCandidates.any fun candidate => range.1 ≤ candidate && candidate ≤ range.2).foldl
    (offer self.keep) frontier

def candidateTurn (query : CandidateQuery) (mode : TraversalMode) (s : CandidateTraversal) :
    Option CandidateTraversal :=
  if s.halted then none
  else
    match s.frontier.pending with
    | [] => none
    | curr :: rest =>
      let positions := query.positionsAt curr
      let fresh := positions.filter (· ∉ s.found)
      let remainingKnownCandidates := s.remainingKnownCandidates - fresh.length
      let remainingCandidates := if positions ≠ [] then s.remainingCandidates.filter (· ≠ curr)
        else s.remainingCandidates
      let popped : CandidateTraversal := ⟨s.found ++ fresh, ⟨s.frontier.marked, rest⟩,
        remainingKnownCandidates, remainingCandidates, remainingKnownCandidates = 0⟩
      some (if popped.halted then popped
        else { popped with frontier := match mode with
          | .rangePruned => self.enqueueRangePrunedChildren curr remainingCandidates popped.frontier
          | .plainIndexedBfs | .segmentJumps => self.enqueueUnvisitedChildren curr popped.frontier })

def collectReachablePositions (query : CandidateQuery) (found : List Nat) : List Nat :=
  (range query.candidateCount).filter (· ∈ found)

def filterReachableWithCandidates (seeds : List Id) (query : CandidateQuery) (mode : TraversalMode) :
    List Nat :=
  if query.candidateCount = 0 ∨ query.knownCandidatePositionCount = 0 then []
  else
    let remainingCandidates := if mode = .rangePruned then query.remainingCandidateSet else []
    let final := Loop.run (self.candidateTurn query mode) self.childrenByIndex.length
      ⟨[], self.seedQueue seeds, query.knownCandidatePositionCount, remainingCandidates, false⟩
    collectReachablePositions query final.found

def segmentCandidates (query : CandidateQuery) (segmentId : Nat) : List (Nat × Nat × Nat) :=
  (((range query.candidatePositions.length).filter fun candidateIdx =>
      self.segments.nodeSegment.getD candidateIdx none = some segmentId).flatMap fun candidateIdx =>
    (query.positionsAt candidateIdx).map fun position =>
      (self.segments.nodeSegmentOffset.getD candidateIdx 0, candidateIdx, position)).insertionSort
    fun a b => a.1 ≤ b.1

def segmentJumpTurn (query : CandidateQuery) (s : SegmentTraversal) : Option SegmentTraversal :=
  if s.halted then none
  else
    match s.frontier.pending with
    | [] => none
    | curr :: rest =>
      let segmentId := (self.segments.nodeSegment.getD curr none).getD 0
      let segmentStart := self.segments.nodeSegmentOffset.getD curr 0
      let popped : SegmentTraversal := { s with frontier := ⟨s.frontier.marked, rest⟩ }
      if (s.segmentCoveredFrom segmentId).any (· ≤ segmentStart) then some popped
      else
        let hits := ((self.segmentCandidates query segmentId).dropWhile fun candidate =>
          candidate.1 < segmentStart).filter fun candidate => candidate.2.2 ∉ s.found
        let remainingKnownCandidates := s.remainingKnownCandidates - hits.length
        let remainingCandidates := s.remainingCandidates.filter fun candidate =>
          candidate ∉ hits.map fun hit => hit.2.1
        let covered : SegmentTraversal := { popped with
          found := s.found ++ hits.map fun hit => hit.2.2
          remainingKnownCandidates, remainingCandidates
          halted := remainingKnownCandidates = 0
          segmentCoveredFrom := Function.update s.segmentCoveredFrom segmentId (some segmentStart) }
        if covered.halted ∨ segmentId ∈ s.segmentExpanded then some covered
        else some { covered with
          segmentExpanded := s.segmentExpanded ++ [segmentId]
          frontier := self.enqueueRangePrunedChildren (self.segments.tails.getD segmentId 0)
            remainingCandidates popped.frontier }

def filterReachableSegmentJumps (seeds : List Id) (query : CandidateQuery) : List Nat :=
  if query.candidateCount = 0 ∨ query.knownCandidatePositionCount = 0 then []
  else
    let final := Loop.run (self.segmentJumpTurn query) self.childrenByIndex.length
      ⟨⟨[], self.seedQueue seeds, query.knownCandidatePositionCount, query.remainingCandidateSet, false⟩,
        fun _ => none, []⟩
    collectReachablePositions query final.found

def filterReachable (seeds candidates : List Id) : List Nat :=
  let query := self.collectCandidates candidates
  match self.selectTraversalMode query with
  | .segmentJumps => self.filterReachableSegmentJumps seeds query
  | mode => self.filterReachableWithCandidates seeds query mode

end RangePrefilterReachability

inductive Reach where
  | yes
  | no
  | unknown
deriving DecidableEq, Repr

structure ForwardReachabilityIndex (Id : Type) where
  items : List Id
  descendantBitmaps : List (Finset Nat)
  cyclicNodes : List Nat

def buildDescendantBitmaps (childrenByIndex : List (List Nat)) : List (Finset Nat) :=
  (range childrenByIndex.length).reverse.foldl
    (fun bitmaps idx => bitmaps.set idx ((childrenByIndex.getD idx []).foldl
      (fun bitmap childIdx => bitmap ∪ bitmaps.getD childIdx ∅) {idx}))
    (replicate childrenByIndex.length ∅)

def ForwardReachabilityIndex.build [LinearOrder Id] (order : Order) (graph : EventMap Id C) :
    ForwardReachabilityIndex Id :=
  let topology := collectTopology order graph
  let items := denseItems topology.topo
  { items
    descendantBitmaps := buildDescendantBitmaps (buildIndexedChildren items topology.children)
    cyclicNodes := topology.leftoverNodes.filterMap fun id => items.idxOf? id }

section

variable [DecidableEq Id]

def reachEndpoints (items : List Id) (start goal : Id) : Option (Nat × Nat) := do
  let startIdx ← items.idxOf? start
  let goalIdx ← items.idxOf? goal
  return (startIdx, goalIdx)

def reachFromIndex (startIdx goalIdx : Nat) (cyclicNodes : List Nat) (selfIsReachable contains : Bool) :
    Reach :=
  if selfIsReachable ∧ startIdx = goalIdx then .yes
  else if startIdx ∈ cyclicNodes ∨ goalIdx ∈ cyclicNodes then .unknown
  else if contains then .yes
  else .no

def reachesWith (items : List Id) (cyclicNodes : List Nat) (start goal : Id) (selfIsReachable : Bool)
    (contains : Nat → Nat → Bool) : Reach :=
  match reachEndpoints items start goal with
  | none => .unknown
  | some (startIdx, goalIdx) =>
    reachFromIndex startIdx goalIdx cyclicNodes selfIsReachable (contains startIdx goalIdx)

def ForwardReachabilityIndex.reaches (self : ForwardReachabilityIndex Id) (start goal : Id) : Reach :=
  reachesWith self.items self.cyclicNodes start goal true fun startIdx goalIdx =>
    goalIdx ∈ self.descendantBitmaps.getD startIdx ∅

end

structure PointSearch where
  frontier : Worklist.Frontier Nat
  found : Bool

namespace RangePrefilterReachability

variable [DecidableEq Id] (self : RangePrefilterReachability Id)

def promisingChildren (goalIdx idx : Nat) : List Nat :=
  (self.children idx).filter fun child =>
    let range := self.descendantRanges.getD child (0, 0)
    child ≤ goalIdx && range.1 ≤ goalIdx && goalIdx ≤ range.2

def pointTurn (goalIdx : Nat) (s : PointSearch) : Option PointSearch :=
  if s.found then none
  else
    match s.frontier.pending with
    | [] => none
    | curr :: rest =>
      let popped : Worklist.Frontier Nat := ⟨s.frontier.marked, rest⟩
      some (if goalIdx ∈ self.children curr then ⟨popped, true⟩
        else ⟨(self.promisingChildren goalIdx curr).foldl (offer self.keep) popped, false⟩)

def reachesIndex (startIdx goalIdx : Nat) : Bool :=
  if startIdx = goalIdx then true
  else
    let range := self.descendantRanges.getD startIdx (0, 0)
    if goalIdx < range.1 ∨ range.2 < goalIdx then false
    else (Loop.run (self.pointTurn goalIdx) self.childrenByIndex.length ⟨⟨[startIdx], [startIdx]⟩, false⟩).found

def reaches (start goal : Id) : Reach :=
  reachesWith self.items self.cyclicNodes start goal false self.reachesIndex

end RangePrefilterReachability

end Rezzy.Resolve
