import Mathlib.Order.Compare
import Rezzy.Lib.Chase
import Rezzy.Lib.Permuted
import Rezzy.State.LocalAuth

namespace Rezzy.Resolve

section

open Basespec Auth Permuted

inductive IterSite where
  | routedEvents
  | expandQueue
  | ancestryQueue
  | createScan
  | kahnEdges
  | kahnRoots
  | kahnStuck
  | nonPowerEvents
  | occurrences
  | authDifference
  | subgraph
  | lazyQueue
  | workerMaps (worker : Nat)
  | topology
  | conflictedState
deriving DecidableEq

abbrev Order := HashOrder IterSite

variable {Id C : Type} [LinearOrder Id] [EventContent C]

def getPowerLevelFromAuthChain (event : LeanEvent Id C) (authContext : EventProvider Id C)
    (createEv : Option (LeanEvent Id C)) (version : StateResVersion) : Int :=
  let plEvent := (event.dagEdges version).findSome? fun aid =>
    (authContext aid).filter fun aev => aev.eventType = mRoomPowerLevels ∧ aev.stateKey = some ""
  if (version = .v2_1 ∨ version = .v2_1_1 ∨ version = .v2_2) ∧
      createEv.any (isCreator · event.sender) then
    maxPowerLevelRust
  else
    match plEvent with
    | some plEv =>
      ((EventContent.getUserPowerLevel plEv.content event.sender).or
        (EventContent.getUsersDefault plEv.content)).getD 0
    | none => event.powerLevel

structure SortPriority (Id C : Type) where
  event : LeanEvent Id C
  powerLevel : Int

def SortPriority.cmp (version : StateResVersion) (self other : SortPriority Id C) : Ordering :=
  match version with
  | .v1 => (compare self.event.depth other.event.depth).then
      (compare self.event.eventId other.event.eventId)
  | .v2 | .v2_1 | .v2_1_1 | .v2_2 | .v3 =>
    (compare self.powerLevel other.powerLevel).then
      ((compare other.event.originServerTs self.event.originServerTs).then
        (compare other.event.eventId self.event.eventId))

def SortPriority.popsBefore (version : StateResVersion) (self other : SortPriority Id C) : Bool :=
  self.cmp version other = .gt

inductive KahnSortResult (Id : Type) where
  | ok (sorted : List Id)
  | cycleDetected (sorted stuck : List Id)

structure KahnSortInputs (Id C : Type) where
  events : EventMap Id C
  sortContext : EventProvider Id C
  createEv : Option (LeanEvent Id C)
  version : StateResVersion

namespace KahnSortInputs

def priority (inputs : KahnSortInputs Id C) (event : LeanEvent Id C) : SortPriority Id C :=
  ⟨event, getPowerLevelFromAuthChain event inputs.sortContext inputs.createEv inputs.version⟩

def parents (inputs : KahnSortInputs Id C) (event : LeanEvent Id C) : List Id :=
  (event.dagEdges inputs.version).filter inputs.events.containsKey

def inDegree (inputs : KahnSortInputs Id C) (id : Id) : Nat :=
  ((inputs.events.get id).map fun event => (inputs.parents event).length).getD 0

def adjacency (order : Order) (inputs : KahnSortInputs Id C) (id : Id) : List Id :=
  (order.iter .kahnEdges inputs.events.values).flatMap fun event =>
    ((inputs.parents event).filter (· = id)).map fun _ => event.eventId

structure Progress (Id C : Type) where
  result : List Id
  degree : Id → Nat
  queue : List (SortPriority Id C)

def relax (inputs : KahnSortInputs Id C) (pending : (Id → Nat) × List (SortPriority Id C)) (nextId : Id) :
    (Id → Nat) × List (SortPriority Id C) :=
  let degree := Function.update pending.1 nextId (pending.1 nextId - 1)
  (degree, if degree nextId = 0 then
    pending.2 ++ ((inputs.events.get nextId).map inputs.priority).toList else pending.2)

def turn (order : Order) (inputs : KahnSortInputs Id C) (progress : Progress Id C) :
    Option (Progress Id C) :=
  match popFirst (SortPriority.popsBefore inputs.version) progress.queue with
  | none => none
  | some (top, rest) =>
    let pending := (inputs.adjacency order top.event.eventId).foldl inputs.relax (progress.degree, rest)
    some ⟨progress.result ++ [top.event.eventId], pending.1, pending.2⟩

def roots (order : Order) (inputs : KahnSortInputs Id C) : List (SortPriority Id C) :=
  ((order.iter .kahnRoots inputs.events.values).filter fun event =>
    inputs.inDegree event.eventId = 0).map inputs.priority

def sorted (order : Order) (inputs : KahnSortInputs Id C) : List Id :=
  (Loop.run (inputs.turn order) inputs.events.values.length
    ⟨[], inputs.inDegree, inputs.roots order⟩).result

def withCycleDiagnostics (order : Order) (inputs : KahnSortInputs Id C) : KahnSortResult Id :=
  let result := inputs.sorted order
  if result.length ≠ inputs.events.values.length then
    .cycleDetected result ((order.iter .kahnStuck inputs.events.keys).filter (· ∉ result))
  else .ok result

def stuckBefore (inputs : KahnSortInputs Id C) (a b : Id) : Prop :=
  let ts := fun id => (inputs.events.get id).map LeanEvent.originServerTs |>.getD 0
  ts a < ts b ∨ ts a = ts b ∧ a ≤ b

instance (inputs : KahnSortInputs Id C) : DecidableRel inputs.stuckBefore := fun _ _ =>
  inferInstanceAs (Decidable (_ ∨ _))

def sort (order : Order) (inputs : KahnSortInputs Id C) : List Id :=
  match inputs.withCycleDiagnostics order with
  | .ok sorted => sorted
  | .cycleDetected sorted stuck => sorted ++ stuck.insertionSort inputs.stuckBefore

end KahnSortInputs

end

open Basespec Auth Permuted

variable {Id C : Type}

abbrev MainlineCache (Id : Type) := List (Id × Option Id)

def isPowerLevels (authContext : EventProvider Id C) (id : Id) : Bool :=
  (authContext id).any fun event => event.eventType = mRoomPowerLevels

def plSearchEdges (authContext : EventProvider Id C) (version : StateResVersion) (id : Id) : List Id :=
  match authContext id with
  | some event => if event.eventType = mRoomPowerLevels then [] else event.dagEdges version
  | none => []

section

variable [DecidableEq Id]

/-- The first power levels event of a breadth-first search from the edges of an event. Where the source ends with the
    first hit, later hits change nothing here. -/
def nearestPowerLevels (authContext : EventProvider Id C) (nodes : List Id) (version : StateResVersion)
    (id : Id) : Option Id :=
  (authContext id).bind fun event =>
    Nearest.walk (plSearchEdges authContext version)
      (fun found qId _ => found.or (if isPowerLevels authContext qId then some qId else none))
      nodes (event.dagEdges version) none

structure MainlineWalk (Id : Type) where
  mainline : List Id
  current : Option Id
  plParentCache : MainlineCache Id

def mainlineTurn (authContext : EventProvider Id C) (nodes : List Id) (version : StateResVersion)
    (s : MainlineWalk Id) : Option (MainlineWalk Id) :=
  match s.current with
  | none => none
  | some eid =>
    if eid ∈ s.mainline then none
    else
      match s.plParentCache.lookup eid with
      | some cached => some ⟨s.mainline ++ [eid], cached, s.plParentCache⟩
      | none =>
        let found := nearestPowerLevels authContext nodes version eid
        some ⟨s.mainline ++ [eid], found, (eid, found) :: s.plParentCache⟩

/-- The chain of power levels events from the resolved one, and the cache with its steps. `nodes` lists
    the ids of the events in `authContext`. -/
def buildMainlineWithCache (resolved : SharedState Id) (authContext : EventProvider Id C)
    (nodes : List Id) (plParentCache : MainlineCache Id) (emptyKey : String)
    (version : StateResVersion) : List Id × MainlineCache Id :=
  let final := Loop.run (mainlineTurn authContext nodes version)
    (1 + nodes.length + plParentCache.length)
    ⟨[], resolved[((⟨mRoomPowerLevels⟩, emptyKey) : Key)]?, plParentCache⟩
  (final.mainline, final.plParentCache)

def buildMainline (resolved : SharedState Id) (authContext : EventProvider Id C) (nodes : List Id)
    (emptyKey : String) (version : StateResVersion) : List Id :=
  (buildMainlineWithCache resolved authContext nodes [] emptyKey version).1

def plEdge (authContext : EventProvider Id C) (version : StateResVersion) (id : Id) : Option Id :=
  (authContext id).bind fun node => (node.dagEdges version).find? (isPowerLevels authContext)

def mainlinePositions (mainline : List Id) : Id → Option Nat :=
  mainline.zipIdx.foldl (fun positions entry => Function.update positions entry.1 (some entry.2))
    fun _ => none

def computeClosestMainlinePositions (events : List (LeanEvent Id C)) (mainline : List Id)
    (authContext : EventProvider Id C) (nodes : List Id) (version : StateResVersion) :
    Id → Option Chase.Mark :=
  Chase.settleAll (plEdge authContext version) mainline.length (events.map LeanEvent.eventId ++ nodes)
    (fun id => (mainlinePositions mainline id).map .done) (events.map LeanEvent.eventId)

end

variable [LinearOrder Id]

def positionOf (dist : Id → Option Chase.Mark) (default : Nat) (id : Id) : Nat :=
  match dist id with
  | some (.done position) => position
  | _ => default

def mainlineBefore (position : Id → Nat) (a b : LeanEvent Id C) : Prop :=
  position b.eventId < position a.eventId ∨ position a.eventId = position b.eventId ∧
    (a.originServerTs < b.originServerTs ∨ a.originServerTs = b.originServerTs ∧ a.eventId ≤ b.eventId)

instance (position : Id → Nat) : DecidableRel (mainlineBefore (C := C) position) := fun _ _ =>
  inferInstanceAs (Decidable (_ ∨ _))

def mainlineSort (events : List (LeanEvent Id C)) (mainline : List Id) (authContext : EventProvider Id C)
    (nodes : List Id) (version : StateResVersion) : List (LeanEvent Id C) :=
  let dist := computeClosestMainlinePositions events mainline authContext nodes version
  events.insertionSort (mainlineBefore (positionOf dist mainline.length))

end Rezzy.Resolve
