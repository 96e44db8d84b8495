import Rezzy.Resolve.Subgraph

namespace Rezzy.Resolve

open Basespec Auth State Permuted

variable {Id C : Type}

section

structure Occurrence (Id : Type) where
  firstId : Id
  count : Nat
  conflicts : Option (List Id)

abbrev Occurrences (Id : Type) := Std.ExtTreeMap Key (Occurrence Id) keyCmp

variable [DecidableEq Id]

/-- One more map with `id` under the key. Distinct ids are listed as soon as there are two. -/
def Occurrence.see (occ : Occurrence Id) (id : Id) : Occurrence Id where
  firstId := occ.firstId
  count := occ.count + 1
  conflicts :=
    if occ.firstId = id then occ.conflicts
    else
      match occ.conflicts with
      | none => some [occ.firstId, id]
      | some ids => some (if id ∈ ids then ids else ids ++ [id])

def noteEntry (occurrences : Occurrences Id) (entry : Key × Id) : Occurrences Id :=
  match occurrences[entry.1]? with
  | none => occurrences.insert entry.1 ⟨entry.2, 1, none⟩
  | some occ => occurrences.insert entry.1 (occ.see entry.2)

def scanStateMaps (stateMaps : List (SharedState Id)) : Occurrences Id :=
  stateMaps.foldl (fun occurrences map => map.toList.foldl noteEntry occurrences) ∅

structure Partition (Id : Type) where
  unconflictedState : SharedState Id
  conflictedIds : List Id

def partitionEntry (numMaps : Nat) (partition : Partition Id) (entry : Key × Occurrence Id) :
    Partition Id :=
  match entry.2.conflicts with
  | none =>
    if entry.2.count = numMaps then
      { partition with unconflictedState := partition.unconflictedState.insert entry.1 entry.2.firstId }
    else { partition with conflictedIds := partition.conflictedIds ++ [entry.2.firstId] }
  | some conflicts => { partition with conflictedIds := partition.conflictedIds ++ conflicts }

def partitionStateMaps (order : Order) (stateMaps : List (SharedState Id)) (numMaps : Nat) : Partition Id :=
  (order.iter .occurrences (scanStateMaps stateMaps).toList).foldl (partitionEntry numMaps) ⟨∅, []⟩

end

section

variable [LinearOrder Id]

def deeper (depthOf : Id → Nat) (a b : Id) : Bool :=
  depthOf b < depthOf a || (depthOf a = depthOf b && b < a)

structure EventAuth (Id : Type) where
  nodes : List Id
  known : Id → Bool
  depthOf : Id → Nat
  authOf : Id → List Id

def EventMap.eventAuth (events : EventMap Id C) : EventAuth Id where
  nodes := events.keys
  known := events.containsKey
  depthOf id := ((events.get id).map LeanEvent.depth).getD 0
  authOf id := ((events.get id).map LeanEvent.authEvents).getD []

def stateValues (state : SharedState Id) : List Id := state.toList.map Prod.snd

/-- The auth closure of the unconflicted state. The source stops at the first id it cannot find, which is
    the first unknown one in the order of the marks. -/
def unconflictedClosure (eventAuth : EventAuth Id) (unconflictedState : SharedState Id) :
    Except Id (List Id) :=
  let visited := Worklist.flood (popFirst (deeper eventAuth.depthOf)) eventAuth.known eventAuth.authOf
    eventAuth.nodes (stateValues unconflictedState)
  match visited.find? fun id => !eventAuth.known id with
  | some id => .error id
  | none => .ok visited

def conflictedChain (eventAuth : EventAuth Id) (unconflictedVisited conflictedIds : List Id)
    (state : SharedState Id) : List Id :=
  let fresh := fun id => (eventAuth.authOf id).filter (· ∉ unconflictedVisited)
  (Worklist.flood (popFirst (deeper eventAuth.depthOf)) eventAuth.known fresh eventAuth.nodes
    (((stateValues state).filter (· ∈ conflictedIds)).flatMap fresh)).filter eventAuth.known

def authDifference (order : Order) (unconflictedState : SharedState Id)
    (stateMaps : List (SharedState Id)) (conflictedIds : List Id) (eventAuth : EventAuth Id) :
    Except Id (List Id) := do
  let unconflictedVisited ← unconflictedClosure eventAuth unconflictedState
  let chains := stateMaps.map (conflictedChain eventAuth unconflictedVisited conflictedIds)
  let union := order.iter .authDifference chains.flatten.dedup
  return (union.filter fun id => !chains.all fun chain => id ∈ chain).insertionSort (· ≤ ·)

end

variable [LinearOrder Id]

def supplementEvent (eventContext events : EventMap Id C) (id : Id) : EventMap Id C :=
  if events.containsKey id then events
  else
    match eventContext.get id with
    | some ev => events.insert ev
    | none => events

def supplementSubgraphEvent (eventContext events : EventMap Id C) (id : Id) :
    Except (Panic Id) (EventMap Id C) :=
  if events.containsKey id then .ok events
  else
    match eventContext.get id with
    | some ev => .ok (events.insert ev)
    | none => .error (.missingSubgraphEvent id)

def fetchConflicted (eventContext events : EventMap Id C) (id : Id) : Except (Panic Id) (EventMap Id C) :=
  match eventContext.get id with
  | some ev => .ok (events.insert ev)
  | none => .error (.missingConflictedEvent id)

def addsSubgraph : StateResVersion → Bool
  | .v2_1 | .v2_1_1 => true
  | .v1 | .v2 | .v2_2 | .v3 => false

def subgraphIds (order : Order) (eventContext : EventMap Id C)
    (reachability : Option (RangePrefilterReachability Id)) (conflictedIds : List Id) : List Id :=
  match reachability with
  | some index => conflictedSubgraphIdsWithIndex eventContext index conflictedIds none
  | none => computeV21ConflictedSubgraph order eventContext conflictedIds

def addSubgraph (order : Order) (eventContext : EventMap Id C) (version : StateResVersion)
    (reachability : Option (RangePrefilterReachability Id)) (conflictedIds : List Id)
    (conflictedEvents : EventMap Id C) : Except (Panic Id) (EventMap Id C) :=
  if addsSubgraph version then
    (order.iter .subgraph (subgraphIds order eventContext reachability conflictedIds)).foldlM
      (supplementSubgraphEvent eventContext) conflictedEvents
  else .ok conflictedEvents

def addAuthDifference (order : Order) (eventContext : EventMap Id C) (version : StateResVersion)
    (stateMaps : List (SharedState Id)) (partition : Partition Id) (conflictedEvents : EventMap Id C) :
    Except (Panic Id) (EventMap Id C) :=
  if version = .v1 then .ok conflictedEvents
  else
    match authDifference order partition.unconflictedState stateMaps partition.conflictedIds
        (EventMap.eventAuth eventContext) with
    | .error id => .error (.missingUnconflictedOrAuthEvent id)
    | .ok authDiff => .ok (authDiff.foldl (supplementEvent eventContext) conflictedEvents)

structure ForkResolveCaches (Id C : Type) where
  authCache : LocalAuthCache Id C
  mainlineCache : MainlineCache Id

def ForkResolveCaches.new (version : StateResVersion) : ForkResolveCaches Id C := ⟨.new version, []⟩

structure MultiResolution (Id C : Type) where
  state : SharedState Id
  diffKeys : KeySet
  caches : Option (ForkResolveCaches Id C)

variable [ToString Id] [EventContent C]

def resolveStateMapsGeneric (order : Order) (stateMaps : List (SharedState Id))
    (eventContext : EventMap Id C) (version : StateResVersion) (emptyKey : String)
    (reachability : Option (RangePrefilterReachability Id)) (caches : Option (ForkResolveCaches Id C)) :
    Except (Panic Id) (MultiResolution Id C) :=
  match stateMaps with
  | [] => .error .noStateMaps
  | first :: rest =>
    if rest.all (· = first) then .ok ⟨first, ∅, caches⟩
    else do
      let partition := partitionStateMaps order stateMaps stateMaps.length
      let genuine ← partition.conflictedIds.foldlM (fetchConflicted eventContext) .empty
      let conflictedKeys := deriveAllConflictedKeys genuine emptyKey
      let withSubgraph ← addSubgraph order eventContext version reachability partition.conflictedIds genuine
      let conflictedEvents ← addAuthDifference order eventContext version stateMaps partition withSubgraph
      let diffKeys := deriveAllConflictedKeys conflictedEvents emptyKey
      let resolution ← resolveIterativeSortWithAllCaches order
        ⟨partition.unconflictedState, conflictedEvents, eventContext, version, emptyKey⟩
        ⟨caches.map ForkResolveCaches.authCache, (caches.map ForkResolveCaches.mainlineCache).getD [],
          conflictedKeys⟩
      return ⟨resolution.state, diffKeys,
        caches.map fun _ => ⟨resolution.localAuthCache, resolution.mainlineCache⟩⟩

def resolveWith (order : Order) (stateMaps : List (SharedState Id)) (eventContext : EventMap Id C)
    (version : StateResVersion) (reachability : Option (RangePrefilterReachability Id))
    (caches : Option (ForkResolveCaches Id C)) : Except (Panic Id) (MultiResolution Id C) :=
  resolveStateMapsGeneric order stateMaps eventContext version "" reachability caches

def resolveStateMaps (order : Order) (stateMaps : List (SharedState Id)) (eventContext : EventMap Id C)
    (version : StateResVersion) : Except (Panic Id) (SharedState Id) :=
  (resolveWith order stateMaps eventContext version none none).map MultiResolution.state

def resolveStateMapsCached (order : Order) (stateMaps : List (SharedState Id)) (eventContext : EventMap Id C)
    (version : StateResVersion) (reachability : RangePrefilterReachability Id)
    (caches : ForkResolveCaches Id C) : Except (Panic Id) (SharedState Id × ForkResolveCaches Id C) :=
  (resolveWith order stateMaps eventContext version (some reachability) (some caches)).map fun resolution =>
    (resolution.state, resolution.caches.getD caches)

end Rezzy.Resolve
