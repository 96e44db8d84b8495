import Rezzy.Resolve.Sorting

namespace Rezzy.Resolve

open Basespec Auth State Permuted

variable {Id C : Type}

structure IterativeInputs (Id C : Type) where
  unconflictedState : SharedState Id
  conflictedEvents : EventMap Id C
  authContext : EventMap Id C
  version : StateResVersion
  emptyKey : String

structure RoutedEvents (Id C : Type) where
  powerEvents : EventMap Id C
  nonPowerEvents : EventMap Id C

def iterated (order : Order) (site : IterSite) (events : EventMap Id C) : EventMap Id C where
  values := order.iter site events.values
  distinct := ((order.perm site events.values).map _).nodup_iff.mpr events.distinct

def routePowerEvents [EventContent C] (order : Order) (sortSet : EventMap Id C)
    (version : StateResVersion) : RoutedEvents Id C :=
  let events := iterated order .routedEvents sortSet
  ⟨events.filter (·.isPowerEvent version), events.filter fun ev => !ev.isPowerEvent version⟩

section

variable [DecidableEq Id]

def removeEvent (events : EventMap Id C) (id : Id) : EventMap Id C :=
  events.filter fun event => event.eventId ≠ id

structure Expansion (Id C : Type) extends RoutedEvents Id C where
  queue : List Id

def promote (sortSet : EventMap Id C) (s : Expansion Id C) (aid : Id) : Expansion Id C :=
  if s.powerEvents.containsKey aid then s
  else
    match s.nonPowerEvents.get aid with
    | some owned => ⟨⟨s.powerEvents.insert owned, removeEvent s.nonPowerEvents aid⟩, s.queue ++ [aid]⟩
    | none =>
      match sortSet.get aid with
      | some aev => ⟨⟨s.powerEvents.insert aev, s.nonPowerEvents⟩, s.queue ++ [aid]⟩
      | none => s

def expandTurn (sortSet : EventMap Id C) (s : Expansion Id C) : Option (Expansion Id C) :=
  match s.queue with
  | [] => none
  | id :: rest =>
    match sortSet.get id with
    | some ev => some (ev.authEvents.foldl (promote sortSet) { s with queue := rest })
    | none => some { s with queue := rest }

def expandV2PowerEventsAuthChains (order : Order) (routed : RoutedEvents Id C)
    (sortSet : EventMap Id C) : RoutedEvents Id C :=
  (Loop.run (expandTurn sortSet) (routed.powerEvents.values.length + sortSet.values.length)
    ⟨routed, order.iter .expandQueue routed.powerEvents.keys⟩).toRoutedEvents

def conflictedPowerAncestry (order : Order) (powerEvents authContext : EventMap Id C) : List Id :=
  Worklist.close (chainEdges authContext.get) authContext.keys
    ((order.iter .ancestryQueue powerEvents.values).flatMap LeanEvent.authEvents)

def isAncestralPower (version : StateResVersion) (ev : LeanEvent Id C) : Bool :=
  ev.eventType = mRoomPowerLevels || ev.eventType = mRoomCreate ||
    (ev.eventType = mRoomJoinRules && version = .v2_1)

def routeAncestor (authContext : EventMap Id C) (originalConflictedKeys : List Id)
    (version : StateResVersion) (powerEvents : EventMap Id C) (id : Id) : EventMap Id C :=
  if id ∈ originalConflictedKeys then powerEvents
  else
    match authContext.get id with
    | some ev => if isAncestralPower version ev then powerEvents.insert ev else powerEvents
    | none => powerEvents

def routesAncestors : StateResVersion → Bool
  | .v2_1 | .v2_1_1 | .v2_2 => true
  | .v1 | .v2 | .v3 => false

def routeMsc4297AncestralPowerEvents (order : Order) (powerEvents authContext : EventMap Id C)
    (originalConflictedKeys : List Id) (version : StateResVersion) : EventMap Id C :=
  if routesAncestors version then
    (conflictedPowerAncestry order powerEvents authContext).foldl
      (routeAncestor authContext originalConflictedKeys version) powerEvents
  else powerEvents

end

section

variable [LinearOrder Id]

def chooseCreateEvent (order : Order) (inputs : IterativeInputs Id C) : Option (LeanEvent Id C) :=
  (inputs.unconflictedState[((⟨mRoomCreate⟩, inputs.emptyKey) : Key)]?.bind
      (lookupAuth inputs.authContext inputs.conflictedEvents)).or
    (((order.iter .createScan inputs.conflictedEvents.values).filter fun ev =>
      ev.eventType = mRoomCreate).argmin LeanEvent.eventId)

def IterativeInputs.sortContext (inputs : IterativeInputs Id C) : EventProvider Id C := fun id =>
  (inputs.conflictedEvents.get id).or (inputs.authContext.get id)

def IterativeInputs.sortNodes (inputs : IterativeInputs Id C) : List Id :=
  inputs.conflictedEvents.keys ++ inputs.authContext.keys

structure PowerPhase (Id C : Type) extends RoutedEvents Id C where
  createEv : Option (LeanEvent Id C)

variable [EventContent C]

def executePowerPhase (order : Order) (inputs : IterativeInputs Id C)
    (originalConflictedKeys : List Id) : PowerPhase Id C :=
  let routed := routePowerEvents order inputs.conflictedEvents inputs.version
  let expanded := if inputs.version ≠ .v1 then
      expandV2PowerEventsAuthChains order routed inputs.conflictedEvents
    else routed
  { powerEvents := routeMsc4297AncestralPowerEvents order expanded.powerEvents inputs.authContext
      originalConflictedKeys inputs.version
    nonPowerEvents := expanded.nonPowerEvents
    createEv := chooseCreateEvent order inputs }

end

inductive Panic (Id : Type) where
  | requiresResolveV3
  | noStateMaps
  | missingConflictedEvent (id : Id)
  | missingUnconflictedOrAuthEvent (id : Id)
  | missingSubgraphEvent (id : Id)
  | baseStateIndexOutOfRange (index : Nat)
deriving DecidableEq, Repr

def requireLegacyIterativeVersion (version : StateResVersion) : Except (Panic Id) Unit :=
  if version = .v3 then throw .requiresResolveV3 else pure ()

def selectLocalAuthCache (externalAuthCache : Option (LocalAuthCache Id C)) (version : StateResVersion) :
    LocalAuthCache Id C :=
  match externalAuthCache with
  | some cache => if cache.version ≠ version then .new version else cache
  | none => .new version

def prepareConflictedAndKeys (conflictedEvents : EventMap Id C) : List Id := conflictedEvents.keys

def deriveAllConflictedKeys (conflictedEvents : EventMap Id C) (emptyKey : String) : KeySet :=
  .ofList (conflictedEvents.values.map fun ev => (⟨ev.eventType⟩, ev.stateKey.getD emptyKey)) keyCmp

def getInitialResolvedState (unconflictedState : SharedState Id) (version : StateResVersion) :
    SharedState Id :=
  if version.isV2_1Plus then ∅ else unconflictedState

def mergeUnconflictedPowerEvent (unconflictedState : SharedState Id) (emptyKey : String)
    (resolved : SharedState Id) (eventType : String) : SharedState Id :=
  let key : Key := (⟨eventType⟩, emptyKey)
  match unconflictedState[key]? with
  | some v => fillKey resolved key v
  | none => resolved

def mergeUnconflictedPowerEvents (version : StateResVersion) (unconflictedState resolved : SharedState Id)
    (emptyKey : String) : SharedState Id :=
  if version.isV2_1Plus then
    [mRoomPowerLevels, mRoomJoinRules, mRoomCreate].foldl
      (mergeUnconflictedPowerEvent unconflictedState emptyKey) resolved
  else resolved

def decidesKey (version : StateResVersion) (conflictedKeys : KeySet) (key : Key) : Bool :=
  version ≠ .v1 || conflictedKeys.contains key

def mergeFinalResolved (unconflictedState resolved : SharedState Id) : SharedState Id :=
  resolved.toList.foldl (fun f entry => fillKey f entry.1 entry.2) unconflictedState

def isSenderBanned [EventContent C] (ev : LeanEvent Id C) (resolved unconflictedState : SharedState Id)
    (events : EventProvider Id C) : Bool :=
  let query : Key := (⟨mRoomMember⟩, ev.sender)
  match resolved[query]?.or unconflictedState[query]? with
  | some id => (events id).any fun m => m.getMembership = some memBan
  | none => false

structure Working (Id C : Type) where
  resolved : SharedState Id
  localAuthCache : LocalAuthCache Id C

structure ResolveCaches (Id C : Type) where
  externalAuthCache : Option (LocalAuthCache Id C)
  mainlineCache : MainlineCache Id
  conflictedKeys : KeySet

structure Resolution (Id C : Type) where
  state : SharedState Id
  localAuthCache : LocalAuthCache Id C
  mainlineCache : MainlineCache Id

section

variable [LinearOrder Id] [ToString Id] [EventContent C]

def eventAuthOk (inputs : IterativeInputs Id C) (createEv : Option (LeanEvent Id C)) (isPower : Bool)
    (w : Working Id C) (event : LeanEvent Id C) : Bool × LocalAuthCache Id C :=
  let computed := computeLocalAuth event inputs.authContext inputs.conflictedEvents w.localAuthCache
    inputs.version
  (iterativeAuthOk event w.resolved inputs.authContext inputs.conflictedEvents computed.1 createEv
    inputs.version isPower, computed.2)

def applyAccepted (version : StateResVersion) (conflictedKeys : KeySet) (resolved : SharedState Id)
    (event : LeanEvent Id C) : SharedState Id :=
  match event.key? with
  | some key => if decidesKey version conflictedKeys key then resolved.insert key event.eventId else resolved
  | none => resolved

def checkEvent (inputs : IterativeInputs Id C) (createEv : Option (LeanEvent Id C))
    (conflictedKeys : KeySet) (isPower : Bool) (w : Working Id C) (event : LeanEvent Id C) :
    Working Id C :=
  let checked := eventAuthOk inputs createEv isPower w event
  ⟨if checked.1 then applyAccepted inputs.version conflictedKeys w.resolved event else w.resolved,
    checked.2⟩

def powerTurn (inputs : IterativeInputs Id C) (createEv : Option (LeanEvent Id C))
    (conflictedKeys : KeySet) (w : Working Id C) (id : Id) : Working Id C :=
  match inputs.sortContext id with
  | some event => checkEvent inputs createEv conflictedKeys true w event
  | none => w

def sortedPowerIds (order : Order) (inputs : IterativeInputs Id C) (phase : PowerPhase Id C) : List Id :=
  KahnSortInputs.sort order ⟨phase.powerEvents, inputs.sortContext, phase.createEv, inputs.version⟩

def runPowerPhaseIterativeChecks (order : Order) (inputs : IterativeInputs Id C)
    (phase : PowerPhase Id C) (conflictedKeys : KeySet) (w : Working Id C) : Working Id C :=
  (sortedPowerIds order inputs phase).foldl (powerTurn inputs phase.createEv conflictedKeys) w

def screenBannedSenders (inputs : IterativeInputs Id C) (resolved : SharedState Id)
    (nonPowerEvents : List (LeanEvent Id C)) : List (LeanEvent Id C) :=
  if inputs.version.hasBanEvasionHardening then
    nonPowerEvents.filter fun ev =>
      !isSenderBanned ev resolved inputs.unconflictedState inputs.sortContext
  else nonPowerEvents

def initialWorking (inputs : IterativeInputs Id C) (externalAuthCache : Option (LocalAuthCache Id C)) :
    Working Id C :=
  ⟨getInitialResolvedState inputs.unconflictedState inputs.version,
    selectLocalAuthCache externalAuthCache inputs.version⟩

def IterativeInputs.powerPhase (order : Order) (inputs : IterativeInputs Id C) : PowerPhase Id C :=
  executePowerPhase order inputs (prepareConflictedAndKeys inputs.conflictedEvents)

def workingAfterPower (order : Order) (inputs : IterativeInputs Id C) (caches : ResolveCaches Id C) :
    Working Id C :=
  let w := runPowerPhaseIterativeChecks order inputs (inputs.powerPhase order) caches.conflictedKeys
    (initialWorking inputs caches.externalAuthCache)
  ⟨mergeUnconflictedPowerEvents inputs.version inputs.unconflictedState w.resolved inputs.emptyKey,
    w.localAuthCache⟩

def mainlineAfterPower (order : Order) (inputs : IterativeInputs Id C) (caches : ResolveCaches Id C) :
    List Id × MainlineCache Id :=
  buildMainlineWithCache (workingAfterPower order inputs caches).resolved inputs.sortContext
    inputs.sortNodes caches.mainlineCache inputs.emptyKey inputs.version

/-- The non-power events in the order they are checked. `screen` is the pass that drops events before
    the sort. -/
def sortedNonPower (screen : SharedState Id → List (LeanEvent Id C) → List (LeanEvent Id C))
    (order : Order) (inputs : IterativeInputs Id C) (resolved : SharedState Id) (mainline : List Id) :
    List (LeanEvent Id C) :=
  mainlineSort (screen resolved
      (order.iter .nonPowerEvents (inputs.powerPhase order).nonPowerEvents.values))
    mainline inputs.sortContext inputs.sortNodes inputs.version

def workingAfterNonPower (screen : SharedState Id → List (LeanEvent Id C) → List (LeanEvent Id C))
    (order : Order) (inputs : IterativeInputs Id C) (caches : ResolveCaches Id C) : Working Id C :=
  let w := workingAfterPower order inputs caches
  (sortedNonPower screen order inputs w.resolved (mainlineAfterPower order inputs caches).1).foldl
    (checkEvent inputs (inputs.powerPhase order).createEv caches.conflictedKeys false) w

def resolveScreened (screen : SharedState Id → List (LeanEvent Id C) → List (LeanEvent Id C))
    (order : Order) (inputs : IterativeInputs Id C) (caches : ResolveCaches Id C) : Resolution Id C :=
  let final := workingAfterNonPower screen order inputs caches
  ⟨mergeFinalResolved inputs.unconflictedState final.resolved, final.localAuthCache,
    (mainlineAfterPower order inputs caches).2⟩

def resolveIterativeSortWithAllCaches (order : Order) (inputs : IterativeInputs Id C)
    (caches : ResolveCaches Id C) : Except (Panic Id) (Resolution Id C) := do
  requireLegacyIterativeVersion inputs.version
  return resolveScreened (screenBannedSenders inputs) order inputs caches

def conflictedKeysOf (inputs : IterativeInputs Id C) (conflictedKeysOverride : Option KeySet) : KeySet :=
  conflictedKeysOverride.getD (deriveAllConflictedKeys inputs.conflictedEvents inputs.emptyKey)

def resolveIterativeSortWithCache (order : Order) (inputs : IterativeInputs Id C)
    (externalAuthCache : Option (LocalAuthCache Id C)) (conflictedKeysOverride : Option KeySet) :
    Except (Panic Id) (Resolution Id C) :=
  resolveIterativeSortWithAllCaches order inputs
    ⟨externalAuthCache, [], conflictedKeysOf inputs conflictedKeysOverride⟩

end

inductive ResolvePhase where
  | power
  | nonPower
deriving DecidableEq, Repr

structure ResolutionDelta (Id : Type) where
  eventId : Id
  accepted : Bool
  key : Key
  replaced : Option Id
  phase : ResolvePhase
deriving DecidableEq

structure DeltaWorking (Id C : Type) extends Working Id C where
  deltas : List (ResolutionDelta Id)

variable [LinearOrder Id] [ToString Id] [EventContent C]

def checkWithDelta (inputs : IterativeInputs Id C) (createEv : Option (LeanEvent Id C))
    (conflictedKeys : KeySet) (phase : ResolvePhase) (w : Working Id C) (event : LeanEvent Id C)
    (key : Key) : Working Id C × ResolutionDelta Id :=
  let checked := eventAuthOk inputs createEv (phase = .power) w event
  let resolved := if checked.1 && decidesKey inputs.version conflictedKeys key then
      w.resolved.insert key event.eventId
    else w.resolved
  (⟨resolved, checked.2⟩, ⟨event.eventId, checked.1, key, w.resolved[key]?, phase⟩)

/-- Unlike `powerTurn`, this skips an event without a state key before its check. -/
def powerDeltaTurn (inputs : IterativeInputs Id C) (createEv : Option (LeanEvent Id C))
    (conflictedKeys : KeySet) (originalConflictedKeys : List Id) (w : DeltaWorking Id C) (id : Id) :
    DeltaWorking Id C :=
  match inputs.sortContext id with
  | none => w
  | some event =>
    match event.key? with
    | none => w
    | some key =>
      let checked := checkWithDelta inputs createEv conflictedKeys .power w.toWorking event key
      ⟨checked.1, if event.eventId ∈ originalConflictedKeys then w.deltas ++ [checked.2] else w.deltas⟩

def nonPowerDeltaTurn (inputs : IterativeInputs Id C) (createEv : Option (LeanEvent Id C))
    (conflictedKeys : KeySet) (w : DeltaWorking Id C) (ev : LeanEvent Id C) : DeltaWorking Id C :=
  match ev.key? with
  | none => w
  | some key =>
    if inputs.version.hasBanEvasionHardening &&
        isSenderBanned ev w.resolved inputs.unconflictedState inputs.sortContext then
      { w with deltas := w.deltas ++ [⟨ev.eventId, false, key, w.resolved[key]?, .nonPower⟩] }
    else
      let checked := checkWithDelta inputs createEv conflictedKeys .nonPower w.toWorking ev key
      ⟨checked.1, w.deltas ++ [checked.2]⟩

def deltasAfterPower (order : Order) (inputs : IterativeInputs Id C)
    (externalAuthCache : Option (LocalAuthCache Id C)) (conflictedKeys : KeySet) : DeltaWorking Id C :=
  let power := (sortedPowerIds order inputs (inputs.powerPhase order)).foldl
    (powerDeltaTurn inputs (inputs.powerPhase order).createEv conflictedKeys
      (prepareConflictedAndKeys inputs.conflictedEvents))
    ⟨initialWorking inputs externalAuthCache, []⟩
  ⟨⟨mergeUnconflictedPowerEvents inputs.version inputs.unconflictedState power.resolved inputs.emptyKey,
    power.localAuthCache⟩, power.deltas⟩

def deltasAfterNonPower (order : Order) (inputs : IterativeInputs Id C)
    (externalAuthCache : Option (LocalAuthCache Id C)) (conflictedKeys : KeySet) : DeltaWorking Id C :=
  let w := deltasAfterPower order inputs externalAuthCache conflictedKeys
  let mainline := buildMainline w.resolved inputs.sortContext inputs.sortNodes inputs.emptyKey inputs.version
  (sortedNonPower (fun _ events => events) order inputs w.resolved mainline).foldl
    (nonPowerDeltaTurn inputs (inputs.powerPhase order).createEv conflictedKeys) w

def resolveIterativeSortWithCacheAndDeltas (order : Order) (inputs : IterativeInputs Id C)
    (externalAuthCache : Option (LocalAuthCache Id C)) (conflictedKeysOverride : Option KeySet) :
    Except (Panic Id) (SharedState Id × List (ResolutionDelta Id)) := do
  requireLegacyIterativeVersion inputs.version
  let final := deltasAfterNonPower order inputs externalAuthCache
    (conflictedKeysOf inputs conflictedKeysOverride)
  return (mergeFinalResolved inputs.unconflictedState final.resolved, final.deltas)

end Rezzy.Resolve
