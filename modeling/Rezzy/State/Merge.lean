import Rezzy.Lib.Stream
import Rezzy.Resolve.CachedRuns

namespace Rezzy.State

section

open Basespec Resolve Permuted

variable {Id C : Type} [LinearOrder Id]

def stateDiff (old new : SharedState Id) : List (StateDiffEntry Id) :=
  (diffOver (.ofList (old.keys ++ new.keys) keyCmp) old new).entries

structure MergeContext (Id C : Type) where
  eventsMap : EventMap Id C
  version : StateResVersion
  emptyKey : String

def StateDiffEntry.eventIds (entry : StateDiffEntry Id) : List Id :=
  entry.oldEventId?.toList ++ entry.newEventId?.toList

def parentDiffs (first : SharedState Id) (rest : List (SharedState Id)) : List (StateDiffEntry Id) :=
  rest.flatMap (stateDiff first)

def conflictedKeysAt (first : SharedState Id) (rest : List (SharedState Id)) : KeySet :=
  .ofList ((parentDiffs first rest).map StateDiffEntry.key) keyCmp

def conflictedStateSet (first : SharedState Id) (rest : List (SharedState Id)) : List Id :=
  ((parentDiffs first rest).flatMap StateDiffEntry.eventIds).dedup

def unconflictedAt (first : SharedState Id) (rest : List (SharedState Id)) : SharedState Id :=
  (conflictedKeysAt first rest).toList.foldl (fun state key => state.erase key) first

def addKnownEvent (eventsMap events : EventMap Id C) (id : Id) : EventMap Id C :=
  match eventsMap.get id with
  | some event => events.insert event
  | none => events

def mergeAuthDifference (order : Order) (ctx : MergeContext Id C) (first : SharedState Id)
    (rest : List (SharedState Id)) (conflictedIds : List Id) : Except (Panic Id) (List Id) :=
  if ctx.version = .v1 then .ok []
  else
    match authDifference order (unconflictedAt first rest) (first :: rest) conflictedIds
        (EventMap.eventAuth ctx.eventsMap) with
    | .error id => .error (.missingUnconflictedOrAuthEvent id)
    | .ok authDiff => .ok authDiff

def mergeInputs (order : Order) (ctx : MergeContext Id C) (first : SharedState Id)
    (rest : List (SharedState Id)) (authDiff : List Id) : IterativeInputs Id C where
  unconflictedState := unconflictedAt first rest
  conflictedEvents := authDiff.foldl (addKnownEvent ctx.eventsMap)
    ((order.iter .conflictedState (conflictedStateSet first rest)).foldl (addKnownEvent ctx.eventsMap) .empty)
  authContext := ctx.eventsMap
  version := ctx.version
  emptyKey := ctx.emptyKey

variable [ToString Id] [EventContent C]

def resolveMergedParentStates (order : Order) (ctx : MergeContext Id C) (caches : ForkResolveCaches Id C)
    (prevStates : List (SharedState Id)) : Except (Panic Id) (SharedState Id × ForkResolveCaches Id C) :=
  match prevStates with
  | [] => .ok (∅, caches)
  | first :: rest =>
    if rest.all (first = ·) then .ok (first, caches)
    else do
      let conflictedIds := order.iter .conflictedState (conflictedStateSet first rest)
      let authDiff ← mergeAuthDifference order ctx first rest conflictedIds
      let resolution ← resolveIterativeSortWithAllCaches order (mergeInputs order ctx first rest authDiff)
        ⟨some caches.authCache, caches.mainlineCache, conflictedKeysAt first rest⟩
      return (resolution.state, ⟨resolution.localAuthCache, resolution.mainlineCache⟩)

end

open Basespec Resolve Permuted

variable {Id C : Type} [LinearOrder Id]

section

omit [LinearOrder Id] in
theorem localAuthCache_ext {left right : LocalAuthCache Id C} (version : left.version = right.version)
    (map : ∀ id, left.map id = right.map id) : left = right := by
  obtain ⟨ownVersion, ownMap⟩ := left
  obtain rfl : ownVersion = right.version := version
  obtain rfl : ownMap = right.map := funext map
  rfl

theorem computeLocalAuth_version (event : LeanEvent Id C) (authContext conflictedEvents : EventMap Id C)
    (cache : LocalAuthCache Id C) (version : StateResVersion) :
    (computeLocalAuth event authContext conflictedEvents cache version).2.version = cache.version := by
  unfold computeLocalAuth
  split <;> rfl

omit [LinearOrder Id] in
theorem selectLocalAuthCache_version (cache : Option (LocalAuthCache Id C)) (version : StateResVersion) :
    (selectLocalAuthCache cache version).version = version := by
  unfold selectLocalAuthCache
  split
  · split
    · rfl
    · rename_i same
      exact not_not.mp same
  · rfl

omit [LinearOrder Id] in
theorem foldl_version {α : Type} {step : Working Id C → α → Working Id C}
    (keeps : ∀ w x, (step w x).localAuthCache.version = w.localAuthCache.version) (l : List α)
    (w : Working Id C) : (l.foldl step w).localAuthCache.version = w.localAuthCache.version := by
  induction l generalizing w with
  | nil => rfl
  | cons x l ih => rw [List.foldl_cons, ih, keeps]

variable [ToString Id] [EventContent C]

theorem checkEvent_version (inputs : IterativeInputs Id C) (createEv : Option (LeanEvent Id C))
    (conflictedKeys : KeySet) (isPower : Bool) (w : Working Id C) (event : LeanEvent Id C) :
    (checkEvent inputs createEv conflictedKeys isPower w event).localAuthCache.version = w.localAuthCache.version :=
  computeLocalAuth_version _ _ _ _ _

theorem resolveScreened_version (screen : SharedState Id → List (LeanEvent Id C) → List (LeanEvent Id C))
    (order : Order) (inputs : IterativeInputs Id C) (caches : ResolveCaches Id C) :
    (resolveScreened screen order inputs caches).localAuthCache.version = inputs.version := by
  have turn : ∀ (w : Working Id C) id, (powerTurn inputs (inputs.powerPhase order).createEv
      caches.conflictedKeys w id).localAuthCache.version = w.localAuthCache.version := by
    intro w id
    unfold powerTurn
    split
    · exact checkEvent_version _ _ _ _ _ _
    · rfl
  unfold Resolve.resolveScreened workingAfterNonPower workingAfterPower runPowerPhaseIterativeChecks
  rw [foldl_version (checkEvent_version _ _ _ _), foldl_version turn]
  exact selectLocalAuthCache_version _ _

end

section

theorem authDifference_same (orderLeft orderRight : Order) (unconflictedState : SharedState Id)
    (stateMaps : List (SharedState Id)) (ids : ∀ id, id ∈ idsLeft ↔ id ∈ idsRight) (eventAuth : EventAuth Id) :
    authDifference orderLeft unconflictedState stateMaps idsLeft eventAuth =
      authDifference orderRight unconflictedState stateMaps idsRight eventAuth := by
  have chain : ∀ visited, conflictedChain eventAuth visited idsLeft = conflictedChain eventAuth visited idsRight := by
    intro visited
    funext state
    unfold conflictedChain
    simp only [ids]
  unfold authDifference
  cases unconflictedClosure eventAuth unconflictedState with
  | error id => rfl
  | ok visited =>
    dsimp only [Bind.bind, Except.bind, Pure.pure, Except.pure]
    rw [chain visited]
    have listed := orderLeft.iter_perm orderRight IterSite.authDifference
      (List.Perm.refl (stateMaps.map (conflictedChain eventAuth visited idsRight)).flatten.dedup)
    congr 1
    exact ((List.perm_insertionSort _ _).trans ((listed.filter _).trans
      (List.perm_insertionSort _ _).symm)).eq_of_pairwise' (List.pairwise_insertionSort _ _)
        (List.pairwise_insertionSort _ _)

theorem get_addKnownEvents (eventsMap : EventMap Id C) (ids : List Id) (events : EventMap Id C) (id : Id) :
    (ids.foldl (addKnownEvent eventsMap) events).get id =
      (if id ∈ ids then eventsMap.get id else none).or (events.get id) := by
  induction ids generalizing events with
  | nil => simp
  | cons first ids ih =>
    have step : (addKnownEvent eventsMap events first).get id =
        (if id = first then eventsMap.get id else none).or (events.get id) := by
      unfold addKnownEvent
      cases found : eventsMap.get first with
      | none =>
        by_cases same : id = first
        · simp [same, found]
        · simp [same]
      | some event =>
        have named := EventMap.get_id found
        by_cases same : id = first
        · simp [EventMap.get_insert, named, same, found]
        · simp [EventMap.get_insert, named, same, Ne.symm same]
    rw [List.foldl_cons, ih, step]
    by_cases same : id = first
    · by_cases mem : id ∈ ids
      · cases eventsMap.get id <;> simp [mem]
      · simp [mem]
    · simp [same]

variable (ctx : MergeContext Id C) (first : SharedState Id) (rest : List (SharedState Id))

theorem get_mergeInputs (order : Order) (authDiff : List Id) (id : Id) :
    (mergeInputs order ctx first rest authDiff).conflictedEvents.get id =
      if id ∈ authDiff ∨ id ∈ conflictedStateSet first rest then ctx.eventsMap.get id else none := by
  unfold mergeInputs
  have listed : id ∈ order.iter .conflictedState (conflictedStateSet first rest) ↔
      id ∈ conflictedStateSet first rest := (order.perm _ _).mem_iff
  have empty : (EventMap.empty : EventMap Id C).get id = none := rfl
  rw [get_addKnownEvents, get_addKnownEvents, empty, Option.or_none]
  simp only [listed]
  by_cases diff : id ∈ authDiff
  · by_cases own : id ∈ conflictedStateSet first rest <;> cases ctx.eventsMap.get id <;> simp [diff, own]
  · simp [diff]

theorem mergeInputs_shuffled (orderLeft orderRight : Order) (authDiff : List Id) :
    (mergeInputs orderLeft ctx first rest authDiff).Shuffled (mergeInputs orderRight ctx first rest authDiff) where
  unconflicted := rfl
  conflicted := EventMap.perm_of_get fun id => by rw [get_mergeInputs, get_mergeInputs]
  auth := .refl _
  version := rfl
  emptyKey := rfl

theorem mergeInputs_inRoom (order : Order) (authDiff : List Id) :
    (mergeInputs order ctx first rest authDiff).InRoom ctx.eventsMap where
  context := AuthClosedIn.refl _
  conflicted event member := by
    have found := EventMap.get_of_mem member
    rw [get_mergeInputs] at found
    split at found
    · exact EventMap.get_mem found
    · cases found

theorem mergeAuthDifference_same (orderLeft orderRight : Order) :
    mergeAuthDifference orderLeft ctx first rest (orderLeft.iter .conflictedState (conflictedStateSet first rest)) =
      mergeAuthDifference orderRight ctx first rest
        (orderRight.iter .conflictedState (conflictedStateSet first rest)) := by
  unfold mergeAuthDifference
  have ids := fun id => (orderLeft.iter_perm orderRight IterSite.conflictedState
    (List.Perm.refl (conflictedStateSet first rest))).mem_iff (a := id)
  rw [authDifference_same orderLeft orderRight _ _ ids]

end

section

variable {ctx : MergeContext Id C} {left right : ForkResolveCaches Id C}

structure AlikeCaches (ctx : MergeContext Id C) (left right : ForkResolveCaches Id C) : Prop where
  localAuth : left.authCache = right.authCache
  mainlineLeft : left.mainlineCache.Valid
    (nearestPowerLevels ctx.eventsMap.get ctx.eventsMap.keys ctx.version)
  mainlineRight : right.mainlineCache.Valid
    (nearestPowerLevels ctx.eventsMap.get ctx.eventsMap.keys ctx.version)

theorem alikeCaches_new (ctx : MergeContext Id C) : AlikeCaches ctx (.new ctx.version) (.new ctx.version) :=
  ⟨rfl, fun _ _ found => (by cases found), fun _ _ found => (by cases found)⟩

def resolveCachesAt (caches : ForkResolveCaches Id C) (first : SharedState Id)
    (rest : List (SharedState Id)) : ResolveCaches Id C :=
  ⟨some caches.authCache, caches.mainlineCache, conflictedKeysAt first rest⟩

variable (first : SharedState Id) (rest : List (SharedState Id))

theorem mergeInputs_nearest (order : Order) (authDiff : List Id) (id : Id) :
    nearestPowerLevels (mergeInputs order ctx first rest authDiff).sortContext
        (mergeInputs order ctx first rest authDiff).sortNodes ctx.version id =
      nearestPowerLevels ctx.eventsMap.get ctx.eventsMap.keys ctx.version id := by
  refine nearestPowerLevels_congr ⟨fun id _ => ?_, fun _ _ _ _ _ _ => trivial⟩ (lists_sortNodes _)
    (fun id event found => EventMap.mem_keys.mpr ⟨event, found⟩) ctx.version id (trivial : True)
  rw [(mergeInputs_inRoom ctx first rest order authDiff).sortContext]
  rfl

theorem AlikeCaches.sameCaches (alike : AlikeCaches ctx left right) (orderLeft orderRight : Order)
    (authDiff : List Id) :
    SameCaches (fun _ => True) (mergeInputs orderLeft ctx first rest authDiff)
      (mergeInputs orderRight ctx first rest authDiff) (resolveCachesAt left first rest)
      (resolveCachesAt right first rest) where
  keys := rfl
  cached id _ := by
    unfold resolveCachesAt
    rw [alike.localAuth]
    rfl
  validLeft id found known := (alike.mainlineLeft id found known).trans (mergeInputs_nearest first rest _ _ _).symm
  validRight id found known := (alike.mainlineRight id found known).trans (mergeInputs_nearest first rest _ _ _).symm

variable [ToString Id] [EventContent C]

def mergeResolution (order : Order) (ctx : MergeContext Id C) (caches : ForkResolveCaches Id C)
    (first : SharedState Id) (rest : List (SharedState Id)) (authDiff : List Id) :
    SharedState Id × ForkResolveCaches Id C :=
  let inputs := mergeInputs order ctx first rest authDiff
  let resolution := resolveScreened (screenBannedSenders inputs) order inputs (resolveCachesAt caches first rest)
  (resolution.state, ⟨resolution.localAuthCache, resolution.mainlineCache⟩)

theorem resolveMergedParentStates_distinct (order : Order) (ctx : MergeContext Id C)
    (caches : ForkResolveCaches Id C) (differ : ¬rest.all (first = ·)) :
    resolveMergedParentStates order ctx caches (first :: rest) = (mergeAuthDifference order ctx first rest
        (order.iter .conflictedState (conflictedStateSet first rest))).bind fun authDiff =>
          if ctx.version = .v3 then .error .requiresResolveV3
          else .ok (mergeResolution order ctx caches first rest authDiff) := by
  unfold resolveMergedParentStates
  dsimp only
  rw [if_neg differ]
  cases mergeAuthDifference order ctx first rest (order.iter .conflictedState (conflictedStateSet first rest)) with
  | error panic => rfl
  | ok authDiff =>
    dsimp only [Bind.bind, Except.bind]
    rw [resolveIterativeSortWithAllCaches_eq, show (mergeInputs order ctx first rest authDiff).version =
      ctx.version from rfl]
    by_cases unserved : ctx.version = .v3
    · rw [if_pos unserved, if_pos unserved]
    · rw [if_neg unserved, if_neg unserved]
      rfl

theorem AlikeCaches.mergeResolution (alike : AlikeCaches ctx left right) (orderLeft orderRight : Order)
    (authDiff : List Id) :
    (mergeResolution orderLeft ctx left first rest authDiff).1 =
        (mergeResolution orderRight ctx right first rest authDiff).1 ∧
      AlikeCaches ctx (mergeResolution orderLeft ctx left first rest authDiff).2
        (mergeResolution orderRight ctx right first rest authDiff).2 := by
  have same := (mergeInputs_shuffled ctx first rest orderLeft orderRight authDiff).sameInputs
  have caches := alike.sameCaches first rest orderLeft orderRight authDiff
  refine ⟨same.resolveScreened caches orderLeft orderRight, ?_,
    ((mergeInputs_inRoom ctx first rest orderLeft authDiff).mainlineAfterPower (fun _ _ => rfl)
      alike.mainlineLeft orderLeft).2,
    ((mergeInputs_inRoom ctx first rest orderRight authDiff).mainlineAfterPower (fun _ _ => rfl)
      alike.mainlineRight orderRight).2⟩
  have maps := (same.workingAfterNonPower caches orderLeft orderRight).cached
  have versionLeft := resolveScreened_version
    (screenBannedSenders (mergeInputs orderLeft ctx first rest authDiff)) orderLeft
    (mergeInputs orderLeft ctx first rest authDiff) (resolveCachesAt left first rest)
  have versionRight := resolveScreened_version
    (screenBannedSenders (mergeInputs orderRight ctx first rest authDiff)) orderRight
    (mergeInputs orderRight ctx first rest authDiff) (resolveCachesAt right first rest)
  exact localAuthCache_ext (versionLeft.trans versionRight.symm) fun id => maps id trivial

theorem AlikeCaches.resolveMergedParentStates (alike : AlikeCaches ctx left right) (orderLeft orderRight : Order)
    (prevStates : List (SharedState Id)) :
    Stream.Both (fun mergedLeft mergedRight => mergedLeft.1 = mergedRight.1 ∧
        AlikeCaches ctx mergedLeft.2 mergedRight.2)
      (resolveMergedParentStates orderLeft ctx left prevStates)
      (resolveMergedParentStates orderRight ctx right prevStates) := by
  cases prevStates with
  | nil => exact .ok ⟨rfl, alike⟩
  | cons first rest =>
    by_cases equal : rest.all (first = ·)
    · unfold State.resolveMergedParentStates
      dsimp only
      rw [if_pos equal, if_pos equal]
      exact .ok ⟨rfl, alike⟩
    · rw [resolveMergedParentStates_distinct first rest orderLeft ctx left equal,
        resolveMergedParentStates_distinct first rest orderRight ctx right equal,
        mergeAuthDifference_same ctx first rest orderLeft orderRight]
      cases mergeAuthDifference orderRight ctx first rest
          (orderRight.iter .conflictedState (conflictedStateSet first rest)) with
      | error panic => exact .error _
      | ok authDiff =>
        split
        · exact .error _
        · exact .ok (alike.mergeResolution first rest orderLeft orderRight authDiff)

end

variable [EventContent C]

def MergeTieFree (ctx : MergeContext Id C) (prevStates : List (SharedState Id)) : Prop :=
  ∀ order first rest authDiff, prevStates = first :: rest → ¬rest.all (first = ·) →
    mergeAuthDifference order ctx first rest
      (order.iter .conflictedState (conflictedStateSet first rest)) = .ok authDiff →
    ∀ event, (mergeInputs order ctx first rest authDiff).Checks event →
      TieFreeReads ctx.eventsMap ctx.version event

variable [ToString Id]

theorem resolveMergedParentStates_warm {ctx : MergeContext Id C} (tieFree : MergeTieFree ctx prevStates)
    (faithful : caches.Faithful ctx.eventsMap ctx.version) (order otherOrder : Order) :
    Stream.Both (fun warm cold => warm.1 = cold.1 ∧ warm.2.Faithful ctx.eventsMap ctx.version)
      (resolveMergedParentStates order ctx caches prevStates)
      (resolveMergedParentStates otherOrder ctx (.new ctx.version) prevStates) := by
  cases prevStates with
  | nil => exact .ok ⟨rfl, faithful⟩
  | cons first rest =>
    by_cases equal : rest.all (first = ·)
    · unfold State.resolveMergedParentStates
      dsimp only
      rw [if_pos equal, if_pos equal]
      exact .ok ⟨rfl, faithful⟩
    · rw [resolveMergedParentStates_distinct first rest order ctx _ equal,
        resolveMergedParentStates_distinct first rest otherOrder ctx _ equal,
        ← mergeAuthDifference_same ctx first rest order otherOrder]
      cases diff : mergeAuthDifference order ctx first rest
          (order.iter .conflictedState (conflictedStateSet first rest)) with
      | error panic => exact .error _
      | ok authDiff =>
        split
        · exact .error _
        · have serves : (mergeInputs order ctx first rest authDiff).Serves ctx.eventsMap :=
            ⟨mergeInputs_inRoom ctx first rest order authDiff,
              tieFree order first rest authDiff rfl equal diff, fun _ _ => rfl⟩
          have warm : (resolveCachesAt caches first rest).Faithful ctx.eventsMap
              (mergeInputs order ctx first rest authDiff) :=
            ⟨selectLocalAuthCache_faithful fun given found => Option.some.inj found ▸ faithful.localAuth,
              faithful.mainline⟩
          have fresh : (resolveCachesAt (.new ctx.version) first rest).Faithful ctx.eventsMap
              (mergeInputs order ctx first rest authDiff) :=
            ⟨selectLocalAuthCache_faithful fun given found =>
              Option.some.inj found ▸ faithful_new ctx.eventsMap ctx.version ctx.version,
              fun _ _ found => (by cases found)⟩
          obtain ⟨same, localAuth, mainline⟩ := serves.resolveScreened warm fresh rfl order
          refine .ok ⟨?_, localAuth, mainline⟩
          exact same.trans ((alikeCaches_new ctx).mergeResolution first rest order otherOrder authDiff).1

end Rezzy.State
