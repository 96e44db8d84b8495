import Rezzy.Resolve.MultiDiff
import Rezzy.Resolve.ReachabilityJumps
import Rezzy.Resolve.RoomCaches

namespace Rezzy.Resolve

open Basespec Auth State Permuted List
open EventMap (get_id get_mem)
open AuthClosedIn (refl)
open EventMap (get_eq_none mem_keys)

variable {Id C : Type} [LinearOrder Id]

section

theorem AuthClosedIn.forward (context : AuthClosedIn room eventContext) {id descendant : Id}
    (known : descendant ∈ eventContext.keys)
    (path : Relation.ReflTransGen (Worklist.Edge (forwardEdges room)) id descendant) :
    id ∈ eventContext.keys ∧ Relation.ReflTransGen (Worklist.Edge (forwardEdges eventContext)) id descendant := by
  induction path with
  | refl => exact ⟨known, .refl⟩
  | tail _ edge ih =>
    obtain ⟨event, found, cites, inRoom⟩ := mem_forwardEdges.mp edge
    obtain ⟨own, inContext⟩ := mem_keys.mp known
    obtain rfl := Option.some.inj (found.symm.trans (context.subset _ own inContext))
    have between := context.closed event (get_mem inContext) _ cites inRoom
    obtain ⟨first, path⟩ := ih between
    exact ⟨first, path.tail (mem_forwardEdges.mpr ⟨event, inContext, cites, between⟩)⟩

theorem AuthClosedIn.keys (context : AuthClosedIn room eventContext) {id : Id}
    (known : id ∈ eventContext.keys) : id ∈ room.keys := by
  obtain ⟨event, found⟩ := mem_keys.mp known
  exact mem_keys.mpr ⟨event, context.subset id event found⟩

theorem mem_conflictedSubgraphIdsWithIndex (order : Order) (conflictedSet : List Id) (id : Id) :
    id ∈ conflictedSubgraphIdsWithIndex eventContext (.build order room) conflictedSet none ↔
      Worklist.Reached (chainEdges eventContext.get) conflictedSet id ∧
        Worklist.Reached (forwardEdges room) (conflictedSet.filter (· ∈ room.keys)) id := by
  unfold conflictedSubgraphIdsWithIndex
  split
  · rename_i none
    simp only [none, not_mem_nil, false_iff, not_and]
    rintro ⟨x, mem, _⟩
    simp at mem
  · rw [mem_filterReachable_ids, mem_insertionSort, mem_collectBackwardsReachable]

theorem AuthClosedIn.subgraphIds (context : AuthClosedIn room eventContext) (order orderIndex : Order)
    {conflictedIds : List Id} (known : ∀ id ∈ conflictedIds, id ∈ eventContext.keys) (id : Id) :
    id ∈ subgraphIds order eventContext (some (.build orderIndex room)) conflictedIds ↔
      id ∈ subgraphIds order eventContext none conflictedIds := by
  unfold Resolve.subgraphIds
  rw [mem_conflictedSubgraphIdsWithIndex, mem_computeV21ConflictedSubgraph]
  constructor
  · rintro ⟨backwards, forwards⟩
    have agrees : eventContext.get id = room.get id := by
      refine backwards.subset_of_closed (fun id => eventContext.get id = room.get id) (fun x mem => ?_)
        fun x y agrees edge => ?_
      · obtain ⟨event, found⟩ := mem_keys.mp (known x mem)
        exact context.agrees found
      · unfold chainEdges at edge
        cases found : eventContext.get x with
        | none => simp [found] at edge
        | some event => exact context.agreeOn.closed x event agrees found y (by simpa [found] using edge)
    have here : id ∈ eventContext.keys := by
      have inRoom := mem_keys.mp (forwardReached_known forwards)
      rw [← agrees] at inRoom
      exact mem_keys.mpr inRoom
    obtain ⟨seed, mem, path⟩ := forwards
    obtain ⟨first, path⟩ := context.forward here path
    refine ⟨here, backwards, seed, mem_filter.mpr ⟨?_, decide_eq_true first⟩, path⟩
    exact mem_of_mem_filter mem
  · rintro ⟨_, backwards, seed, mem, path⟩
    obtain ⟨mem, first⟩ := mem_filter.mp mem
    refine ⟨backwards, seed, mem_filter.mpr ⟨mem, decide_eq_true (context.keys ?_)⟩, ?_⟩
    · exact of_decide_eq_true first
    · refine Relation.ReflTransGen.mono (fun x y edge => ?_) seed id path
      obtain ⟨event, found, cites, known⟩ := mem_forwardEdges.mp edge
      exact mem_forwardEdges.mpr ⟨event, context.subset _ _ found, cites, context.keys known⟩

variable {room eventContext : EventMap Id C} {stateMaps : List (SharedState Id)} {version : StateResVersion}
  {genuine conflicted : EventMap Id C}

theorem AuthClosedIn.prepared (context : AuthClosedIn room eventContext)
    (known : ∀ id ∈ (partitionStateMaps order stateMaps stateMaps.length).conflictedIds, id ∈ eventContext.keys)
    (prepared : Prepared order stateMaps eventContext version (some (.build orderIndex room)) genuine
      conflicted) : Prepared order stateMaps eventContext version none genuine conflicted where
  genuine := prepared.genuine
  conflicted id event := by
    rw [prepared.conflicted]
    unfold FullConflicted
    rw [context.subgraphIds order orderIndex known]

theorem Prepared.inRoom (prepared : Prepared order stateMaps eventContext version reachability genuine conflicted)
    (context : AuthClosedIn room eventContext) (emptyKey : String) :
    (iterativeInputsOf order stateMaps eventContext version emptyKey conflicted).InRoom room where
  context := context
  conflicted _ member := get_mem ((prepared.conflicted _ _).mp (EventMap.get_of_mem member)).1

structure ForkResolveCaches.Faithful (room : EventMap Id C) (version : StateResVersion)
    (caches : ForkResolveCaches Id C) : Prop where
  localAuth : LocalAuthCache.Faithful room version caches.authCache
  mainline : caches.mainlineCache.Valid (nearestPowerLevels room.get room.keys version)

theorem ForkResolveCaches.faithful_new (room : EventMap Id C) (version : StateResVersion) :
    (ForkResolveCaches.new version).Faithful room version :=
  ⟨Resolve.faithful_new room version version, fun _ _ found => by cases found⟩

theorem selectLocalAuthCache_faithful (faithful : ∀ given ∈ cache, LocalAuthCache.Faithful room version given) :
    LocalAuthCache.Faithful room version (selectLocalAuthCache cache version) := by
  unfold selectLocalAuthCache
  split
  · split
    · exact faithful_new room version version
    · exact faithful _ rfl
  · exact faithful_new room version version

variable [EventContent C]

def ChecksIn (order : Order) (stateMaps : List (SharedState Id)) (eventContext : EventMap Id C)
    (version : StateResVersion) (event : LeanEvent Id C) : Prop :=
  ∃ genuine conflicted, Prepared order stateMaps eventContext version none genuine conflicted ∧
    (iterativeInputsOf order stateMaps eventContext version "" conflicted).Checks event

/-- A call on an auth-closed part of a room that the room's caches can serve. In V1 a context without the agreed power
    levels event would cache a lack of mainlines. -/
structure Servable (room : EventMap Id C) (order : Order) (stateMaps : List (SharedState Id))
    (eventContext : EventMap Id C) (version : StateResVersion) : Prop where
  context : AuthClosedIn room eventContext
  tieFree : ∀ event, ChecksIn order stateMaps eventContext version event → TieFreeReads room version event
  agreedLevels : version = .v1 → ∀ id, (∀ map ∈ stateMaps, map[((⟨mRoomPowerLevels⟩, "") : Key)]? = some id) →
    id ∈ room.keys → id ∈ eventContext.keys

theorem Servable.serves (servable : Servable room order stateMaps eventContext version) (nonempty : stateMaps ≠ [])
    (covers : Covers eventContext version (partitionStateMaps order stateMaps stateMaps.length))
    (prepared : Prepared order stateMaps eventContext version none genuine conflicted) :
    (iterativeInputsOf order stateMaps eventContext version "" conflicted).Serves room where
  inRoom := prepared.inRoom servable.context ""
  tieFree event checks := servable.tieFree event ⟨genuine, conflicted, prepared, checks⟩
  agreedLevels id agreed := by
    have agreed : (partitionStateMaps order stateMaps stateMaps.length).unconflictedState[
        ((⟨mRoomPowerLevels⟩, "") : Key)]? = some id := agreed
    show eventContext.get id = room.get id
    by_cases inRoom : id ∈ room.keys
    · have known : id ∈ eventContext.keys := by
        by_cases first : version = .v1
        · exact servable.agreedLevels first id ((partition_unconflicted order nonempty _ id).mp agreed) inRoom
        · exact covers.closure first id (.seed (mem_stateValues agreed))
      obtain ⟨event, found⟩ := mem_keys.mp known
      exact servable.context.agrees found
    · rw [get_eq_none.mpr inRoom, get_eq_none.mpr fun known => inRoom (servable.context.keys known)]

variable [ToString Id]

theorem resolveStateMaps_covers (nonempty : stateMaps ≠ [])
    (differ : ¬∀ left ∈ stateMaps, ∀ right ∈ stateMaps, left = right)
    (returned : resolveStateMaps otherOrder stateMaps eventContext version = .ok state) :
    version ≠ .v3 ∧ Covers eventContext version (partitionStateMaps order stateMaps stateMaps.length) := by
  have sameOrder : resolveStateMaps order stateMaps eventContext version = .ok state :=
    resolveStateMaps_transfer order (fun _ => Iff.rfl) returned
  unfold Resolve.resolveStateMaps resolveWith at sameOrder
  cases run : resolveStateMapsGeneric order stateMaps eventContext version "" none none with
  | error reason => rw [run] at sameOrder; cases sameOrder
  | ok resolution => exact resolveStateMapsGeneric_covers nonempty differ run

theorem Servable.resolveStateMapsCached (servable : Servable room order stateMaps eventContext version)
    (orderIndex otherOrder : Order) (faithful : caches.Faithful room version) :
    ((resolveStateMapsCached order stateMaps eventContext version (.build orderIndex room) caches).map
        Prod.fst).toOption = (resolveStateMaps otherOrder stateMaps eventContext version).toOption ∧
      ∀ state after, resolveStateMapsCached order stateMaps eventContext version (.build orderIndex room)
        caches = .ok (state, after) → after.Faithful room version := by
  by_cases nonempty : stateMaps = []
  · subst nonempty
    exact ⟨rfl, fun state after returned => (by cases returned)⟩
  by_cases equal : ∀ left ∈ stateMaps, ∀ right ∈ stateMaps, left = right
  · obtain ⟨first, mem⟩ := exists_mem_of_ne_nil _ nonempty
    have all : ∀ map ∈ stateMaps, map = first := fun map inMaps => equal map inMaps first mem
    unfold Resolve.resolveStateMapsCached resolveWith
    rw [resolveStateMapsGeneric_equal order eventContext version "" _ _ nonempty all,
      resolveStateMaps_equal otherOrder eventContext version nonempty all]
    refine ⟨rfl, fun state after returned => ?_⟩
    rw [← (Prod.mk.inj (Except.ok.inj returned)).2]
    exact faithful
  by_cases served : version ≠ .v3 ∧ Covers eventContext version (partitionStateMaps order stateMaps stateMaps.length)
  · obtain ⟨legacy, covers⟩ := served
    have subgraph : addsSubgraph version = true → ∀ id ∈ subgraphIds order eventContext
        (some (.build orderIndex room)) (partitionStateMaps order stateMaps stateMaps.length).conflictedIds,
        id ∈ eventContext.keys := fun _ id mem =>
      subgraphIds_known _ id ((servable.context.subgraphIds order orderIndex covers.conflicted id).mp mem)
    obtain ⟨genuine, conflicted, prepared, run⟩ := resolveStateMapsGeneric_returns "" (some caches) nonempty
      equal legacy covers subgraph
    obtain ⟨genuineCold, conflictedCold, preparedCold, runCold⟩ := resolveStateMapsGeneric_returns "" none
      nonempty equal legacy covers fun _ => subgraphIds_known _
    have prepared := servable.context.prepared covers.conflicted prepared
    have warm : (resolveCachesOf (some caches) genuine "").Faithful room
        (iterativeInputsOf order stateMaps eventContext version "" conflicted) :=
      ⟨selectLocalAuthCache_faithful fun given found => Option.some.inj found ▸ faithful.localAuth, faithful.mainline⟩
    have fresh : (resolveCachesOf none genuine "").Faithful room
        (iterativeInputsOf order stateMaps eventContext version "" conflicted) :=
      ⟨selectLocalAuthCache_faithful fun given found => (by cases found), fun _ _ found => (by cases found)⟩
    obtain ⟨same, localAuth, mainline⟩ :=
      (servable.serves nonempty covers prepared).resolveScreened warm fresh rfl order
    have runOrder : resolveStateMaps order stateMaps eventContext version = .ok (preparedResolution order
        stateMaps eventContext version "" genuineCold conflictedCold none).state := by
      unfold Resolve.resolveStateMaps resolveWith
      rw [runCold]
      rfl
    have cold := resolveStateMaps_transfer otherOrder (fun _ => Iff.rfl) runOrder
    unfold Resolve.resolveStateMapsCached resolveWith
    rw [run, cold, ← prepared.resolution_state (fun _ => Iff.rfl) nonempty preparedCold ""]
    refine ⟨congrArg some same, fun state after returned => ?_⟩
    rw [← (Prod.mk.inj (Except.ok.inj returned)).2]
    exact ⟨localAuth, mainline⟩
  · have cold : ∀ state, resolveStateMaps otherOrder stateMaps eventContext version ≠ .ok state :=
      fun state returned => served (resolveStateMaps_covers nonempty equal returned)
    have warm : ∀ resolution, resolveStateMapsGeneric order stateMaps eventContext version ""
        (some (.build orderIndex room)) (some caches) ≠ .ok resolution :=
      fun resolution returned => served (resolveStateMapsGeneric_covers nonempty equal returned)
    unfold Resolve.resolveStateMapsCached resolveWith
    cases coldRun : resolveStateMaps otherOrder stateMaps eventContext version with
    | ok state => exact absurd coldRun (cold state)
    | error coldReason =>
      cases warmRun : resolveStateMapsGeneric order stateMaps eventContext version ""
          (some (.build orderIndex room)) (some caches) with
      | ok resolution => exact absurd warmRun (warm resolution)
      | error warmReason => exact ⟨rfl, fun state after returned => (by cases returned)⟩

end

section

variable [EventContent C] [ToString Id]

structure CachedCall (Id C : Type) where
  order : Order
  stateMaps : List (SharedState Id)
  eventContext : EventMap Id C

def runCached (version : StateResVersion) (reachability : RangePrefilterReachability Id) :
    ForkResolveCaches Id C → List (CachedCall Id C) → List (Except (Panic Id) (SharedState Id))
  | _, [] => []
  | caches, call :: calls =>
    match resolveStateMapsCached call.order call.stateMaps call.eventContext version reachability caches with
    | .ok (state, after) => .ok state :: runCached version reachability after calls
    | .error panic => .error panic :: runCached version reachability caches calls

def CachedCall.Servable (room : EventMap Id C) (version : StateResVersion) (call : CachedCall Id C) : Prop :=
  Resolve.Servable room call.order call.stateMaps call.eventContext version

variable (room : EventMap Id C) (version : StateResVersion) (orderIndex otherOrder : Order)
  (calls : List (CachedCall Id C)) (servable : ∀ call ∈ calls, call.Servable room version)
include servable

theorem runCached_faithful (faithful : caches.Faithful room version) :
    (runCached version (.build orderIndex room) caches calls).map Except.toOption = calls.map fun call =>
      (resolveStateMaps otherOrder call.stateMaps call.eventContext version).toOption := by
  induction calls generalizing caches with
  | nil => rfl
  | cons call calls ih =>
    obtain ⟨same, after⟩ := (servable call mem_cons_self).resolveStateMapsCached orderIndex otherOrder faithful
    have rest : ∀ call ∈ calls, call.Servable room version :=
      fun other mem => servable other (mem_cons_of_mem _ mem)
    rw [map_cons, ← same]
    unfold runCached
    cases run : resolveStateMapsCached call.order call.stateMaps call.eventContext version
        (.build orderIndex room) caches with
    | error panic =>
      rw [map_cons, ih rest faithful]
      rfl
    | ok returned =>
      rw [map_cons, ih rest (after returned.1 returned.2 run)]
      rfl

/-- Calls that the room's caches can serve answer as they do without caches, whatever came before. -/
theorem runCached_unchanged :
    (runCached version (.build orderIndex room) (.new version) calls).map Except.toOption =
      calls.map fun call =>
        (resolveStateMaps otherOrder call.stateMaps call.eventContext version).toOption :=
  runCached_faithful room version orderIndex otherOrder calls servable
    (ForkResolveCaches.faithful_new room version)

end

section

theorem tieFreeAt_of_sole {room : EventMap Id C} (start : List Id)
    (sole : ∀ event ∈ room.values, ∀ other ∈ room.values, event.key? = some key → other.key? = some key →
      event.eventId = other.eventId) : TieFreeAt room.get start key := by
  rintro event other hops ⟨aid, -, found, keyed⟩ ⟨otherAid, -, otherFound, otherKeyed⟩ -
  have same := sole event (get_mem found) other (get_mem otherFound) keyed otherKeyed
  rw [← get_id found] at found
  rw [← get_id otherFound, ← same, found] at otherFound
  exact Option.some.inj otherFound

variable [EventContent C]

abbrev SoleReads (room : EventMap Id C) : Prop :=
  ∀ event ∈ room.values, ∀ query ∈ authReads event, ∀ left ∈ room.values, ∀ right ∈ room.values,
    left.key? = some (⟨query.1⟩, query.2) → right.key? = some (⟨query.1⟩, query.2) → left.eventId = right.eventId

theorem servable_of_sole {room : EventMap Id C} (sole : SoleReads room) (order : Order)
    (stateMaps : List (SharedState Id)) : Servable room order stateMaps room version where
  context := refl room
  tieFree := by
    rintro event ⟨genuine, conflicted, prepared, checked⟩ - query read
    have known := (prepared.inRoom (refl room) "").checked checked
    exact tieFreeAt_of_sole _ (sole event known query read)
  agreedLevels _ _ _ inRoom := inRoom

end

namespace Sample

open Basespec.Sample

def agreed : List (LeanEvent Nat Content) := [create "12.1", joinA [1], openLevels]

def topicRoom : EventMap Nat Content :=
  ⟨agreed ++ [topic 4 "@a:x" [1, 2, 3], topic 5 "@a:x" [1, 2, 3]], by decide⟩

def topicCall : CachedCall Nat Content where
  order := .asListed
  stateMaps := [stateOf (agreed ++ [topic 4 "@a:x" []]), stateOf (agreed ++ [topic 5 "@a:x" []])]
  eventContext := topicRoom

def bobAway (eventId : Nat) : LeanEvent Nat Content :=
  stateEvent eventId "m.room.avatar" "" "@a:x" {} [1, 2, 3, 6] eventId

/-- A room in which B joined and left again: the name cites that B is in, the avatars that B is out, and
    the topic of B cites the name before an avatar. -/
def comeAndGone : EventMap Nat Content :=
  ⟨agreed ++ [stateEvent 4 mRoomJoinRules "" "@a:x" { joinRule := some rulePublic } [1, 2, 3] 4,
    memberEvent 5 "@b:x" "@b:x" memJoin [1, 3, 4] 5, memberEvent 6 "@b:x" "@b:x" memLeave [1, 3, 5] 6,
    stateEvent 7 "m.room.name" "" "@a:x" {} [1, 2, 3, 5] 7, bobAway 8, bobAway 9,
    topic 10 "@b:x" [1, 3, 7, 8]], by decide⟩

def comeAndGoneCall (first second : List Nat) : CachedCall Nat Content where
  order := .asListed
  stateMaps := [first, second].map fun ids => stateOf (ids.filterMap comeAndGone.get)
  eventContext := comeAndGone

end Sample

open Sample

theorem runCached_unchanged_topics :
    (runCached .v2_1_1 (.build .asListed topicRoom) (.new .v2_1_1) [topicCall, topicCall]).map
        Except.toOption =
      [topicCall, topicCall].map fun call =>
        (resolveStateMaps .asListed call.stateMaps call.eventContext .v2_1_1).toOption := by
  have sole : ∀ event ∈ topicRoom.values, ∀ query ∈ authReads event, ∀ left ∈ topicRoom.values,
      ∀ right ∈ topicRoom.values, left.key? = some (⟨query.1⟩, query.2) →
      right.key? = some (⟨query.1⟩, query.2) → left.eventId = right.eventId := by decide
  refine runCached_unchanged topicRoom .v2_1_1 .asListed .asListed [topicCall, topicCall] fun call member => ?_
  obtain rfl : call = topicCall := by simpa using member
  exact servable_of_sole sole _ _

/-- The first call caches the avatar, and the second then finds B gone before it finds B come. -/
theorem cached_local_auth_breaks_tie :
    ∃ calls : List (CachedCall Nat Content), (∀ call ∈ calls, AuthClosedIn comeAndGone call.eventContext) ∧
      (runCached .v2_1_1 (.build .asListed comeAndGone) (.new .v2_1_1) calls).map Except.toOption ≠
        calls.map fun call =>
          (resolveStateMaps .asListed call.stateMaps call.eventContext .v2_1_1).toOption := by
  refine ⟨[comeAndGoneCall [1, 2, 3, 4, 7, 8] [1, 2, 3, 4, 7, 9],
    comeAndGoneCall [1, 2, 3, 4, 7, 8] [1, 2, 3, 4, 7, 8, 10]], ?_, ?_⟩
  · intro call member
    have context : call.eventContext = comeAndGone := by
      rcases mem_pair.mp member with rfl | rfl <;> rfl
    rw [context]
    exact AuthClosedIn.refl comeAndGone
  · decide +kernel

end Rezzy.Resolve
