import Rezzy.Resolve.IterativeOrder
import Rezzy.Resolve.MultiSpec

namespace Rezzy.Resolve

open Basespec Auth State Permuted
open EventMap (containsKey eventAuth get_id get_insert)
open EventMap (empty mem_keys)

variable {Id C : Type}

section

variable [LinearOrder Id]

theorem get_supplementEvent (eventContext events : EventMap Id C) (id other : Id) :
    (supplementEvent eventContext events id).get other =
      (events.get other).or (if other = id then eventContext.get other else none) := by
  unfold supplementEvent
  by_cases same : other = id
  · subst same
    cases own : events.get other with
    | some event => simp [containsKey, own]
    | none =>
      cases found : eventContext.get other with
      | none => simp [containsKey, own]
      | some ev => simp [containsKey, own, get_insert, get_id found]
  · rw [if_neg same, Option.or_none]
    split
    · rfl
    · cases found : eventContext.get id with
      | none => rfl
      | some ev =>
        rw [get_insert, get_id found, if_neg (Ne.symm same)]

theorem get_supplementEvents (eventContext : EventMap Id C) (ids : List Id) (events : EventMap Id C)
    (id : Id) : (ids.foldl (supplementEvent eventContext) events).get id =
      (events.get id).or (if id ∈ ids then eventContext.get id else none) := by
  induction ids generalizing events with
  | nil => simp
  | cons first ids ih =>
    rw [List.foldl_cons, ih, get_supplementEvent, Option.or_assoc]
    by_cases same : id = first
    · by_cases mem : id ∈ ids <;> cases eventContext.get id <;> simp [same]
    · simp [same]

theorem supplementSubgraphEvents {eventContext events : EventMap Id C} {ids : List Id}
    (known : ∀ id ∈ ids, id ∈ eventContext.keys ∨ id ∈ events.keys) :
    ids.foldlM (supplementSubgraphEvent eventContext) events =
      .ok (ids.foldl (supplementEvent eventContext) events) := by
  induction ids generalizing events with
  | nil => rfl
  | cons id ids ih =>
    have step : supplementSubgraphEvent eventContext events id = .ok (supplementEvent eventContext events id) := by
      unfold supplementSubgraphEvent supplementEvent
      by_cases held : events.containsKey id = true
      · rw [if_pos held, if_pos held]
      · rw [if_neg held, if_neg held]
        have absent : id ∉ events.keys := fun mem => held (containsKey_iff.mpr mem)
        obtain ⟨ev, found⟩ := mem_keys.mp ((known id (.head _)).resolve_right absent)
        rw [found]
    rw [List.foldlM_cons, step]
    apply ih
    intro x mem
    refine (known x (List.mem_cons_of_mem _ mem)).imp_right fun held => ?_
    obtain ⟨ev, found⟩ := mem_keys.mp held
    exact mem_keys.mpr ⟨ev, by rw [get_supplementEvent, found, Option.some_or]⟩

theorem fetchConflicted_known {ids : List Id} (known : ∀ id ∈ ids, id ∈ eventContext.keys) (events : EventMap Id C) :
    ∃ fetched, ids.foldlM (fetchConflicted eventContext) events = .ok fetched ∧
      ∀ id, fetched.get id = if id ∈ ids then eventContext.get id else events.get id := by
  induction ids generalizing events with
  | nil => exact ⟨events, rfl, by simp⟩
  | cons first ids ih =>
    obtain ⟨ev, found⟩ := mem_keys.mp (known first (by simp))
    obtain ⟨fetched, run, got⟩ := ih (fun x mem => known x (List.mem_cons_of_mem _ mem)) (events.insert ev)
    refine ⟨fetched, ?_, fun id => ?_⟩
    · rw [List.foldlM_cons, fetchConflicted, found]
      exact run
    · rw [got id, get_insert, get_id found]
      by_cases same : id = first
      · simp [same, found]
      · simp [same, Ne.symm same]

theorem fetchConflicted_ok {ids : List Id} (ok : ids.foldlM (fetchConflicted eventContext) events = .ok fetched) :
    ∀ id ∈ ids, id ∈ eventContext.keys := by
  induction ids generalizing events with
  | nil => simp
  | cons first ids ih =>
    rw [List.foldlM_cons, fetchConflicted] at ok
    cases found : eventContext.get first with
    | none =>
      rw [found] at ok
      cases ok
    | some ev =>
      rw [found] at ok
      intro id mem
      rcases List.mem_cons.mp mem with rfl | mem
      · exact mem_keys.mpr ⟨ev, found⟩
      · exact ih ok id mem

end

variable [LinearOrder Id]

/-- The context holds what a call looks up: the conflicted events, and for the auth difference the auth
    closure of the unconflicted state. -/
structure Covers (eventContext : EventMap Id C) (version : StateResVersion) (partition : Partition Id) :
    Prop where
  conflicted : ∀ id ∈ partition.conflictedIds, id ∈ eventContext.keys
  closure : version ≠ .v1 → ∀ id, Worklist.Reached (chainEdges eventContext.get)
    (stateValues partition.unconflictedState) id → id ∈ eventContext.keys

def InAuthDifference (eventContext : EventMap Id C) (stateMaps : List (SharedState Id))
    (partition : Partition Id) (id : Id) : Prop :=
  ∃ visited, unconflictedClosure (eventAuth eventContext) partition.unconflictedState = .ok visited ∧
    (∃ state ∈ stateMaps,
      id ∈ conflictedChain (eventAuth eventContext) visited partition.conflictedIds state) ∧
    ∃ state ∈ stateMaps,
      id ∉ conflictedChain (eventAuth eventContext) visited partition.conflictedIds state

def FullConflicted (eventContext : EventMap Id C) (stateMaps : List (SharedState Id))
    (version : StateResVersion) (partition : Partition Id) (subgraph : List Id) (id : Id) : Prop :=
  id ∈ partition.conflictedIds ∨ addsSubgraph version = true ∧ id ∈ subgraph ∨
    version ≠ .v1 ∧ InAuthDifference eventContext stateMaps partition id

theorem addSubgraph_ok (known : addsSubgraph version = true →
      ∀ id ∈ subgraphIds order eventContext reachability conflictedIds, id ∈ eventContext.keys)
    (events : EventMap Id C) :
    ∃ supplemented, addSubgraph order eventContext version reachability conflictedIds events = .ok supplemented ∧
      ∀ id, supplemented.get id = (events.get id).or (if addsSubgraph version = true ∧
        id ∈ subgraphIds order eventContext reachability conflictedIds then eventContext.get id else none) := by
  unfold addSubgraph
  by_cases adds : addsSubgraph version = true
  · rw [if_pos adds, supplementSubgraphEvents fun id mem =>
      .inl (known adds id ((order.perm _ _).mem_iff.mp mem))]
    refine ⟨_, rfl, fun id => ?_⟩
    rw [get_supplementEvents]
    simp only [adds, true_and, (order.perm _ _).mem_iff]
  · rw [if_neg adds]
    exact ⟨events, rfl, fun id => by simp [adds]⟩

theorem addAuthDifference_ok (order : Order) (covers : Covers eventContext version partition) (events : EventMap Id C) :
    ∃ supplemented, addAuthDifference order eventContext version stateMaps partition events = .ok supplemented ∧
      ∀ id event, supplemented.get id = some event ↔ events.get id = some event ∨
        events.get id = none ∧ version ≠ .v1 ∧ InAuthDifference eventContext stateMaps partition id ∧
          eventContext.get id = some event := by
  unfold addAuthDifference
  by_cases first : version = .v1
  · rw [if_pos first]
    exact ⟨events, rfl, fun id event => by simp [first]⟩
  · rw [if_neg first]
    obtain ⟨visited, closure, _⟩ := (unconflictedClosure_spec eventContext
      partition.unconflictedState).1 (covers.closure first)
    cases diff : authDifference order partition.unconflictedState stateMaps partition.conflictedIds
        (eventAuth eventContext) with
    | error id =>
      unfold authDifference at diff
      rw [closure] at diff
      cases diff
    | ok authDiff =>
      have members := mem_authDifference closure diff
      refine ⟨_, rfl, fun id event => ?_⟩
      have inDiff : InAuthDifference eventContext stateMaps partition id ↔ id ∈ authDiff := by
        rw [members]
        constructor
        · rintro ⟨other, same, mem⟩
          obtain rfl := Except.ok.inj (closure.symm.trans same)
          exact mem
        · exact fun mem => ⟨visited, closure, mem⟩
      rw [get_supplementEvents, inDiff, Option.or_eq_some_iff]
      by_cases mem : id ∈ authDiff <;> simp [mem, first]

structure Prepared (order : Order) (stateMaps : List (SharedState Id)) (eventContext : EventMap Id C)
    (version : StateResVersion) (reachability : Option (RangePrefilterReachability Id))
    (genuine conflicted : EventMap Id C) : Prop where
  genuine : ∀ id event, genuine.get id = some event ↔ eventContext.get id = some event ∧
    id ∈ (partitionStateMaps order stateMaps stateMaps.length).conflictedIds
  conflicted : ∀ id event, conflicted.get id = some event ↔ eventContext.get id = some event ∧
    FullConflicted eventContext stateMaps version (partitionStateMaps order stateMaps stateMaps.length)
      (subgraphIds order eventContext reachability
        (partitionStateMaps order stateMaps stateMaps.length).conflictedIds) id

def iterativeInputsOf (order : Order) (stateMaps : List (SharedState Id)) (eventContext : EventMap Id C)
    (version : StateResVersion) (emptyKey : String) (conflicted : EventMap Id C) : IterativeInputs Id C :=
  ⟨(partitionStateMaps order stateMaps stateMaps.length).unconflictedState, conflicted, eventContext, version,
    emptyKey⟩

def resolveCachesOf (caches : Option (ForkResolveCaches Id C)) (genuine : EventMap Id C)
    (emptyKey : String) : ResolveCaches Id C :=
  ⟨caches.map ForkResolveCaches.authCache, (caches.map ForkResolveCaches.mainlineCache).getD [],
    deriveAllConflictedKeys genuine emptyKey⟩

variable {order : Order} {stateMaps : List (SharedState Id)} {eventContext : EventMap Id C}
  {version : StateResVersion} {emptyKey : String} {caches : Option (ForkResolveCaches Id C)}

theorem prepared_exists (covers : Covers eventContext version (partitionStateMaps order stateMaps stateMaps.length))
    (known : addsSubgraph version = true → ∀ id ∈ subgraphIds order eventContext reachability
      (partitionStateMaps order stateMaps stateMaps.length).conflictedIds, id ∈ eventContext.keys) :
    ∃ genuine withSubgraph conflicted : EventMap Id C,
      (partitionStateMaps order stateMaps stateMaps.length).conflictedIds.foldlM
          (fetchConflicted eventContext) .empty = .ok genuine ∧
        addSubgraph order eventContext version reachability
          (partitionStateMaps order stateMaps stateMaps.length).conflictedIds genuine = .ok withSubgraph ∧
        addAuthDifference order eventContext version stateMaps
          (partitionStateMaps order stateMaps stateMaps.length) withSubgraph = .ok conflicted ∧
        Prepared order stateMaps eventContext version reachability genuine conflicted := by
  obtain ⟨genuine, fetched, own⟩ := fetchConflicted_known covers.conflicted .empty
  obtain ⟨withSubgraph, added, between⟩ := addSubgraph_ok known genuine
  obtain ⟨conflicted, supplemented, full⟩ := addAuthDifference_ok order covers withSubgraph
  refine ⟨genuine, withSubgraph, conflicted, fetched, added, supplemented, ?_, ?_⟩
  · intro id event
    rw [own id]
    by_cases mem : id ∈ (partitionStateMaps order stateMaps stateMaps.length).conflictedIds
    · simp [mem]
    · simp [mem, empty, EventMap.get]
  · intro id event
    have absent : (empty : EventMap Id C).get id = none := rfl
    rw [full id event, between id, own id, absent, FullConflicted]
    by_cases genuine : id ∈ (partitionStateMaps order stateMaps stateMaps.length).conflictedIds
    · obtain ⟨found, known⟩ := mem_keys.mp (covers.conflicted id genuine)
      simp [genuine, known]
    · by_cases subgraph : addsSubgraph version = true ∧ id ∈ subgraphIds order eventContext reachability
        (partitionStateMaps order stateMaps stateMaps.length).conflictedIds
      · obtain ⟨found, known⟩ := mem_keys.mp (known subgraph.1 id subgraph.2)
        simp [genuine, subgraph, known]
      · simp only [genuine, if_false, subgraph, Option.or_none, reduceCtorEq, true_and, false_or]
        tauto

variable [ToString Id] [EventContent C]

def preparedResolution (order : Order) (stateMaps : List (SharedState Id)) (eventContext : EventMap Id C)
    (version : StateResVersion) (emptyKey : String) (genuine conflicted : EventMap Id C)
    (caches : Option (ForkResolveCaches Id C)) : Resolution Id C :=
  let inputs := iterativeInputsOf order stateMaps eventContext version emptyKey conflicted
  resolveScreened (screenBannedSenders inputs) order inputs (resolveCachesOf caches genuine emptyKey)

omit [LinearOrder Id] [ToString Id] [EventContent C] in
theorem mixed_of_differ [DecidableEq Id] {first : SharedState Id}
    (differ : ¬∀ left ∈ first :: rest, ∀ right ∈ first :: rest, left = right) : rest.all (· = first) = false := by
  rw [Bool.eq_false_iff]
  intro all
  apply differ
  have equal : ∀ map ∈ first :: rest, map = first := by
    intro map mem
    rcases List.mem_cons.mp mem with rfl | mem
    · rfl
    · exact of_decide_eq_true (List.all_eq_true.mp all map mem)
  intro left inLeft right inRight
  rw [equal left inLeft, equal right inRight]

theorem resolveStateMapsGeneric_differ (nonempty : stateMaps ≠ [])
    (differ : ¬∀ left ∈ stateMaps, ∀ right ∈ stateMaps, left = right) :
    resolveStateMapsGeneric order stateMaps eventContext version emptyKey reachability caches = (do
      let partition := partitionStateMaps order stateMaps stateMaps.length
      let genuine ← partition.conflictedIds.foldlM (fetchConflicted eventContext) .empty
      let withSubgraph ← addSubgraph order eventContext version reachability partition.conflictedIds genuine
      let conflicted ← addAuthDifference order eventContext version stateMaps partition withSubgraph
      let resolution ← resolveIterativeSortWithAllCaches order
        (iterativeInputsOf order stateMaps eventContext version emptyKey conflicted)
        (resolveCachesOf caches genuine emptyKey)
      return ⟨resolution.state, deriveAllConflictedKeys conflicted emptyKey,
        caches.map fun _ => ⟨resolution.localAuthCache, resolution.mainlineCache⟩⟩) := by
  cases stateMaps with
  | nil => exact absurd rfl nonempty
  | cons first rest =>
    unfold resolveStateMapsGeneric
    dsimp only
    rw [mixed_of_differ differ]
    rfl

theorem resolveStateMapsGeneric_returns (emptyKey : String) (caches : Option (ForkResolveCaches Id C))
    (nonempty : stateMaps ≠ [])
    (differ : ¬∀ left ∈ stateMaps, ∀ right ∈ stateMaps, left = right) (legacy : version ≠ .v3)
    (covers : Covers eventContext version (partitionStateMaps order stateMaps stateMaps.length))
    (known : addsSubgraph version = true → ∀ id ∈ subgraphIds order eventContext reachability
      (partitionStateMaps order stateMaps stateMaps.length).conflictedIds, id ∈ eventContext.keys) :
    ∃ genuine conflicted, Prepared order stateMaps eventContext version reachability genuine conflicted ∧
      resolveStateMapsGeneric order stateMaps eventContext version emptyKey reachability caches =
        .ok (let resolution :=
            preparedResolution order stateMaps eventContext version emptyKey genuine conflicted caches
          ⟨resolution.state, deriveAllConflictedKeys conflicted emptyKey,
            caches.map fun _ => ⟨resolution.localAuthCache, resolution.mainlineCache⟩⟩) := by
  obtain ⟨genuine, withSubgraph, conflicted, fetched, added, supplemented, prepared⟩ := prepared_exists covers known
  refine ⟨genuine, conflicted, prepared, ?_⟩
  rw [resolveStateMapsGeneric_differ nonempty differ]
  dsimp only
  rw [fetched]
  dsimp only [bind, Except.bind]
  rw [added]
  dsimp only
  rw [supplemented]
  dsimp only
  have served : (iterativeInputsOf order stateMaps eventContext version emptyKey conflicted).version ≠ .v3 := legacy
  rw [resolveIterativeSortWithAllCaches_eq, if_neg served]
  rfl

theorem resolveStateMapsGeneric_covers (nonempty : stateMaps ≠ [])
    (differ : ¬∀ left ∈ stateMaps, ∀ right ∈ stateMaps, left = right)
    (ok : resolveStateMapsGeneric order stateMaps eventContext version emptyKey reachability caches = .ok resolution) :
    version ≠ .v3 ∧ Covers eventContext version (partitionStateMaps order stateMaps stateMaps.length) := by
  rw [resolveStateMapsGeneric_differ nonempty differ] at ok
  dsimp only [bind, Except.bind] at ok
  split at ok
  · cases ok
  · rename_i genuine fetched
    split at ok
    · cases ok
    · split at ok
      · cases ok
      · rename_i conflicted supplemented
        split at ok
        · cases ok
        · rename_i final ran
          rw [resolveIterativeSortWithAllCaches_eq] at ran
          refine ⟨fun third => ?_, fetchConflicted_ok fetched, fun later id reached => ?_⟩
          · have served : (iterativeInputsOf order stateMaps eventContext version emptyKey
              conflicted).version = .v3 := third
            rw [if_pos served] at ran
            cases ran
          · unfold addAuthDifference authDifference at supplemented
            rw [if_neg later] at supplemented
            cases closure : unconflictedClosure (eventAuth eventContext)
                (partitionStateMaps order stateMaps stateMaps.length).unconflictedState with
            | error missing =>
              rw [closure] at supplemented
              cases supplemented
            | ok visited => exact (unconflictedClosure_spec eventContext _).2 visited closure id reached

end Rezzy.Resolve
