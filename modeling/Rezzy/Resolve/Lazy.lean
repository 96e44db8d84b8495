import Rezzy.Resolve.MultiDiff
import Rezzy.Resolve.RoaringDifference

namespace Rezzy.Resolve

open List EventMap Ancestry Worklist.Reached Except

section

open Basespec Auth State Permuted

variable {Id C : Type} [LinearOrder Id]

def chainEvents (first second : EventMap Id C) : EventMap Id C := first.keys.foldl (supplementEvent first) second

/-- The candidate ids besides the conflicted ones. `V1` has none, and a supplied difference is taken as it is. -/
def lazyAuthDiff (order : Order) (stateMaps : List (SharedState Id)) (provider : EventMap Id C)
    (precomputedAuthDiff : Option (List Id)) (version : StateResVersion) (partition : Partition Id) :
    Except (Panic Id) (List Id) :=
  if version = .v1 then .ok []
  else
    match precomputedAuthDiff with
    | some authDiff => .ok authDiff
    | none =>
      match authDifference order partition.unconflictedState stateMaps partition.conflictedIds
          (EventMap.eventAuth provider) with
      | .ok authDiff => .ok authDiff
      | .error id => .error (.missingUnconflictedOrAuthEvent id)

def lazyAuthEdges (provider conflictedEvents : EventMap Id C) (aid : Id) : List Id :=
  (chainEdges provider.get aid).filter (!conflictedEvents.containsKey ·)

def lazyAuthSeeds (order : Order) (conflictedEvents : EventMap Id C) : List Id :=
  (order.iter .lazyQueue conflictedEvents.values).flatMap fun ev =>
    ev.authEvents.filter (!conflictedEvents.containsKey ·)

def lazyAuthContext (order : Order) (provider conflictedEvents : EventMap Id C) : EventMap Id C :=
  (Worklist.close (lazyAuthEdges provider conflictedEvents) provider.keys
    (lazyAuthSeeds order conflictedEvents)).foldl (supplementEvent provider) .empty

def insertSubgraphEvents (order : Order) (authContext : EventMap Id C) (version : StateResVersion)
    (conflictedIds : List Id) (conflictedEvents : EventMap Id C) : Except (Panic Id) (EventMap Id C) :=
  if addsSubgraph version then
    (order.iter .subgraph (computeV21ConflictedSubgraph order (chainEvents authContext conflictedEvents)
      conflictedIds)).foldlM (supplementSubgraphEvent authContext) conflictedEvents
  else .ok conflictedEvents

variable [ToString Id] [EventContent C]

def resolveCandidates (order : Order) (provider : EventMap Id C) (version : StateResVersion)
    (partition : Partition Id) (conflictedKeys : KeySet) (candidates : EventMap Id C) :
    Except (Panic Id) (SharedState Id) := do
  let authContext := lazyAuthContext order provider candidates
  let conflictedEvents ← insertSubgraphEvents order authContext version partition.conflictedIds candidates
  let resolution ← resolveIterativeSortWithAllCaches order
    ⟨partition.unconflictedState, conflictedEvents, chainEvents conflictedEvents authContext, version, ""⟩
    ⟨none, [], conflictedKeys⟩
  return resolution.state

/-- The resolution over a provider of events. What was read from it is read again from a cache, which answers
    as the provider does. -/
def resolveStateMapsLazyWithDiff (order : Order) (stateMaps : List (SharedState Id)) (provider : EventMap Id C)
    (precomputedAuthDiff : Option (List Id)) (version : StateResVersion) :
    Except (Panic Id) (SharedState Id) :=
  match stateMaps with
  | [] => .error .noStateMaps
  | first :: rest =>
    if rest.all (· = first) then .ok first
    else do
      let partition := partitionStateMaps order stateMaps stateMaps.length
      let genuine ← partition.conflictedIds.foldlM (fetchConflicted provider) .empty
      let conflictedKeys := deriveAllConflictedKeys genuine ""
      let authDiff ← lazyAuthDiff order stateMaps provider precomputedAuthDiff version partition
      resolveCandidates order provider version partition conflictedKeys
        (authDiff.foldl (supplementEvent provider) genuine)

end

open Basespec Auth State Permuted
open Auth.AuthGraph (AuthClosed FullChain InStateDifference)
open Peel (Cites)

variable {Id C : Type} [LinearOrder Id]

section

variable {order : Order} {stateMaps : List (SharedState Id)} {events : EventMap Id C}

omit [LinearOrder Id] in
theorem mem_stateValues_iff {state : SharedState Id} {id : Id} :
    id ∈ stateValues state ↔ ∃ key : Key, state[key]? = some id := by
  constructor
  · intro member
    obtain ⟨⟨key, value⟩, listed, rfl⟩ := mem_map.mp member
    exact ⟨key, Std.ExtTreeMap.mem_toList_iff_getElem?_eq_some.mp listed⟩
  · rintro ⟨key, found⟩
    exact mem_stateValues found

def StatesOver (events : EventMap Id C) (stateMaps : List (SharedState Id)) : Prop :=
  ∀ state ∈ stateMaps, ∀ id ∈ stateValues state, id ∈ events.keys

theorem StatesOver.conflicted (within : StatesOver events stateMaps) {id : Id}
    (member : id ∈ (partitionStateMaps order stateMaps stateMaps.length).conflictedIds) : id ∈ events.keys := by
  obtain ⟨key, ⟨state, inMaps, found⟩, _⟩ := (mem_conflictedIds order id).mp member
  exact within state inMaps id (mem_stateValues found)

theorem mem_unconflictedValues {state : SharedState Id} (inMaps : state ∈ stateMaps) {id : Id}
    (member : id ∈ stateValues (partitionStateMaps order stateMaps stateMaps.length).unconflictedState) :
    id ∈ stateValues state := by
  obtain ⟨key, found⟩ := mem_stateValues_iff.mp member
  have all := (partition_unconflicted order (ne_nil_of_mem inMaps) key id).mp found
  exact mem_stateValues (all state inMaps)

theorem unconflicted_or_conflicted {state : SharedState Id} (inMaps : state ∈ stateMaps) {id : Id}
    (member : id ∈ stateValues state) :
    id ∈ stateValues (partitionStateMaps order stateMaps stateMaps.length).unconflictedState ∨
      id ∈ (partitionStateMaps order stateMaps stateMaps.length).conflictedIds := by
  obtain ⟨key, found⟩ := mem_stateValues_iff.mp member
  by_cases all : ∀ other ∈ stateMaps, other[key]? = some id
  · exact .inl (mem_stateValues ((partition_unconflicted order (ne_nil_of_mem inMaps) key id).mpr all))
  · push Not at all
    exact .inr ((mem_conflictedIds order id).mpr ⟨key, ⟨state, inMaps, found⟩, all⟩)

theorem partition_of_nil (order : Order) : partitionStateMaps order ([] : List (SharedState Id)) 0 = ⟨∅, []⟩ := by
  have none : (order.iter .occurrences (scanStateMaps ([] : List (SharedState Id))).toList) = [] :=
    List.Perm.eq_nil (order.perm _ _)
  unfold partitionStateMaps
  rw [none]
  rfl

theorem StatesOver.unconflicted (within : StatesOver events stateMaps) {id : Id}
    (member : id ∈ stateValues (partitionStateMaps order stateMaps stateMaps.length).unconflictedState) :
    id ∈ events.keys := by
  cases stateMaps with
  | nil =>
    rw [length_nil, partition_of_nil] at member
    simp [stateValues] at member
  | cons state stateMaps => exact within state (.head _) id (mem_unconflictedValues (.head _) member)

theorem reached_known (closed : AuthClosed events) (known : ∀ id ∈ start, id ∈ events.keys) {id : Id}
    (reached : Worklist.Reached (chainEdges events.get) start id) : id ∈ events.keys :=
  reached.subset_of_closed (· ∈ events.keys) known fun x y member => closed x member y

theorem StatesOver.covers (within : StatesOver events stateMaps) (closed : AuthClosed events)
    (version : StateResVersion) :
    Covers events version (partitionStateMaps order stateMaps stateMaps.length) where
  conflicted _ := within.conflicted
  closure _ _ := reached_known closed fun _ => within.unconflicted

theorem mem_conflictedChain_iff (closed : AuthClosed events)
    (upward : ∀ x ∈ visited, ∀ y ∈ chainEdges events.get x, y ∈ visited)
    (known : ∀ id ∈ stateValues state, id ∈ events.keys) (id : Id) :
    id ∈ conflictedChain (eventAuth events) visited conflictedIds state ↔
      id ∉ visited ∧ ∃ c ∈ stateValues state, c ∈ conflictedIds ∧
        Relation.TransGen (Cites (chainEdges events.get)) id c := by
  rw [mem_conflictedChain]
  constructor
  · rintro ⟨_, reached⟩
    apply reached.subset_of_closed fun id => id ∉ visited ∧ ∃ c ∈ stateValues state, c ∈ conflictedIds ∧
      Relation.TransGen (Cites (chainEdges events.get)) id c
    · intro x member
      obtain ⟨c, listed, cites⟩ := mem_flatMap.mp member
      obtain ⟨value, conflicted⟩ := mem_filter.mp listed
      obtain ⟨cites, outside⟩ := mem_filter.mp cites
      exact ⟨of_decide_eq_true outside, c, value, of_decide_eq_true conflicted, .single cites⟩
    · rintro x y ⟨_, c, value, conflicted, path⟩ cites
      obtain ⟨cites, outside⟩ := mem_filter.mp cites
      exact ⟨of_decide_eq_true outside, c, value, conflicted, .head cites path⟩
  · rintro ⟨outside, c, value, conflicted, path⟩
    refine ⟨ancestor_mem closed (known c value) path, ?_⟩
    induction path using Relation.TransGen.head_induction_on with
    | single cites =>
      apply seed
      rw [mem_flatMap]
      exact ⟨c, by simp [value, conflicted], by simp [outside, show _ ∈ chainEdges events.get c from cites]⟩
    | head cites _ ih =>
      have below := fun inside => outside (upward _ inside _ cites)
      exact (ih below).step (by simp [outside, show _ ∈ chainEdges events.get _ from cites])

section

variable (closed : AuthClosed events) (within : StatesOver events stateMaps) {visited : List Id}
  (closure : ∀ id, id ∈ visited ↔ Worklist.Reached (chainEdges events.get)
    (stateValues (partitionStateMaps order stateMaps stateMaps.length).unconflictedState) id)
include closed within closure

theorem fullChain_iff (inMaps : state ∈ stateMaps) {id : Id}
    (agreed : id ∉ (partitionStateMaps order stateMaps stateMaps.length).conflictedIds) :
    FullChain events state id ↔ id ∈ visited ∨ id ∈ conflictedChain (eventAuth events) visited
      (partitionStateMaps order stateMaps stateMaps.length).conflictedIds state := by
  have upward : ∀ x ∈ visited, ∀ y ∈ chainEdges events.get x, y ∈ visited := fun x member y edge =>
    (closure y).mpr (((closure x).mp member).step edge)
  rw [mem_conflictedChain_iff closed upward (within state inMaps)]
  constructor
  · intro chained
    obtain ⟨x, member, above⟩ := reached_iff_ancestor.mp chained
    by_cases inside : id ∈ visited
    · exact .inl inside
    · refine .inr ⟨inside, x, member, ?_⟩
      rcases unconflicted_or_conflicted inMaps member with unconflicted | conflicted
      · exact absurd ((closure id).mpr (reached_iff_ancestor.mpr ⟨x, unconflicted, above⟩)) inside
      · rcases above with rfl | path
        · exact absurd conflicted agreed
        · exact ⟨conflicted, path⟩
  · rintro (inside | ⟨_, c, value, _, path⟩)
    · obtain ⟨x, member, above⟩ := reached_iff_ancestor.mp ((closure id).mp inside)
      exact reached_iff_ancestor.mpr ⟨x, mem_unconflictedValues inMaps member, above⟩
    · exact reached_iff_ancestor.mpr ⟨c, value, .inr path⟩

theorem inStateDifference_iff {id : Id}
    (agreed : id ∉ (partitionStateMaps order stateMaps stateMaps.length).conflictedIds) :
    InStateDifference events stateMaps id ↔ (∃ state ∈ stateMaps, id ∈ conflictedChain (eventAuth events) visited
        (partitionStateMaps order stateMaps stateMaps.length).conflictedIds state) ∧
      ∃ state ∈ stateMaps, id ∉ conflictedChain (eventAuth events) visited
        (partitionStateMaps order stateMaps stateMaps.length).conflictedIds state := by
  have split := fun state (inMaps : state ∈ stateMaps) => fullChain_iff closed within closure inMaps agreed
  have upward : ∀ x ∈ visited, ∀ y ∈ chainEdges events.get x, y ∈ visited := fun x member y edge =>
    (closure y).mpr (((closure x).mp member).step edge)
  constructor
  · rintro ⟨⟨state, inMaps, chained⟩, other, inOthers, absent⟩
    rw [split other inOthers, not_or] at absent
    exact ⟨⟨state, inMaps, ((split state inMaps).mp chained).resolve_left absent.1⟩, other, inOthers, absent.2⟩
  · rintro ⟨⟨state, inMaps, walked⟩, other, inOthers, absent⟩
    have outside := ((mem_conflictedChain_iff closed upward (within state inMaps) id).mp walked).1
    refine ⟨⟨state, inMaps, (split state inMaps).mpr (.inr walked)⟩, other, inOthers, ?_⟩
    rw [split other inOthers, not_or]
    exact ⟨outside, absent⟩

end

theorem authDifference_agrees (order : Order) (closed : AuthClosed events) (within : StatesOver events stateMaps) :
    ∃ diff, authDifference order (partitionStateMaps order stateMaps stateMaps.length).unconflictedState stateMaps
        (partitionStateMaps order stateMaps stateMaps.length).conflictedIds (eventAuth events) = .ok diff ∧
      ∀ id, id ∈ diff ∨ id ∈ (partitionStateMaps order stateMaps stateMaps.length).conflictedIds ↔
        InStateDifference events stateMaps id ∨
          id ∈ (partitionStateMaps order stateMaps stateMaps.length).conflictedIds := by
  obtain ⟨visited, ok, closure⟩ := (unconflictedClosure_spec events
    (partitionStateMaps order stateMaps stateMaps.length).unconflictedState).1
      fun id reached => reached_known closed (fun _ => within.unconflicted) reached
  cases diff : authDifference order (partitionStateMaps order stateMaps stateMaps.length).unconflictedState stateMaps
      (partitionStateMaps order stateMaps stateMaps.length).conflictedIds (eventAuth events) with
  | error id =>
    unfold authDifference at diff
    rw [ok] at diff
    cases diff
  | ok diff' =>
    refine ⟨diff', rfl, fun id => or_congr_left' fun agreed => ?_⟩
    rw [mem_authDifference ok diff, inStateDifference_iff closed within closure agreed]

end

section

variable {provider : EventMap Id C}

theorem get_chainEvents (first second : EventMap Id C) (id : Id) :
    (chainEvents first second).get id = (second.get id).or (first.get id) := by
  rw [chainEvents, get_supplementEvents]
  by_cases member : id ∈ first.keys
  · rw [if_pos member]
  · rw [if_neg member, EventMap.get_eq_none.mpr member]

theorem get_lazyAuthContext (order : Order) (candidates : EventMap Id C) (id : Id) (event : LeanEvent Id C) :
    (lazyAuthContext order provider candidates).get id = some event ↔
      Worklist.Reached (lazyAuthEdges provider candidates) (lazyAuthSeeds order candidates) id ∧
        provider.get id = some event := by
  have support : ∀ aid, lazyAuthEdges provider candidates aid ≠ [] → aid ∈ provider.keys := by
    intro aid edges
    apply chainEdges_support
    intro none
    rw [lazyAuthEdges, none] at edges
    exact edges rfl
  have absent : (EventMap.empty : EventMap Id C).get id = none := rfl
  rw [lazyAuthContext, get_supplementEvents, absent, Option.none_or, ← Worklist.mem_close support]
  split
  · rename_i member
    exact (and_iff_right member).symm
  · rename_i outside
    simp [outside]

variable {left right : EventMap Id C}

theorem containsKey_perm (same : left.values.Perm right.values) (id : Id) :
    left.containsKey id = right.containsKey id := by
  rw [EventMap.containsKey, EventMap.get_of_perm same, EventMap.containsKey]

theorem lazyAuthContext_perm (orderLeft orderRight : Order) (same : left.values.Perm right.values) :
    (lazyAuthContext orderLeft provider left).values.Perm (lazyAuthContext orderRight provider right).values := by
  apply EventMap.perm_of_get
  intro id
  apply Option.ext
  intro _
  rw [get_lazyAuthContext, get_lazyAuthContext]
  refine and_congr_left fun _ => Worklist.Reached.congr (fun x _ => ?_) (fun x => ?_) id
  · simp only [lazyAuthEdges, containsKey_perm same]
  · simp only [lazyAuthSeeds, containsKey_perm same, mem_flatMap, (orderLeft.perm _ _).mem_iff,
      (orderRight.perm _ _).mem_iff, same.mem_iff]

theorem chainEvents_perm (first : firstLeft.values.Perm firstRight.values) (second : left.values.Perm right.values) :
    (chainEvents firstLeft left).values.Perm (chainEvents firstRight right).values := by
  apply EventMap.perm_of_get
  intro _
  rw [get_chainEvents, get_chainEvents, EventMap.get_of_perm first, EventMap.get_of_perm second]

theorem subgraph_perm (orderLeft orderRight : Order) (same : left.values.Perm right.values)
    (ids : ∀ id, id ∈ conflictedLeft ↔ id ∈ conflictedRight) (id : Id) :
    id ∈ computeV21ConflictedSubgraph orderLeft left conflictedLeft ↔
      id ∈ computeV21ConflictedSubgraph orderRight right conflictedRight := by
  have keys : ∀ id, id ∈ left.keys ↔ id ∈ right.keys := fun id => (same.map _).mem_iff
  have lookup : left.get = right.get := funext (EventMap.get_of_perm same)
  have forward : ∀ x y, y ∈ forwardEdges left x ↔ y ∈ forwardEdges right x := by
    intro x y
    rw [mem_forwardEdges, mem_forwardEdges, lookup, keys]
  rw [mem_computeV21ConflictedSubgraph, mem_computeV21ConflictedSubgraph, keys, lookup]
  refine and_congr_right fun _ => and_congr (Worklist.Reached.congr (fun _ _ => rfl) ids id) ⟨?_, ?_⟩
  · apply mono
    · exact fun x y => (forward x y).mp
    · simp only [mem_filter, ids, keys]
      exact fun _ member => member
  · apply mono
    · exact fun x y => (forward x y).mpr
    · simp only [mem_filter, ids, keys]
      exact fun _ member => member

theorem insertSubgraphEvents_ok (order : Order) (authContext : EventMap Id C) (version : StateResVersion)
    (conflictedIds : List Id) (candidates : EventMap Id C) :
    ∃ conflicted, insertSubgraphEvents order authContext version conflictedIds candidates = .ok conflicted ∧
      ∀ id, conflicted.get id = (candidates.get id).or (if addsSubgraph version = true ∧
        id ∈ computeV21ConflictedSubgraph order (chainEvents authContext candidates) conflictedIds then
          authContext.get id else none) := by
  unfold insertSubgraphEvents
  by_cases adds : addsSubgraph version = true
  · have known : ∀ id ∈ order.iter .subgraph (computeV21ConflictedSubgraph order
        (chainEvents authContext candidates) conflictedIds), id ∈ authContext.keys ∨ id ∈ candidates.keys := by
      intro id member
      rw [(order.perm _ _).mem_iff, mem_computeV21ConflictedSubgraph] at member
      obtain ⟨event, found⟩ := EventMap.mem_keys.mp member.1
      rw [get_chainEvents] at found
      rcases Option.or_eq_some_iff.mp found with own | ⟨_, context⟩
      · exact .inr (EventMap.mem_keys.mpr ⟨event, own⟩)
      · exact .inl (EventMap.mem_keys.mpr ⟨event, context⟩)
    rw [if_pos adds, supplementSubgraphEvents known]
    refine ⟨_, rfl, fun id => ?_⟩
    rw [get_supplementEvents]
    simp only [(order.perm _ _).mem_iff, adds, true_and]
  · rw [if_neg adds]
    exact ⟨candidates, rfl, fun id => by simp [adds]⟩

variable [ToString Id] [EventContent C]

theorem resolveCandidates_perm (orderLeft orderRight : Order) (version : StateResVersion)
    (partitions : SamePartition partitionLeft partitionRight) (conflictedKeys : KeySet)
    (same : left.values.Perm right.values) :
    resolveCandidates orderLeft provider version partitionLeft conflictedKeys left =
      resolveCandidates orderRight provider version partitionRight conflictedKeys right := by
  have contexts : (lazyAuthContext orderLeft provider left).values.Perm
      (lazyAuthContext orderRight provider right).values := lazyAuthContext_perm orderLeft orderRight same
  obtain ⟨conflictedLeft, okLeft, getLeft⟩ := insertSubgraphEvents_ok orderLeft
    (lazyAuthContext orderLeft provider left) version partitionLeft.conflictedIds left
  obtain ⟨conflictedRight, okRight, getRight⟩ := insertSubgraphEvents_ok orderRight
    (lazyAuthContext orderRight provider right) version partitionRight.conflictedIds right
  have conflicted : conflictedLeft.values.Perm conflictedRight.values := by
    apply EventMap.perm_of_get
    intro _
    rw [getLeft, getRight, EventMap.get_of_perm same, EventMap.get_of_perm contexts]
    simp only [subgraph_perm orderLeft orderRight (chainEvents_perm contexts same) partitions.conflicted]
  have shuffled : IterativeInputs.Shuffled ⟨partitionLeft.unconflictedState, conflictedLeft,
        chainEvents conflictedLeft (lazyAuthContext orderLeft provider left), version, ""⟩
      ⟨partitionRight.unconflictedState, conflictedRight,
        chainEvents conflictedRight (lazyAuthContext orderRight provider right), version, ""⟩ :=
    ⟨partitions.unconflicted, conflicted, chainEvents_perm conflicted contexts, rfl, rfl⟩
  unfold resolveCandidates
  dsimp only
  rw [okLeft, okRight]
  dsimp only [bind, Except.bind]
  rw [resolveIterativeSortWithAllCaches_eq, resolveIterativeSortWithAllCaches_eq]
  by_cases third : version = .v3
  · rw [if_pos third, if_pos third]
  · rw [if_neg third, if_neg third]
    exact congrArg ok (shuffled.sameInputs.resolveScreened (.fresh _ _ _ _) orderLeft orderRight)

variable {stateMaps : List (SharedState Id)} {events : EventMap Id C}

theorem resolveStateMapsLazyWithDiff_differ (order : Order) (closed : AuthClosed events)
    (within : StatesOver events stateMaps) (nonempty : stateMaps ≠ [])
    (differ : ¬∀ left ∈ stateMaps, ∀ right ∈ stateMaps, left = right) (precomputedAuthDiff : Option (List Id))
    (version : StateResVersion) :
    ∃ genuine authDiff, (∀ id, genuine.get id =
        if id ∈ (partitionStateMaps order stateMaps stateMaps.length).conflictedIds then events.get id else none) ∧
      lazyAuthDiff order stateMaps events precomputedAuthDiff version
        (partitionStateMaps order stateMaps stateMaps.length) = .ok authDiff ∧
      resolveStateMapsLazyWithDiff order stateMaps events precomputedAuthDiff version =
        resolveCandidates order events version (partitionStateMaps order stateMaps stateMaps.length)
          (deriveAllConflictedKeys genuine "") (authDiff.foldl (supplementEvent events) genuine) := by
  have known : ∀ id ∈ (partitionStateMaps order stateMaps stateMaps.length).conflictedIds, id ∈ events.keys :=
    fun _ => within.conflicted
  obtain ⟨genuine, fetched, own⟩ := fetchConflicted_known known .empty
  obtain ⟨diff, ok, _⟩ := authDifference_agrees order closed within
  have found : ∃ authDiff, lazyAuthDiff order stateMaps events precomputedAuthDiff version
      (partitionStateMaps order stateMaps stateMaps.length) = .ok authDiff := by
    unfold lazyAuthDiff
    rw [ok]
    split
    · exact ⟨_, rfl⟩
    · split <;> exact ⟨_, rfl⟩
  obtain ⟨authDiff, supplied⟩ := found
  refine ⟨genuine, authDiff, own, supplied, ?_⟩
  cases stateMaps with
  | nil => exact absurd rfl nonempty
  | cons first rest =>
    unfold resolveStateMapsLazyWithDiff
    dsimp only
    rw [mixed_of_differ differ, fetched]
    rw [supplied]
    rfl

theorem resolveStateMapsLazyWithDiff_equal (order : Order) (provider : EventMap Id C) (nonempty : stateMaps ≠ [])
    (equal : ∀ left ∈ stateMaps, ∀ right ∈ stateMaps, left = right) (precomputedAuthDiff : Option (List Id))
    (version : StateResVersion) (member : state ∈ stateMaps) :
    resolveStateMapsLazyWithDiff order stateMaps provider precomputedAuthDiff version = .ok state := by
  cases stateMaps with
  | nil => exact absurd rfl nonempty
  | cons first rest =>
    have all : rest.all (· = first) = true := by
      rw [all_eq_true]
      exact fun map inRest => decide_eq_true (equal map (.tail _ inRest) first (.head _))
    unfold resolveStateMapsLazyWithDiff
    dsimp only
    rw [if_pos all, equal first (.head _) state member]

theorem resolveStateMapsLazyWithDiff_supplied (orderLeft orderRight : Order) (closed : AuthClosed events)
    (within : StatesOver events stateMaps) (names : ∀ id, id ∈ diff ↔ InStateDifference events stateMaps id)
    (version : StateResVersion) : resolveStateMapsLazyWithDiff orderLeft stateMaps events (some diff) version =
      resolveStateMapsLazyWithDiff orderRight stateMaps events none version := by
  by_cases nonempty : stateMaps = []
  · rw [nonempty]
    rfl
  · by_cases equal : ∀ left ∈ stateMaps, ∀ right ∈ stateMaps, left = right
    · obtain ⟨state, member⟩ := exists_mem_of_ne_nil _ nonempty
      rw [resolveStateMapsLazyWithDiff_equal orderLeft events nonempty equal _ version member,
        resolveStateMapsLazyWithDiff_equal orderRight events nonempty equal _ version member]
    · have partitions := partitionStateMaps_same orderLeft orderRight (fun _ => .rfl) nonempty
      obtain ⟨genuineLeft, diffLeft, getLeft, suppliedLeft, runLeft⟩ :=
        resolveStateMapsLazyWithDiff_differ orderLeft closed within nonempty equal (some diff) version
      obtain ⟨genuineRight, diffRight, getRight, suppliedRight, runRight⟩ :=
        resolveStateMapsLazyWithDiff_differ orderRight closed within nonempty equal none version
      have genuine : genuineLeft.values.Perm genuineRight.values := by
        apply EventMap.perm_of_get
        intro id
        rw [getLeft, getRight]
        simp only [partitions.conflicted]
      rw [runLeft, runRight, deriveAllConflictedKeys_perm genuine]
      apply resolveCandidates_perm orderLeft orderRight version partitions
      apply EventMap.perm_of_get
      intro id
      rw [get_supplementEvents, get_supplementEvents, getLeft, getRight]
      simp only [partitions.conflicted]
      by_cases conflicted : id ∈ (partitionStateMaps orderRight stateMaps stateMaps.length).conflictedIds
      · obtain ⟨event, found⟩ := EventMap.mem_keys.mp (within.conflicted conflicted)
        simp [conflicted, found]
      · have same : id ∈ diffLeft ↔ id ∈ diffRight := by
          obtain ⟨pruned, ok, agrees⟩ := authDifference_agrees orderRight closed within
          have full := agrees id
          simp only [conflicted, or_false] at full
          unfold lazyAuthDiff at suppliedLeft suppliedRight
          rw [ok] at suppliedRight
          by_cases first : version = .v1
          · rw [if_pos first] at suppliedLeft suppliedRight
            rw [← Except.ok.inj suppliedLeft, ← Except.ok.inj suppliedRight]
          · rw [if_neg first] at suppliedLeft suppliedRight
            rw [← Except.ok.inj suppliedLeft, ← Except.ok.inj suppliedRight, names, full]
        simp [conflicted, same]

end

section

open Auth.AuthGraph (Held Call runCalls)

variable [ToString Id] [EventContent C]

/-- Whatever part of the events a graph has taken: the bitmaps and the hybrid walk give the full auth difference, with
    the conflicted ids that of the pruned walks, and resolving with it is resolving without it. -/
theorem authDifferences_agree {events : EventMap Id C} (closed : AuthClosed events)
    {stateMaps : List (SharedState Id)} (within : StatesOver events stateMaps) {calls : List (Call Id C)}
    {held : Held Id C} (ran : runCalls calls = some (some held))
    (part : ∀ id event, held.taken.get id = some event → events.get id = some event) :
    (held.graph.complete = true → (∀ state ∈ stateMaps, ∀ id ∈ stateValues state, id ∈ held.taken.keys) →
      ∃ ids, held.graph.stateAuthDifference stateMaps = some ids ∧
        held.graph.tryStateAuthDifference stateMaps = some (.ok ids) ∧ ids.Nodup ∧
        ∀ id, id ∈ ids ↔ InStateDifference events stateMaps id) ∧
    (∀ order, held.graph.complete = true →
      ∃ ids, held.graph.hybridStateAuthDifference order stateMaps events = some (.ok ids) ∧
        ids.Pairwise (· < ·) ∧ ∀ id, id ∈ ids ↔ InStateDifference events stateMaps id) ∧
    (∀ order, held.graph.complete = false →
      held.graph.hybridStateAuthDifference order stateMaps events = some (.error .incompleteGraph)) ∧
    (∀ order, let partition := partitionStateMaps order stateMaps stateMaps.length
      ∃ diff, authDifference order partition.unconflictedState stateMaps partition.conflictedIds
          (EventMap.eventAuth events) = .ok diff ∧
        ∀ id, id ∈ diff ∨ id ∈ partition.conflictedIds ↔
          InStateDifference events stateMaps id ∨ id ∈ partition.conflictedIds) ∧
    ∀ (orderLeft orderRight : Order) (diff : List Id),
      (∀ id, id ∈ diff ↔ InStateDifference events stateMaps id) → ∀ version,
        resolveStateMapsLazyWithDiff orderLeft stateMaps events (some diff) version =
          resolveStateMapsLazyWithDiff orderRight stateMaps events none version := by
  have parents : ∀ id ∈ held.taken.keys, contextAuth held.taken id = contextAuth events id := by
    intro id member
    obtain ⟨event, found⟩ := EventMap.mem_keys.mp member
    rw [contextAuth, found, contextAuth, part id event found]
  have exactly : held.graph.complete = true →
      Ancestry.Exact (contextAuth events) held.graph.index.items held.graph.authBitmaps := by
    intro complete
    obtain ⟨perm, rows⟩ := AuthGraph.runCalls_sound ran complete
    exact rows.congr fun id member => parents id (perm.mem_iff.mp member)
  refine ⟨?_, ?_, ?_, fun order => authDifference_agrees order closed within, ?_⟩
  · intro complete indexed
    obtain ⟨perm, _⟩ := AuthGraph.runCalls_sound ran complete
    have items : ∀ state ∈ stateMaps, ∀ id ∈ stateValues state, id ∈ held.graph.index.items :=
      fun state inMaps id member => perm.mem_iff.mpr (indexed state inMaps id member)
    obtain ⟨ids, found, nodup, members⟩ := AuthGraph.stateAuthDifference_spec (exactly complete) items
    exact ⟨ids, found, AuthGraph.tryStateAuthDifference_indexed items found, nodup, members⟩
  · intro order complete
    apply AuthGraph.hybridStateAuthDifference_spec order complete (exactly complete)
    intro state inMaps id chained
    exact reached_known closed (within state inMaps) chained
  · intro order incomplete
    unfold AuthGraph.hybridStateAuthDifference
    rw [incomplete]
    rfl
  · intro orderLeft orderRight diff names version
    exact resolveStateMapsLazyWithDiff_supplied orderLeft orderRight closed within names version

end

namespace Sample

open Basespec.Sample

def citingEvents : EventMap Nat Content := ⟨[create "12", joinA [1]], by decide⟩

def citingMaps : List (SharedState Nat) := [stateOf [create "12"], stateOf [create "12", joinA [1]]]

theorem citingEvents_closed : AuthClosed citingEvents ∧ AuthGraph.Acyclic citingEvents := by
  constructor
  · unfold AuthClosed
    decide
  · have below : ∀ x y, Cites (contextAuth citingEvents) x y → x < y := by
      intro x y cites
      by_cases member : y ∈ citingEvents.keys
      · have all : ∀ y ∈ citingEvents.keys, ∀ x ∈ contextAuth citingEvents y, x < y := by decide
        exact all y member x cites
      · rw [Cites, contextAuth, EventMap.get_eq_none.mpr member] at cites
        cases cites
    intro id _ path
    have descends := Relation.TransGen.mono below id id path
    rw [Relation.transGen_eq_self] at descends
    exact lt_irrefl id descends

theorem citingMaps_over : StatesOver citingEvents citingMaps := by
  unfold StatesOver
  decide

theorem citingMaps_difference : InStateDifference citingEvents citingMaps 2 := by
  refine ⟨⟨_, .tail _ (.head _), .seed (by decide +kernel)⟩, _, .head _, fun reached => ?_⟩
  have only : 2 = 1 := by
    apply reached.subset_of_closed (· = 1)
    · decide +kernel
    · rintro x y rfl edge
      cases edge
  cases only

end Sample

open Sample

theorem authDifferences_agree_citing :
    ∃ held, AuthGraph.runCalls [.build .asListed (⟨[create "12"], by decide⟩ : EventMap Nat Content)] =
        some (some held) ∧
      ∃ ids, held.graph.hybridStateAuthDifference .asListed citingMaps citingEvents = some (.ok ids) ∧
        ids.Pairwise (· < ·) ∧ ∀ id, id ∈ ids ↔ InStateDifference citingEvents citingMaps id := by
  obtain ⟨held, ran, complete, taken⟩ : ∃ held,
      AuthGraph.runCalls [.build .asListed (⟨[create "12"], by decide⟩ : EventMap Nat Content)] =
        some (some held) ∧
      held.graph.complete = true ∧ held.taken = ⟨[create "12"], by decide⟩ := ⟨_, rfl, rfl, rfl⟩
  have part : ∀ id event, held.taken.get id = some event → citingEvents.get id = some event := by
    intro id event found
    rw [taken] at found
    have first := mem_singleton.mp (EventMap.get_mem found)
    rw [← EventMap.get_id found]
    exact EventMap.get_of_mem (first ▸ .head _)
  exact ⟨held, ran, (authDifferences_agree citingEvents_closed.1 citingMaps_over ran part).2.1 .asListed complete⟩

/-- An index without the ancestors of its events is refused, and one without the state events finds nothing. -/
theorem differences_need_coverage :
    AuthClosed citingEvents ∧ AuthGraph.Acyclic citingEvents ∧ StatesOver citingEvents citingMaps ∧
      InStateDifference citingEvents citingMaps 2 ∧
      (∃ graph, AuthGraph.build .asListed (⟨[joinA [1]], by decide⟩ : EventMap Nat Content) = some graph ∧
        graph.hybridStateAuthDifference .asListed citingMaps citingEvents = some (.error .incompleteGraph)) ∧
      ∃ graph, AuthGraph.build .asListed (⟨[create "12"], by decide⟩ : EventMap Nat Content) = some graph ∧
        graph.complete = true ∧ graph.stateAuthDifference citingMaps = some [] := by
  refine ⟨citingEvents_closed.1, citingEvents_closed.2, citingMaps_over, citingMaps_difference, ?_, ?_⟩
  · exact ⟨_, rfl, rfl⟩
  · refine ⟨_, rfl, rfl, ?_⟩
    decide +kernel

end Rezzy.Resolve
