import Rezzy.Lib.Pursuit
import Rezzy.Resolve.Multi
import Rezzy.State.MergeBase

namespace Rezzy.State

section

open Basespec Resolve

variable {Id C : Type} [LinearOrder Id]

def authWalks (eventsMap : EventMap Id C) : Pursuit.Ground Id where
  keep := eventsMap.containsKey
  next := chainEdges eventsMap.get
  level := depthOf eventsMap
  first := heapBefore eventsMap
  nodes := eventsMap.keys

/-- The walk from the unconflicted state catches up to the depth of a conflicted event before that event is taken;
    what it has visited is pruned. -/
def computeAuthChainDiff (unconflictedState : SharedState Id) (conflictedStateSet : List Id)
    (eventsMap : EventMap Id C) : List Id :=
  ((authWalks eventsMap).run (stateValues unconflictedState) conflictedStateSet).found

end

open Basespec Resolve

variable {Id C : Type} [LinearOrder Id]

section

def InAuthChain (eventsMap : EventMap Id C) (ids : List Id) : Id → Prop :=
  Worklist.Reached (chainEdges eventsMap.get) ids

def CitesFrom (eventsMap : EventMap Id C) (depth : Nat) (citing cited : Id) : Prop :=
  depth ≤ depthOf eventsMap citing ∧ cited ∈ chainEdges eventsMap.get citing

def InDeepChain (eventsMap : EventMap Id C) (ids : List Id) (depth : Nat) (id : Id) : Prop :=
  ∃ root ∈ ids, Relation.ReflTransGen (CitesFrom eventsMap depth) root id

def InPrunedChain (eventsMap : EventMap Id C) (unconflictedIds ids : List Id) (depth : Nat) (id : Id) : Prop :=
  ∃ root ∈ ids, Relation.ReflTransGen
    (fun citing cited => ¬InAuthChain eventsMap unconflictedIds citing ∧ CitesFrom eventsMap depth citing cited) root id

/-- An event of the unconflicted chain that the conflicted walk can meet above some depth is reached from the
    unconflicted state above it, too. -/
def UnconflictedAhead (eventsMap : EventMap Id C) (unconflictedIds conflictedIds : List Id) : Prop :=
  ∀ depth, ∀ id ∈ eventsMap.keys, depth ≤ depthOf eventsMap id → InAuthChain eventsMap unconflictedIds id →
    InPrunedChain eventsMap unconflictedIds conflictedIds depth id → InDeepChain eventsMap unconflictedIds depth id

variable {eventsMap : EventMap Id C} {ids : List Id}

theorem authWalks_sound (eventsMap : EventMap Id C) : (authWalks eventsMap).Sound where
  decides l := heapBefore_decides eventsMap l
  highest _ _ less := heapBefore_iff.mpr (.inl less)
  listed _ known := containsKey_eq_true.mp known

theorem keptNext_chainEdges (eventsMap : EventMap Id C) :
    Worklist.keptNext eventsMap.containsKey (chainEdges eventsMap.get) = chainEdges eventsMap.get := by
  funext id
  unfold Worklist.keptNext EventMap.containsKey chainEdges
  cases eventsMap.get id with
  | none => rfl
  | some event => rfl

theorem led_iff {id : Id} : (authWalks eventsMap).Led ids id ↔ InAuthChain eventsMap ids id := by
  unfold Pursuit.Ground.Led InAuthChain
  rw [← keptNext_chainEdges eventsMap]
  rfl

theorem known_of_cites (cites : cited ∈ chainEdges eventsMap.get citing) : eventsMap.containsKey citing = true := by
  unfold EventMap.containsKey
  unfold chainEdges at cites
  cases found : eventsMap.get citing with
  | none =>
    rw [found] at cites
    cases cites
  | some event => rfl

theorem leads_iff {id : Id} : (authWalks eventsMap).Leads ids depth id ↔ InDeepChain eventsMap ids depth id := by
  have same : Worklist.Edge ((authWalks eventsMap).nextFrom depth) = CitesFrom eventsMap depth := by
    funext citing cited
    unfold Worklist.Edge Pursuit.Ground.nextFrom CitesFrom authWalks
    apply propext
    constructor
    · intro edge
      split at edge
      · rename_i deep
        exact ⟨deep.2, edge⟩
      · cases edge
    · rintro ⟨deep, cites⟩
      rwa [if_pos ⟨known_of_cites cites, deep⟩]
  unfold Pursuit.Ground.Leads Worklist.Reached InDeepChain
  rw [same]

theorem trails_iff {id : Id} : (authWalks eventsMap).Trails unconflictedIds ids depth id ↔
      InPrunedChain eventsMap unconflictedIds ids depth id := by
  have same : (authWalks eventsMap).Passes unconflictedIds depth = fun citing cited =>
      ¬InAuthChain eventsMap unconflictedIds citing ∧ CitesFrom eventsMap depth citing cited := by
    funext citing cited
    unfold Pursuit.Ground.Passes CitesFrom
    rw [led_iff]
    apply propext
    constructor
    · intro passes
      exact passes.2
    · intro passes
      exact ⟨known_of_cites passes.2.2, passes⟩
  unfold Pursuit.Ground.Trails InPrunedChain
  rw [same]

theorem ahead_iff :
    (authWalks eventsMap).Ahead unconflictedIds ids ↔ UnconflictedAhead eventsMap unconflictedIds ids := by
  unfold Pursuit.Ground.Ahead UnconflictedAhead
  simp only [led_iff, leads_iff, trails_iff]
  refine forall_congr' fun depth => forall_congr' fun id => ?_
  rw [← containsKey_eq_true]
  rfl

end

/-- The walks end by themselves. What they return is the difference of the two auth chains just when the unconflicted
    walk is ahead of the conflicted one. -/
theorem computeAuthChainDiff_exact_iff (unconflictedState : SharedState Id) (conflictedStateSet : List Id)
    (eventsMap : EventMap Id C) :
    (authWalks eventsMap).turn ((authWalks eventsMap).run (stateValues unconflictedState) conflictedStateSet) = none ∧
    ((∀ id, id ∈ computeAuthChainDiff unconflictedState conflictedStateSet eventsMap ↔
        id ∈ eventsMap.keys ∧ InAuthChain eventsMap conflictedStateSet id ∧
          ¬InAuthChain eventsMap (stateValues unconflictedState) id) ↔
      UnconflictedAhead eventsMap (stateValues unconflictedState) conflictedStateSet) := by
  have sound := authWalks_sound eventsMap
  refine ⟨Pursuit.Ground.run_ends sound _ _, ?_⟩
  rw [← ahead_iff, ← Pursuit.Ground.run_exact_iff sound]
  refine forall_congr' fun id => ?_
  rw [led_iff, led_iff, ← containsKey_eq_true]
  rfl

namespace Sample

open Basespec.Sample

def shallowTopic : EventMap Nat Content :=
  ⟨[{ topic 1 "@a:x" [] with depth := 5 }, { topic 2 "@a:x" [1] with depth := 1 }], by decide⟩

end Sample

open Sample

/-- The agreed topic cites the conflicted event, and yet the event is in the difference. -/
theorem shallow_topic_left_behind :
    ¬∀ id, id ∈ computeAuthChainDiff (.ofList [((⟨"m.room.topic"⟩, ""), 2)] keyCmp) [1] shallowTopic ↔
      id ∈ shallowTopic.keys ∧ InAuthChain shallowTopic [1] id ∧
        ¬InAuthChain shallowTopic (stateValues (.ofList [((⟨"m.room.topic"⟩, ""), 2)] keyCmp)) id := by
  intro exactly
  have found : 1 ∈ computeAuthChainDiff (.ofList [((⟨"m.room.topic"⟩, ""), 2)] keyCmp) [1] shallowTopic := by
    decide
  apply ((exactly 1).mp found).2.2
  refine ⟨2, by decide, .single ?_⟩
  unfold Worklist.Edge
  decide

end Rezzy.State
