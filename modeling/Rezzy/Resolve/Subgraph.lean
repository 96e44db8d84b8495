import Rezzy.Resolve.ReachabilityForward

namespace Rezzy.Resolve

open Basespec Auth State Permuted List Worklist

variable {Id C : Type}

structure BackwardsSearch (Id : Type) where
  backwards : List Id
  missing : List Id
  visitedDepth : Id → Option Nat
  queue : List (Id × Nat)

section

variable [DecidableEq Id]

def insertOnce (set : List Id) (id : Id) : List Id := if id ∈ set then set else set ++ [id]

def backwardsEdges (events : EventMap Id C) (maxAuthDepth : Option Nat) (node : Id) (depth : Nat) :
    List Id :=
  if maxAuthDepth.any (· ≤ depth) then []
  else ((events.get node).map LeanEvent.authEvents).getD []

def backwardsTurn (events : EventMap Id C) (maxAuthDepth : Option Nat) (s : BackwardsSearch Id) :
    Option (BackwardsSearch Id) :=
  match s.queue with
  | [] => none
  | (node, depth) :: rest =>
    if (s.visitedDepth node).all (depth < ·) then
      let authIds := backwardsEdges events maxAuthDepth node depth
      some
        { backwards := insertOnce s.backwards node
          missing := (authIds.filter fun authId => !events.containsKey authId).foldl insertOnce s.missing
          visitedDepth := fun other => if other = node then some depth else s.visitedDepth other
          queue := rest ++ authIds.map fun authId => (authId, depth + 1) }
    else some { s with queue := rest }

def collectBackwardsReachable (events : EventMap Id C) (conflictedSet : List Id)
    (maxAuthDepth : Option Nat) : List Id × List Id :=
  let final := Loop.run (backwardsTurn events maxAuthDepth)
    (conflictedSet.length + Worklist.edgeCount (chainEdges events.get) events.keys)
    ⟨[], [], fun _ => none, conflictedSet.map fun id => (id, 0)⟩
  (final.backwards, final.missing)

def intersectSets (a b : List Id) : List Id :=
  if a.length ≤ b.length then a.filter (· ∈ b) else b.filter (· ∈ a)

end

section

variable [LinearOrder Id]

def collectForwardsReachable (events : EventMap Id C) (reachability : RangePrefilterReachability Id)
    (conflictedSet : List Id) : List Id :=
  ((reachability.forwardReachableIds conflictedSet).filter events.containsKey).foldl insertOnce []

structure SubgraphResult (Id : Type) where
  subgraph : List Id
  missingAuthEvents : List Id

def computeV21ConflictedSubgraphBounded (order : Order) (authGraph : EventMap Id C)
    (conflictedSet : List Id) (maxAuthDepth : Option Nat) : SubgraphResult Id :=
  if conflictedSet = [] then ⟨[], []⟩
  else
    let collected := collectBackwardsReachable authGraph conflictedSet maxAuthDepth
    let forwardsReachable := collectForwardsReachable authGraph (.build order authGraph) conflictedSet
    ⟨(intersectSets collected.1 forwardsReachable).filter authGraph.containsKey, collected.2⟩

def computeV21ConflictedSubgraph (order : Order) (authGraph : EventMap Id C) (conflictedSet : List Id) :
    List Id :=
  (computeV21ConflictedSubgraphBounded order authGraph conflictedSet none).subgraph

def conflictedSubgraphIdsWithIndex (eventContext : EventMap Id C)
    (reachability : RangePrefilterReachability Id) (conflictedSet : List Id)
    (maxAuthDepth : Option Nat) : List Id :=
  if conflictedSet = [] then []
  else
    let candidates := (collectBackwardsReachable eventContext conflictedSet maxAuthDepth).1.insertionSort
      (· ≤ ·)
    (reachability.filterReachable conflictedSet candidates).filterMap fun position => candidates[position]?

end

section

variable [DecidableEq Id]

structure BackwardsRel (s : BackwardsSearch Id) (t : Worklist.Visit Id) : Prop where
  queue : s.queue.map Prod.fst = t.queue
  backwards : s.backwards = t.visited
  visited : ∀ id, (s.visitedDepth id).isSome ↔ id ∈ t.visited
  sorted : s.queue.Pairwise fun a b => a.2 ≤ b.2
  window : ∀ a ∈ s.queue, ∀ b ∈ s.queue, b.2 ≤ a.2 + 1
  early : ∀ id depth, s.visitedDepth id = some depth → ∀ entry ∈ s.queue, depth ≤ entry.2

theorem backwardsTurn_visit (events : EventMap Id C) (s : BackwardsSearch Id) (t : Worklist.Visit Id)
    (related : BackwardsRel s t) :
    Option.Rel BackwardsRel (backwardsTurn events none s) (visit (chainEdges events.get) t) := by
  obtain ⟨backwards, missing, visitedDepth, queue⟩ := s
  obtain ⟨visited, waiting⟩ := t
  obtain ⟨rfl, rfl, depths, sorted, window, early⟩ := related
  unfold backwardsTurn visit
  cases queue with
  | nil => exact .none
  | cons entry rest =>
    obtain ⟨node, depth⟩ := entry
    have later := (pairwise_cons.mp sorted).1
    simp only [map_cons]
    rcases Option.eq_none_or_eq_some (visitedDepth node) with known | ⟨old, known⟩
    rotate_left
    · have before : old ≤ depth := early node old known (node, depth) (by simp)
      have seen : node ∈ backwards := (depths node).mp (by simp [known])
      rw [if_pos seen, if_neg (by simpa [known] using before)]
      refine .some ⟨rfl, rfl, depths, (pairwise_cons.mp sorted).2, ?_, ?_⟩
      · exact fun a ha b hb => window a (mem_cons_of_mem _ ha) b (mem_cons_of_mem _ hb)
      · exact fun id d found entry mem => early id d found entry (mem_cons_of_mem _ mem)
    · have fresh : node ∉ backwards := fun seen => by simpa [known] using (depths node).mpr seen
      rw [if_neg fresh, if_pos (by simp [known])]
      refine .some ⟨?_, ?_, ?_, ?_, ?_, ?_⟩
      · simp [backwardsEdges, chainEdges, Function.comp_def]
      · simp [insertOnce, fresh]
      · intro id
        rw [mem_append, mem_singleton]
        by_cases same : id = node
        · simp [same]
        · simp [same, depths id]
      · rw [pairwise_append]
        refine ⟨(pairwise_cons.mp sorted).2, ?_, ?_⟩
        · rw [pairwise_map]
          exact pairwise_of_forall fun _ _ => Nat.le_refl _
        · intro a ha b hb
          obtain ⟨parent, _, rfl⟩ := mem_map.mp hb
          exact window (node, depth) (by simp) a (mem_cons_of_mem _ ha)
      · intro a ha b hb
        rcases mem_append.mp ha with ha | ha <;> rcases mem_append.mp hb with hb | hb
        · exact window a (mem_cons_of_mem _ ha) b (mem_cons_of_mem _ hb)
        · obtain ⟨parent, _, rfl⟩ := mem_map.mp hb
          exact Nat.succ_le_succ (later a ha)
        · obtain ⟨parent, _, rfl⟩ := mem_map.mp ha
          have := window (node, depth) (by simp) b (mem_cons_of_mem _ hb)
          omega
        · obtain ⟨parent, _, rfl⟩ := mem_map.mp ha
          obtain ⟨other, _, rfl⟩ := mem_map.mp hb
          exact Nat.le_succ _
      · intro id d found entry mem
        dsimp only at found mem
        rcases mem_append.mp mem with mem | mem
        · split at found
          · rw [← Option.some.inj found]
            exact later entry mem
          · exact early id d found entry (mem_cons_of_mem _ mem)
        · obtain ⟨parent, _, rfl⟩ := mem_map.mp mem
          split at found
          · rw [← Option.some.inj found]
            exact Nat.le_succ _
          · exact Nat.le_succ_of_le (early id d found (node, depth) (by simp))

theorem chainEdges_support (events : EventMap Id C) (id : Id) (edges : chainEdges events.get id ≠ []) :
    id ∈ events.keys := by
  rw [EventMap.mem_keys]
  cases found : events.get id with
  | none => simp [chainEdges, found] at edges
  | some event => exact ⟨event, rfl⟩

theorem mem_collectBackwardsReachable (events : EventMap Id C) (conflictedSet : List Id) (id : Id) :
    id ∈ (collectBackwardsReachable events conflictedSet none).1 ↔
      Worklist.Reached (chainEdges events.get) conflictedSet id := by
  have start : BackwardsRel ⟨[], [], fun _ => none, conflictedSet.map fun id => (id, 0)⟩ ⟨[], conflictedSet⟩ := by
    refine ⟨by simp [Function.comp_def], rfl, by simp, ?_, ?_, by simp⟩
    · rw [pairwise_map]
      exact pairwise_of_forall fun _ _ => Nat.le_refl _
    · intro _ ha _ hb
      obtain ⟨-, _, rfl⟩ := mem_map.mp ha
      obtain ⟨-, _, rfl⟩ := mem_map.mp hb
      exact Nat.zero_le _
  have final := Loop.run_simulation _ (backwardsTurn_visit events)
    (conflictedSet.length + edgeCount (chainEdges events.get) events.keys) start
  unfold collectBackwardsReachable
  dsimp only
  rw [final.backwards]
  exact mem_close (chainEdges_support events) id

end

variable [LinearOrder Id]

theorem mem_insertOnce_foldl (ids set : List Id) (id : Id) : id ∈ ids.foldl insertOnce set ↔ id ∈ set ∨ id ∈ ids := by
  induction ids generalizing set with
  | nil => simp
  | cons first ids ih =>
    have once : id ∈ insertOnce set first ↔ id ∈ set ∨ id = first := by
      unfold insertOnce
      split
      · rename_i mem
        exact ⟨.inl, fun either => either.elim (fun h => h) fun same => same ▸ mem⟩
      · simp
    rw [foldl_cons, ih, once, mem_cons, or_assoc]

theorem mem_intersectSets (a b : List Id) (id : Id) : id ∈ intersectSets a b ↔ id ∈ a ∧ id ∈ b := by
  unfold intersectSets
  split
  · simp
  · simp [and_comm]

theorem mem_forwardEdges {graph : EventMap Id C} {id child : Id} : child ∈ forwardEdges graph id ↔
      ∃ event, graph.get child = some event ∧ id ∈ event.authEvents ∧ id ∈ graph.keys := by
  unfold forwardEdges
  rw [Peel.mem_citers, mem_graphParents]
  exact ⟨And.right, fun cites => ⟨EventMap.mem_keys.mpr (cites.imp fun _ => And.left), cites⟩⟩

theorem mem_computeV21ConflictedSubgraph (order : Order) (authGraph : EventMap Id C)
    (conflictedSet : List Id) (id : Id) :
    id ∈ computeV21ConflictedSubgraph order authGraph conflictedSet ↔ id ∈ authGraph.keys ∧
      Worklist.Reached (chainEdges authGraph.get) conflictedSet id ∧
      Worklist.Reached (forwardEdges authGraph) (conflictedSet.filter (· ∈ authGraph.keys)) id := by
  unfold computeV21ConflictedSubgraph computeV21ConflictedSubgraphBounded
  split
  · rename_i none
    simp only [none, not_mem_nil, false_iff, not_and]
    rintro _ ⟨x, mem, _⟩
    simp at mem
  · rw [mem_filter, containsKey_iff, mem_intersectSets, mem_collectBackwardsReachable,
      collectForwardsReachable, mem_insertOnce_foldl, mem_filter, containsKey_iff,
      mem_forwardReachableIds]
    tauto

end Rezzy.Resolve
