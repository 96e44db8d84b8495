import Rezzy.Resolve.ReachabilityExact
import Rezzy.Resolve.Subgraph

namespace Rezzy.Resolve

open Basespec Auth State Permuted List

variable {Id C : Type}

section

variable [DecidableEq Id]

inductive Climbs (events : EventMap Id C) (conflictedSet : List Id) : Nat → Id → Prop
  | start {id : Id} : id ∈ conflictedSet → Climbs events conflictedSet 0 id
  | edge {hops : Nat} {id authId : Id} : Climbs events conflictedSet hops id →
      authId ∈ chainEdges events.get id → Climbs events conflictedSet (hops + 1) authId

def Within (maxAuthDepth : Option Nat) (hops : Nat) : Prop := ∀ limit ∈ maxAuthDepth, hops ≤ limit

variable {events : EventMap Id C} {conflictedSet : List Id} {maxAuthDepth : Option Nat}

theorem mem_backwardsEdges : authId ∈ backwardsEdges events maxAuthDepth node depth ↔
      authId ∈ chainEdges events.get node ∧ Within maxAuthDepth (depth + 1) := by
  have chain : chainEdges events.get node = ((events.get node).map LeanEvent.authEvents).getD [] := rfl
  unfold backwardsEdges Within
  rw [chain]
  cases maxAuthDepth with
  | none => simp
  | some limit =>
    by_cases deep : limit ≤ depth
    · simp [deep]
    · simp [deep]
      omega

variable (events maxAuthDepth) in
theorem backwardsEdges_length (node : Id) (depth : Nat) :
    (backwardsEdges events maxAuthDepth node depth).length ≤ (chainEdges events.get node).length := by
  unfold backwardsEdges
  split
  · exact Nat.zero_le _
  · exact Nat.le_refl _

structure Layered (s : BackwardsSearch Id) : Prop where
  sorted : s.queue.Pairwise fun a b => a.2 ≤ b.2
  window : ∀ a ∈ s.queue, ∀ b ∈ s.queue, b.2 ≤ a.2 + 1
  early : ∀ id depth, s.visitedDepth id = some depth → ∀ entry ∈ s.queue, depth ≤ entry.2
  visited : ∀ id, (s.visitedDepth id).isSome ↔ id ∈ s.backwards

theorem backwardsTurn_cases (layered : Layered s) (turn : backwardsTurn events maxAuthDepth s = some t) :
    ∃ node depth rest, s.queue = (node, depth) :: rest ∧
      ((∃ old ≤ depth, s.visitedDepth node = some old ∧ t = { s with queue := rest }) ∨
        (s.visitedDepth node = none ∧ t.backwards = s.backwards ++ [node] ∧
          (∀ other, t.visitedDepth other = if other = node then some depth else s.visitedDepth other) ∧
          t.queue = rest ++ (backwardsEdges events maxAuthDepth node depth).map fun authId =>
            (authId, depth + 1))) := by
  unfold backwardsTurn at turn
  cases waiting : s.queue with
  | nil => simp [waiting] at turn
  | cons entry rest =>
    obtain ⟨node, depth⟩ := entry
    rw [waiting] at turn
    dsimp only at turn
    refine ⟨node, depth, rest, rfl, ?_⟩
    cases known : s.visitedDepth node with
    | some old =>
      have before := layered.early node old known (node, depth) (by simp [waiting])
      rw [if_neg (by simpa [known] using before)] at turn
      exact .inl ⟨old, before, rfl, (Option.some.inj turn).symm⟩
    | none =>
      rw [if_pos (by simp [known])] at turn
      obtain rfl := Option.some.inj turn
      have fresh : node ∉ s.backwards := fun seen => by simpa [known] using (layered.visited node).mpr seen
      exact .inr ⟨rfl, if_neg fresh, fun _ => rfl, rfl⟩

theorem backwardsTurn_layered (layered : Layered s) (turn : backwardsTurn events maxAuthDepth s = some t) :
    Layered t := by
  obtain ⟨node, depth, rest, waiting, ⟨_, _, _, rfl⟩ | ⟨-, backwards, visited, queue⟩⟩ :=
    backwardsTurn_cases layered turn
  · have kept : ∀ entry ∈ rest, entry ∈ s.queue := fun entry mem => by simp [waiting, mem]
    refine ⟨?_, fun a ha b hb => layered.window a (kept a ha) b (kept b hb),
      fun id d found entry mem => layered.early id d found entry (kept entry mem), layered.visited⟩
    have sorted := layered.sorted
    rw [waiting] at sorted
    exact (pairwise_cons.mp sorted).2
  · have sorted := layered.sorted
    rw [waiting] at sorted
    obtain ⟨later, sorted⟩ := pairwise_cons.mp sorted
    have kept : ∀ entry ∈ rest, depth ≤ entry.2 ∧ entry.2 ≤ depth + 1 := fun entry mem =>
      ⟨later entry mem, layered.window (node, depth) (by simp [waiting]) entry (by simp [waiting, mem])⟩
    have entries : ∀ entry ∈ t.queue, (entry ∈ rest ∨ entry.2 = depth + 1) ∧ depth ≤ entry.2 ∧ entry.2 ≤ depth + 1 := by
      intro entry mem
      rw [queue] at mem
      rcases mem_append.mp mem with old | new
      · exact ⟨.inl old, kept entry old⟩
      · obtain ⟨authId, _, rfl⟩ := mem_map.mp new
        exact ⟨.inr rfl, Nat.le_succ _, Nat.le_refl _⟩
    refine ⟨?_, fun a ha b hb => ?_, fun id d found entry mem => ?_, fun id => ?_⟩
    · rw [queue, pairwise_append]
      refine ⟨sorted, ?_, fun a ha b hb => ?_⟩
      · rw [pairwise_map]
        exact pairwise_of_forall fun _ _ => Nat.le_refl _
      · obtain ⟨authId, _, rfl⟩ := mem_map.mp hb
        exact (kept a ha).2
    · have first := entries a ha
      have second := entries b hb
      omega
    · rw [visited] at found
      split at found
      · rw [← Option.some.inj found]
        exact (entries entry mem).2.1
      · have before := layered.early id d found (node, depth) (by simp [waiting])
        exact Nat.le_trans before (entries entry mem).2.1
    · rw [visited, backwards, mem_append, mem_singleton]
      by_cases same : id = node
      · simp [same]
      · simp [same, layered.visited id]

def Met (s : BackwardsSearch Id) (depth : Nat) (id : Id) : Prop :=
  (∃ old ≤ depth, s.visitedDepth id = some old) ∨ ∃ entry ∈ s.queue, entry.1 = id ∧ entry.2 ≤ depth

structure ClimbInv (events : EventMap Id C) (conflictedSet : List Id) (maxAuthDepth : Option Nat)
    (s : BackwardsSearch Id) : Prop where
  layered : Layered s
  queued : ∀ entry ∈ s.queue, Climbs events conflictedSet entry.2 entry.1 ∧ Within maxAuthDepth entry.2
  climbed : ∀ id depth, s.visitedDepth id = some depth →
    Climbs events conflictedSet depth id ∧ Within maxAuthDepth depth
  seeds : ∀ id ∈ conflictedSet, Met s 0 id
  closed : ∀ id depth, s.visitedDepth id = some depth →
    ∀ authId ∈ backwardsEdges events maxAuthDepth id depth, Met s (depth + 1) authId

theorem backwardsTurn_climb (inv : ClimbInv events conflictedSet maxAuthDepth s)
    (turn : backwardsTurn events maxAuthDepth s = some t) : ClimbInv events conflictedSet maxAuthDepth t := by
  have layered := backwardsTurn_layered inv.layered turn
  obtain ⟨node, depth, rest, waiting, ⟨old, before, known, rfl⟩ | ⟨unseen, _, visited, queue⟩⟩ :=
    backwardsTurn_cases inv.layered turn
  · have kept : ∀ entry ∈ rest, entry ∈ s.queue := fun entry mem => by simp [waiting, mem]
    have met : ∀ bound id, Met s bound id → Met { s with queue := rest } bound id := by
      rintro bound id (seen | ⟨entry, mem, rfl, within⟩)
      · exact .inl seen
      · rw [waiting] at mem
        rcases mem_cons.mp mem with rfl | mem
        · exact .inl ⟨old, Nat.le_trans before within, known⟩
        · exact .inr ⟨entry, mem, rfl, within⟩
    exact ⟨layered, fun entry mem => inv.queued entry (kept entry mem), inv.climbed,
      fun id mem => met 0 id (inv.seeds id mem),
      fun id d found authId edge => met _ authId (inv.closed id d found authId edge)⟩
  · obtain ⟨here, within⟩ := inv.queued (node, depth) (by simp [waiting])
    have met : ∀ bound id, Met s bound id → Met t bound id := by
      rintro bound id (⟨old, less, seen⟩ | ⟨entry, mem, rfl, less⟩)
      · refine .inl ⟨old, less, ?_⟩
        have other : id ≠ node := fun same => by simp [same, unseen] at seen
        rw [visited, if_neg other, seen]
      · rw [waiting] at mem
        rcases mem_cons.mp mem with rfl | mem
        · exact .inl ⟨depth, less, by rw [visited, if_pos rfl]⟩
        · exact .inr ⟨entry, queue ▸ mem_append_left _ mem, rfl, less⟩
    refine ⟨layered, fun entry mem => ?_, fun id d found => ?_, fun id mem => met 0 id (inv.seeds id mem),
      fun id d found authId edge => ?_⟩
    · rw [queue] at mem
      rcases mem_append.mp mem with old | new
      · exact inv.queued entry (by simp [waiting, old])
      · obtain ⟨authId, edge, rfl⟩ := mem_map.mp new
        obtain ⟨edge, below⟩ := mem_backwardsEdges.mp edge
        exact ⟨here.edge edge, below⟩
    · rw [visited] at found
      split at found
      · rename_i same
        obtain rfl := Option.some.inj found
        exact same ▸ ⟨here, within⟩
      · exact inv.climbed id d found
    · rw [visited] at found
      split at found
      · rename_i same
        obtain rfl := Option.some.inj found
        rw [same] at edge
        exact .inr ⟨(authId, depth + 1), queue ▸ mem_append_right _ (mem_map_of_mem edge), rfl, Nat.le_refl _⟩
      · exact met _ authId (inv.closed id d found authId edge)

def unclimbed (events : EventMap Id C) (s : BackwardsSearch Id) : Nat :=
  s.queue.length + Worklist.edgeCount (chainEdges events.get) (events.keys.filter (· ∉ s.backwards))

theorem backwardsTurn_decreases (layered : Layered s) (turn : backwardsTurn events maxAuthDepth s = some t) :
    unclimbed events t < unclimbed events s := by
  obtain ⟨node, depth, rest, waiting, ⟨_, _, _, rfl⟩ | ⟨unseen, backwards, _, queue⟩⟩ :=
    backwardsTurn_cases layered turn
  · simp [unclimbed, waiting]
  · have fresh : node ∉ s.backwards := fun seen => by simpa [unseen] using (layered.visited node).mpr seen
    have shrinks := Worklist.edgeCount_filter_visited (chainEdges events.get) events.keys s.backwards node fresh
      (chainEdges_support events node)
    have bound := backwardsEdges_length events maxAuthDepth node depth
    unfold unclimbed
    rw [backwards, queue, waiting, length_append, length_map, length_cons]
    omega

theorem mem_collectBackwardsReachable_bounded (events : EventMap Id C) (conflictedSet : List Id)
    (maxAuthDepth : Option Nat) (id : Id) :
    id ∈ (collectBackwardsReachable events conflictedSet maxAuthDepth).1 ↔
      ∃ hops, Climbs events conflictedSet hops id ∧ Within maxAuthDepth hops := by
  have entries : ∀ entry ∈ conflictedSet.map fun id => (id, 0), entry.1 ∈ conflictedSet ∧ entry.2 = 0 := by
    intro entry mem
    obtain ⟨id, listed, rfl⟩ := mem_map.mp mem
    exact ⟨listed, rfl⟩
  have start : ClimbInv events conflictedSet maxAuthDepth
      ⟨[], [], fun _ => none, conflictedSet.map fun id => (id, 0)⟩ := by
    refine ⟨⟨?_, fun a ha b hb => ?_, fun _ _ found => (by cases found), by simp⟩, fun entry mem => ?_,
      fun _ _ found => (by cases found), fun id mem => ?_, fun _ _ found => (by cases found)⟩
    · rw [pairwise_map]
      exact pairwise_of_forall fun _ _ => Nat.le_refl _
    · rw [(entries a ha).2, (entries b hb).2]
      exact Nat.zero_le _
    · obtain ⟨listed, zero⟩ := entries entry mem
      rw [zero]
      exact ⟨.start listed, fun _ _ => Nat.zero_le _⟩
    · exact .inr ⟨(id, 0), mem_map_of_mem mem, rfl, Nat.le_refl _⟩
  have inv := Loop.run_invariant (fun s t inv turn => backwardsTurn_climb inv turn)
    (conflictedSet.length + Worklist.edgeCount (chainEdges events.get) events.keys) start
  have stopped := Loop.run_finished (ClimbInv events conflictedSet maxAuthDepth) (unclimbed events)
    (fun s t inv turn => backwardsTurn_climb inv turn)
    (fun s t inv turn => backwardsTurn_decreases inv.layered turn)
    (conflictedSet.length + Worklist.edgeCount (chainEdges events.get) events.keys) start (by simp [unclimbed])
  unfold collectBackwardsReachable
  revert inv stopped
  generalize Loop.run (backwardsTurn events maxAuthDepth) _ _ = final
  intro inv stopped
  have empty : final.queue = [] := by
    unfold backwardsTurn at stopped
    cases waiting : final.queue with
    | nil => rfl
    | cons entry rest =>
      rw [waiting] at stopped
      dsimp only at stopped
      split at stopped <;> cases stopped
  have met : ∀ {hops id}, Met final hops id → ∃ old ≤ hops, final.visitedDepth id = some old := by
    rintro hops id (seen | ⟨entry, mem, _⟩)
    · exact seen
    · simp [empty] at mem
  have complete : ∀ {hops id}, Climbs events conflictedSet hops id → Within maxAuthDepth hops →
      ∃ old ≤ hops, final.visitedDepth id = some old := by
    intro hops id climbs
    induction climbs with
    | start listed => exact fun _ => met (inv.seeds _ listed)
    | @edge hops id authId _ edge ih =>
      intro within
      obtain ⟨old, less, found⟩ := ih fun limit bound => Nat.le_of_succ_le (within limit bound)
      have below : Within maxAuthDepth (old + 1) := fun limit bound =>
        Nat.le_trans (Nat.succ_le_succ less) (within limit bound)
      obtain ⟨next, lessNext, seen⟩ := met (inv.closed id old found authId (mem_backwardsEdges.mpr ⟨edge, below⟩))
      exact ⟨next, Nat.le_trans lessNext (Nat.succ_le_succ less), seen⟩
  rw [← inv.layered.visited, Option.isSome_iff_exists]
  constructor
  · rintro ⟨hops, found⟩
    exact ⟨hops, inv.climbed id hops found⟩
  · rintro ⟨hops, climbs, within⟩
    obtain ⟨old, _, found⟩ := complete climbs within
    exact ⟨old, found⟩

end

section

variable [LinearOrder Id]

/-- An event of the graph that lies at most the depth limit behind a conflicted id, and descends from a
    conflicted event or is one. -/
def BetweenConflicted (graph : EventMap Id C) (conflictedSet : List Id) (maxAuthDepth : Option Nat) (id : Id) :
    Prop :=
  id ∈ graph.keys ∧ (∃ hops, Climbs graph conflictedSet hops id ∧ Within maxAuthDepth hops) ∧
    ∃ source ∈ conflictedSet, source ∈ graph.keys ∧ LeadsTowards graph source id

theorem mem_subgraph_bounded (order : Order) (authGraph : EventMap Id C) (conflictedSet : List Id)
    (maxAuthDepth : Option Nat) (id : Id) :
    id ∈ (computeV21ConflictedSubgraphBounded order authGraph conflictedSet maxAuthDepth).subgraph ↔
      BetweenConflicted authGraph conflictedSet maxAuthDepth id := by
  unfold computeV21ConflictedSubgraphBounded BetweenConflicted
  split
  · rename_i none
    simp [none]
  · rw [mem_filter, containsKey_iff, mem_intersectSets, mem_collectBackwardsReachable_bounded,
      collectForwardsReachable, mem_insertOnce_foldl, mem_filter, containsKey_iff, mem_forwardReachableIds,
      reached_iff_leadsTowards]
    tauto

theorem mem_indexedSubgraphIds (order : Order) (graph eventContext : EventMap Id C)
    (conflictedSet : List Id) (maxAuthDepth : Option Nat) (id : Id) :
    id ∈ conflictedSubgraphIdsWithIndex eventContext (.build order graph) conflictedSet maxAuthDepth ↔
      (∃ hops, Climbs eventContext conflictedSet hops id ∧ Within maxAuthDepth hops) ∧
        ∃ source ∈ conflictedSet, source ∈ graph.keys ∧ LeadsTowards graph source id := by
  unfold conflictedSubgraphIdsWithIndex
  split
  · rename_i none
    simp [none]
  · rw [mem_filterReachable_ids, mem_insertionSort, mem_collectBackwardsReachable_bounded, reached_iff_leadsTowards]

structure ClosedContext (graph eventContext : EventMap Id C) : Prop where
  inside : ∀ id event, eventContext.get id = some event → graph.get id = some event
  closed : ∀ id event, eventContext.get id = some event → ∀ authId ∈ event.authEvents, authId ∈ graph.keys →
    authId ∈ eventContext.keys

variable {graph eventContext : EventMap Id C}

section

variable (context : ClosedContext graph eventContext)
include context

theorem ClosedContext.known {id : Id} (mem : id ∈ eventContext.keys) : id ∈ graph.keys := by
  obtain ⟨event, found⟩ := EventMap.mem_keys.mp mem
  exact EventMap.mem_keys.mpr ⟨event, context.inside id event found⟩

theorem ClosedContext.widen {source id : Id}
    (leads : LeadsTowards eventContext source id) : LeadsTowards graph source id := by
  induction leads with
  | refl => exact .refl
  | tail _ cites ih =>
    obtain ⟨event, found, cited, known⟩ := cites
    exact ih.tail ⟨event, context.inside _ event found, cited, context.known known⟩

theorem ClosedContext.narrow {source id : Id} (leads : LeadsTowards graph source id) (mem : id ∈ eventContext.keys) :
    source ∈ eventContext.keys ∧ LeadsTowards eventContext source id := by
  induction leads using Relation.ReflTransGen.head_induction_on with
  | refl => exact ⟨mem, .refl⟩
  | head cites _ ih =>
    obtain ⟨event, found, cited, known⟩ := cites
    obtain ⟨own, here⟩ := EventMap.mem_keys.mp ih.1
    obtain rfl := Option.some.inj (found.symm.trans (context.inside _ own here))
    have inside := context.closed _ event here _ cited known
    exact ⟨inside, ih.2.head ⟨event, here, cited, inside⟩⟩

end

theorem known_of_leadsTowards {source id : Id} (known : source ∈ graph.keys) (leads : LeadsTowards graph source id) :
    id ∈ graph.keys := by
  rcases leads.cases_tail with rfl | ⟨_, _, event, found, _⟩
  · exact known
  · exact EventMap.mem_keys.mpr ⟨event, found⟩

theorem ClosedContext.withIndex_iff (context : ClosedContext graph eventContext) (order : Order)
    (conflictedSet : List Id) (maxAuthDepth : Option Nat) :
    (∀ id, id ∈ conflictedSubgraphIdsWithIndex eventContext (.build order graph) conflictedSet maxAuthDepth ↔
        BetweenConflicted eventContext conflictedSet maxAuthDepth id) ↔
      ∀ id ∈ conflictedSet, id ∈ graph.keys → id ∈ eventContext.keys := by
  constructor
  · intro same id listed known
    have found := (mem_indexedSubgraphIds order graph eventContext conflictedSet maxAuthDepth id).mpr
      ⟨⟨0, .start listed, fun _ _ => Nat.zero_le _⟩, id, listed, known, .refl⟩
    exact ((same id).mp found).1
  · intro covered id
    rw [mem_indexedSubgraphIds]
    constructor
    · intro ⟨⟨hops, climbs, within⟩, source, listed, known, leads⟩
      have inGraph := known_of_leadsTowards known leads
      have mem : id ∈ eventContext.keys := by
        cases climbs with
        | start listed => exact covered id listed inGraph
        | @edge hops child authId _ cited =>
          unfold chainEdges at cited
          cases found : eventContext.get child with
          | none => simp [found] at cited
          | some event => exact context.closed child event found id (by simpa [found] using cited) inGraph
      have narrowed := context.narrow leads mem
      exact ⟨mem, ⟨hops, climbs, within⟩, source, listed, narrowed.1, narrowed.2⟩
    · intro ⟨_, climbs, source, listed, known, leads⟩
      exact ⟨climbs, source, listed, context.known known, context.widen leads⟩

end

namespace Sample

open Basespec.Sample

def openedRoom : EventMap Nat Content := ⟨[create "12", joinA [], openLevels], by decide⟩

def joinedRoom : EventMap Nat Content := ⟨[create "12", joinA []], by decide⟩

def fullRoom : EventMap Nat Content := ⟨[create "12", joinA [1], openLevels, topic 4 "@a:x" [2, 3]], by decide⟩

def leveledRoom : EventMap Nat Content := ⟨[create "12", joinA [1], openLevels], by decide⟩

theorem closed_of_values {graph eventContext : EventMap Nat Content} (inside : eventContext.values ⊆ graph.values)
    (closed : ∀ event ∈ eventContext.values, ∀ cited ∈ event.authEvents, cited ∈ eventContext.keys) :
    ClosedContext graph eventContext := by
  constructor
  · intro id event found
    rw [← EventMap.get_id found]
    exact EventMap.get_of_mem (inside (EventMap.get_mem found))
  · intro id event found cited mem _
    exact closed event (EventMap.get_mem found) cited mem

theorem joinedRoom_closed : ClosedContext openedRoom joinedRoom :=
  closed_of_values (by simp [joinedRoom, openedRoom]) (by decide)

end Sample

open Sample Basespec.Sample

end Rezzy.Resolve
