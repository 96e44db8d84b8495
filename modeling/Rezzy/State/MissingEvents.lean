import Mathlib.Data.Prod.Lex
import Rezzy.Basespec.Event
import Rezzy.Lib.Nearest
import Rezzy.Lib.Permuted

namespace Rezzy.State

open Prod (fst)

section

open Basespec Permuted

variable {Id C : Type} [LinearOrder Id] (eventsMap : EventMap Id C)

structure HopSearch (Id : Type) where
  minHops : List (Id × Nat)
  queue : List (Id × Nat)
  visited : List Id

def latestPredecessors (latestEvents : List Id) : List Id :=
  latestEvents.flatMap fun lid => ((eventsMap.get lid).map LeanEvent.prevStateEvents).getD []

/-- Where the search goes on from an id. -/
def followedEdges (id : Id) : List Id :=
  match eventsMap.get id with
  | some ev => if ev.eventType ≠ mRoomCreate then ev.prevStateEvents else []
  | none => []

def HopSearch.turn (s : HopSearch Id) : Option (HopSearch Id) :=
  match s.queue with
  | [] => none
  | (id, hops) :: rest =>
    let minHops := if id ∈ s.minHops.map fst then s.minHops else s.minHops ++ [(id, hops)]
    some (if id ∈ s.visited then ⟨minHops, rest, s.visited⟩
      else ⟨minHops, rest ++ (followedEdges eventsMap id).map (·, hops + 1), s.visited ++ [id]⟩)

def searchHops (latestEvents : List Id) : HopSearch Id :=
  let queue := latestPredecessors eventsMap latestEvents
  Loop.run (HopSearch.turn eventsMap) (queue.length + Worklist.edgeCount (followedEdges eventsMap) eventsMap.keys)
    ⟨[], queue.map (·, 1), []⟩

def orderMissingStateEventsDeterministic (order : HashOrder Unit) (latestEvents : List Id) (limit : Nat) : List Id :=
  if latestEvents = [] ∨ limit = 0 then []
  else
    let ordered := (order.iter () (searchHops eventsMap latestEvents).minHops).insertionSort
      fun a b => toLex (a.2, a.1) ≤ toLex (b.2, b.1)
    (ordered.take limit).map fst

end

open Basespec Permuted Nearest

variable {Id C : Type} [LinearOrder Id] {eventsMap others : EventMap Id C} {latestEvents latest : List Id}

theorem followedEdges_support (eventsMap : EventMap Id C) (id : Id) (edges : followedEdges eventsMap id ≠ []) :
    id ∈ eventsMap.keys := by
  unfold followedEdges at edges
  cases found : eventsMap.get id with
  | none => simp [found] at edges
  | some ev => exact EventMap.mem_keys.mpr ⟨ev, found⟩

structure HopRel (s : HopSearch Id) (w : Walk Id (List (Id × Nat))) : Prop where
  minHops : s.minHops = w.noted
  queue : s.queue = w.queue
  visited : s.visited = w.visited
  noted : w.visited = w.noted.map fst

theorem turn_rel (eventsMap : EventMap Id C) (s : HopSearch Id) (w : Walk Id (List (Id × Nat))) (related : HopRel s w) :
    Option.Rel HopRel (s.turn eventsMap)
      (turn (followedEdges eventsMap) (fun seen x depth => seen ++ [(x, depth)]) w) := by
  obtain ⟨minHops, queue, visited⟩ := s
  obtain ⟨visited', queue', noted⟩ := w
  obtain ⟨rfl, rfl, rfl, same⟩ := related
  dsimp only at same
  unfold HopSearch.turn turn
  cases queue with
  | nil => exact .none
  | cons entry rest =>
    dsimp only
    rw [← same]
    by_cases seen : entry.1 ∈ visited
    · rw [if_pos seen, if_pos seen, if_pos seen]
      exact .some ⟨rfl, rfl, rfl, same⟩
    · rw [if_neg seen, if_neg seen, if_neg seen]
      exact .some ⟨rfl, rfl, rfl, by simp [same]⟩

theorem searchHops_rel (eventsMap : EventMap Id C) (latestEvents : List Id) :
    HopRel (searchHops eventsMap latestEvents) (Loop.run
      (turn (followedEdges eventsMap) (fun seen x depth => seen ++ [(x, depth)]))
      ((latestPredecessors eventsMap latestEvents).length + Worklist.edgeCount (followedEdges eventsMap) eventsMap.keys)
      ⟨[], (latestPredecessors eventsMap latestEvents).map (·, 1), []⟩) :=
  Loop.run_simulation _ (turn_rel eventsMap) _ ⟨rfl, rfl, rfl, rfl⟩

def LeastHops (eventsMap : EventMap Id C) (latestEvents : List Id) (id : Id) (hops : Nat) : Prop :=
  IsLeast {n | Hops (followedEdges eventsMap) (latestPredecessors eventsMap latestEvents) id n} hops

theorem mem_minHops (id : Id) (hops : Nat) :
    (id, hops) ∈ (searchHops eventsMap latestEvents).minHops ↔ LeastHops eventsMap latestEvents id hops := by
  rw [(searchHops_rel eventsMap latestEvents).minHops]
  have support := followedEdges_support eventsMap
  obtain ⟨visited, inv⟩ := order_run (latestPredecessors eventsMap latestEvents) support
  have distinct := inv.visited ▸ inv.distinct
  have nearest (n : Nat) (path : Hops (followedEdges eventsMap) (latestPredecessors eventsMap latestEvents) id n) :=
    order_nearest support path
  constructor
  · intro mem
    refine ⟨hops_of_mem_order support mem, fun n path => ?_⟩
    obtain ⟨depth, le, mem'⟩ := nearest n path
    have same := List.inj_on_of_nodup_map distinct mem mem' rfl
    exact (Prod.mk.inj same).2 ▸ le
  · rintro ⟨path, least⟩
    obtain ⟨depth, le, mem⟩ := nearest hops path
    rwa [le.antisymm (least (hops_of_mem_order support mem))] at mem

theorem minHops_nodup (eventsMap : EventMap Id C) (latestEvents : List Id) :
    (searchHops eventsMap latestEvents).minHops.Nodup := by
  obtain ⟨visited, inv⟩ := order_run (latestPredecessors eventsMap latestEvents) (followedEdges_support eventsMap)
  rw [(searchHops_rel eventsMap latestEvents).minHops]
  exact .of_map fst (inv.visited ▸ inv.distinct)

structure HopOrdered (eventsMap : EventMap Id C) (latestEvents : List Id) (listed : List (Id × Nat)) : Prop where
  ascending : listed.Pairwise fun a b => toLex (a.2, a.1) < toLex (b.2, b.1)
  members : ∀ entry, entry ∈ listed ↔ LeastHops eventsMap latestEvents entry.1 entry.2

theorem HopOrdered.unique (left : HopOrdered eventsMap latestEvents listed) (right : HopOrdered others latest listed')
    (same : ∀ id hops, LeastHops eventsMap latestEvents id hops ↔ LeastHops others latest id hops) : listed = listed' := by
  apply List.Pairwise.eq_of_mem_iff left.ascending right.ascending
  intro _
  rw [left.members, right.members, same]

theorem orderMissing_listed (eventsMap : EventMap Id C) (order : HashOrder Unit) (latestEvents : List Id) (limit : Nat) :
    ∃ listed, HopOrdered eventsMap latestEvents listed ∧
      orderMissingStateEventsDeterministic eventsMap order latestEvents limit = (listed.take limit).map fst := by
  have perm := order.perm () (searchHops eventsMap latestEvents).minHops
  refine ⟨(order.iter () (searchHops eventsMap latestEvents).minHops).insertionSort
    fun a b => toLex (a.2, a.1) ≤ toLex (b.2, b.1), ⟨?_, fun entry => ?_⟩, ?_⟩
  · have distinct := ((List.perm_insertionSort (fun a b : Id × Nat => toLex (a.2, a.1) ≤ toLex (b.2, b.1)) _).trans
      perm).nodup_iff.mpr (minHops_nodup eventsMap latestEvents)
    refine ((List.pairwise_insertionSort _ _).and distinct).imp fun {a b} both => lt_of_le_of_ne both.1 fun same => both.2 ?_
    exact congrArg (fun key => ((ofLex key).2, (ofLex key).1)) same
  · rw [List.mem_insertionSort, perm.mem_iff, mem_minHops]
  · unfold orderMissingStateEventsDeterministic
    by_cases empty : latestEvents = []
    · have none : (searchHops eventsMap latestEvents).minHops = [] := by
        rw [empty]
        exact congrArg HopSearch.minHops (Loop.run_of_stopped rfl _)
      rw [none] at perm ⊢
      rw [if_pos (.inl empty), perm.eq_nil]
      simp
    · by_cases zero : limit = 0
      · rw [if_pos (.inr zero), zero]
        rfl
      · rw [if_neg (by simp [empty, zero])]

/-- The search ends. The result is the first `limit` ids that it reaches, by the least number of edges and then by id,
    and depends on no order. -/
theorem orderMissingStateEventsDeterministic_exact (eventsMap : EventMap Id C) (order : HashOrder Unit)
    (latestEvents : List Id) (limit : Nat) :
    (searchHops eventsMap latestEvents).turn eventsMap = none ∧
    (∃ listed : List (Id × Nat), listed.Pairwise (fun a b => toLex (a.2, a.1) < toLex (b.2, b.1)) ∧
      (∀ id hops, (id, hops) ∈ listed ↔
        IsLeast {n | Hops (followedEdges eventsMap) (latestPredecessors eventsMap latestEvents) id n} hops) ∧
      orderMissingStateEventsDeterministic eventsMap order latestEvents limit = (listed.take limit).map fst) ∧
    ∀ (others : EventMap Id C) (other : HashOrder Unit) (latest : List Id), (∀ id, id ∈ latest ↔ id ∈ latestEvents) →
      (∀ id, Option.Rel (fun a b => a.eventType = b.eventType ∧ ∀ parent, parent ∈ a.prevStateEvents ↔
        parent ∈ b.prevStateEvents) (eventsMap.get id) (others.get id)) →
      orderMissingStateEventsDeterministic others other latest limit =
        orderMissingStateEventsDeterministic eventsMap order latestEvents limit := by
  obtain ⟨listed, ordered, result⟩ := orderMissing_listed eventsMap order latestEvents limit
  refine ⟨?_, ⟨listed, ordered.ascending, fun id hops => ordered.members (id, hops), result⟩, ?_⟩
  · have turn := turn_rel eventsMap _ _ (searchHops_rel eventsMap latestEvents)
    rw [walk_finished _ (followedEdges_support eventsMap)] at turn
    exact Loop.stopped_of_rel turn
  · intro others other latest sameLatest sameEvents
    obtain ⟨listed', ordered', result'⟩ := orderMissing_listed others other latest limit
    have edges (id parent : Id) : parent ∈ followedEdges others id ↔ parent ∈ followedEdges eventsMap id := by
      unfold followedEdges
      have alike := sameEvents id
      generalize eventsMap.get id = ours, others.get id = theirs at alike
      cases alike with
      | none => rfl
      | some same =>
        dsimp only
        rw [same.1]
        split
        · exact (same.2 parent).symm
        · rfl
    have seeds (id : Id) : id ∈ latestPredecessors others latest ↔ id ∈ latestPredecessors eventsMap latestEvents := by
      simp only [latestPredecessors, List.mem_flatMap, sameLatest]
      refine exists_congr fun lid => and_congr_right fun _ => ?_
      have alike := sameEvents lid
      generalize eventsMap.get lid = ours, others.get lid = theirs at alike
      cases alike with
      | none => rfl
      | some same => exact (same.2 id).symm
    have paths (id : Id) (n : Nat) : Hops (followedEdges others) (latestPredecessors others latest) id n ↔
        Hops (followedEdges eventsMap) (latestPredecessors eventsMap latestEvents) id n :=
      ⟨fun path => path.mono (fun x y => (edges x y).mp) fun x => (seeds x).mp,
        fun path => path.mono (fun x y => (edges x y).mpr) fun x => (seeds x).mpr⟩
    rw [result, result', ordered'.unique ordered fun id hops => by simp only [LeastHops, paths]]

end Rezzy.State
