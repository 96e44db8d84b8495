import Rezzy.Resolve.PowerPhaseOrder
import Rezzy.Resolve.Reachability

namespace Rezzy.Resolve

open Basespec Auth State Permuted RangePrefilterReachability List Worklist Peel

variable {Id C : Type}

section

theorem denseItems_nodup [DecidableEq Id] {members : List Id} (nodup : members.Nodup) :
    denseItems members = members := by
  have from_items : ∀ (l items : List Id), (items ++ l).Nodup →
      l.foldl (fun items item => if item ∈ items then items else items ++ [item]) items = items ++ l := by
    intro l
    induction l with
    | nil => simp
    | cons item l ih =>
      intro items nodup
      have fresh : item ∉ items := fun mem =>
        (nodup_append.mp nodup).2.2 item mem item (by simp) rfl
      rw [foldl_cons, if_neg fresh, ih _ (by simpa using nodup)]
      simp
  exact from_items members [] (by simpa using nodup)

variable [LinearOrder Id]

theorem mem_graphParents {id parent : Id} : parent ∈ graphParents graph id ↔
      ∃ ev, graph.get id = some ev ∧ parent ∈ ev.authEvents ∧ parent ∈ graph.keys := by
  unfold graphParents
  cases found : graph.get id with
  | none => simp
  | some ev => simp [containsKey_iff]

theorem topology_graph (order : Order) (graph : EventMap Id C) :
    Peel.Graph (order.iter .topology graph.keys) (graphParents graph)
      (citers (order.iter .topology graph.keys) (graphParents graph)) where
  nodup := (order.perm .topology graph.keys).nodup_iff.mpr graph.distinct
  within n _ x cited := by
    obtain ⟨_, _, _, mem⟩ := mem_graphParents.mp cited
    exact (order.perm .topology graph.keys).mem_iff.mpr mem
  turned _ := .refl _

theorem topology_peeled (order : Order) (graph : EventMap Id C) : let nodes := order.iter .topology graph.keys
    let peeled := peel (citers nodes (graphParents graph)) (fun id => (graphParents graph id).length)
      ((nodes.filter fun id => (graphParents graph id).length = 0).insertionSort (· ≤ ·)) nodes.length
    peeled.queue = [] ∧ Peel.ProgressInv nodes (graphParents graph) peeled :=
  peel_spec (topology_graph order graph) (perm_insertionSort _ _)

theorem collectTopology_perm (order : Order) (graph : EventMap Id C) :
    (collectTopology order graph).topo.Perm graph.keys := by
  obtain ⟨emptied, inv⟩ := topology_peeled order graph
  have nodes := order.perm .topology graph.keys
  unfold collectTopology
  dsimp only at emptied inv ⊢
  revert emptied inv
  generalize peel (α := Id) _ _ _ _ = peeled
  intro emptied inv
  have done : ∀ x ∈ order.iter .topology graph.keys, x ∈ peeled.done ↔ peeled.degree x = 0 := by
    intro x mem
    have free := inv.cleared.free x mem
    rwa [emptied, append_nil] at free
  have nodup : peeled.done.Nodup := (nodup_append.mp inv.cleared.nodup).1
  refine ((perm_insertionSort _ _).append_left _).trans ((perm_ext_iff_of_nodup ?_ graph.distinct).mpr fun x => ?_)
  · refine List.Nodup.append nodup (((nodes.nodup_iff).mpr graph.distinct).filter _) ?_
    intro x taken left
    obtain ⟨mem, open_⟩ := mem_filter.mp left
    exact of_decide_eq_true open_ ((done x mem).mp taken)
  · rw [mem_append, mem_filter]
    constructor
    · rintro (taken | ⟨mem, _⟩)
      · exact nodes.mem_iff.mp (inv.cleared.inside x (mem_append_left _ taken))
      · exact nodes.mem_iff.mp mem
    · intro mem
      have mem := nodes.mem_iff.mpr mem
      by_cases taken : x ∈ peeled.done
      · exact .inl taken
      · exact .inr ⟨mem, decide_eq_true (mt (done x mem).mpr taken)⟩

end

theorem keptNext_children (index : RangePrefilterReachability Id) :
    keptNext index.keep index.children = index.children := by
  funext idx
  unfold keptNext
  split
  · rfl
  · rename_i outside
    simp only [keep, decide_eq_true_eq, not_lt] at outside
    rw [children, getD_eq_getElem?_getD, getElem?_eq_none outside]
    rfl

variable [LinearOrder Id]

def forwardEdges (graph : EventMap Id C) (id : Id) : List Id :=
  Peel.citers graph.keys (graphParents graph) id

theorem build_items (order : Order) (graph : EventMap Id C) :
    (build order graph).items = (collectTopology order graph).topo :=
  denseItems_nodup ((collectTopology_perm order graph).nodup_iff.mpr graph.distinct)

theorem build_items_perm (order : Order) (graph : EventMap Id C) : (build order graph).items.Perm graph.keys :=
  build_items order graph ▸ collectTopology_perm order graph

theorem idxOf?_eq_some {items : List Id} (nodup : items.Nodup) {id : Id} :
    items.idxOf? id = some idx ↔ items[idx]? = some id := by
  rw [idxOf?_eq_some_iff, List.getElem?_eq_some_iff]
  constructor
  · rintro ⟨bound, here, _⟩
    exact ⟨bound, here⟩
  · rintro ⟨bound, here⟩
    refine ⟨bound, here, fun other before same => ?_⟩
    have := (List.Nodup.getElem_inj_iff nodup).mp (same.trans here.symm)
    omega

theorem mem_filterMap_idxOf? {items ids : List Id} (nodup : items.Nodup) :
    idx ∈ ids.filterMap (fun id => items.idxOf? id) ↔ ∃ id ∈ ids, items[idx]? = some id := by
  rw [mem_filterMap]
  exact exists_congr fun id => and_congr_right fun _ => idxOf?_eq_some nodup

theorem mem_children (order : Order) (graph : EventMap Id C) {id : Id}
    (here : (build order graph).items[idx]? = some id) (child : Nat) :
    child ∈ (build order graph).children idx ↔ ∃ childId ∈ forwardEdges graph id,
        (build order graph).items[child]? = some childId := by
  have nodup := (build_items_perm order graph).nodup_iff.mpr graph.distinct
  have slot : (build order graph).children idx = ((collectTopology order graph).children id).filterMap fun child =>
        (build order graph).items.idxOf? child := by
    unfold children
    rw [getD_eq_getElem?_getD]
    have at_idx : (build order graph).childrenByIndex[idx]? = some
        (((collectTopology order graph).children id).filterMap fun child =>
          (build order graph).items.idxOf? child) := by
      unfold build buildIndexedChildren at here ⊢
      rw [getElem?_map, here]
      rfl
    rw [at_idx]
    rfl
  rw [slot, mem_filterMap_idxOf? nodup]
  refine exists_congr fun childId => and_congr_left fun _ => ?_
  unfold forwardEdges
  rw [mem_citers, ← (order.perm .topology graph.keys).mem_iff]
  exact mem_citers

theorem reached_children (order : Order) (graph : EventMap Id C) (seeds : List Id) {id : Id}
    (here : (build order graph).items[idx]? = some id) : Worklist.Reached (build order graph).children
        (seeds.filterMap fun seed => (build order graph).items.idxOf? seed) idx ↔
      Worklist.Reached (forwardEdges graph) (seeds.filter (· ∈ graph.keys)) id := by
  have perm := build_items_perm order graph
  have nodup := perm.nodup_iff.mpr graph.distinct
  constructor
  · intro reached
    have sound := reached.subset_of_closed (fun idx => ∃ id, (build order graph).items[idx]? = some id ∧
        Worklist.Reached (forwardEdges graph) (seeds.filter (· ∈ graph.keys)) id) ?_ ?_
    · obtain ⟨other, there, found⟩ := sound
      rwa [Option.some.inj (here.symm.trans there)]
    · intro idx seeded
      obtain ⟨seed, mem, found⟩ := (mem_filterMap_idxOf? nodup).mp seeded
      refine ⟨seed, found, .seed (mem_filter.mpr ⟨mem, decide_eq_true ?_⟩)⟩
      exact perm.mem_iff.mp (mem_of_getElem? found)
    · rintro idx child ⟨id, parent, inside⟩ edge
      obtain ⟨childId, cites, found⟩ := (mem_children order graph parent child).mp edge
      exact ⟨childId, found, inside.step cites⟩
  · intro reached
    have complete := reached.subset_of_closed (fun id => ∃ idx, (build order graph).items[idx]? = some id ∧
        Worklist.Reached (build order graph).children
          (seeds.filterMap fun seed => (build order graph).items.idxOf? seed) idx)
      ?_ ?_
    · obtain ⟨other, there, found⟩ := complete
      rwa [Option.some.inj (((idxOf?_eq_some nodup).mpr here).symm.trans ((idxOf?_eq_some nodup).mpr there))]
    · intro seed mem
      obtain ⟨mem, known⟩ := mem_filter.mp mem
      obtain ⟨idx, there⟩ := mem_iff_getElem?.mp (perm.mem_iff.mpr (of_decide_eq_true known))
      exact ⟨idx, there, .seed ((mem_filterMap_idxOf? nodup).mpr ⟨seed, mem, there⟩)⟩
    · rintro parent child ⟨idx, there, inside⟩ edge
      have known := (mem_citers.mp edge).1
      obtain ⟨childIdx, found⟩ := mem_iff_getElem?.mp (perm.mem_iff.mpr known)
      exact ⟨childIdx, found, inside.step ((mem_children order graph there childIdx).mpr ⟨child, edge, found⟩)⟩

theorem forwardReached_known {graph : EventMap Id C} {seeds : List Id} {id : Id}
    (reached : Worklist.Reached (forwardEdges graph) (seeds.filter (· ∈ graph.keys)) id) :
    id ∈ graph.keys :=
  reached.subset_of_closed (· ∈ graph.keys) (fun _ mem => of_decide_eq_true (mem_filter.mp mem).2)
    fun _ _ _ edge => (mem_citers.mp edge).1

theorem mem_forwardReachableIds (order : Order) (graph : EventMap Id C) (seeds : List Id) (id : Id) :
    id ∈ (build order graph).forwardReachableIds seeds ↔
      Worklist.Reached (forwardEdges graph) (seeds.filter (· ∈ graph.keys)) id := by
  have flooded : ∀ idx, idx ∈ flood popFront (build order graph).keep (build order graph).children
      (range (build order graph).childrenByIndex.length)
      (seeds.filterMap fun seed => (build order graph).items.idxOf? seed) ↔ _ :=
    mem_flood popFront_pops fun x keeps => mem_range.mpr (of_decide_eq_true keeps)
  unfold forwardReachableIds
  rw [mem_filterMap]
  constructor
  · rintro ⟨idx, reached, here⟩
    rw [flooded, keptNext_children] at reached
    exact (reached_children order graph seeds here).mp reached
  · intro reached
    obtain ⟨idx, here⟩ := mem_iff_getElem?.mp
      ((build_items_perm order graph).mem_iff.mpr (forwardReached_known reached))
    refine ⟨idx, ?_, here⟩
    rw [flooded, keptNext_children]
    exact (reached_children order graph seeds here).mpr reached

end Rezzy.Resolve
