import Rezzy.Resolve.ReachabilityJumps

namespace Rezzy.Resolve

open List hiding contains
open Basespec Auth State Permuted RangePrefilterReachability Worklist Relation.ReflTransGen

open Worklist (Reached FrontierInv)

variable {Id C : Type}

section

variable [DecidableEq Id]

def CitedBy (graph : EventMap Id C) (parent child : Id) : Prop :=
  ∃ event, graph.get child = some event ∧ parent ∈ event.authEvents ∧ parent ∈ graph.keys

abbrev LeadsTowards (graph : EventMap Id C) : Id → Id → Prop := Relation.ReflTransGen (CitedBy graph)

def AcyclicGraph (graph : EventMap Id C) : Prop := ∀ id ∈ graph.keys, ¬Relation.TransGen (CitedBy graph) id id

end

section

variable [LinearOrder Id]

open List

theorem reached_iff_leadsTowards {graph : EventMap Id C} {sources : List Id} {id : Id} :
    Reached (forwardEdges graph) (sources.filter (· ∈ graph.keys)) id ↔
      ∃ source ∈ sources, source ∈ graph.keys ∧ LeadsTowards graph source id := by
  have edges : Worklist.Edge (forwardEdges graph) = CitedBy graph := by
    funext parent child
    exact propext (Peel.mem_citers.trans ⟨fun both => mem_graphParents.mp both.2,
        fun cites => ⟨EventMap.mem_keys.mpr (cites.imp fun _ => And.left), mem_graphParents.mpr cites⟩⟩)
  unfold Reached
  rw [edges]
  constructor
  · intro ⟨source, mem, leads⟩
    obtain ⟨listed, known⟩ := mem_filter.mp mem
    exact ⟨source, listed, of_decide_eq_true known, leads⟩
  · intro ⟨source, listed, known, leads⟩
    exact ⟨source, mem_filter.mpr ⟨listed, decide_eq_true known⟩, leads⟩

theorem collectReachablePositions_ascending (query : CandidateQuery) (found : List Nat) :
    (collectReachablePositions query found).Pairwise (· < ·) := pairwise_lt_range.filter _

theorem filterReachable_ascending (index : RangePrefilterReachability Id) (sources candidates : List Id) :
    (index.filterReachable sources candidates).Pairwise (· < ·) := by
  have withCandidates : ∀ query mode, (index.filterReachableWithCandidates sources query mode).Pairwise (· < ·) := by
    intro query mode
    unfold filterReachableWithCandidates
    split
    · exact .nil
    · exact collectReachablePositions_ascending _ _
  have jumps : ∀ query, (index.filterReachableSegmentJumps sources query).Pairwise (· < ·) := by
    intro query
    unfold filterReachableSegmentJumps
    split
    · exact .nil
    · exact collectReachablePositions_ascending _ _
  unfold filterReachable
  dsimp only
  split
  · exact jumps _
  · exact withCandidates _ _

/-- In every traversal mode the filter keeps exactly the positions of the candidates that a known source
    leads to. -/
theorem filterReachable_exact (order : Order) (graph : EventMap Id C) (sources candidates : List Id) :
    ((build order graph).filterReachable sources candidates).Pairwise (· < ·) ∧
      ∀ position, position ∈ (build order graph).filterReachable sources candidates ↔
        ∃ id source, candidates[position]? = some id ∧ source ∈ sources ∧ source ∈ graph.keys ∧
          LeadsTowards graph source id := by
  refine ⟨filterReachable_ascending _ sources candidates, fun position => ?_⟩
  rw [mem_filterReachable]
  simp only [reached_iff_leadsTowards]
  constructor
  · intro ⟨id, here, source, listed, known, leads⟩
    exact ⟨id, source, here, listed, known, leads⟩
  · intro ⟨id, source, here, listed, known, leads⟩
    exact ⟨id, here, source, listed, known, leads⟩

variable {β : Type} {default : β}

def backfill (slot : List β → Nat → β) (table : List β) (k : Nat) : List β :=
  (List.range k).reverse.foldl (fun table idx => table.set idx (slot table idx)) table

theorem backfill_succ (slot : List β → Nat → β) (table : List β) (k : Nat) :
    backfill slot table (k + 1) = backfill slot (table.set k (slot table k)) k := by
  unfold backfill
  rw [range_succ, reverse_append, reverse_singleton, singleton_append, foldl_cons]

theorem backfill_above (slot : List β → Nat → β) (table : List β) (above : k ≤ idx) :
    (backfill slot table k).getD idx default = table.getD idx default := by
  induction k generalizing table with
  | zero => rfl
  | succ k ih =>
    rw [backfill_succ, ih _ (by omega)]
    simp [getD_eq_getElem?_getD, Nat.ne_of_lt above]

variable (default) in
theorem backfill_slot (slot : List β → Nat → β) (table : List β) (below : idx < k) (inside : k ≤ table.length) :
    ∃ partly : List β, (backfill slot table k).getD idx default = slot partly idx ∧
      (∀ other, idx < other → partly.getD other default = (backfill slot table k).getD other default) ∧
      ∀ other, other ≤ idx → partly.getD other default = table.getD other default := by
  induction k generalizing table with
  | zero => omega
  | succ k ih =>
    rw [backfill_succ]
    rcases Nat.lt_succ_iff_lt_or_eq.mp below with earlier | rfl
    · obtain ⟨partly, here, past, before⟩ := ih (table.set k (slot table k)) earlier (by simpa using by omega)
      refine ⟨partly, here, past, fun other bound => ?_⟩
      rw [before other bound, getD_set_eq (by omega), if_neg (by omega)]
    · refine ⟨table, ?_, fun other past => ?_, fun _ _ => rfl⟩
      · rw [backfill_above _ _ (Nat.le_refl _), getD_set_eq (by omega), if_pos rfl]
      · rw [backfill_above _ _ (Nat.le_of_lt past), getD_set_eq (by omega), if_neg (by omega)]

end

section

/-- The positions outside `cyclic` are a topological order, and nothing in `cyclic` leads out of it. -/
structure PartlyTopological (slots : List (List Nat)) (cyclic : List Nat) : Prop where
  inside : ∀ idx, ∀ child ∈ slots.getD idx [], idx < slots.length ∧ child < slots.length
  clear : ∀ idx, ∀ child ∈ slots.getD idx [], child ∉ cyclic → idx ∉ cyclic
  later : ∀ idx, ∀ child ∈ slots.getD idx [], idx ∉ cyclic → idx < child

theorem PartlyTopological.way (topological : PartlyTopological slots cyclic) (leads : LeadsTo slots idx goal)
    (outside : goal ∉ cyclic) : idx ∉ cyclic ∧ idx ≤ goal := by
  induction leads using head_induction_on with
  | refl => exact ⟨outside, Nat.le_refl _⟩
  | head edge _ ih =>
    have here := topological.clear _ _ edge ih.1
    exact ⟨here, Nat.le_trans (Nat.le_of_lt (topological.later _ _ edge here)) ih.2⟩

theorem downward {motive : Nat → Prop} (n : Nat)
    (step : ∀ idx < n, (∀ other, idx < other → other < n → motive other) → motive idx) :
    ∀ idx < n, motive idx := by
  have bounded : ∀ gap idx, idx < n → n - idx ≤ gap → motive idx := by
    intro gap
    induction gap with
    | zero => intro idx below tight; omega
    | succ gap ih => exact fun idx below _ => step idx below fun other past under => ih other under (by omega)
  exact fun idx below => bounded (n - idx) idx below (Nat.le_refl _)

theorem mem_foldl_union (children : List Nat) (bitmaps : List (Finset Nat)) (start : Finset Nat) (idx : Nat) :
    idx ∈ children.foldl (fun bitmap childIdx => bitmap ∪ bitmaps.getD childIdx ∅) start ↔
      idx ∈ start ∨ ∃ child ∈ children, idx ∈ bitmaps.getD child ∅ := by
  induction children generalizing start with
  | nil => simp
  | cons child children ih =>
    rw [foldl_cons, ih, Finset.mem_union]
    simp [or_assoc]

theorem getD_replicate (n idx : Nat) : (replicate n (∅ : Finset Nat)).getD idx ∅ = ∅ := by
  rw [getD_eq_getElem?_getD, getElem?_replicate]
  split <;> rfl

theorem mem_buildDescendantBitmaps (topological : PartlyTopological slots cyclic) : ∀ idx < slots.length, ∀ goal,
      (goal ∈ (buildDescendantBitmaps slots).getD idx ∅ → LeadsTo slots idx goal) ∧
      (LeadsTo slots idx goal → goal ∉ cyclic → goal ∈ (buildDescendantBitmaps slots).getD idx ∅) := by
  apply downward
  intro idx below ih goal
  obtain ⟨partly, here, past, before⟩ := backfill_slot (∅ : Finset Nat)
    (fun bitmaps idx => (slots.getD idx []).foldl (fun bitmap childIdx => bitmap ∪ bitmaps.getD childIdx ∅) {idx})
    (replicate slots.length ∅) below (by simp)
  have same : buildDescendantBitmaps slots = backfill _ (replicate slots.length ∅) slots.length := rfl
  rw [← same] at here past
  rw [here, mem_foldl_union, Finset.mem_singleton]
  constructor
  · rintro (rfl | ⟨child, edge, mem⟩)
    · exact .refl
    · rcases Nat.lt_or_ge idx child with later | earlier
      · rw [past child later] at mem
        exact ((ih child later (topological.inside idx child edge).2 goal).1 mem).head edge
      · rw [before child earlier, getD_replicate] at mem
        simp at mem
  · intro leads outside
    rcases leads.cases_head with rfl | ⟨child, edge, further⟩
    · exact .inl rfl
    · have clear := (topological.way further outside).1
      have later := topological.later idx child edge (topological.clear idx child edge clear)
      refine .inr ⟨child, edge, ?_⟩
      rw [past child later]
      exact (ih child later (topological.inside idx child edge).2 goal).2 further outside

theorem buildDescendantRanges_partly (topological : PartlyTopological slots cyclic) :
    ∀ idx < slots.length, ∀ goal, LeadsTo slots idx goal → goal ∉ cyclic →
      ((buildDescendantRanges slots).getD idx (0, 0)).1 ≤ goal ∧
        goal ≤ ((buildDescendantRanges slots).getD idx (0, 0)).2 := by
  apply downward
  intro idx below ih goal leads outside
  obtain ⟨partly, here, past, _⟩ := backfill_slot ((0, 0) : Nat × Nat)
    (fun ranges idx => rangeOver ranges (slots.getD idx []) idx) (replicate slots.length (0, 0)) below
    (by simp)
  have same : buildDescendantRanges slots = backfill (fun ranges idx => rangeOver ranges (slots.getD idx []) idx)
      (replicate slots.length (0, 0)) slots.length := rfl
  rw [← same] at here past
  obtain ⟨own, children⟩ := rangeOver_spec partly (slots.getD idx []) idx
  rw [here]
  rcases leads.cases_head with rfl | ⟨child, edge, further⟩
  · exact own
  · have clear := (topological.way further outside).1
    have later := topological.later idx child edge (topological.clear idx child edge clear)
    have covered := ih child later (topological.inside idx child edge).2 goal further outside
    have wider := children child edge
    rw [past child later] at wider
    omega

variable [LinearOrder Id] (order : Order) (graph : EventMap Id C)

theorem collectTopology_peeled : ∃ done,
    (collectTopology order graph).topo = done ++ (collectTopology order graph).leftoverNodes ∧
      (∀ id ∈ done, ∀ parent ∈ graphParents graph id, parent ∈ done) ∧
      (done.Pairwise fun earlier later => later ∉ graphParents graph earlier) ∧
      ∀ id ∈ done, id ∉ graphParents graph id := by
  obtain ⟨_, inv⟩ := topology_peeled order graph
  exact ⟨_, rfl, fun id mem => inv.parents_done (mem_append_left _ mem), inv.ordered, inv.irreflexive⟩

theorem mem_cyclicNodes : idx ∈ (build order graph).cyclicNodes ↔ ∃ id ∈ (collectTopology order graph).leftoverNodes,
        (build order graph).items[idx]? = some id :=
  mem_filterMap_idxOf? ((build_items_perm order graph).nodup_iff.mpr graph.distinct)

theorem build_partlyTopological : PartlyTopological (build order graph).childrenByIndex
      (build order graph).cyclicNodes := by
  obtain ⟨done, split, closed, ordered, irreflexive⟩ := collectTopology_peeled order graph
  have nodup := (build_items_perm order graph).nodup_iff.mpr graph.distinct
  have items := (build_items order graph).trans split
  have taken : ∀ {idx id}, (build order graph).items[idx]? = some id →
      (idx ∉ (build order graph).cyclicNodes ↔ id ∈ done) := by
    intro idx id here
    rw [mem_cyclicNodes]
    have mem := items ▸ mem_of_getElem? here
    constructor
    · intro outside
      exact (mem_append.mp mem).resolve_right fun left => outside ⟨id, left, here⟩
    · intro inDone ⟨other, left, there⟩
      obtain rfl := Option.some.inj (here.symm.trans there)
      rw [items] at nodup
      exact (nodup_append.mp nodup).2.2 id inDone id left rfl
  constructor
  · intro idx child edge
    obtain ⟨id, childId, here, there, _⟩ := children_of_build order graph edge
    rw [build_length]
    exact ⟨(List.getElem?_eq_some_iff.mp here).1, (List.getElem?_eq_some_iff.mp there).1⟩
  · intro idx child edge outside
    obtain ⟨id, childId, here, there, cites⟩ := children_of_build order graph edge
    exact (taken here).mpr (closed childId ((taken there).mp outside) id (Peel.mem_citers.mp cites).2)
  · intro idx child edge outside
    obtain ⟨id, childId, here, there, cites⟩ := children_of_build order graph edge
    have parent := (Peel.mem_citers.mp cites).2
    have inDone := (taken here).mp outside
    rw [items] at here there
    by_contra notBefore
    have bound : idx < done.length := by
      by_contra past
      rw [getElem?_append_right (Nat.le_of_not_lt past)] at here
      rw [items] at nodup
      exact (nodup_append.mp nodup).2.2 id inDone id (mem_of_getElem? here) rfl
    rw [getElem?_append_left bound] at here
    rw [getElem?_append_left (Nat.lt_of_le_of_lt (Nat.le_of_not_lt notBefore) bound)] at there
    rcases Nat.eq_or_lt_of_le (Nat.le_of_not_lt notBefore) with rfl | before
    · obtain rfl := Option.some.inj (here.symm.trans there)
      exact irreflexive id inDone parent
    · obtain ⟨boundHere, rfl⟩ := List.getElem?_eq_some_iff.mp here
      obtain ⟨boundThere, rfl⟩ := List.getElem?_eq_some_iff.mp there
      exact pairwise_iff_getElem.mp ordered child idx boundThere boundHere before parent

theorem cyclicNodes_of_acyclic (acyclic : AcyclicGraph graph) : (build order graph).cyclicNodes = [] := by
  have perm := order.perm .topology graph.keys
  have cites : Peel.Cites (graphParents graph) = CitedBy graph := by
    funext parent child
    exact propext mem_graphParents
  have peeled := Peel.peel_order (topology_graph order graph) (perm_insertionSort (· ≤ ·) _)
  have all : _ = _ := peeled.2.2.2.mpr fun id mem => cites ▸ acyclic id (perm.mem_iff.mp mem)
  have topo := (collectTopology_perm order graph).length_eq
  have left : (collectTopology order graph).leftoverNodes = [] := by
    have split : (collectTopology order graph).topo = _ ++ (collectTopology order graph).leftoverNodes := rfl
    rw [split, length_append, all, perm.length_eq] at topo
    exact eq_nil_of_length_eq_zero (by omega)
  unfold build
  dsimp only
  rw [left]
  rfl

end

section

variable {index : RangePrefilterReachability Id} {startIdx goalIdx : Nat}

structure PointInv (index : RangePrefilterReachability Id) (startIdx goalIdx : Nat) (s : PointSearch) : Prop where
  frontier : FrontierInv index.keep index.children [startIdx] s.frontier
  seeded : startIdx ∈ s.frontier.marked
  honest : s.found = true → LeadsTo index.childrenByIndex startIdx goalIdx
  swept : s.found = true ∨ ∀ x ∈ s.frontier.marked, x ∈ s.frontier.pending ∨
    goalIdx ∉ index.children x ∧ ∀ child ∈ index.promisingChildren goalIdx x, child ∈ s.frontier.marked

theorem promisingChildren_subset (mem : child ∈ index.promisingChildren goalIdx idx) :
    child ∈ index.children idx := mem_of_mem_filter mem

theorem PointInv.marked (inv : PointInv index startIdx goalIdx s) (mem : x ∈ s.frontier.marked) :
    Reached index.children [startIdx] x := by
  have sound := inv.frontier.sound x mem
  rwa [keptNext_children] at sound

theorem pointTurn_cases (turn : index.pointTurn goalIdx s = some t) :
    s.found = false ∧ ∃ curr rest, s.frontier.pending = curr :: rest ∧
      (goalIdx ∈ index.children curr ∧ t = ⟨⟨s.frontier.marked, rest⟩, true⟩ ∨
        goalIdx ∉ index.children curr ∧ t = ⟨(index.promisingChildren goalIdx curr).foldl
          (offer index.keep) ⟨s.frontier.marked, rest⟩, false⟩) := by
  unfold pointTurn at turn
  cases running : s.found with
  | true => simp [running] at turn
  | false =>
    rw [running, if_neg Bool.false_ne_true] at turn
    cases popped : s.frontier.pending with
    | nil => simp [popped] at turn
    | cons curr rest =>
      rw [popped] at turn
      dsimp only at turn
      refine ⟨rfl, curr, rest, rfl, ?_⟩
      by_cases goal : goalIdx ∈ index.children curr
      · rw [if_pos goal] at turn
        exact .inl ⟨goal, (Option.some.inj turn).symm⟩
      · rw [if_neg goal] at turn
        exact .inr ⟨goal, (Option.some.inj turn).symm⟩

theorem pointTurn_invariant (s t : PointSearch) (inv : PointInv index startIdx goalIdx s)
    (turn : index.pointTurn goalIdx s = some t) : PointInv index startIdx goalIdx t := by
  obtain ⟨running, curr, rest, popped, ⟨goal, rfl⟩ | ⟨goal, rfl⟩⟩ := pointTurn_cases turn
  all_goals
    have here := inv.marked (inv.frontier.waiting curr (by simp [popped])).1
    have pop := inv.frontier.pop (.of_eq popped)
  · refine ⟨pop, inv.seeded, fun _ => ?_, .inl rfl⟩
    obtain ⟨start, single, leads⟩ := here
    rw [mem_singleton.mp single] at leads
    exact leads.tail goal
  · refine ⟨offers_invariant _ _ _ _ _ pop fun y offered => ?_,
      (offers_marked _ _ _ _).mpr (.inl inv.seeded), fun impossible => Bool.noConfusion impossible,
      .inr fun x mem => ?_⟩
    · rw [keptNext_children]
      exact here.step (promisingChildren_subset offered)
    · have swept := inv.swept.resolve_left (by simp [running])
      rw [offers_marked] at mem
      by_cases old : x ∈ s.frontier.marked
      · rcases swept x old with waiting | ⟨away, marked⟩
        · rw [popped] at waiting
          rcases mem_cons.mp waiting with rfl | waiting
          · exact .inr ⟨goal, fun child offered => (offers_marked _ _ _ _).mpr (.inr offered)⟩
          · exact .inl (offers_keep_pending _ _ _ x waiting)
        · exact .inr ⟨away, fun child offered => (offers_marked _ _ _ _).mpr (.inl (marked child offered))⟩
      · have new := mem.resolve_left old
        have kept : index.keep x = true ∨ index.keep x = false := by cases index.keep x <;> simp
        rcases kept with kept | unkept
        · exact .inl (offers_pending _ _ _ x old new kept)
        · right
          have none : index.children x = [] := by
            rw [← congrFun (keptNext_children index) x, keptNext, if_neg (by simp [unkept])]
          refine ⟨by simp [none], fun child offered => ?_⟩
          have edge := promisingChildren_subset offered
          simp [none] at edge

theorem PointInv.missed (inv : PointInv index startIdx goalIdx s) (stopped : index.pointTurn goalIdx s = none)
    (missed : s.found = false) (topological : PartlyTopological index.childrenByIndex cyclic)
    (ranges : index.descendantRanges = buildDescendantRanges index.childrenByIndex) (outside : goalIdx ∉ cyclic)
    (apart : startIdx ≠ goalIdx) : ¬LeadsTo index.childrenByIndex startIdx goalIdx := by
  have empty : s.frontier.pending = [] := by
    unfold pointTurn at stopped
    rw [missed, if_neg Bool.false_ne_true] at stopped
    cases popped : s.frontier.pending with
    | nil => rfl
    | cons curr rest => simp [popped] at stopped
  have swept := inv.swept.resolve_left (by simp [missed])
  simp only [empty, not_mem_nil, false_or] at swept
  have ahead : ∀ x, LeadsTo index.childrenByIndex x goalIdx → x ∈ s.frontier.marked → x = goalIdx := by
    intro x leads
    induction leads using head_induction_on with
    | refl => exact fun _ => rfl
    | head edge further ih =>
      intro marked
      obtain ⟨away, closed⟩ := swept _ marked
      have bound := (topological.inside _ _ edge).2
      have covered := buildDescendantRanges_partly topological _ bound goalIdx further outside
      have below := (topological.way further outside).2
      refine absurd (ih (closed _ (mem_filter.mpr ⟨edge, ?_⟩)) ▸ edge) away
      rw [ranges]
      simpa using ⟨⟨below, covered.1⟩, covered.2⟩
  exact fun leads => apart (ahead startIdx leads inv.seeded)

theorem reachesIndex_spec (topological : PartlyTopological index.childrenByIndex cyclic)
    (ranges : index.descendantRanges = buildDescendantRanges index.childrenByIndex)
    (inside : startIdx < index.childrenByIndex.length) :
    (index.reachesIndex startIdx goalIdx = true → LeadsTo index.childrenByIndex startIdx goalIdx) ∧
      (LeadsTo index.childrenByIndex startIdx goalIdx → goalIdx ∉ cyclic →
        index.reachesIndex startIdx goalIdx = true) := by
  unfold reachesIndex
  by_cases same : startIdx = goalIdx
  · rw [if_pos same]
    exact ⟨fun _ => same ▸ .refl, fun _ _ => rfl⟩
  · rw [if_neg same]
    by_cases pruned : goalIdx < (index.descendantRanges.getD startIdx (0, 0)).1 ∨
        (index.descendantRanges.getD startIdx (0, 0)).2 < goalIdx
    · rw [if_pos pruned]
      refine ⟨fun impossible => Bool.noConfusion impossible, fun leads outside => ?_⟩
      have covered := buildDescendantRanges_partly topological startIdx inside goalIdx leads outside
      rw [← ranges] at covered
      omega
    · rw [if_neg pruned]
      have first : PointInv index startIdx goalIdx ⟨⟨[startIdx], [startIdx]⟩, false⟩ := by
        refine ⟨⟨fun x mem => .seed (by simpa using mem), fun x mem => ?_, by simp, by simp⟩, by simp,
          fun impossible => Bool.noConfusion impossible, .inr fun x mem => .inl mem⟩
        rw [mem_singleton.mp mem]
        exact ⟨by simp, decide_eq_true inside⟩
      have keeps : ∀ s t, PointInv index startIdx goalIdx s → index.pointTurn goalIdx s = some t →
          PointInv index startIdx goalIdx t := pointTurn_invariant
      have inv := Loop.run_invariant keeps index.childrenByIndex.length first
      have stopped := Loop.run_finished (PointInv index startIdx goalIdx)
        (fun s => outstanding (range index.childrenByIndex.length) s.frontier)
        keeps (fun s t _ turn => ?_) index.childrenByIndex.length first ?_
      · refine ⟨inv.honest, fun leads outside => ?_⟩
        by_contra missed
        exact inv.missed stopped (by simpa using missed) topological ranges outside same leads
      · obtain ⟨_, curr, rest, popped, ⟨_, rfl⟩ | ⟨_, rfl⟩⟩ := pointTurn_cases turn
        · exact offers_decrease index popped [] rfl
        · exact offers_decrease index popped _ rfl
      · have fewer := unmarked_length_lt (range index.childrenByIndex.length) [] startIdx
          (mem_range.mpr inside) (by simp)
        simp only [nil_append, not_mem_nil, not_false_eq_true, decide_true, filter_true, length_range] at fewer
        simp only [outstanding, length_singleton]
        omega

end

theorem reachesWith_unknown [DecidableEq Id] {items : List Id} {cyclicNodes : List Nat} {start goal : Id}
    {selfIsReachable : Bool} {contains : Nat → Nat → Bool}
    (answer : reachesWith items cyclicNodes start goal selfIsReachable contains = .unknown) :
    start ∉ items ∨ goal ∉ items ∨ cyclicNodes ≠ [] := by
  by_contra none
  obtain ⟨first, second, acyclic⟩ : start ∈ items ∧ goal ∈ items ∧ cyclicNodes = [] := by simpa using none
  obtain ⟨startIdx, here⟩ := Option.isSome_iff_exists.mp (isSome_idxOf?.mpr first)
  obtain ⟨goalIdx, there⟩ := Option.isSome_iff_exists.mp (isSome_idxOf?.mpr second)
  have ends : reachEndpoints items start goal = some (startIdx, goalIdx) := by simp [reachEndpoints, here, there]
  rw [reachesWith, ends] at answer
  simp only [reachFromIndex, acyclic, not_mem_nil, or_self, if_false] at answer
  split at answer
  · cases answer
  · split at answer <;> cases answer

/-- A membership test that is never wrong about a way, and finds all ways outside the cycles. -/
structure Tells (slots : List (List Nat)) (cyclicNodes : List Nat) (contains : Nat → Nat → Bool) : Prop where
  sound : ∀ startIdx < slots.length, ∀ goalIdx, contains startIdx goalIdx = true → LeadsTo slots startIdx goalIdx
  complete : ∀ startIdx < slots.length, ∀ goalIdx, LeadsTo slots startIdx goalIdx → goalIdx ∉ cyclicNodes →
    contains startIdx goalIdx = true

theorem reachFromIndex_spec {cyclicNodes : List Nat} (tells : Tells slots cyclicNodes contains) (inside : startIdx < slots.length)
    (selfIsReachable : Bool) :
    (reachFromIndex startIdx goalIdx cyclicNodes selfIsReachable (contains startIdx goalIdx) = .yes →
        LeadsTo slots startIdx goalIdx) ∧
      (reachFromIndex startIdx goalIdx cyclicNodes selfIsReachable (contains startIdx goalIdx) = .no →
        ¬LeadsTo slots startIdx goalIdx) := by
  unfold reachFromIndex
  split
  · rename_i same
    refine ⟨fun _ => ?_, fun answer => (by cases answer)⟩
    rw [same.2]
  · split
    · exact ⟨fun answer => (by cases answer), fun answer => (by cases answer)⟩
    · rename_i clear
      split
      · rename_i found
        exact ⟨fun _ => tells.sound startIdx inside goalIdx found, fun answer => (by cases answer)⟩
      · rename_i missed
        refine ⟨fun answer => (by cases answer), fun _ leads => missed ?_⟩
        exact tells.complete startIdx inside goalIdx leads fun mem => clear (.inr mem)

variable [LinearOrder Id] (order : Order) (graph : EventMap Id C)

theorem forward_tells : Tells (build order graph).childrenByIndex
    (build order graph).cyclicNodes fun startIdx goalIdx =>
      goalIdx ∈ (ForwardReachabilityIndex.build order graph).descendantBitmaps.getD startIdx ∅ where
  sound startIdx inside goalIdx found := (mem_buildDescendantBitmaps (build_partlyTopological order graph)
    startIdx inside goalIdx).1 (of_decide_eq_true found)
  complete startIdx inside goalIdx leads outside := decide_eq_true
    ((mem_buildDescendantBitmaps (build_partlyTopological order graph) startIdx inside goalIdx).2 leads outside)

theorem prefilter_tells : Tells (build order graph).childrenByIndex (build order graph).cyclicNodes
    (build order graph).reachesIndex where
  sound _ inside _ := (reachesIndex_spec (build_partlyTopological order graph) rfl inside).1
  complete _ inside _ := (reachesIndex_spec (build_partlyTopological order graph) rfl inside).2

theorem leadsTo_iff (here : (build order graph).items.idxOf? start = some startIdx)
    (there : (build order graph).items.idxOf? goal = some goalIdx) :
    LeadsTo (build order graph).childrenByIndex startIdx goalIdx ↔
      LeadsTowards graph start goal := by
  have perm := build_items_perm order graph
  have nodup := perm.nodup_iff.mpr graph.distinct
  have known := perm.mem_iff.mp (mem_of_getElem? ((idxOf?_eq_some nodup).mp here))
  have reached := reached_children order graph [start] ((idxOf?_eq_some nodup).mp there)
  rw [reached_iff_leadsTowards] at reached
  have listed : LeadsTo (build order graph).childrenByIndex startIdx goalIdx ↔
      Reached (build order graph).children [startIdx] goalIdx := by
    simp only [Reached, mem_singleton, exists_eq_left]
    rfl
  rw [listed]
  simpa [here, known] using reached

/-- No answer of an index is wrong: with a test that tells the ways, `yes` means that there is one and `no`
    that there is none. -/
theorem reachesWith_spec (tells : Tells (build order graph).childrenByIndex
      (build order graph).cyclicNodes contains) (start goal : Id) (selfIsReachable : Bool) :
    (reachesWith (build order graph).items (build order graph).cyclicNodes start goal selfIsReachable contains = .yes →
      LeadsTowards graph start goal) ∧
    (reachesWith (build order graph).items (build order graph).cyclicNodes start goal selfIsReachable contains = .no →
      ¬LeadsTowards graph start goal) := by
  unfold reachesWith
  cases ends : reachEndpoints (build order graph).items start goal with
  | none => exact ⟨fun answer => (by cases answer), fun answer => (by cases answer)⟩
  | some pair =>
    obtain ⟨startIdx, goalIdx⟩ := pair
    obtain ⟨here, there⟩ : (build order graph).items.idxOf? start = some startIdx ∧
        (build order graph).items.idxOf? goal = some goalIdx := by
      unfold reachEndpoints at ends
      cases first : (build order graph).items.idxOf? start with
      | none => simp [first] at ends
      | some i =>
        cases second : (build order graph).items.idxOf? goal with
        | none => simp [first, second] at ends
        | some j => simpa [first, second] using ends
    have inside : startIdx < (build order graph).childrenByIndex.length := by
      rw [build_length]
      exact (idxOf?_eq_some_iff.mp here).1
    rw [← leadsTo_iff order graph here there]
    exact reachFromIndex_spec tells inside selfIsReachable

/-- Both indexes answer soundly on every graph, and on graphs without cycles they answer every question about
    known events, alike. -/
theorem reaches_exact (start goal : Id) :
    ((ForwardReachabilityIndex.build order graph).reaches start goal = .yes ∨
        (build order graph).reaches start goal = .yes →
      LeadsTowards graph start goal) ∧
    ((ForwardReachabilityIndex.build order graph).reaches start goal = .no ∨
        (build order graph).reaches start goal = .no →
      ¬LeadsTowards graph start goal) ∧
    (AcyclicGraph graph → start ∈ graph.keys → goal ∈ graph.keys →
      (ForwardReachabilityIndex.build order graph).reaches start goal ≠ .unknown ∧
      (ForwardReachabilityIndex.build order graph).reaches start goal =
        (build order graph).reaches start goal) := by
  have forward := reachesWith_spec order graph (forward_tells order graph) start goal true
  have prefilter := reachesWith_spec order graph (prefilter_tells order graph) start goal false
  have same : ∀ answer, (ForwardReachabilityIndex.build order graph).reaches start goal = answer ↔
      reachesWith (build order graph).items
        (build order graph).cyclicNodes start goal true
        (fun startIdx goalIdx =>
          goalIdx ∈ (ForwardReachabilityIndex.build order graph).descendantBitmaps.getD startIdx ∅) = answer :=
    fun _ => Iff.rfl
  refine ⟨?_, ?_, fun acyclic first second => ?_⟩
  · rintro (answer | answer)
    · exact forward.1 ((same _).mp answer)
    · exact prefilter.1 answer
  · rintro (answer | answer)
    · exact forward.2 ((same _).mp answer)
    · exact prefilter.2 answer
  · have known : ∀ id ∈ graph.keys, id ∈ (build order graph).items :=
      fun id member => (build_items_perm order graph).mem_iff.mpr member
    have clear := cyclicNodes_of_acyclic order graph acyclic
    have definite : ∀ selfIsReachable contains,
        reachesWith (build order graph).items
          (build order graph).cyclicNodes start goal selfIsReachable contains ≠
            .unknown := by
      intro selfIsReachable contains answer
      rcases reachesWith_unknown answer with missing | missing | cyclic
      · exact missing (known start first)
      · exact missing (known goal second)
      · exact cyclic clear
    refine ⟨fun answer => definite _ _ ((same _).mp answer), ?_⟩
    cases left : (ForwardReachabilityIndex.build order graph).reaches start goal with
    | unknown => exact absurd ((same _).mp left) (definite _ _)
    | yes =>
      cases right : (build order graph).reaches start goal with
      | unknown => exact absurd right (definite _ _)
      | yes => rfl
      | no => exact absurd (forward.1 ((same _).mp left)) (prefilter.2 right)
    | no =>
      cases right : (build order graph).reaches start goal with
      | unknown => exact absurd right (definite _ _)
      | yes => exact absurd (prefilter.1 right) (forward.2 ((same _).mp left))
      | no => rfl

end Rezzy.Resolve
