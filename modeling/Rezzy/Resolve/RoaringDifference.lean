import Mathlib.Data.Finset.Sort
import Rezzy.Auth.RoaringRuns
import Rezzy.Resolve.MultiSpec

namespace Rezzy.Auth

open List hiding next
open Basespec State Permuted Ancestry Worklist Finset
open Rezzy.Resolve (stateValues)

variable {Id C : Type}

section

def differingIndices (chains : List (Finset Nat)) : Finset Nat :=
  let union := chains.foldl (· ∪ ·) ∅
  let intersection := chains.foldl (fun both chain => some (both.elim chain (· ∩ chain))) none
  match intersection with
  | some both => union \ both
  | none => union

theorem mem_union_foldl (chains : List (Finset Nat)) (start : Finset Nat) (j : Nat) :
    j ∈ chains.foldl (· ∪ ·) start ↔ j ∈ start ∨ ∃ chain ∈ chains, j ∈ chain := by
  induction chains generalizing start with
  | nil => simp
  | cons chain chains ih => simp [ih, or_assoc]

theorem mem_intersection_foldl (chains : List (Finset Nat)) (start : Finset Nat) :
    ∃ both, chains.foldl (fun both chain => some (Option.elim both chain (· ∩ chain))) (some start) = some both ∧
      ∀ j, j ∈ both ↔ j ∈ start ∧ ∀ chain ∈ chains, j ∈ chain := by
  induction chains generalizing start with
  | nil => exact ⟨start, rfl, by simp⟩
  | cons chain chains ih =>
    obtain ⟨both, folded, members⟩ := ih (start ∩ chain)
    exact ⟨both, folded, fun j => by rw [members]; simp [and_assoc]⟩

theorem mem_differingIndices (chains : List (Finset Nat)) (j : Nat) :
    j ∈ differingIndices chains ↔ (∃ chain ∈ chains, j ∈ chain) ∧ ∃ chain ∈ chains, j ∉ chain := by
  cases chains with
  | nil => simp [differingIndices]
  | cons chain chains =>
    obtain ⟨both, folded, members⟩ := mem_intersection_foldl chains chain
    have unfolded : differingIndices (chain :: chains) = (chain :: chains).foldl (· ∪ ·) ∅ \ both := by
      unfold differingIndices
      rw [foldl_cons (b := none), Option.elim_none, folded]
    rw [unfolded, mem_sdiff, mem_union_foldl, members]
    simp only [notMem_empty, false_or, List.mem_cons, exists_eq_or_imp, not_and_or, not_forall]
    simp

end

namespace AuthGraph

variable [LinearOrder Id]

def itemsAt (graph : AuthGraph Id) (indices : Finset Nat) : Option (List Id) :=
  (indices.sort (· ≤ ·)).mapM graph.index.itemAt

def stateAuthDifference (graph : AuthGraph Id) (stateMaps : List (SharedState Id)) : Option (List Id) :=
  graph.itemsAt (differingIndices
    (stateMaps.map fun state => gather graph.index.items graph.authBitmaps (stateValues state)))

def tryStateAuthDifference (graph : AuthGraph Id) (stateMaps : List (SharedState Id)) :
    Option (Except (MissingEvents Id) (List Id)) :=
  match MissingEvents.check ((stateMaps.flatMap stateValues).filter fun id => (graph.index.indexOf id).isNone) with
  | .error missing => some (.error missing)
  | .ok () => (graph.stateAuthDifference stateMaps).map .ok

structure HybridWalk (Id : Type) where
  chain : Finset Nat
  walked : List Id
  missing : List Id
  stack : List Id

def hybridTurn (graph : AuthGraph Id) (provider : EventMap Id C) (walk : HybridWalk Id) :
    Option (HybridWalk Id) :=
  match walk.stack with
  | [] => none
  | id :: rest =>
    match graph.index.indexOf id with
    | some idx => some { walk with chain := Insert.insert idx (walk.chain ∪ rowAt graph.authBitmaps idx), stack := rest }
    | none =>
      if id ∈ walk.walked then some { walk with stack := rest }
      else
        match provider.get id with
        | some event =>
          some { walk with walked := walk.walked ++ [id], stack := event.authEvents.reverse ++ rest }
        | none => some { walk with walked := walk.walked ++ [id], missing := walk.missing ++ [id], stack := rest }

def hybridWalk (graph : AuthGraph Id) (provider : EventMap Id C) (state : SharedState Id) : HybridWalk Id :=
  Loop.run (hybridTurn graph provider)
    ((stateValues state).length + Worklist.edgeCount (contextAuth provider) provider.keys)
    ⟨∅, [], [], (stateValues state).reverse⟩

def hybridStateAuthDifference (order : HashOrder GraphSite) (graph : AuthGraph Id)
    (stateMaps : List (SharedState Id)) (provider : EventMap Id C) :
    Option (Except (AuthDifferenceError Id) (List Id)) :=
  if graph.complete then
    let walks := stateMaps.map (hybridWalk graph provider)
    match MissingEvents.check (walks.flatMap HybridWalk.missing) with
    | .error missing => some (.error (.missing missing))
    | .ok () =>
      let walkedUnion := order.iter .walkedUnion (walks.flatMap HybridWalk.walked).dedup
      (graph.itemsAt (differingIndices (walks.map HybridWalk.chain))).map fun indexed =>
        .ok ((indexed ++ walkedUnion.filter fun id => !walks.all fun walk => id ∈ walk.walked).insertionSort (· ≤ ·))
  else some (.error .incompleteGraph)

def FullChain (events : EventMap Id C) (state : SharedState Id) (id : Id) : Prop :=
  Worklist.Reached (contextAuth events) (stateValues state) id

def InStateDifference (events : EventMap Id C) (stateMaps : List (SharedState Id)) (id : Id) : Prop :=
  (∃ state ∈ stateMaps, FullChain events state id) ∧ ∃ state ∈ stateMaps, ¬FullChain events state id

omit [LinearOrder Id] in
theorem itemsAt_some {graph : AuthGraph Id} (inRange : ∀ j ∈ indices, j < graph.index.items.length) :
    ∃ ids, graph.itemsAt indices = some ids ∧ ids.Nodup ∧
      ∀ id, id ∈ ids ↔ ∃ j ∈ indices, graph.index.items[j]? = some id := by
  have upTo : ∀ js : List Nat, (∀ j ∈ js, j < graph.index.items.length) →
      js.mapM graph.index.itemAt = some (js.filterMap graph.index.itemAt) := by
    intro js
    induction js with
    | nil => intro _; rfl
    | cons j js ih =>
      intro inRange
      obtain ⟨item, found⟩ : ∃ item, graph.index.itemAt j = some item :=
        ⟨_, getElem?_eq_getElem (inRange j mem_cons_self)⟩
      rw [mapM_cons, found, ih fun k mem => inRange k (mem_cons_of_mem _ mem), filterMap_cons, found]
      rfl
  refine ⟨(indices.sort (· ≤ ·)).filterMap graph.index.itemAt, upTo _ fun j mem =>
    inRange j (mem_sort .. |>.mp mem), ?_, fun id => ?_⟩
  · apply List.Nodup.filterMap _ (sort_nodup ..)
    intro j k id placed other
    have inside := (List.getElem?_eq_some_iff.mp placed).1
    exact (getElem?_inj inside graph.index.distinct).mp (placed.trans other.symm)
  · rw [List.mem_filterMap]
    refine exists_congr fun j => ?_
    rw [mem_sort]
    rfl

section

variable {graph : AuthGraph Id} {provider : EventMap Id C}

def walkEdges (graph : AuthGraph Id) (provider : EventMap Id C) (id : Id) : List Id :=
  if id ∈ graph.index.items then [] else contextAuth provider id

structure WalkInv (graph : AuthGraph Id) (provider : EventMap Id C) (start : List Id) (walk : HybridWalk Id)
    (met : List Id) : Prop where
  visits : Worklist.VisitInv (walkEdges graph provider) start ⟨met, walk.stack⟩
  chain : walk.chain = gather graph.index.items graph.authBitmaps met
  walked : ∀ id, id ∈ walk.walked ↔ id ∈ met ∧ id ∉ graph.index.items
  missing : ∀ id, id ∈ walk.missing ↔ id ∈ walk.walked ∧ provider.get id = none

theorem hybridTurn_cases (turn : hybridTurn graph provider walk = some next) : ∃ id rest, walk.stack = id :: rest ∧
      ((∃ idx, graph.index.indexOf id = some idx ∧
          next = { walk with chain := Insert.insert idx (walk.chain ∪ rowAt graph.authBitmaps idx), stack := rest }) ∨
        id ∉ graph.index.items ∧ id ∈ walk.walked ∧ next = { walk with stack := rest } ∨
        id ∉ graph.index.items ∧ id ∉ walk.walked ∧ next.chain = walk.chain ∧ next.walked = walk.walked ++ [id] ∧
          (∀ other, other ∈ next.missing ↔ other ∈ walk.missing ∨ other = id ∧ provider.get id = none) ∧
          next.stack = (contextAuth provider id).reverse ++ rest) := by
  unfold hybridTurn at turn
  cases taken : walk.stack with
  | nil => simp [taken] at turn
  | cons id rest =>
    refine ⟨id, rest, rfl, ?_⟩
    simp only [taken] at turn
    cases position : graph.index.indexOf id with
    | some idx =>
      simp only [position, Option.some.injEq] at turn
      exact .inl ⟨idx, rfl, turn.symm⟩
    | none =>
      have unindexed : id ∉ graph.index.items := idxOf?_eq_none_iff.mp position
      simp only [position] at turn
      by_cases seen : id ∈ walk.walked
      · rw [if_pos seen] at turn
        exact .inr (.inl ⟨unindexed, seen, (Option.some.inj turn).symm⟩)
      · rw [if_neg seen] at turn
        refine .inr (.inr ⟨unindexed, seen, ?_⟩)
        cases found : provider.get id with
        | some event =>
          simp only [found, Option.some.injEq] at turn
          subst turn
          simp [contextAuth, found]
        | none =>
          simp only [found, Option.some.injEq] at turn
          subst turn
          simp [contextAuth, found]

theorem WalkInv.turn_indexed (inv : WalkInv graph provider start walk met) {id : Id} (taken : walk.stack = id :: rest)
    (position : graph.index.indexOf id = some idx) : WalkInv graph provider start
      { walk with chain := Insert.insert idx (walk.chain ∪ rowAt graph.authBitmaps idx), stack := rest }
      (if id ∈ met then met else met ++ [id]) := by
  have indexed : id ∈ graph.index.items := by
    rw [← isSome_idxOf?, ← DenseIndex.indexOf, position]
    rfl
  have bare : walkEdges graph provider id = [] := if_pos indexed
  refine ⟨inv.visits.turn (x := id) ⟨taken, ?_, ?_, ?_⟩, ?_, ?_, inv.missing⟩
  · intro seen
    rw [if_pos seen]
  · intro fresh
    rw [if_neg fresh]
  · intro _
    rw [bare, append_nil]
  · rw [inv.chain]
    by_cases seen : id ∈ met
    · rw [if_pos seen]
      ext j
      rw [mem_insert, mem_union]
      refine ⟨fun either => ?_, fun old => .inr (.inl old)⟩
      rcases either with here | old | row
      · exact mem_gather.mpr ⟨id, seen, idx, position, .inl here⟩
      · exact old
      · exact mem_gather.mpr ⟨id, seen, idx, position, .inr row⟩
    · rw [if_neg seen, gather_append_ids, ← DenseIndex.indexOf, position]
  · intro _
    rw [inv.walked]
    refine and_congr_left fun unindexed => ?_
    split
    · rfl
    · rw [List.mem_append, List.mem_singleton]
      refine ⟨.inl, fun either => either.resolve_right ?_⟩
      rintro rfl
      exact unindexed indexed

theorem WalkInv.turn {start met : List Id} {walk next : HybridWalk Id}
    (inv : WalkInv graph provider start walk met) (turn : hybridTurn graph provider walk = some next) :
    ∃ met', WalkInv graph provider start next met' := by
  obtain ⟨id, rest, taken, ⟨idx, position, rfl⟩ | ⟨unindexed, seen, rfl⟩ | ⟨unindexed, fresh, chain, walked,
    missing, stack⟩⟩ := hybridTurn_cases turn
  · exact ⟨_, inv.turn_indexed taken position⟩
  · have known := ((inv.walked id).mp seen).1
    exact ⟨met, inv.visits.turn (x := id) ⟨taken, fun _ => rfl, absurd known, absurd known⟩,
      inv.chain, inv.walked, inv.missing⟩
  · have unseen : id ∉ met := fun known => fresh ((inv.walked id).mpr ⟨known, unindexed⟩)
    refine ⟨met ++ [id], inv.visits.turn (x := id) ⟨taken, ?_, fun _ => rfl, fun _ => ?_⟩, ?_, ?_, ?_⟩
    · exact fun known => absurd known unseen
    · rw [stack, walkEdges, if_neg unindexed]
      exact ((reverse_perm _).append_right rest).trans perm_append_comm
    · have outside : graph.index.items.idxOf? id = none := idxOf?_eq_none_iff.mpr unindexed
      rw [chain, inv.chain, gather_append_ids, outside]
    · intro other
      rw [walked, List.mem_append, List.mem_append, inv.walked, List.mem_singleton, or_and_right]
      refine or_congr_right ⟨?_, And.left⟩
      rintro rfl
      exact ⟨rfl, unindexed⟩
    · intro other
      rw [missing, walked, List.mem_append, List.mem_singleton, inv.missing, or_and_right]
      refine or_congr_right (and_congr_right ?_)
      rintro rfl
      rfl

theorem hybridTurn_decreases (turn : hybridTurn graph provider walk = some next) :
    Worklist.unvisitedEdges (contextAuth provider) provider.keys ⟨next.walked, next.stack⟩ <
      Worklist.unvisitedEdges (contextAuth provider) provider.keys ⟨walk.walked, walk.stack⟩ := by
  obtain ⟨id, rest, taken, ⟨-, -, rfl⟩ | ⟨unindexed, seen, rfl⟩ | ⟨unindexed, fresh, chain, walked,
    missing, stack⟩⟩ := hybridTurn_cases turn
  · simp [Worklist.unvisitedEdges, taken]
  · simp [Worklist.unvisitedEdges, taken]
  · have turned : Worklist.Turned (contextAuth provider) ⟨walk.walked, walk.stack⟩ ⟨next.walked, next.stack⟩ id
        rest := by
      refine ⟨taken, fun seen => absurd seen fresh, fun _ => walked, fun _ => ?_⟩
      rw [stack]
      exact ((reverse_perm _).append_right rest).trans perm_append_comm
    exact turned.decreases (Rezzy.Resolve.chainEdges_support provider)

theorem hybridTurn_done (done : hybridTurn graph provider walk = none) : walk.stack = [] := by
  unfold hybridTurn at done
  split at done
  · assumption
  · exfalso
    revert done
    split
    · simp
    · split
      · simp
      · split <;> simp

theorem hybridWalk_spec (graph : AuthGraph Id) (provider : EventMap Id C) (state : SharedState Id) :
    ∃ met, (∀ id, id ∈ met ↔ Worklist.Reached (walkEdges graph provider) (stateValues state) id) ∧
      (hybridWalk graph provider state).chain = gather graph.index.items graph.authBitmaps met ∧
      (∀ id, id ∈ (hybridWalk graph provider state).walked ↔ id ∈ met ∧ id ∉ graph.index.items) ∧
      ∀ id, id ∈ (hybridWalk graph provider state).missing ↔
        id ∈ (hybridWalk graph provider state).walked ∧ provider.get id = none := by
  have start : WalkInv graph provider (stateValues state) ⟨∅, [], [], (stateValues state).reverse⟩ [] :=
    ⟨.initial (reverse_perm _), rfl, by simp, by simp⟩
  have steps : ∀ walk next, (∃ met, WalkInv graph provider (stateValues state) walk met) →
      hybridTurn graph provider walk = some next → ∃ met, WalkInv graph provider (stateValues state) next met := by
    rintro walk next ⟨met, inv⟩ turn
    exact inv.turn turn
  have kept : ∃ met, WalkInv graph provider (stateValues state) (hybridWalk graph provider state) met :=
    Loop.run_invariant steps _ ⟨[], start⟩
  have done : hybridTurn graph provider (hybridWalk graph provider state) = none := by
    apply Loop.run_finished (fun _ => True)
      (fun walk => unvisitedEdges (contextAuth provider) provider.keys ⟨walk.walked, walk.stack⟩)
    · exact fun _ _ _ _ => trivial
    · exact fun _ _ _ turn => hybridTurn_decreases turn
    · trivial
    · simp [unvisitedEdges]
  obtain ⟨met, inv⟩ := kept
  have empty := hybridTurn_done done
  exact ⟨met, inv.visits.mem_visited empty, inv.chain, inv.walked, inv.missing⟩

end

variable {graph : AuthGraph Id} {events : EventMap Id C}

structure Tracks (graph : AuthGraph Id) (events : EventMap Id C) (state : SharedState Id) (chain : Finset Nat) :
    Prop where
  inRange : ∀ j ∈ chain, j < graph.index.items.length
  exactly : ∀ j id, graph.index.items[j]? = some id → (j ∈ chain ↔ FullChain events state id)

theorem Tracks.of_met (exact : Exact (contextAuth events) graph.index.items graph.authBitmaps)
    (walked : ∀ id, id ∈ met ↔ Worklist.Reached (walkEdges graph events) (stateValues state) id) :
    Tracks graph events state (gather graph.index.items graph.authBitmaps met) where
  inRange j row := by
    obtain ⟨id, placed⟩ := exact.gather_placed row
    exact (List.getElem?_eq_some_iff.mp placed).1
  exactly j id placed := by
    rw [FullChain, exact.reached_iff walked]
    constructor
    · exact fun row => .inr ⟨j, row, placed⟩
    · rintro (⟨unindexed, _⟩ | ⟨k, row, other⟩)
      · exact absurd (mem_of_getElem? placed) unindexed
      · have inside := (List.getElem?_eq_some_iff.mp placed).1
        rwa [(getElem?_inj inside exact.nodup).mp (placed.trans other.symm)]

theorem itemsAt_differing (tracks : ∀ state ∈ stateMaps, Tracks graph events state (chainOf state)) :
    ∃ ids, graph.itemsAt (differingIndices (stateMaps.map chainOf)) = some ids ∧ ids.Nodup ∧
      ∀ id, id ∈ ids ↔ id ∈ graph.index.items ∧ InStateDifference events stateMaps id := by
  have differing : ∀ j, j ∈ differingIndices (stateMaps.map chainOf) ↔
      (∃ state ∈ stateMaps, j ∈ chainOf state) ∧ ∃ state ∈ stateMaps, j ∉ chainOf state := by
    intro j
    simp [mem_differingIndices]
  have inRange : ∀ j ∈ differingIndices (stateMaps.map chainOf), j < graph.index.items.length := by
    intro j mem
    obtain ⟨⟨state, inMaps, row⟩, _⟩ := (differing j).mp mem
    exact (tracks state inMaps).inRange j row
  obtain ⟨ids, found, nodup, members⟩ := itemsAt_some inRange
  refine ⟨ids, found, nodup, fun id => (members id).trans ⟨?_, ?_⟩⟩
  · rintro ⟨j, mem, placed⟩
    obtain ⟨⟨state, inMaps, row⟩, other, inOthers, absent⟩ := (differing j).mp mem
    refine ⟨mem_of_getElem? placed, ⟨state, inMaps, ?_⟩, other, inOthers, ?_⟩
    · exact ((tracks state inMaps).exactly j id placed).mp row
    · exact fun chained => absent (((tracks other inOthers).exactly j id placed).mpr chained)
  · rintro ⟨indexed, ⟨state, inMaps, chained⟩, other, inOthers, absent⟩
    obtain ⟨j, inside, same⟩ := getElem_of_mem indexed
    have placed : graph.index.items[j]? = some id := by rw [getElem?_eq_getElem inside, same]
    refine ⟨j, (differing j).mpr ⟨⟨state, inMaps, ?_⟩, other, inOthers, ?_⟩, placed⟩
    · exact ((tracks state inMaps).exactly j id placed).mpr chained
    · exact fun row => absent (((tracks other inOthers).exactly j id placed).mp row)

theorem stateAuthDifference_spec (exact : Exact (contextAuth events) graph.index.items graph.authBitmaps)
    (indexed : ∀ state ∈ stateMaps, ∀ id ∈ stateValues state, id ∈ graph.index.items) :
    ∃ ids, graph.stateAuthDifference stateMaps = some ids ∧ ids.Nodup ∧
      ∀ id, id ∈ ids ↔ InStateDifference events stateMaps id := by
  have tracks : ∀ state ∈ stateMaps,
      Tracks graph events state (gather graph.index.items graph.authBitmaps (stateValues state)) := by
    intro state inMaps
    apply Tracks.of_met exact
    intro id
    refine ⟨.seed, fun reached => ?_⟩
    apply reached.subset_of_closed (· ∈ stateValues state) fun _ mem => mem
    intro x y mem edge
    rw [walkEdges, if_pos (indexed state inMaps x mem)] at edge
    cases edge
  obtain ⟨ids, found, nodup, members⟩ := itemsAt_differing tracks
  refine ⟨ids, found, nodup, fun id => (members id).trans (and_iff_right_of_imp ?_)⟩
  rintro ⟨⟨state, inMaps, chained⟩, _⟩
  exact chained.subset_of_closed (· ∈ graph.index.items) (indexed state inMaps) fun x y mem =>
    exact.closed x mem y

theorem tryStateAuthDifference_indexed (indexed : ∀ state ∈ stateMaps, ∀ id ∈ stateValues state, id ∈ graph.index.items)
    (found : graph.stateAuthDifference stateMaps = some ids) :
    graph.tryStateAuthDifference stateMaps = some (.ok ids) := by
  have none : (stateMaps.flatMap stateValues).filter (fun id => (graph.index.indexOf id).isNone) = [] := by
    rw [filter_eq_nil_iff]
    intro id mem
    obtain ⟨state, inMaps, value⟩ := mem_flatMap.mp mem
    have placed := isSome_idxOf?.mpr (indexed state inMaps id value)
    rw [DenseIndex.indexOf, Bool.not_eq_true, Option.isNone_eq_false_iff]
    exact placed
  unfold tryStateAuthDifference
  rw [check_ok.mpr none]
  rw [found]
  rfl

theorem hybridWalk_tracks (exact : Exact (contextAuth events) graph.index.items graph.authBitmaps)
    (state : SharedState Id) :
    Tracks graph events state (hybridWalk graph events state).chain ∧
      (∀ id, id ∈ (hybridWalk graph events state).walked ↔ id ∉ graph.index.items ∧ FullChain events state id) ∧
      ∀ id ∈ (hybridWalk graph events state).missing, FullChain events state id ∧ id ∉ events.keys := by
  obtain ⟨met, reached, chain, walked, missing⟩ := hybridWalk_spec graph events state
  have outside : ∀ id, id ∈ (hybridWalk graph events state).walked ↔
      id ∉ graph.index.items ∧ FullChain events state id := by
    intro id
    rw [walked, and_comm]
    refine and_congr_right fun unindexed => ?_
    rw [FullChain, exact.reached_iff reached]
    constructor
    · exact fun mem => .inl ⟨unindexed, mem⟩
    · rintro (⟨_, mem⟩ | ⟨j, _, placed⟩)
      · exact mem
      · exact absurd (mem_of_getElem? placed) unindexed
  refine ⟨chain ▸ .of_met exact reached, outside, fun id mem => ?_⟩
  obtain ⟨visited, absent⟩ := (missing id).mp mem
  exact ⟨((outside id).mp visited).2, EventMap.get_eq_none.mp absent⟩

theorem hybridStateAuthDifference_spec (order : HashOrder GraphSite) (complete : graph.complete = true)
    (exact : Exact (contextAuth events) graph.index.items graph.authBitmaps)
    (known : ∀ state ∈ stateMaps, ∀ id, FullChain events state id → id ∈ events.keys) :
    ∃ ids, hybridStateAuthDifference order graph stateMaps events = some (.ok ids) ∧
      ids.Pairwise (· < ·) ∧ ∀ id, id ∈ ids ↔ InStateDifference events stateMaps id := by
  have missing : (stateMaps.map (hybridWalk graph events)).flatMap HybridWalk.missing = [] := by
    rw [List.flatMap_eq_nil_iff]
    intro walk mem
    obtain ⟨state, inMaps, rfl⟩ := List.mem_map.mp mem
    rw [List.eq_nil_iff_forall_not_mem]
    intro id missed
    obtain ⟨chained, absent⟩ := (hybridWalk_tracks exact state).2.2 id missed
    exact absent (known state inMaps id chained)
  have tracks : ∀ state ∈ stateMaps, Tracks graph events state (hybridWalk graph events state).chain :=
    fun state _ => (hybridWalk_tracks exact state).1
  obtain ⟨indexed, found, nodup, members⟩ := itemsAt_differing tracks
  have unindexed : ∀ id, id ∈ (order.iter .walkedUnion
        ((stateMaps.map (hybridWalk graph events)).flatMap HybridWalk.walked).dedup).filter
        (fun id => !(stateMaps.map (hybridWalk graph events)).all fun walk => id ∈ walk.walked) ↔
      id ∉ graph.index.items ∧ InStateDifference events stateMaps id := by
    intro id
    have walked := fun state => (hybridWalk_tracks exact state).2.1 id
    rw [List.mem_filter, (order.perm _ _).mem_iff, List.mem_dedup, InStateDifference]
    simp only [List.mem_flatMap, List.mem_map, exists_exists_and_eq_and, walked, List.all_map, Function.comp_def,
      Bool.not_eq_true', List.all_eq_false, decide_eq_true_eq]
    constructor
    · rintro ⟨⟨state, inMaps, outside, chained⟩, other, inOthers, absent⟩
      exact ⟨outside, ⟨state, inMaps, chained⟩, other, inOthers, fun chained => absent ⟨outside, chained⟩⟩
    · rintro ⟨outside, ⟨state, inMaps, chained⟩, other, inOthers, absent⟩
      exact ⟨⟨state, inMaps, outside, chained⟩, other, inOthers, fun both => absent both.2⟩
  unfold hybridStateAuthDifference
  rw [if_pos complete]
  dsimp only
  rw [check_ok.mpr missing, List.map_map]
  dsimp only [Function.comp_def]
  rw [found]
  refine ⟨_, rfl, ?_, fun id => ?_⟩
  · apply List.SortedLT.pairwise
    apply List.sortedLE_insertionSort.sortedLT_of_nodup
    rw [(List.perm_insertionSort _ _).nodup_iff, List.nodup_append]
    refine ⟨nodup, ((order.perm _ _).nodup_iff.mpr (List.nodup_dedup _)).filter _, ?_⟩
    rintro id inIndex other outside rfl
    exact ((unindexed id).mp outside).1 ((members id).mp inIndex).1
  · rw [List.mem_insertionSort, List.mem_append, members, unindexed, ← or_and_right]
    exact and_iff_right (Decidable.em _)

end AuthGraph

end Rezzy.Auth
