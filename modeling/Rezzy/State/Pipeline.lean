import Rezzy.State.Merge

namespace Rezzy.State

open List Function Stream
open Function (update)

section

open Basespec Resolve Permuted

variable {Id C T D : Type}

section

structure Slots (Id T : Type) where
  outDegree : Id → Nat
  stateAfter : Id → Option T

variable [DecidableEq Id]

def takeFinalizedParent (taken : Slots Id T × List T) (parent : Id) : Slots Id T × List T :=
  let outDegree := update taken.1.outDegree parent (taken.1.outDegree parent - 1)
  let prevStates := taken.2 ++ (taken.1.stateAfter parent).toList
  if outDegree parent = 0 then
    (⟨outDegree, update taken.1.stateAfter parent none⟩, prevStates)
  else (⟨outDegree, taken.1.stateAfter⟩, prevStates)

def distinctParents (index prevEvents : List Id) : List Id := (prevEvents.filter (· ∈ index)).eraseDups

def finalizedParentStates (index prevEvents : List Id) (slots : Slots Id T) : Slots Id T × List T :=
  (distinctParents index prevEvents).foldl
    (fun taken parent => if taken.1.outDegree parent = 0 then taken else takeFinalizedParent taken parent)
    (slots, [])

def retainStateForChildren (slots : Slots Id T) (id : Id) (state : T) : Slots Id T :=
  if 0 < slots.outDegree id then { slots with stateAfter := update slots.stateAfter id (some state) }
  else slots

def prevEventsOf (eventsMap : EventMap Id C) (id : Id) : List Id :=
  ((eventsMap.get id).map LeanEvent.prevEvents).getD []

def knownPrevEvents (eventsMap : EventMap Id C) (id : Id) : List Id :=
  (prevEventsOf eventsMap id).filter eventsMap.containsKey

def collectAncestorShortIdsBatch (targetEventIds : List Id) (eventsMap : EventMap Id C) : List Id :=
  Worklist.flood Worklist.popFront eventsMap.containsKey (knownPrevEvents eventsMap) eventsMap.keys
    targetEventIds

def indexedParents (index : List Id) (eventsMap : EventMap Id C) (id : Id) : List Id :=
  distinctParents index (prevEventsOf eventsMap id)

structure TopologicalPlan (Id : Type) where
  sortedAncestors : List Id
  outDegree : Id → Nat

def topologicalSortShortIds (index : List Id) (eventsMap : EventMap Id C) : TopologicalPlan Id :=
  let parents := indexedParents index eventsMap
  let adjacency := Peel.citers index parents
  let inDegree := fun id => (parents id).length
  ⟨(Peel.peel adjacency inDegree (index.filter fun id => inDegree id = 0) index.length).done,
    fun id => (adjacency id).length⟩

def checkedTopologicalPlan (index : List Id) (eventsMap : EventMap Id C) : Option (TopologicalPlan Id) :=
  let plan := topologicalSortShortIds index eventsMap
  if plan.sortedAncestors.length = index.length then some plan else none

end

inductive StateComputationError (E : Type) where
  | cycleDetected
  | callback (error : E)
deriving DecidableEq

/-- The failed expectations of the pipelines, and those of the merges they run. -/
inductive PipelinePanic (Id : Type) where
  | indexedEventMissing (id : Id)
  | singleParentMissing
  | merge (reason : Panic Id)
deriving DecidableEq

/-- How a pipeline ends early: by a panic or by an error that it returns. -/
inductive PipelineStop (Id E : Type) where
  | panic (reason : PipelinePanic Id)
  | failed (error : StateComputationError E)
deriving DecidableEq

structure PipelineRun (Id C : Type) where
  index : List Id
  isTarget : Id → Bool
  eventsMap : EventMap Id C
  version : StateResVersion
  emptyKey : String

structure PipelineExecution (Id C T : Type) where
  slots : Slots Id T
  caches : ForkResolveCaches Id C

structure Visited (Id T D : Type) where
  eventId : Id
  after : T
  delivery : Option D

variable [LinearOrder Id]

def PipelineRun.mergeCtx (run : PipelineRun Id C) : MergeContext Id C :=
  ⟨run.eventsMap, run.version, run.emptyKey⟩

abbrev Visit (Id C T D : Type) := LeanEvent Id C → List T → ForkResolveCaches Id C →
  Except (PipelinePanic Id) (Visited Id T D × ForkResolveCaches Id C)

def PipelineRun.turn (run : PipelineRun Id C) (visit : Visit Id C T D) (exec : PipelineExecution Id C T)
    (id : Id) : Except (PipelinePanic Id) (PipelineExecution Id C T × Visited Id T D) :=
  match run.eventsMap.get id with
  | none => .error (.indexedEventMissing id)
  | some event =>
    let taken := finalizedParentStates run.index event.prevEvents exec.slots
    match visit event taken.2 exec.caches with
    | .error panic => .error panic
    | .ok (visited, caches) => .ok (⟨retainStateForChildren taken.1 id visited.after, caches⟩, visited)

def onVisited {σ E : Type} (onTarget : σ → Id → D → Except E σ) (s : σ) (visited : Visited Id T D) :
    Except E σ :=
  match visited.delivery with
  | some delivered => onTarget s visited.eventId delivered
  | none => .ok s

def haltedPipeline {E : Type} : Stream.Halt (PipelinePanic Id) E → PipelineStop Id E
  | .broke panic => .panic panic
  | .refused error => .failed (.callback error)

def PipelineRun.traverse {σ E : Type} (run : PipelineRun Id C) (visit : Visit Id C T D)
    (onTarget : σ → Id → D → Except E σ) (s : σ) : Except (PipelineStop Id E) σ :=
  match checkedTopologicalPlan run.index run.eventsMap with
  | none => .error (.failed .cycleDetected)
  | some plan => (Stream.feed (run.turn visit) (onVisited onTarget)
      ⟨⟨plan.outDegree, fun _ => none⟩, .new run.version⟩ s plan.sortedAncestors).mapError haltedPipeline

def acceptedStateKey (event : LeanEvent Id C) : Option String := event.stateKey.filter fun _ => !event.rejected

def recordOwnState (state : SharedState Id) (event : LeanEvent Id C) : SharedState Id :=
  match acceptedStateKey event with
  | some stateKey => state.insert (⟨event.eventType⟩, stateKey) event.eventId
  | none => state

variable [ToString Id] [EventContent C]

def PipelineRun.plainVisit (order : Id → Order) (run : PipelineRun Id C) :
    Visit Id C (SharedState Id) (SharedState Id) :=
  fun event prevStates caches =>
    match resolveMergedParentStates (order event.eventId) run.mergeCtx caches prevStates with
    | .error reason => .error (.merge reason)
    | .ok (stateBefore, caches) =>
      let state := recordOwnState stateBefore event
      .ok (⟨event.eventId, state, if run.isTarget event.eventId then some state else none⟩, caches)

def PipelineRun.runPlain {σ E : Type} (order : Id → Order) (run : PipelineRun Id C)
    (onTarget : σ → Id → SharedState Id → Except E σ) (s : σ) : Except (PipelineStop Id E) σ :=
  run.traverse (run.plainVisit order) onTarget s

structure StreamingInputs (Id C : Type) where
  targetEventIds : List Id
  eventsMap : EventMap Id C
  version : StateResVersion
  emptyKey : String

def StreamingInputs.foundTargets (inputs : StreamingInputs Id C) : List Id :=
  (inputs.targetEventIds.filter inputs.eventsMap.containsKey).eraseDups

def StreamingInputs.pipelineRun (inputs : StreamingInputs Id C) : PipelineRun Id C where
  index := collectAncestorShortIdsBatch inputs.foundTargets inputs.eventsMap
  isTarget id := id ∈ inputs.foundTargets
  eventsMap := inputs.eventsMap
  version := inputs.version
  emptyKey := inputs.emptyKey

def StreamingInputs.withPipelineRun {σ E : Type} (inputs : StreamingInputs Id C)
    (run : PipelineRun Id C → Except (PipelineStop Id E) σ) (s : σ) : Except (PipelineStop Id E) σ :=
  if inputs.foundTargets = [] then .ok s else run inputs.pipelineRun

def StreamingInputs.tryCompute {σ E : Type} (order : Id → Order) (inputs : StreamingInputs Id C)
    (onTarget : σ → Id → SharedState Id → Except E σ) (s : σ) : Except (PipelineStop Id E) σ :=
  inputs.withPipelineRun (fun run => run.runPlain order onTarget s) s

def StreamingInputs.compute {σ : Type} (order : Id → Order) (inputs : StreamingInputs Id C)
    (onTarget : σ → Id → SharedState Id → σ) (s : σ) : Except (PipelinePanic Id) σ :=
  match inputs.tryCompute (E := Empty) order (fun s id state => .ok (onTarget s id state)) s with
  | .ok gathered => .ok gathered
  | .error (.failed .cycleDetected) => .ok s
  | .error (.panic panic) => .error panic

def computeStateAt (order : Id → Order) (targetEventId : Id) (eventsMap : EventMap Id C)
    (version : StateResVersion) (emptyKey : String) : Except (PipelinePanic Id) (Option (SharedState Id)) :=
  if eventsMap.containsKey targetEventId then
    StreamingInputs.compute order ⟨[targetEventId], eventsMap, version, emptyKey⟩
      (fun _ _ state => some state) none
  else .ok none

def computeStateAtBatch (order : Id → Order) (targetEventIds : List Id) (eventsMap : EventMap Id C)
    (version : StateResVersion) (emptyKey : String) :
    Except (PipelinePanic Id) (Id → Option (SharedState Id)) :=
  StreamingInputs.compute order ⟨targetEventIds, eventsMap, version, emptyKey⟩
    (fun results id state => update results id (some state)) fun _ => none

end

open Basespec Resolve Permuted

variable {Id C T D : Type}

section

theorem nodup_eraseDups [DecidableEq Id] (l : List Id) : l.eraseDups.Nodup := by
  induction size : l.length using Nat.strong_induction_on generalizing l with
  | _ n ih =>
    cases l with
    | nil => simp
    | cons x l =>
      rw [eraseDups_cons, nodup_cons]
      have shorter : (l.filter fun y => !y == x).length < n := by
        rw [← size, length_cons]
        exact Nat.lt_succ_of_le (length_filter_le _ _)
      refine ⟨fun mem => ?_, ih _ shorter _ rfl⟩
      have kept := of_mem_filter (mem_eraseDups.mp mem)
      simp at kept

variable [DecidableEq Id]

theorem mem_distinctParents {index prevEvents : List Id} {id : Id} :
    id ∈ distinctParents index prevEvents ↔ id ∈ prevEvents ∧ id ∈ index := by
  unfold distinctParents
  rw [mem_eraseDups, mem_filter]
  simp

theorem nodup_distinctParents (index prevEvents : List Id) : (distinctParents index prevEvents).Nodup :=
  nodup_eraseDups _

theorem takeFinalizedParent_spec (slots : Slots Id T) (prevStates : List T) (parent : Id) :
    (takeFinalizedParent (slots, prevStates) parent).2 = prevStates ++ (slots.stateAfter parent).toList ∧
    (∀ id, (takeFinalizedParent (slots, prevStates) parent).1.outDegree id =
      slots.outDegree id - if id = parent then 1 else 0) ∧
    ∀ id, id ≠ parent ∨ 0 < (takeFinalizedParent (slots, prevStates) parent).1.outDegree id →
      (takeFinalizedParent (slots, prevStates) parent).1.stateAfter id = slots.stateAfter id := by
  have degrees : ∀ id, update slots.outDegree parent (slots.outDegree parent - 1) id =
      slots.outDegree id - if id = parent then 1 else 0 := by
    intro id
    by_cases same : id = parent <;> simp [same]
  unfold takeFinalizedParent
  dsimp only
  split
  · rename_i last
    refine ⟨rfl, degrees, fun id other => ?_⟩
    have differ : id ≠ parent := by
      rintro rfl
      rcases other with differ | left
      · exact differ rfl
      · dsimp only at left
        omega
    exact update_of_ne differ _ _
  · exact ⟨rfl, degrees, fun _ _ => rfl⟩

theorem takeParents_spec (parents : List Id) (nodup : parents.Nodup) (slots : Slots Id T)
    (prevStates : List T) (needed : ∀ parent ∈ parents, 0 < slots.outDegree parent) :
    let taken := parents.foldl (fun taken parent =>
      if taken.1.outDegree parent = 0 then taken else takeFinalizedParent taken parent) (slots, prevStates)
    taken.2 = prevStates ++ parents.filterMap slots.stateAfter ∧
      (∀ id, taken.1.outDegree id = slots.outDegree id - if id ∈ parents then 1 else 0) ∧
      ∀ id, 0 < taken.1.outDegree id → taken.1.stateAfter id = slots.stateAfter id := by
  induction parents generalizing slots prevStates with
  | nil => simp
  | cons parent parents ih =>
    obtain ⟨fresh, nodup⟩ := nodup_cons.mp nodup
    have first : slots.outDegree parent ≠ 0 := by
      have := needed parent (by simp)
      omega
    rw [foldl_cons]
    rw [if_neg first]
    obtain ⟨gathered, degrees, kept⟩ := takeFinalizedParent_spec slots prevStates parent
    generalize takeFinalizedParent (slots, prevStates) parent = next at gathered degrees kept
    obtain ⟨slots', prevStates'⟩ := next
    dsimp only at gathered degrees kept
    have others : ∀ id ∈ parents, id ≠ parent := fun id mem same => fresh (same ▸ mem)
    obtain ⟨states, uses, held⟩ := ih nodup slots' prevStates' fun id mem => by
      rw [degrees, if_neg (others id mem)]
      exact needed id (mem_cons_of_mem _ mem)
    refine ⟨?_, fun id => ?_, fun id left => ?_⟩
    · rw [states, gathered, append_assoc, append_cancel_left_eq]
      have same : parents.filterMap slots'.stateAfter = parents.filterMap slots.stateAfter :=
        filterMap_congr fun id mem => kept id (.inl (others id mem))
      rw [same, filterMap_cons]
      cases slots.stateAfter parent <;> rfl
    · rw [uses, degrees]
      by_cases same : id = parent
      · subst same
        simp [fresh]
      · simp [same]
    · rw [held id left]
      refine kept id (.inr ?_)
      rw [uses] at left
      omega

theorem finalizedParentStates_spec (index prevEvents : List Id) (slots : Slots Id T)
    (needed : ∀ parent ∈ distinctParents index prevEvents, 0 < slots.outDegree parent) :
    (finalizedParentStates index prevEvents slots).2 = (distinctParents index prevEvents).filterMap slots.stateAfter ∧
      (∀ id, (finalizedParentStates index prevEvents slots).1.outDegree id =
        slots.outDegree id - if id ∈ distinctParents index prevEvents then 1 else 0) ∧
      ∀ id, 0 < (finalizedParentStates index prevEvents slots).1.outDegree id →
        (finalizedParentStates index prevEvents slots).1.stateAfter id = slots.stateAfter id :=
  takeParents_spec _ (nodup_distinctParents index prevEvents) slots [] needed

theorem retainStateForChildren_outDegree (slots : Slots Id T) (id : Id) (state : T) :
    (retainStateForChildren slots id state).outDegree = slots.outDegree := by
  unfold retainStateForChildren
  split <;> rfl

theorem retainStateForChildren_stateAfter (slots : Slots Id T) (id : Id) (state : T)
    (needed : 0 < slots.outDegree other) : (retainStateForChildren slots id state).stateAfter other =
      if other = id then some state else slots.stateAfter other := by
  unfold retainStateForChildren
  by_cases same : other = id
  · subst same
    rw [if_pos needed, if_pos rfl]
    exact update_self _ _ _
  · rw [if_neg same]
    split
    · exact update_of_ne same _ _
    · rfl

end

section

variable [LinearOrder Id]

structure KeptStates (Id C T : Type) where
  stateAfter : Id → Option T
  caches : ForkResolveCaches Id C

def PipelineRun.keptTurn (run : PipelineRun Id C) (visit : Visit Id C T D) (kept : KeptStates Id C T)
    (id : Id) : Except (PipelinePanic Id) (KeptStates Id C T × Visited Id T D) :=
  match run.eventsMap.get id with
  | none => .error (.indexedEventMissing id)
  | some event =>
    match visit event ((distinctParents run.index event.prevEvents).filterMap kept.stateAfter) kept.caches with
    | .error panic => .error panic
    | .ok (visited, caches) => .ok (⟨update kept.stateAfter id (some visited.after), caches⟩, visited)

structure KeptTurn (run : PipelineRun Id C) (visit : Visit Id C T D) (kept : KeptStates Id C T) (id : Id)
    (turned : KeptStates Id C T × Visited Id T D) : Prop where
  stateAfter : turned.1.stateAfter = update kept.stateAfter id (some turned.2.after)
  visited : ∃ event, run.eventsMap.get id = some event ∧
    visit event ((indexedParents run.index run.eventsMap id).filterMap kept.stateAfter) kept.caches =
      .ok (turned.2, turned.1.caches)

structure Holds (parents : Id → List Id) (rest : List Id) (exec : PipelineExecution Id C T)
    (kept : KeptStates Id C T) : Prop where
  caches : exec.caches = kept.caches
  uses : ∀ id, exec.slots.outDegree id = (rest.filter (id ∈ parents ·)).length
  held : ∀ id, (kept.stateAfter id).isSome → 0 < exec.slots.outDegree id →
    exec.slots.stateAfter id = kept.stateAfter id

variable {run : PipelineRun Id C} {visit : Visit Id C T D} {exec : PipelineExecution Id C T}
  {kept : KeptStates Id C T}

theorem indexedParents_of_get {id : Id} (found : eventsMap.get id = some event) :
    indexedParents index eventsMap id = distinctParents index event.prevEvents := by
  rw [indexedParents, prevEventsOf, found]
  rfl

theorem keptTurn_ok {id : Id} (outcome : run.keptTurn visit kept id = .ok turned) :
    KeptTurn run visit kept id turned := by
  unfold PipelineRun.keptTurn at outcome
  cases found : run.eventsMap.get id with
  | none => simp [found] at outcome
  | some event =>
    simp only [found] at outcome
    split at outcome
    · cases outcome
    · rename_i visited caches visit
      obtain rfl := Except.ok.inj outcome
      exact ⟨rfl, event, found, by rw [indexedParents_of_get found]; exact visit⟩

theorem keptTurn_error {id : Id} {panic : PipelinePanic Id}
    (outcome : run.keptTurn visit kept id = .error panic) (indexed : id ∈ run.eventsMap.keys) :
    ∃ event, run.eventsMap.get id = some event ∧
      visit event ((indexedParents run.index run.eventsMap id).filterMap kept.stateAfter) kept.caches =
        .error panic := by
  obtain ⟨event, found⟩ := EventMap.mem_keys.mp indexed
  unfold PipelineRun.keptTurn at outcome
  simp only [found] at outcome
  split at outcome
  · rename_i visit
    obtain rfl := Except.error.inj outcome
    exact ⟨event, found, by rw [indexedParents_of_get found]; exact visit⟩
  · cases outcome

theorem Holds.turn (visit : Visit Id C T D) {id : Id} {rest : List Id}
    (holds : Holds (indexedParents run.index run.eventsMap) (id :: rest) exec kept)
    (known : ∀ parent ∈ indexedParents run.index run.eventsMap id, (kept.stateAfter parent).isSome) :
    Stream.Both (fun left right => left.2 = right.2 ∧
        Holds (indexedParents run.index run.eventsMap) rest left.1 right.1)
      (run.turn visit exec id) (run.keptTurn visit kept id) := by
  unfold PipelineRun.turn PipelineRun.keptTurn
  cases found : run.eventsMap.get id with
  | none => exact .error _
  | some event =>
    rw [indexedParents_of_get found] at known
    dsimp only
    have counts : ∀ other, exec.slots.outDegree other =
        (if other ∈ distinctParents run.index event.prevEvents then 1 else 0) +
          (rest.filter (other ∈ indexedParents run.index run.eventsMap ·)).length := by
      intro other
      rw [holds.uses other, filter_cons, indexedParents_of_get found]
      by_cases cited : other ∈ distinctParents run.index event.prevEvents
      · simp [cited, Nat.add_comm]
      · simp [cited]
    have needed : ∀ parent ∈ distinctParents run.index event.prevEvents, 0 < exec.slots.outDegree parent := by
      intro parent cited
      rw [counts parent, if_pos cited]
      omega
    obtain ⟨states, uses, left⟩ := finalizedParentStates_spec run.index event.prevEvents exec.slots needed
    have gathered : (distinctParents run.index event.prevEvents).filterMap exec.slots.stateAfter =
        (distinctParents run.index event.prevEvents).filterMap kept.stateAfter :=
      filterMap_congr fun parent cited => holds.held parent (known parent cited) (needed parent cited)
    rw [states, gathered, holds.caches]
    generalize (finalizedParentStates run.index event.prevEvents exec.slots).1 = slots at uses left
    cases outcome : visit event ((distinctParents run.index event.prevEvents).filterMap kept.stateAfter)
        kept.caches with
    | error panic => exact .error _
    | ok result =>
      obtain ⟨-, -⟩ := result
      refine .ok ⟨rfl, rfl, fun other => ?_, fun other stored positive => ?_⟩
      · rw [retainStateForChildren_outDegree, uses other, counts other]
        omega
      · dsimp only at stored positive ⊢
        rw [retainStateForChildren_outDegree] at positive
        rw [retainStateForChildren_stateAfter _ _ _ positive]
        split
        · rename_i same
          rw [same, update_self]
        · rename_i differ
          rw [update_of_ne differ] at stored ⊢
          rw [left other positive]
          refine holds.held other stored ?_
          rw [uses other] at positive
          omega

end

variable [LinearOrder Id]

theorem indexedParents_subset {id parent : Id} (cited : parent ∈ indexedParents index eventsMap id) :
    parent ∈ index := (mem_distinctParents.mp cited).2

theorem indexedParents_graph (nodup : index.Nodup) (eventsMap : EventMap Id C) :
    Peel.Graph index (indexedParents index eventsMap) (Peel.citers index (indexedParents index eventsMap)) :=
  ⟨nodup, fun _ _ _ => indexedParents_subset, fun _ => .refl _⟩

structure TopologicalPlan.Sound (index : List Id) (eventsMap : EventMap Id C) (plan : TopologicalPlan Id) :
    Prop where
  perm : plan.sortedAncestors.Perm index
  first : Peel.ParentsFirst (indexedParents index eventsMap) plan.sortedAncestors
  uses : ∀ id, plan.outDegree id =
    (plan.sortedAncestors.filter (id ∈ indexedParents index eventsMap ·)).length

theorem checkedTopologicalPlan_spec (nodup : index.Nodup) (eventsMap : EventMap Id C) :
    (checkedTopologicalPlan index eventsMap = none ↔
      ∃ id ∈ index, Relation.TransGen (Peel.Cites (indexedParents index eventsMap)) id id) ∧
    ∀ plan, checkedTopologicalPlan index eventsMap = some plan → plan.Sound index eventsMap := by
  obtain ⟨distinct, inside, first, complete⟩ := Peel.peel_order (indexedParents_graph nodup eventsMap) (.refl _)
  unfold checkedTopologicalPlan topologicalSortShortIds
  dsimp only
  constructor
  · rw [ite_eq_right_iff]
    simp only [reduceCtorEq, imp_false]
    rw [complete]
    simp only [not_forall, not_not, exists_prop]
  · intro _ planned
    split at planned
    · rename_i all
      obtain rfl := Option.some.inj planned
      have perm := (subperm_of_subset distinct inside).perm_of_length_le (le_of_eq all.symm)
      refine ⟨perm, first, fun id => ?_⟩
      rw [(perm.filter _).length_eq]
      exact Peel.length_citers index (fun _ => nodup_distinctParents _ _) id
    · cases planned

variable {run : PipelineRun Id C} {plan : TopologicalPlan Id}

def PipelineRun.journal (run : PipelineRun Id C) (visit : Visit Id C T D) (plan : TopologicalPlan Id) :
    List (Visited Id T D) × Option (PipelinePanic Id) :=
  Stream.stream (run.keptTurn visit) ⟨fun _ => none, .new run.version⟩ plan.sortedAncestors

/-- The traversals are at the same place, and the one that keeps every state has those of all events done. -/
def InStep (run : PipelineRun Id C) (plan : TopologicalPlan Id) (rest : List Id)
    (exec : PipelineExecution Id C T) (kept : KeptStates Id C T) : Prop :=
  Holds (indexedParents run.index run.eventsMap) rest exec kept ∧
    ∃ done, plan.sortedAncestors = done ++ rest ∧ ∀ id ∈ done, (kept.stateAfter id).isSome

theorem InStep.turn (sound : plan.Sound run.index run.eventsMap) (visit : Visit Id C T D) {id : Id}
    {rest : List Id} {exec : PipelineExecution Id C T} {kept : KeptStates Id C T}
    (inStep : InStep run plan (id :: rest) exec kept) :
    Stream.Both (fun left right => left.2 = right.2 ∧ InStep run plan rest left.1 right.1)
      (run.turn visit exec id) (run.keptTurn visit kept id) := by
  obtain ⟨holds, done, split, known⟩ := inStep
  have turn := holds.turn visit fun parent cited => known parent (sound.first done id rest split parent cited)
  rcases turn.elim with ⟨turned, other, left, right, same⟩ | ⟨panic, left, right⟩
  · rw [left, right]
    refine .ok ⟨same.1, same.2, done ++ [id], by simp [split], fun done mem => ?_⟩
    rw [(keptTurn_ok right).stateAfter]
    by_cases fresh : done = id
    · simp [fresh]
    · rw [update_of_ne fresh]
      exact known done (by simpa [fresh] using mem)
  · rw [left, right]
    exact .error _

theorem TopologicalPlan.Sound.stream_turn (sound : plan.Sound run.index run.eventsMap) (visit : Visit Id C T D) :
    stream (run.turn visit) ⟨⟨plan.outDegree, fun _ => none⟩, .new run.version⟩ plan.sortedAncestors =
      run.journal visit plan := by
  have start : InStep (T := T) run plan plan.sortedAncestors
      ⟨⟨plan.outDegree, fun _ => none⟩, .new run.version⟩ ⟨fun _ => none, .new run.version⟩ :=
    ⟨⟨rfl, sound.uses, fun _ stored => (by cases stored)⟩, [], rfl, by simp⟩
  obtain ⟨ended, _, _, _, same, _⟩ := stream_both
    (fun (handed handed' : List (Visited Id T D)) rest exec kept => handed = handed' ∧ InStep run plan rest exec kept)
    (fun handed handed' id rest exec kept inv => (inv.2.turn sound visit).mono fun left right turned =>
      ⟨by rw [inv.1, turned.1], turned.2⟩)
    plan.sortedAncestors ⟨rfl, start⟩
  exact Prod.ext same.1 ended

theorem TopologicalPlan.Sound.traverse {σ E : Type} (sound : plan.Sound run.index run.eventsMap)
    (planned : checkedTopologicalPlan run.index run.eventsMap = some plan) (visit : Visit Id C T D)
    (onTarget : σ → Id → D → Except E σ) (s : σ) :
    run.traverse visit onTarget s =
      (replay (onVisited onTarget) (run.journal visit plan).2 s (run.journal visit plan).1).mapError
        haltedPipeline := by
  unfold PipelineRun.traverse
  rw [planned]
  dsimp only
  rw [feed_eq_replay, sound.stream_turn]

theorem traverse_cycle_iff {σ E : Type} (run : PipelineRun Id C) (visit : Visit Id C T D)
    (onTarget : σ → Id → D → Except E σ) (s : σ) :
    run.traverse visit onTarget s = .error (.failed .cycleDetected) ↔
      checkedTopologicalPlan run.index run.eventsMap = none := by
  unfold PipelineRun.traverse
  cases checkedTopologicalPlan run.index run.eventsMap with
  | none => exact iff_of_true rfl rfl
  | some plan =>
    dsimp only
    generalize feed _ _ _ _ _ = fed
    cases fed with
    | ok gathered => simp [Except.mapError]
    | error halt => cases halt <;> simp [Except.mapError, haltedPipeline]

end Rezzy.State
