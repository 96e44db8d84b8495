import Rezzy.State.Pipeline

namespace Rezzy.State

open Basespec Resolve Permuted List Worklist Except

variable {Id C : Type} [LinearOrder Id]

section

def Precedes (eventsMap : EventMap Id C) : Id → Id → Prop := Peel.Cites (knownPrevEvents eventsMap)

theorem knownPrevEvents_known {id parent : Id} (cited : parent ∈ knownPrevEvents eventsMap id) :
    parent ∈ eventsMap.keys :=
  containsKey_iff.mp (of_mem_filter cited)

theorem kept_knownPrevEvents (eventsMap : EventMap Id C) :
    keptNext eventsMap.containsKey (knownPrevEvents eventsMap) = knownPrevEvents eventsMap := by
  funext id
  unfold keptNext
  split
  · rfl
  · rename_i missing
    have none : eventsMap.get id = none := EventMap.get_eq_none.mpr fun known => missing (containsKey_iff.mpr known)
    simp [knownPrevEvents, prevEventsOf, none]

theorem mem_collectAncestorShortIdsBatch {id : Id} :
    id ∈ collectAncestorShortIdsBatch targets eventsMap ↔ Worklist.Reached (knownPrevEvents eventsMap) targets id := by
  unfold collectAncestorShortIdsBatch
  rw [mem_flood popFront_pops fun id known => containsKey_iff.mp known, kept_knownPrevEvents]

theorem nodup_collectAncestorShortIdsBatch (targets : List Id) (eventsMap : EventMap Id C) :
    (collectAncestorShortIdsBatch targets eventsMap).Nodup := nodup_flood popFront_pops _ _ _ _

def presentParents (eventsMap : EventMap Id C) (id : Id) : List Id := indexedParents eventsMap.keys eventsMap id

theorem mem_presentParents {id parent : Id} :
    parent ∈ presentParents eventsMap id ↔ parent ∈ knownPrevEvents eventsMap id := by
  unfold presentParents indexedParents knownPrevEvents
  rw [mem_distinctParents, mem_filter, containsKey_iff]

theorem indexedParents_eq {eventsMap : EventMap Id C} {id : Id} (known : ∀ parent ∈ index, parent ∈ eventsMap.keys)
    (closed : ∀ parent ∈ knownPrevEvents eventsMap id, parent ∈ index) :
    indexedParents index eventsMap id = presentParents eventsMap id := by
  unfold presentParents indexedParents distinctParents
  congr 1
  apply filter_congr
  intro parent cited
  rw [decide_eq_decide]
  exact ⟨known parent, fun there => closed parent (mem_filter.mpr ⟨cited, containsKey_iff.mpr there⟩)⟩

end

namespace StreamingInputs

variable (inputs : StreamingInputs Id C)

def mergeCtx : MergeContext Id C := ⟨inputs.eventsMap, inputs.version, inputs.emptyKey⟩

def Reaches (id : Id) : Prop := Worklist.Reached (knownPrevEvents inputs.eventsMap) inputs.foundTargets id

def Cyclic : Prop := ∃ id, inputs.Reaches id ∧ Relation.TransGen (Precedes inputs.eventsMap) id id

variable {inputs} {id : Id}

theorem mem_foundTargets : id ∈ inputs.foundTargets ↔ id ∈ inputs.targetEventIds ∧ id ∈ inputs.eventsMap.keys := by
  unfold foundTargets
  rw [mem_eraseDups, mem_filter, containsKey_iff]

theorem mem_index : id ∈ inputs.pipelineRun.index ↔ inputs.Reaches id := mem_collectAncestorShortIdsBatch

theorem Reaches.known (reaches : inputs.Reaches id) : id ∈ inputs.eventsMap.keys :=
  reaches.subset_of_closed (· ∈ inputs.eventsMap.keys) (fun _ mem => (mem_foundTargets.mp mem).2)
    fun _ _ _ => knownPrevEvents_known

theorem Reaches.parents (reaches : inputs.Reaches id) :
    indexedParents inputs.pipelineRun.index inputs.eventsMap id = presentParents inputs.eventsMap id :=
  indexedParents_eq (fun _ mem => (mem_index.mp mem).known) fun _ cited => mem_index.mpr (reaches.step cited)

theorem Reaches.parent (reaches : inputs.Reaches id) {parent : Id}
    (cited : parent ∈ presentParents inputs.eventsMap id) : inputs.Reaches parent :=
  reaches.step (mem_presentParents.mp cited)

theorem cyclic_iff : inputs.Cyclic ↔ ∃ id ∈ inputs.pipelineRun.index, Relation.TransGen
    (Peel.Cites (indexedParents inputs.pipelineRun.index inputs.eventsMap)) id id := by
  have backwards : ∀ x y, Relation.TransGen (Precedes inputs.eventsMap) x y → inputs.Reaches y →
      inputs.Reaches x ∧ Relation.TransGen
        (Peel.Cites (indexedParents inputs.pipelineRun.index inputs.eventsMap)) x y := by
    intro x y path
    induction path with
    | single edge =>
      intro reaches
      have cited := mem_presentParents.mpr edge
      refine ⟨reaches.parent cited, .single ?_⟩
      rw [Peel.Cites, reaches.parents]
      exact cited
    | tail _ edge ih =>
      intro reaches
      have cited := mem_presentParents.mpr edge
      obtain ⟨start, path⟩ := ih (reaches.parent cited)
      refine ⟨start, path.tail ?_⟩
      rw [Peel.Cites, reaches.parents]
      exact cited
  constructor
  · rintro ⟨id, reaches, path⟩
    exact ⟨id, mem_index.mpr reaches, (backwards id id path reaches).2⟩
  · rintro ⟨id, indexed, path⟩
    refine ⟨id, mem_index.mp indexed, Relation.TransGen.mono (fun parent child cited => ?_) _ _ path⟩
    obtain ⟨prev, there⟩ := mem_distinctParents.mp cited
    exact mem_filter.mpr ⟨prev, containsKey_iff.mpr (mem_index.mp there).known⟩

theorem plan_spec (inputs : StreamingInputs Id C) :
    (checkedTopologicalPlan inputs.pipelineRun.index inputs.pipelineRun.eventsMap = none ↔ inputs.Cyclic) ∧
      ∀ plan, checkedTopologicalPlan inputs.pipelineRun.index inputs.pipelineRun.eventsMap = some plan →
        plan.Sound inputs.pipelineRun.index inputs.eventsMap := by
  rw [cyclic_iff]
  exact checkedTopologicalPlan_spec (nodup_collectAncestorShortIdsBatch _ _) _

end StreamingInputs

section

variable [ToString Id] [EventContent C]

def mergeStates (ctx : MergeContext Id C) (prevStates : List (SharedState Id)) :
    Except (Panic Id) (SharedState Id) :=
  (resolveMergedParentStates .asListed ctx (.new ctx.version) prevStates).map Prod.fst

/-- The state after an event: its own entry on top of the merged states after its parents. -/
inductive StateAfter (ctx : MergeContext Id C) : Id → SharedState Id → Prop where
  | record {id : Id} {event : LeanEvent Id C} {states : Id → SharedState Id} {before : SharedState Id}
      (found : ctx.eventsMap.get id = some event)
      (parents : ∀ parent ∈ presentParents ctx.eventsMap id, StateAfter ctx parent (states parent))
      (merged : mergeStates ctx ((presentParents ctx.eventsMap id).map states) = .ok before) :
      StateAfter ctx id (recordOwnState before event)

variable {ctx : MergeContext Id C}

theorem StateAfter.unique {id : Id} (own : StateAfter ctx id left) (other : StateAfter ctx id right) :
    left = right := by
  induction own generalizing right with
  | @record id event states before found parents merged ih =>
    cases other with
    | @record _ event' states' before' found' parents' merged' =>
      have same : (presentParents ctx.eventsMap id).map states = (presentParents ctx.eventsMap id).map states' :=
        map_congr_left fun parent cited => ih parent cited (parents' parent cited)
      rw [same, merged'] at merged
      rw [Option.some.inj (found.symm.trans found'), ok.inj merged]

def MergeFails (ctx : MergeContext Id C) (id : Id) (reason : Panic Id) : Prop :=
  ∃ states : Id → SharedState Id,
    (∀ parent ∈ presentParents ctx.eventsMap id, StateAfter ctx parent (states parent)) ∧
      mergeStates ctx ((presentParents ctx.eventsMap id).map states) = .error reason

theorem MergeFails.no_state {id : Id} (fails : MergeFails ctx id reason) (state : SharedState Id) :
    ¬StateAfter ctx id state := by
  intro after
  obtain ⟨states, parents, broken⟩ := fails
  cases after with
  | @record _ event states' before found parents' merged =>
    have same : (presentParents ctx.eventsMap id).map states = (presentParents ctx.eventsMap id).map states' :=
      map_congr_left fun parent cited => (parents parent cited).unique (parents' parent cited)
    rw [same, merged] at broken
    cases broken

def StreamingInputs.TieFree (inputs : StreamingInputs Id C) : Prop :=
  ∀ id, inputs.Reaches id → ∀ states : Id → SharedState Id,
    (∀ parent ∈ presentParents inputs.eventsMap id, StateAfter inputs.mergeCtx parent (states parent)) →
    MergeTieFree inputs.mergeCtx ((presentParents inputs.eventsMap id).map states)

end

variable [ToString Id] [EventContent C]

section

variable {order : Id → Order} {run : PipelineRun Id C} {event : LeanEvent Id C} {prevStates : List (SharedState Id)}

theorem plainVisit_ok {caches after : ForkResolveCaches Id C}
    (visit : run.plainVisit order event prevStates caches = .ok (visited, after)) :
    ∃ before, resolveMergedParentStates (order event.eventId) run.mergeCtx caches prevStates = .ok (before, after) ∧
      visited = ⟨event.eventId, recordOwnState before event,
        if run.isTarget event.eventId then some (recordOwnState before event) else none⟩ := by
  unfold PipelineRun.plainVisit at visit
  split at visit
  · cases visit
  · rename_i before other merged
    obtain ⟨rfl, rfl⟩ := Prod.mk.inj (ok.inj visit)
    exact ⟨before, merged, rfl⟩

theorem plainVisit_error {panic : PipelinePanic Id}
    (visit : run.plainVisit order event prevStates caches = .error panic) :
    ∃ reason, resolveMergedParentStates (order event.eventId) run.mergeCtx caches prevStates = .error reason ∧
      panic = .merge reason := by
  unfold PipelineRun.plainVisit at visit
  split at visit
  · rename_i reason merged
    exact ⟨reason, merged, (error.inj visit).symm⟩
  · cases visit

end

variable {inputs : StreamingInputs Id C} {plan : TopologicalPlan Id}

structure Follows (inputs : StreamingInputs Id C) (plan : TopologicalPlan Id)
    (handed : List (Visited Id (SharedState Id) (SharedState Id))) (rest : List Id)
    (kept : KeptStates Id C (SharedState Id)) : Prop where
  split : plan.sortedAncestors = handed.map Visited.eventId ++ rest
  states : ∀ id ∈ handed.map Visited.eventId, ∃ state, kept.stateAfter id = some state ∧
    StateAfter inputs.mergeCtx id state
  entries : ∀ visited ∈ handed, StateAfter inputs.mergeCtx visited.eventId visited.after ∧
    visited.delivery = if inputs.pipelineRun.isTarget visited.eventId then some visited.after else none
  faithful : kept.caches.Faithful inputs.eventsMap inputs.version

variable {handed : List (Visited Id (SharedState Id) (SharedState Id))} {id : Id} {rest : List Id}
  {kept : KeptStates Id C (SharedState Id)} (sound : plan.Sound inputs.pipelineRun.index inputs.eventsMap)
  (follows : Follows inputs plan handed (id :: rest) kept)
include sound follows

theorem Follows.reaches : inputs.Reaches id := by
  apply StreamingInputs.mem_index.mp
  rw [← sound.perm.mem_iff, follows.split]
  simp

theorem Follows.parents : ∃ states : Id → SharedState Id,
    (∀ parent ∈ presentParents inputs.eventsMap id, StateAfter inputs.mergeCtx parent (states parent)) ∧
      (indexedParents inputs.pipelineRun.index inputs.eventsMap id).filterMap kept.stateAfter =
        (presentParents inputs.eventsMap id).map states := by
  have reaches := follows.reaches sound
  have known : ∀ parent ∈ presentParents inputs.eventsMap id, ∃ state, kept.stateAfter parent = some state ∧
      StateAfter inputs.mergeCtx parent state := by
    intro parent cited
    rw [← reaches.parents] at cited
    exact follows.states parent (sound.first _ id rest follows.split parent cited)
  refine ⟨fun parent => (kept.stateAfter parent).getD ∅, fun parent cited => ?_, ?_⟩
  · obtain ⟨state, stored, after⟩ := known parent cited
    dsimp only
    rw [stored]
    exact after
  · rw [reaches.parents, ← filterMap_eq_map]
    apply filterMap_congr
    intro parent cited
    obtain ⟨state, stored, _⟩ := known parent cited
    simp [stored]

variable (tieFree : inputs.TieFree)
include tieFree

theorem Follows.merge (order : Order) : ∃ states : Id → SharedState Id,
    (∀ parent ∈ presentParents inputs.eventsMap id, StateAfter inputs.mergeCtx parent (states parent)) ∧
      Stream.Both (fun warm cold => warm.1 = cold.1 ∧ warm.2.Faithful inputs.eventsMap inputs.version)
        (resolveMergedParentStates order inputs.mergeCtx kept.caches
          ((indexedParents inputs.pipelineRun.index inputs.eventsMap id).filterMap kept.stateAfter))
        (resolveMergedParentStates .asListed inputs.mergeCtx (.new inputs.version)
          ((presentParents inputs.eventsMap id).map states)) := by
  obtain ⟨states, parents, gathered⟩ := follows.parents sound
  refine ⟨states, parents, ?_⟩
  rw [gathered]
  exact resolveMergedParentStates_warm (tieFree id (follows.reaches sound) states parents) follows.faithful
    order .asListed

variable (order : Id → Order)

theorem Follows.turn {turned : KeptStates Id C (SharedState Id) × Visited Id (SharedState Id) (SharedState Id)}
    (outcome : inputs.pipelineRun.keptTurn (inputs.pipelineRun.plainVisit order) kept id = .ok turned) :
    Follows inputs plan (handed ++ [turned.2]) rest turned.1 := by
  obtain ⟨stateAfter, event, found, visit⟩ := keptTurn_ok outcome
  obtain ⟨before, merged, visited⟩ := plainVisit_ok visit
  obtain ⟨states, parents, same⟩ := follows.merge sound tieFree (order event.eventId)
  have named : event.eventId = id := EventMap.get_id found
  have cold : mergeStates inputs.mergeCtx ((presentParents inputs.eventsMap id).map states) = .ok before ∧
      turned.1.caches.Faithful inputs.eventsMap inputs.version := by
    rcases same.elim with ⟨warm, cold, warmRun, coldRun, agree, faithful⟩ | ⟨reason, warmRun, coldRun⟩
    · obtain rfl : warm = (before, turned.1.caches) := ok.inj (warmRun.symm.trans merged)
      refine ⟨?_, faithful⟩
      rw [mergeStates]
      exact (congrArg (Except.map Prod.fst) coldRun).trans (congrArg ok agree.symm)
    · cases warmRun.symm.trans merged
  have after : StateAfter inputs.mergeCtx id turned.2.after := by
    rw [visited]
    exact .record found parents cold.1
  have own : turned.2.eventId = id := by rw [visited]; exact named
  refine ⟨by simp [follows.split, own], fun other mem => ?_, fun entry mem => ?_, cold.2⟩
  · rw [stateAfter]
    by_cases same : other = id
    · subst same
      exact ⟨turned.2.after, Function.update_self _ _ _, after⟩
    · rw [Function.update_of_ne same]
      refine follows.states other ?_
      rw [map_append, mem_append] at mem
      exact mem.resolve_right fun last => same (by simpa [own] using last)
  · rcases mem_append.mp mem with old | new
    · exact follows.entries entry old
    · obtain rfl := mem_singleton.mp new
      refine ⟨own ▸ after, ?_⟩
      rw [visited]

theorem Follows.broken {panic : PipelinePanic Id}
    (outcome : inputs.pipelineRun.keptTurn (inputs.pipelineRun.plainVisit order) kept id = .error panic) :
    ∃ reason, panic = .merge reason ∧ MergeFails inputs.mergeCtx id reason := by
  obtain ⟨event, found, visit⟩ := keptTurn_error outcome (follows.reaches sound).known
  obtain ⟨reason, merged, rfl⟩ := plainVisit_error visit
  obtain ⟨states, parents, same⟩ := follows.merge sound tieFree (order event.eventId)
  refine ⟨reason, rfl, states, parents, ?_⟩
  rcases same.elim with ⟨warm, cold, warmRun, coldRun, _⟩ | ⟨other, warmRun, coldRun⟩
  · cases warmRun.symm.trans merged
  · obtain rfl : other = reason := error.inj (warmRun.symm.trans merged)
    rw [mergeStates]
    exact congrArg (Except.map Prod.fst) coldRun

end Rezzy.State
