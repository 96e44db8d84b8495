import Rezzy.State.Hashed

namespace Rezzy.State

open Basespec Resolve Permuted List PipelineRun Visited Function Option
open Visited (eventId handed)
open HashedState (state)

variable {Id C : Type} {lanes : Nat} [LinearOrder Id]

section

theorem find?_of_distinctParents {index prevEvents : List Id} (only : distinctParents index prevEvents = [parent]) :
    prevEvents.find? (· ∈ index) = some parent := by
  rw [← head?_filter]
  unfold distinctParents at only
  cases known : prevEvents.filter (· ∈ index) with
  | nil =>
    rw [known] at only
    cases only
  | cons first rest =>
    rw [known, eraseDups_cons] at only
    rw [head?_cons, (cons.inj only).1]

omit [LinearOrder Id] in
theorem filterMap_eq_single {α : Type} {lookup : Id → Option α} {value : α} (known : ∀ id ∈ ids, (lookup id).isSome)
    (single : ids.filterMap lookup = [value]) : ∃ id, ids = [id] ∧ lookup id = some value := by
  match ids with
  | [] => cases single
  | [id] =>
    obtain ⟨found, here⟩ := isSome_iff_exists.mp (known id (by simp))
    rw [filterMap_cons_some here] at single
    exact ⟨id, rfl, by rw [here, (cons.inj single).1]⟩
  | first :: second :: rest =>
    obtain ⟨one, here⟩ := isSome_iff_exists.mp (known first (by simp))
    obtain ⟨two, there⟩ := isSome_iff_exists.mp (known second (by simp))
    rw [filterMap_cons_some here, filterMap_cons_some there] at single
    cases (cons.inj single).2

end

variable [ToString Id] [EventContent C] {seed : Seed Id lanes} {run : PipelineRun Id C}
  {plan : TopologicalPlan Id}

structure InTandem (seed : Seed Id lanes) (run : PipelineRun Id C) (plan : TopologicalPlan Id)
    (visits : List (Visited Id (SharedState Id) (SharedState Id)))
    (updates : List (Visited Id (HashedState Id lanes) (StateUpdate Id lanes))) (rest : List Id)
    (kept : KeptStates Id C (SharedState Id)) (hashed : KeptStates Id C (HashedState Id lanes)) : Prop where
  split : plan.sortedAncestors = visits.map eventId ++ rest
  recorded : ∀ id state, kept.stateAfter id = some state ↔
    (id, state) ∈ visits.map fun visited => (visited.eventId, visited.after)
  states : ∀ id, kept.stateAfter id = (hashed.stateAfter id).map state
  sound : ∀ id own, hashed.stateAfter id = some own → own.Sound seed
  caches : AlikeCaches run.mergeCtx kept.caches hashed.caches
  agree : List.Forall₂ (Agrees seed kept.stateAfter) visits updates

variable {visits : List (Visited Id (SharedState Id) (SharedState Id))}
  {updates : List (Visited Id (HashedState Id lanes) (StateUpdate Id lanes))} {rest : List Id}
  {kept : KeptStates Id C (SharedState Id)} {hashed : KeptStates Id C (HashedState Id lanes)}

omit [ToString Id] [EventContent C] in
theorem InTandem.known {id : Id} (tandem : InTandem seed run plan visits updates rest kept hashed)
    (mem : id ∈ visits.map eventId) : (hashed.stateAfter id).isSome := by
  obtain ⟨visited, inside, rfl⟩ := List.mem_map.mp mem
  have stored := (tandem.recorded visited.eventId visited.after).mpr (List.mem_map.mpr ⟨visited, inside, rfl⟩)
  rw [tandem.states, map_eq_some_iff] at stored
  obtain ⟨own, found, _⟩ := stored
  rw [found]
  rfl

omit [ToString Id] [EventContent C] in
theorem InTandem.push {id : Id} (tandem : InTandem seed run plan visits updates (id :: rest) kept hashed)
    (fresh : id ∉ visits.map eventId) {visited : Visited Id (SharedState Id) (SharedState Id)}
    {update : Visited Id (HashedState Id lanes) (StateUpdate Id lanes)} (named : visited.eventId = id)
    (agrees : Agrees seed kept.stateAfter visited update) {left right : ForkResolveCaches Id C}
    (caches : AlikeCaches run.mergeCtx left right) :
    InTandem seed run plan (visits ++ [visited]) (updates ++ [update]) rest
      ⟨Function.update kept.stateAfter id (some visited.after), left⟩
      ⟨Function.update hashed.stateAfter id (some update.after), right⟩ := by
  have unrecorded : kept.stateAfter id = none := by
    cases found : kept.stateAfter id with
    | none => rfl
    | some state =>
      obtain ⟨other, inside, same⟩ := List.mem_map.mp ((tandem.recorded id state).mp found)
      exact absurd (List.mem_map.mpr ⟨other, inside, (Prod.mk.inj same).1⟩) fresh
  have keeps : ∀ other state, kept.stateAfter other = some state →
      Function.update kept.stateAfter id (some visited.after) other = some state := by
    intro other state found
    have differ : other ≠ id := by
      rintro rfl
      rw [unrecorded] at found
      cases found
    rw [update_of_ne differ, found]
  refine ⟨by simp [tandem.split, named], fun other state => ?_, fun other => ?_, fun other own found => ?_, caches, ?_⟩
  · rw [map_append, mem_append, ← tandem.recorded other state]
    by_cases same : other = id
    · subst same
      simp [unrecorded, named, eq_comm]
    · simp [same, named]
  · by_cases same : other = id
    · subst same
      simp [agrees.after]
    · simp [same, tandem.states other]
  · dsimp only at found
    by_cases same : other = id
    · subst same
      rw [update_self] at found
      exact Option.some.inj found ▸ agrees.sound
    · rw [update_of_ne same] at found
      exact tandem.sound other own found
  · refine rel_append (tandem.agree.imp fun _ _ old => old.mono keeps) ?_
    exact .cons (agrees.mono keeps) .nil

theorem InTandem.turn {id : Id} (tandem : InTandem seed run plan visits updates (id :: rest) kept hashed)
    (nodup : run.index.Nodup) (sound : plan.Sound run.index run.eventsMap) (orderLeft orderRight : Id → Order) :
    Stream.Both (fun left right => InTandem seed run plan (visits ++ [left.2]) (updates ++ [right.2]) rest
        left.1 right.1)
      (run.keptTurn (run.plainVisit orderLeft) kept id)
      (run.keptTurn (run.optimizedVisit orderRight seed) hashed id) := by
  have fresh : id ∉ visits.map eventId := by
    have distinct : plan.sortedAncestors.Nodup := sound.perm.nodup_iff.mpr nodup
    rw [tandem.split] at distinct
    exact fun inside => (nodup_append.mp distinct).2.2 id inside id (by simp) rfl
  unfold keptTurn
  cases found : run.eventsMap.get id with
  | none => exact .error _
  | some event =>
    have known : ∀ parent ∈ distinctParents run.index event.prevEvents, (hashed.stateAfter parent).isSome := by
      intro parent cited
      rw [← indexedParents_of_get found] at cited
      exact tandem.known (sound.first _ id rest tandem.split parent cited)
    have parents : (distinctParents run.index event.prevEvents).filterMap kept.stateAfter =
        ((distinctParents run.index event.prevEvents).filterMap hashed.stateAfter).map state := by
      rw [map_filterMap]
      exact filterMap_congr fun parent _ => tandem.states parent
    have parentsSound : ∀ own ∈ (distinctParents run.index event.prevEvents).filterMap hashed.stateAfter,
        own.Sound seed := by
      intro own mem
      obtain ⟨parent, _, stored⟩ := mem_filterMap.mp mem
      exact tandem.sound parent own stored
    have single : ∀ parent, (distinctParents run.index event.prevEvents).filterMap hashed.stateAfter = [parent] →
        ∃ parentEventId, event.prevEvents.find? (· ∈ run.index) = some parentEventId ∧
          kept.stateAfter parentEventId = some parent.state := by
      intro parent only
      obtain ⟨parentEventId, one, stored⟩ := filterMap_eq_single known only
      refine ⟨parentEventId, find?_of_distinctParents one, ?_⟩
      rw [tandem.states, stored]
      rfl
    have visit := tandem.caches.visit orderLeft orderRight event parentsSound single
    dsimp only
    rw [parents]
    cases plainRun : run.plainVisit orderLeft event (((distinctParents run.index
        event.prevEvents).filterMap hashed.stateAfter).map state) kept.caches with
    | error panic =>
      rw [plainRun] at visit
      rcases visit.elim with ⟨_, _, impossible, _⟩ | ⟨reason, same, optimizedRun⟩
      · cases impossible
      · rw [optimizedRun, ← Except.error.inj same]
        exact .error _
    | ok plain =>
      rw [plainRun] at visit
      rcases visit.elim with ⟨_, optimized, same, optimizedRun, agrees, caches⟩ | ⟨_, impossible, _⟩
      · obtain rfl := Except.ok.inj same
        obtain ⟨before, _, visited⟩ := plainVisit_ok plainRun
        rw [optimizedRun]
        refine .ok (tandem.push fresh ?_ agrees caches)
        rw [visited]
        exact EventMap.get_id found
      · cases impossible

theorem journals_agree (seed : Seed Id lanes) (nodup : run.index.Nodup)
    (sound : plan.Sound run.index run.eventsMap) (orderLeft orderRight : Id → Order) :
    let plain := run.journal (run.plainVisit orderLeft) plan
    let optimized := run.journal (run.optimizedVisit orderRight seed) plan
    plain.2 = optimized.2 ∧ (plain.1.map eventId).Nodup ∧ List.Forall₂ (Agrees seed fun id =>
        (plain.1.map fun visited => (visited.eventId, visited.after)).lookup id) plain.1 optimized.1 := by
  have start : InTandem seed run plan [] [] plan.sortedAncestors ⟨fun _ => none, .new run.version⟩
      ⟨fun _ => none, .new run.version⟩ := ⟨rfl, by simp, by simp, by simp, alikeCaches_new run.mergeCtx, .nil⟩
  obtain ⟨ended, left, last, last', tandem, _⟩ := Stream.stream_both (InTandem seed run plan)
    (fun visits updates id rest kept hashed tandem => tandem.turn nodup sound orderLeft orderRight)
    plan.sortedAncestors start
  have once : ((run.journal (run.plainVisit orderLeft) plan).1.map eventId).Nodup := by
    have distinct : plan.sortedAncestors.Nodup := sound.perm.nodup_iff.mpr nodup
    rw [tandem.split] at distinct
    exact (nodup_append.mp distinct).1
  refine ⟨ended, once, tandem.agree.imp fun _ _ agrees => agrees.mono fun id state found => ?_⟩
  rw [lookup_eq_some_of_nodup]
  · exact (tandem.recorded id state).mp found
  · rw [List.map_map]
    exact once

section

def PipelineRun.withAllTargets (run : PipelineRun Id C) : PipelineRun Id C := { run with isTarget := fun _ => true }

theorem plainVisit_withAllTargets (run : PipelineRun Id C) (order : Id → Order) (event : LeanEvent Id C)
    (prevStates : List (SharedState Id)) (caches : ForkResolveCaches Id C) :
    Stream.Both (fun full own => full.1.handed = some (own.1.eventId, own.1.after) ∧
        full.1.after = own.1.after ∧ full.2 = own.2)
      (run.withAllTargets.plainVisit order event prevStates caches)
      (run.plainVisit order event prevStates caches) := by
  unfold plainVisit
  have ctx : run.withAllTargets.mergeCtx = run.mergeCtx := rfl
  rw [ctx]
  cases resolveMergedParentStates (order event.eventId) run.mergeCtx caches prevStates with
  | error reason => exact .error _
  | ok merged => exact .ok ⟨rfl, rfl, rfl⟩

def SameStates (full visits : List (Visited Id (SharedState Id) (SharedState Id))) (_ : List Id)
    (keptFull kept : KeptStates Id C (SharedState Id)) : Prop :=
  (full.filterMap handed = visits.map fun visited => (visited.eventId, visited.after)) ∧ keptFull = kept

theorem SameStates.turn {full visits : List (Visited Id (SharedState Id) (SharedState Id))} {id : Id}
    {rest : List Id} {keptFull kept : KeptStates Id C (SharedState Id)}
    (same : SameStates full visits (id :: rest) keptFull kept) (run : PipelineRun Id C) (order : Id → Order) :
    Stream.Both (fun left right => SameStates (full ++ [left.2]) (visits ++ [right.2]) rest left.1 right.1)
      (run.withAllTargets.keptTurn (run.withAllTargets.plainVisit order) keptFull id)
      (run.keptTurn (run.plainVisit order) kept id) := by
  obtain ⟨handed, rfl⟩ := same
  have events : run.withAllTargets.eventsMap = run.eventsMap := rfl
  have index : run.withAllTargets.index = run.index := rfl
  unfold keptTurn
  rw [events, index]
  cases run.eventsMap.get id with
  | none => exact .error _
  | some event =>
    dsimp only
    rcases (plainVisit_withAllTargets run order event ((distinctParents run.index
        event.prevEvents).filterMap keptFull.stateAfter) keptFull.caches).elim with
      ⟨left, right, leftRun, rightRun, delivered, after, caches⟩ | ⟨reason, leftRun, rightRun⟩
    · rw [leftRun, rightRun]
      refine .ok ⟨?_, by rw [after, caches]⟩
      rw [filterMap_append, handed, map_append, filterMap_cons_some delivered]
      rfl
    · rw [leftRun, rightRun]
      exact .error _

theorem journal_withAllTargets (run : PipelineRun Id C) (order : Id → Order) (plan : TopologicalPlan Id) :
    let journal := run.journal (run.plainVisit order) plan
    let full := run.withAllTargets.journal (run.withAllTargets.plainVisit order) plan
    full.2 = journal.2 ∧ full.1.filterMap handed = journal.1.map fun visited => (visited.eventId, visited.after) := by
  have start : SameStates [] [] plan.sortedAncestors
      (⟨fun _ => none, .new run.version⟩ : KeptStates Id C (SharedState Id)) ⟨fun _ => none, .new run.version⟩ :=
    ⟨rfl, rfl⟩
  obtain ⟨ended, _, _, _, same, _⟩ := Stream.stream_both SameStates
    (fun full visits id rest keptFull kept same => same.turn run order) plan.sortedAncestors start
  exact ⟨ended, same.1⟩

variable (inputs : StreamingInputs Id C)

omit [ToString Id] [EventContent C] in
theorem StreamingInputs.traverse_of_none {T D σ E : Type} (none : inputs.foundTargets = [])
    (visit : Visit Id C T D) (onTarget : σ → Id → D → Except E σ) (s : σ) :
    inputs.pipelineRun.traverse visit onTarget s = .ok s := by
  cases planned : checkedTopologicalPlan inputs.pipelineRun.index inputs.pipelineRun.eventsMap with
  | none =>
    obtain ⟨id, reaches, _⟩ := inputs.plan_spec.1.mp planned
    exact absurd reaches (not_reaches_of_none none id)
  | some plan =>
    have empty : plan.sortedAncestors = [] := by
      apply eq_nil_iff_forall_not_mem.mpr
      intro id mem
      have indexed := (inputs.plan_spec.2 plan planned).perm.mem_iff.mp mem
      exact not_reaches_of_none none id (mem_index.mp indexed)
    unfold PipelineRun.traverse
    rw [planned]
    dsimp only
    rw [empty]
    rfl

omit [ToString Id] [EventContent C] in
theorem StreamingInputs.withPipelineRun_traverse {T D σ E : Type} (visit : PipelineRun Id C → Visit Id C T D)
    (onTarget : σ → Id → D → Except E σ) (s : σ) :
    inputs.withPipelineRun (fun run => run.traverse (visit run) onTarget s) s =
      inputs.pipelineRun.traverse (visit inputs.pipelineRun) onTarget s := by
  unfold withPipelineRun
  split
  · rename_i none
    rw [inputs.traverse_of_none none]
  · rfl

theorem StreamingInputs.tryCompute_eq {σ E : Type} (order : Id → Order)
    (onTarget : σ → Id → SharedState Id → Except E σ) (s : σ) :
    inputs.tryCompute order onTarget s = inputs.pipelineRun.traverse (inputs.pipelineRun.plainVisit order) onTarget s :=
  inputs.withPipelineRun_traverse (plainVisit order) onTarget s

theorem StreamingInputs.tryComputeOptimized_eq {σ E : Type} (order : Id → Order) (seed : Seed Id lanes)
    (onTarget : σ → Id → StateUpdate Id lanes → Except E σ) (s : σ) :
    inputs.tryComputeOptimized order seed onTarget s =
      inputs.pipelineRun.traverse (inputs.pipelineRun.optimizedVisit order seed) onTarget s :=
  inputs.withPipelineRun_traverse (optimizedVisit order seed) onTarget s

variable {inputs}

omit [LinearOrder Id] [ToString Id] [EventContent C] in
theorem forall₂_handed (agree : List.Forall₂ (Agrees seed states) visits updates) :
    List.Forall₂ (fun delivery update => delivery.1 = update.1 ∧
        update.2.lattice = LtLattice.fromState seed delivery.2 ∧ update.2.intoState states = some delivery.2)
      (visits.filterMap handed) (updates.filterMap handed) := by
  induction agree with
  | nil => exact .nil
  | @cons visited update visits updates agrees rest ih =>
    have told := agrees.delivery
    have named := agrees.eventId
    unfold handed at ih ⊢
    rw [filterMap_cons, filterMap_cons]
    generalize visited.delivery = delivered at told ⊢
    generalize update.delivery = updated at told ⊢
    cases told with
    | none => exact ih
    | some same => exact .cons ⟨named, same⟩ ih

end

/-- The optimized pipeline hands over the same targets in the same order, each with the hash of its state and with
    that state or a parent that has it, and ends as the plain one ends. -/
theorem tryComputeOptimized_refines (inputs : StreamingInputs Id C) (seed : Seed Id lanes)
    (orderPlain orderOptimized : Id → Order) :
    (∀ {σ τ E F : Type} (onTarget : σ → Id → SharedState Id → Except E σ) (s : σ)
        (onUpdate : τ → Id → StateUpdate Id lanes → Except F τ) (t : τ),
      inputs.tryCompute orderPlain onTarget s = .error (.failed .cycleDetected) ↔
        inputs.tryComputeOptimized orderOptimized seed onUpdate t = .error (.failed .cycleDetected)) ∧
    (¬inputs.Cyclic → ∃ (states deliveries : List (Id × SharedState Id))
        (updates : List (Id × StateUpdate Id lanes)) (ended : Option (PipelinePanic Id)),
      (∀ {σ E : Type} (onTarget : σ → Id → SharedState Id → Except E σ) (s : σ),
        inputs.tryCompute orderPlain onTarget s = (Stream.replay (fun s delivery =>
          onTarget s delivery.1 delivery.2) ended s deliveries).mapError haltedPipeline ∧
        inputs.pipelineRun.withAllTargets.runPlain orderPlain onTarget s = (Stream.replay (fun s delivery =>
          onTarget s delivery.1 delivery.2) ended s states).mapError haltedPipeline) ∧
      (∀ {σ E : Type} (onUpdate : σ → Id → StateUpdate Id lanes → Except E σ) (s : σ),
        inputs.tryComputeOptimized orderOptimized seed onUpdate s = (Stream.replay (fun s update =>
          onUpdate s update.1 update.2) ended s updates).mapError haltedPipeline) ∧
      List.Forall₂ (fun delivery update => delivery.1 = update.1 ∧
          update.2.lattice = LtLattice.fromState seed delivery.2 ∧
          update.2.intoState (fun id => states.lookup id) = some delivery.2) deliveries updates) := by
  constructor
  · intro σ τ E F onTarget s onUpdate t
    rw [inputs.tryCompute_eq, inputs.tryComputeOptimized_eq, traverse_cycle_iff, traverse_cycle_iff]
  · intro acyclic
    cases planned : checkedTopologicalPlan inputs.pipelineRun.index inputs.pipelineRun.eventsMap with
    | none => exact absurd (inputs.plan_spec.1.mp planned) acyclic
    | some plan =>
      have sound := inputs.plan_spec.2 plan planned
      obtain ⟨ended, _, agree⟩ := journals_agree seed (nodup_collectAncestorShortIdsBatch _ _) sound orderPlain
        orderOptimized
      obtain ⟨fullEnded, full⟩ := journal_withAllTargets inputs.pipelineRun orderPlain plan
      refine ⟨_, _, _, (inputs.pipelineRun.journal (inputs.pipelineRun.plainVisit orderPlain) plan).2,
        fun onTarget s => ⟨?_, ?_⟩, fun onUpdate s => ?_, forall₂_handed agree⟩
      · rw [← replay_journal]
        exact (inputs.tryCompute_eq orderPlain onTarget s).trans (sound.traverse planned _ onTarget s)
      · rw [← full, ← replay_journal, ← fullEnded]
        have soundAll : plan.Sound inputs.pipelineRun.withAllTargets.index
          inputs.pipelineRun.withAllTargets.eventsMap := sound
        exact soundAll.traverse planned _ onTarget s
      · rw [← replay_journal, ended]
        exact (inputs.tryComputeOptimized_eq orderOptimized seed onUpdate s).trans
          (sound.traverse planned _ onUpdate s)

end Rezzy.State
