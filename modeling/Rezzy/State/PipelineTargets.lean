import Rezzy.State.PipelineSpec

namespace Rezzy.State

open Basespec Auth Resolve Permuted List Visited Stream

variable {Id C : Type} [LinearOrder Id] [ToString Id] [EventContent C]

def Visited.handed {T D : Type} (visited : Visited Id T D) : Option (Id × D) :=
  visited.delivery.map fun delivered => (visited.eventId, delivered)

omit [LinearOrder Id] [ToString Id] in
theorem handed_ids {T : Type} {journal : List (Visited Id T T)} (entries : ∀ visited ∈ journal,
      visited.delivery = if isTarget visited.eventId then some visited.after else none) :
    (journal.filterMap Visited.handed).map Prod.fst = (journal.map Visited.eventId).filter isTarget := by
  induction journal with
  | nil => rfl
  | cons visited journal ih =>
    have own := entries visited (by simp)
    have rest := ih fun other member => entries other (mem_cons_of_mem _ member)
    by_cases target : isTarget visited.eventId
    · simp [handed, own, target, rest]
    · simp [handed, own, target, rest]

omit [LinearOrder Id] [ToString Id] in
theorem replay_journal {T D σ E : Type} (onTarget : σ → Id → D → Except E σ) (ended : Option (PipelinePanic Id))
    (s : σ) (journal : List (Visited Id T D)) :
    Stream.replay (onVisited onTarget) ended s journal =
      Stream.replay (fun s delivery => onTarget s delivery.1 delivery.2) ended s
        (journal.filterMap Visited.handed) := by
  refine replay_filterMap handed (fun s visited => ?_) ended s journal
  unfold onVisited handed
  cases visited.delivery <;> rfl

namespace StreamingInputs

variable (inputs : StreamingInputs Id C) (order : Id → Order)

/-- A call hands over `deliveries` one by one, unless the callback fails, and then ends: by a panic of a
    merge, or for good. -/
structure Streams (deliveries : List (Id × SharedState Id)) (ended : Option (Panic Id)) : Prop where
  runs : ∀ {σ E : Type} (onTarget : σ → Id → SharedState Id → Except E σ) (s : σ),
    inputs.tryCompute order onTarget s = (Stream.replay (fun s delivery => onTarget s delivery.1 delivery.2)
      (ended.map .merge) s deliveries).mapError haltedPipeline
  states : ∀ delivery ∈ deliveries, StateAfter inputs.mergeCtx delivery.1 delivery.2
  once : (deliveries.map Prod.fst).Nodup
  targets : ∀ id ∈ deliveries.map Prod.fst, id ∈ inputs.foundTargets
  complete : ended = none → (∀ id ∈ inputs.foundTargets, id ∈ deliveries.map Prod.fst) ∧
    ∀ id, inputs.Reaches id → ∃ state, StateAfter inputs.mergeCtx id state
  panics : ∀ reason, ended = some reason → ∃ id, inputs.Reaches id ∧ MergeFails inputs.mergeCtx id reason

variable {inputs}

omit [ToString Id] [EventContent C] in
theorem not_reaches_of_none (none : inputs.foundTargets = []) (id : Id) : ¬inputs.Reaches id := by
  rintro ⟨target, member, _⟩
  rw [none] at member
  cases member

theorem tryCompute_cycle {σ E : Type} (onTarget : σ → Id → SharedState Id → Except E σ) (s : σ) :
    inputs.tryCompute order onTarget s = .error (.failed .cycleDetected) ↔ inputs.Cyclic := by
  unfold tryCompute withPipelineRun
  split
  · rename_i none
    simp only [reduceCtorEq, false_iff]
    rintro ⟨id, reaches, _⟩
    exact not_reaches_of_none none id reaches
  · rw [← inputs.plan_spec.1]
    exact traverse_cycle_iff _ _ _ _

theorem TieFree.journal (tieFree : inputs.TieFree) (sound : plan.Sound inputs.pipelineRun.index inputs.eventsMap) :
    let journal := inputs.pipelineRun.journal (inputs.pipelineRun.plainVisit order) plan
    ∃ rest last, Follows inputs plan journal.1 rest last ∧ (journal.2 = none → rest = []) ∧
      ∀ panic, journal.2 = some panic → ∃ id, inputs.Reaches id ∧ ∃ reason, panic = .merge reason ∧
        MergeFails inputs.mergeCtx id reason := by
  have start : Follows inputs plan [] plan.sortedAncestors ⟨fun _ => none, .new inputs.version⟩ :=
    ⟨rfl, by simp, by simp, ForkResolveCaches.faithful_new _ _⟩
  exact stream_invariant (Follows inputs plan) (fun panic => ∃ id, inputs.Reaches id ∧ ∃ reason, panic = .merge reason ∧
      MergeFails inputs.mergeCtx id reason)
    (fun handed id rest kept turned follows outcome => follows.turn sound tieFree order outcome)
    (fun handed id rest kept panic follows outcome =>
      ⟨id, follows.reaches sound, follows.broken sound tieFree order outcome⟩)
    plan.sortedAncestors start

theorem TieFree.streams (tieFree : inputs.TieFree) (acyclic : ¬inputs.Cyclic) :
    ∃ deliveries ended, inputs.Streams order deliveries ended := by
  by_cases none : inputs.foundTargets = []
  · refine ⟨[], .none, fun onTarget s => ?_, by simp, by simp, by simp, fun _ => ⟨by simp [none],
      fun id reaches => absurd reaches (not_reaches_of_none none id)⟩, by simp⟩
    unfold tryCompute withPipelineRun
    rw [if_pos none]
    rfl
  cases planned : checkedTopologicalPlan inputs.pipelineRun.index inputs.pipelineRun.eventsMap with
  | none => exact absurd (inputs.plan_spec.1.mp planned) acyclic
  | some plan =>
    have sound := inputs.plan_spec.2 plan planned
    obtain ⟨rest, last, follows, all, broken⟩ := tieFree.journal order sound
    have runs : ∀ {σ E : Type} (onTarget : σ → Id → SharedState Id → Except E σ) (s : σ),
        inputs.tryCompute order onTarget s = (Stream.replay (fun s delivery => onTarget s delivery.1 delivery.2)
            (inputs.pipelineRun.journal (inputs.pipelineRun.plainVisit order) plan).2 s
            ((inputs.pipelineRun.journal (inputs.pipelineRun.plainVisit order) plan).1.filterMap
              Visited.handed)).mapError haltedPipeline := by
      intro σ E onTarget s
      unfold tryCompute withPipelineRun
      rw [if_neg none, ← replay_journal]
      exact sound.traverse planned (inputs.pipelineRun.plainVisit order) onTarget s
    generalize inputs.pipelineRun.journal (inputs.pipelineRun.plainVisit order) plan = journal at *
    obtain ⟨visits, ended⟩ := journal
    have ids := handed_ids fun visited member => (follows.entries visited member).2
    have nodup : (visits.map Visited.eventId).Nodup := by
      have distinct : plan.sortedAncestors.Nodup := sound.perm.nodup_iff.mpr (nodup_collectAncestorShortIdsBatch _ _)
      rw [follows.split] at distinct
      exact (nodup_append.mp distinct).1
    obtain ⟨reason, rfl⟩ : ∃ reason, ended = Option.map PipelinePanic.merge reason := by
      cases ended with
      | none => exact ⟨.none, rfl⟩
      | some panic =>
        obtain ⟨_, _, reason, rfl, _⟩ := broken panic rfl
        exact ⟨some reason, rfl⟩
    refine ⟨visits.filterMap Visited.handed, reason, runs, ?_, ?_, ?_, ?_, ?_⟩
    · intro delivery member
      obtain ⟨visited, inside, handed⟩ := mem_filterMap.mp member
      obtain ⟨after, delivered⟩ := follows.entries visited inside
      unfold Visited.handed at handed
      rw [delivered] at handed
      split at handed
      · rw [← Option.some.inj handed]
        exact after
      · cases handed
    · rw [ids]
      exact nodup.filter _
    · intro id member
      rw [ids] at member
      have target := of_mem_filter member
      exact of_decide_eq_true target
    · intro finished
      have visited : ∀ id, inputs.Reaches id → id ∈ visits.map Visited.eventId := by
        intro id reaches
        have listed := sound.perm.mem_iff.mpr (mem_index.mpr reaches)
        rw [follows.split, all (by rw [finished]; rfl), append_nil] at listed
        exact listed
      refine ⟨fun id target => ?_, fun id reaches => ?_⟩
      · rw [ids]
        exact mem_filter.mpr ⟨visited id (.seed target), decide_eq_true target⟩
      · obtain ⟨state, _, after⟩ := follows.states id (visited id reaches)
        exact ⟨state, after⟩
    · rintro other rfl
      obtain ⟨id, reaches, own, same, fails⟩ := broken _ rfl
      obtain rfl := PipelinePanic.merge.inj same
      exact ⟨id, reaches, fails⟩

end StreamingInputs

/-- The cycle error tells of a cycle among the reached events. Otherwise, without ties, every target is handed over
    once, with the state of the specification. -/
theorem tryCompute_streams (inputs : StreamingInputs Id C) (order : Id → Order) (tieFree : inputs.TieFree) :
    (∀ {σ E : Type} (onTarget : σ → Id → SharedState Id → Except E σ) (s : σ),
      inputs.tryCompute order onTarget s = .error (.failed .cycleDetected) ↔ inputs.Cyclic) ∧
    (¬inputs.Cyclic → ∃ deliveries ended, inputs.Streams order deliveries ended) :=
  ⟨inputs.tryCompute_cycle order, tieFree.streams order⟩

section

variable {inputs : StreamingInputs Id C} {order : Id → Order} {deliveries : List (Id × SharedState Id)}
  {ended : Option (Panic Id)}

theorem StreamingInputs.Streams.compute {σ : Type} (streams : inputs.Streams order deliveries ended)
    (onTarget : σ → Id → SharedState Id → σ) (s : σ) :
    inputs.compute order onTarget s = match ended with
      | none => .ok (deliveries.foldl (fun s delivery => onTarget s delivery.1 delivery.2) s)
      | some reason => .error (.merge reason) := by
  unfold StreamingInputs.compute
  rw [streams.runs, replay_ok fun s (delivery : Id × SharedState Id) => onTarget s delivery.1 delivery.2]
  cases ended <;> rfl

omit [ToString Id] in
theorem foldl_update {α : Type} (deliveries : List (Id × α)) (once : (deliveries.map Prod.fst).Nodup)
    (results : Id → Option α) (id : Id) :
    (deliveries.foldl (fun (results : Id → Option α) delivery =>
      Function.update results delivery.1 (some delivery.2)) results) id = (deliveries.lookup id).or (results id) := by
  induction deliveries generalizing results with
  | nil => rfl
  | cons delivery deliveries ih =>
    obtain ⟨fresh, once⟩ := nodup_cons.mp once
    rw [foldl_cons, ih once, lookup_cons]
    by_cases same : id = delivery.1
    · have missing : deliveries.lookup id = none := by
        rw [lookup_eq_none_iff]
        intro _ member
        rw [bne_iff_ne, same]
        exact fun equal => fresh (equal ▸ mem_map_of_mem member)
      rw [missing, same]
      simp
    · rw [Function.update_of_ne same, beq_eq_false_iff_ne.mpr same]

theorem StreamingInputs.Streams.lookup (streams : inputs.Streams order deliveries none) {id : Id}
    (target : id ∈ inputs.foundTargets) :
    ∃ state, deliveries.lookup id = some state ∧ StateAfter inputs.mergeCtx id state := by
  obtain ⟨delivery, member, rfl⟩ := mem_map.mp ((streams.complete rfl).1 id target)
  cases found : deliveries.lookup delivery.1 with
  | none => simpa using lookup_eq_none_iff.mp found delivery member
  | some state =>
    obtain ⟨before, after, split, _⟩ := lookup_eq_some_iff.mp found
    exact ⟨state, rfl, streams.states (delivery.1, state) (by simp [split])⟩

theorem StreamingInputs.Streams.batch (streams : inputs.Streams order deliveries none) :
    ∃ results, computeStateAtBatch order inputs.targetEventIds inputs.eventsMap inputs.version inputs.emptyKey =
        .ok results ∧ ∀ id, (id ∈ inputs.foundTargets → ∃ state, results id = some state ∧
          StateAfter inputs.mergeCtx id state) ∧ (id ∉ inputs.foundTargets → results id = none) := by
  refine ⟨_, streams.compute _ _, fun id => ⟨fun target => ?_, fun other => ?_⟩⟩
  · rw [foldl_update _ streams.once]
    obtain ⟨state, found, after⟩ := streams.lookup target
    exact ⟨state, by rw [found]; rfl, after⟩
  · rw [foldl_update _ streams.once]
    have missing : deliveries.lookup id = none := by
      rw [lookup_eq_none_iff]
      intro _ member
      rw [bne_iff_ne]
      exact fun same => other (streams.targets id (same ▸ mem_map_of_mem member))
    rw [missing]
    rfl

theorem StreamingInputs.Streams.alone {target : Id} {eventsMap : EventMap Id C} {version : StateResVersion}
    {emptyKey : String}
    (streams : Streams ⟨[target], eventsMap, version, emptyKey⟩ order deliveries none)
    (known : target ∈ eventsMap.keys) :
    ∃ state, computeStateAt order target eventsMap version emptyKey = .ok (some state) ∧
      StateAfter ⟨eventsMap, version, emptyKey⟩ target state := by
  have sole : ∀ id, id ∈ foundTargets ⟨[target], eventsMap, version, emptyKey⟩ ↔ id = target := by
    intro id
    rw [mem_foundTargets, mem_singleton]
    exact ⟨And.left, fun same => ⟨same, same ▸ known⟩⟩
  have single : ∃ state, deliveries = [(target, state)] := by
    have own := streams.targets
    have there := (streams.complete rfl).1 target ((sole target).mpr rfl)
    have once := streams.once
    match deliveries with
    | [] => cases there
    | [delivery] =>
      exact ⟨delivery.2, by rw [← (sole delivery.1).mp (own delivery.1 (by simp))]⟩
    | first :: second :: rest =>
      have left := (sole first.1).mp (own first.1 (by simp))
      have right := (sole second.1).mp (own second.1 (by simp))
      simp [left, right] at once
  obtain ⟨state, rfl⟩ := single
  refine ⟨state, ?_, streams.states (target, state) (by simp)⟩
  unfold computeStateAt
  rw [if_pos (containsKey_iff.mpr known), streams.compute]
  rfl

omit [ToString Id] [EventContent C] in
theorem StreamingInputs.Reaches.of_target {targets : List Id} {eventsMap : EventMap Id C}
    {version : StateResVersion} {emptyKey : String} {target id : Id} (member : target ∈ targets)
    (reaches : Reaches ⟨[target], eventsMap, version, emptyKey⟩ id) :
    Reaches ⟨targets, eventsMap, version, emptyKey⟩ id := by
  obtain ⟨start, found, path⟩ := reaches
  rw [mem_foundTargets, mem_singleton] at found
  exact ⟨start, mem_foundTargets.mpr ⟨found.1 ▸ member, found.2⟩, path⟩

end

/-- Without ties a batch returns exactly when every target alone does, and then with the same states. -/
theorem computeStateAtBatch_alone (targetEventIds : List Id) (eventsMap : EventMap Id C)
    (version : StateResVersion) (emptyKey : String)
    (acyclic : ∀ id, ¬Relation.TransGen (Precedes eventsMap) id id)
    (tieFree : StreamingInputs.TieFree ⟨targetEventIds, eventsMap, version, emptyKey⟩)
    (order : Id → Order) (orderAlone : Id → Id → Order) :
    (∀ results, computeStateAtBatch order targetEventIds eventsMap version emptyKey = .ok results →
      ∀ target ∈ targetEventIds,
        computeStateAt (orderAlone target) target eventsMap version emptyKey = .ok (results target)) ∧
    ((∀ target ∈ targetEventIds, ∃ state,
        computeStateAt (orderAlone target) target eventsMap version emptyKey = .ok state) →
      ∃ results, computeStateAtBatch order targetEventIds eventsMap version emptyKey = .ok results) := by
  have aloneStreams : ∀ target ∈ targetEventIds, ∃ deliveries ended,
      StreamingInputs.Streams ⟨[target], eventsMap, version, emptyKey⟩ (orderAlone target) deliveries ended :=
    fun target member => StreamingInputs.TieFree.streams _
      (fun id reaches => tieFree id (reaches.of_target member)) fun ⟨id, _, path⟩ => acyclic id path
  obtain ⟨deliveries, ended, streams⟩ := tieFree.streams order fun ⟨id, _, path⟩ => acyclic id path
  constructor
  · intro results returned target member
    cases ended with
    | some reason =>
      have broken := streams.compute (fun results id state => Function.update results id (some state))
        fun _ => none
      cases broken.symm.trans returned
    | none =>
      obtain ⟨own, batch, known⟩ := streams.batch
      obtain rfl : own = results := Except.ok.inj (batch.symm.trans returned)
      by_cases there : target ∈ eventsMap.keys
      · obtain ⟨state, found, after⟩ := (known target).1
          (StreamingInputs.mem_foundTargets.mpr ⟨member, there⟩)
        obtain ⟨aloneDeliveries, aloneEnded, alone⟩ := aloneStreams target member
        cases aloneEnded with
        | none =>
          obtain ⟨other, aloneReturned, aloneAfter⟩ := alone.alone there
          rw [aloneReturned, found, aloneAfter.unique after]
        | some reason =>
          obtain ⟨id, reaches, fails⟩ := alone.panics reason rfl
          obtain ⟨other, has⟩ := (streams.complete rfl).2 id (reaches.of_target member)
          exact absurd has (fails.no_state other)
      · rw [(known target).2 fun found => there (StreamingInputs.mem_foundTargets.mp found).2]
        unfold computeStateAt
        rw [if_neg fun known => there (containsKey_iff.mp known)]
  · intro returns
    cases ended with
    | none =>
      obtain ⟨results, batch, _⟩ := streams.batch
      exact ⟨results, batch⟩
    | some reason =>
      obtain ⟨id, ⟨target, found, path⟩, fails⟩ := streams.panics reason rfl
      obtain ⟨member, there⟩ := StreamingInputs.mem_foundTargets.mp found
      obtain ⟨aloneDeliveries, aloneEnded, alone⟩ := aloneStreams target member
      cases aloneEnded with
      | none =>
        have reaches : StreamingInputs.Reaches ⟨[target], eventsMap, version, emptyKey⟩ id :=
          ⟨target, StreamingInputs.mem_foundTargets.mpr ⟨by simp, there⟩, path⟩
        obtain ⟨state, has⟩ := (alone.complete rfl).2 id reaches
        exact absurd has (fails.no_state state)
      | some other =>
        obtain ⟨state, returned⟩ := returns target member
        unfold computeStateAt at returned
        rw [if_pos (containsKey_iff.mpr there), alone.compute] at returned
        cases returned

section

omit [LinearOrder Id] [ToString Id] [EventContent C] in
theorem toOption_eq_some {α : Type} {outcome : Except (Panic Id) α} {value : α}
    (returned : outcome.toOption = some value) : outcome = .ok value := by
  cases outcome with
  | error panic => cases returned
  | ok other => exact congrArg Except.ok (Option.some.inj returned)

theorem tieFree_of_sole {inputs : StreamingInputs Id C} (sole : SoleReads inputs.eventsMap) : inputs.TieFree := by
  rintro id - states - order first rest authDiff - - - event checked - query read
  have known := (mergeInputs_inRoom inputs.mergeCtx first rest order authDiff).checked checked
  exact tieFreeAt_of_sole _ (sole event known query read)

omit [ToString Id] [EventContent C] in
theorem acyclic_of_lt {eventsMap : EventMap Id C}
    (grows : ∀ event ∈ eventsMap.values, ∀ prev ∈ event.prevEvents, prev < event.eventId) (id : Id) :
    ¬Relation.TransGen (Precedes eventsMap) id id := by
  have edge : ∀ left right, Precedes eventsMap left right → left < right := by
    intro left right cited
    have prev := mem_of_mem_filter cited
    unfold prevEventsOf at prev
    cases found : eventsMap.get right with
    | none => simp [found] at prev
    | some event =>
      rw [← EventMap.get_id found]
      exact grows event (EventMap.get_mem found) left (by simpa [found] using prev)
  have path : ∀ left right, Relation.TransGen (Precedes eventsMap) left right → left < right := by
    intro left right path
    induction path with
    | single last => exact edge _ _ last
    | tail _ last ih => exact ih.trans (edge _ _ last)
  exact fun circle => lt_irrefl id (path id id circle)

theorem stateAfter_of_table {ctx : MergeContext Id C} (nodup : ids.Nodup) (states : Id → SharedState Id)
    (first : Peel.ParentsFirst (presentParents ctx.eventsMap) ids)
    (meets : ∀ id ∈ ids, ((ctx.eventsMap.get id).bind fun event =>
      (mergeStates ctx ((presentParents ctx.eventsMap id).map states)).toOption.map fun before =>
        recordOwnState before event) = some (states id)) : ∀ id ∈ ids, StateAfter ctx id (states id) := by
  refine first.forall_mem nodup fun id member after => ?_
  obtain ⟨event, found, merged⟩ := Option.bind_eq_some_iff.mp (meets id member)
  obtain ⟨before, merged, own⟩ := Option.map_eq_some_iff.mp merged
  rw [← own]
  exact .record found after (toOption_eq_some merged)

end

namespace Sample

open Basespec.Sample Resolve.Sample

def following (prevEvents : List Nat) (event : LeanEvent Nat Content) : LeanEvent Nat Content :=
  { event with prevEvents := prevEvents }

def message (eventId : Nat) (prevEvents : List Nat) : LeanEvent Nat Content :=
  { stateEvent eventId "m.room.message" "" "@a:x" {} [1, 2, 3] eventId with stateKey := none, prevEvents }

def topicFork : StreamingInputs Nat Content where
  targetEventIds := [4, 6]
  eventsMap := ⟨[create "12.1", following [1] (joinA [1]), following [2] openLevels,
    following [3] (topic 4 "@a:x" [1, 2, 3]), following [3] (topic 5 "@a:x" [1, 2, 3]), message 6 [4, 5, 4]],
    by decide⟩
  version := .v2_1_1
  emptyKey := ""

def comeAndGonePrev : Nat → List Nat
  | 2 => [1]
  | 3 => [2]
  | 4 => [3]
  | 7 => [4]
  | 8 | 9 => [7]
  | 10 => [8]
  | _ => []

def avatarFork : EventMap Nat Content :=
  ⟨comeAndGone.values.map (fun event => following (comeAndGonePrev event.eventId) event) ++
    [message 11 [8, 9], message 12 [8, 10]], by decide⟩

def avatarForkInputs : StreamingInputs Nat Content := ⟨[11, 12], avatarFork, .v2_1_1, ""⟩

def avatarForkAlone (id : Nat) : SharedState Nat :=
  (computeStateAt (fun _ => .asListed) id avatarFork .v2_1_1 "").toOption.join.getD ∅

end Sample

open Sample

theorem topicFork_tieFree : topicFork.TieFree := by
  refine tieFree_of_sole ?_
  decide

theorem topicFork_acyclic (id : Nat) : ¬Relation.TransGen (Precedes topicFork.eventsMap) id id := by
  refine acyclic_of_lt ?_ id
  decide

theorem avatarFork_acyclic (id : Nat) : ¬Relation.TransGen (Precedes avatarFork) id id := by
  refine acyclic_of_lt ?_ id
  decide

theorem avatarFork_evaluated :
    (∀ id ∈ [1, 2, 3, 4, 7, 8, 10, 12], ((avatarForkInputs.mergeCtx.eventsMap.get id).bind fun event =>
      (mergeStates avatarForkInputs.mergeCtx ((presentParents avatarForkInputs.mergeCtx.eventsMap id).map
        avatarForkAlone)).toOption.map fun before => recordOwnState before event) = some (avatarForkAlone id)) ∧
      ((computeStateAtBatch (fun _ => .asListed) [11, 12] avatarFork .v2_1_1 "").map (· 12)).toOption ≠
        (computeStateAt (fun _ => .asListed) 12 avatarFork .v2_1_1 "").toOption ∧
      (avatarForkInputs.tryCompute (fun _ => .asListed)
        (fun (gathered : List (Nat × SharedState Nat)) id state => (.ok (gathered ++ [(id, state)]) : Except Empty _))
        []).toOption.any (fun deliveries => deliveries.any fun delivery =>
          delivery.1 = 12 ∧ delivery.2 ≠ avatarForkAlone 12) = true := by
  decide +kernel

theorem tryCompute_streams_topics :
    ∃ deliveries ended, topicFork.Streams (fun _ => .asListed) deliveries ended :=
  (tryCompute_streams topicFork (fun _ => .asListed) topicFork_tieFree).2
    fun ⟨id, _, path⟩ => topicFork_acyclic id path

theorem computeStateAtBatch_alone_topics :
    ∃ results, computeStateAtBatch (fun _ => .asListed) [4, 6] topicFork.eventsMap .v2_1_1 "" = .ok results ∧
      computeStateAt (fun _ => .reversed) 4 topicFork.eventsMap .v2_1_1 "" = .ok (results 4) ∧
      computeStateAt (fun _ => .reversed) 6 topicFork.eventsMap .v2_1_1 "" = .ok (results 6) := by
  have ran : (computeStateAtBatch (fun _ => .asListed) [4, 6] topicFork.eventsMap .v2_1_1 "").isOk = true := by
    decide
  cases computed : computeStateAtBatch (fun _ => .asListed) [4, 6] topicFork.eventsMap .v2_1_1 "" with
  | error _ =>
    rw [computed] at ran
    cases ran
  | ok results =>
    have alone := (computeStateAtBatch_alone [4, 6] topicFork.eventsMap .v2_1_1 "" topicFork_acyclic
      topicFork_tieFree (fun _ => .asListed) fun _ _ => .reversed).1 results computed
    exact ⟨results, rfl, alone 4 (by decide), alone 6 (by decide)⟩

/-- Alone, the second message keeps the topic of B; after the first message has warmed the cache it
    does not. -/
theorem batch_loses_topic :
    ∃ (targetEventIds : List Nat) (eventsMap : EventMap Nat Content) (version : StateResVersion),
      version ≠ .v3 ∧ (∀ id, ¬Relation.TransGen (Precedes eventsMap) id id) ∧
      ∃ target ∈ targetEventIds,
        ((computeStateAtBatch (fun _ => .asListed) targetEventIds eventsMap version "").map
            (· target)).toOption ≠
          (computeStateAt (fun _ => .asListed) target eventsMap version "").toOption := by
  exact ⟨[11, 12], avatarFork, .v2_1_1, by decide, avatarFork_acyclic, 12, by decide, avatarFork_evaluated.2.1⟩

theorem avatarForkAlone_after : StateAfter avatarForkInputs.mergeCtx 12 (avatarForkAlone 12) := by
  refine stateAfter_of_table (by decide) avatarForkAlone (Peel.parentsFirst_of_ordered ?_ ?_ ?_)
    avatarFork_evaluated.1 12 (by decide)
  · decide
  · decide +kernel
  · decide

/-- The state handed over for the second message is not the one of the specification. -/
theorem warm_merge_leaves_specification :
    ∃ deliveries, avatarForkInputs.tryCompute (fun _ => .asListed)
        (fun (gathered : List (Nat × SharedState Nat)) id state => (.ok (gathered ++ [(id, state)]) : Except Empty _))
        [] = .ok deliveries ∧
      ∃ delivery ∈ deliveries, ¬StateAfter avatarForkInputs.mergeCtx delivery.1 delivery.2 := by
  have wrong := avatarFork_evaluated.2.2
  revert wrong
  generalize avatarForkInputs.tryCompute _ _ _ = returned
  intro wrong
  cases returned with
  | error stop => cases wrong
  | ok deliveries =>
    obtain ⟨⟨id, state⟩, member, differs⟩ := any_eq_true.mp wrong
    obtain ⟨rfl, differs⟩ := of_decide_eq_true differs
    exact ⟨deliveries, rfl, _, member, fun after => differs (after.unique avatarForkAlone_after)⟩

end Rezzy.State
