import Rezzy.State.MergeParents
import Rezzy.State.PipelineTargets
import Rezzy.State.StateBefore

namespace Rezzy.State

open Auth Basespec Resolve Permuted List Option Except

variable {Id C : Type} [LinearOrder Id]

section

structure DagInputs.Valid (inputs : DagInputs Id C) : Prop where
  version : inputs.version = .v2_2
  target : validateMsc4242PrevStateEvents inputs.event inputs.eventsMap = .ok ()
  ancestors : ∀ id, inputs.IsAncestor id → ValidAncestor inputs.eventsMap id
  acyclic : ∀ id, inputs.IsAncestor id →
    ¬Relation.TransGen (Peel.Cites (prevStateEventsOf inputs.eventsMap)) id id

variable [ToString Id] [EventContent C]

/-- The state after an event: its own entry on top of the merged states after its distinct previous state events. -/
inductive DagStateAfter (ctx : MergeContext Id C) : Id → SharedState Id → Prop where
  | record {id : Id} {event : LeanEvent Id C} {states : Id → SharedState Id} {before : SharedState Id}
      (found : ctx.eventsMap.get id = some event)
      (parents : ∀ parent ∈ event.prevStateEvents, DagStateAfter ctx parent (states parent))
      (merged : mergeStates ctx (event.prevStateEvents.eraseDups.map states) = .ok before) :
      DagStateAfter ctx id (recordOwnState before event)

def DagStateBefore (ctx : MergeContext Id C) (event : LeanEvent Id C) (state : SharedState Id) : Prop :=
  ∃ states : Id → SharedState Id, (∀ parent ∈ event.prevStateEvents, DagStateAfter ctx parent (states parent)) ∧
    mergeStates ctx (event.prevStateEvents.eraseDups.map states) = .ok state

def DagInputs.TieFree (inputs : DagInputs Id C) : Prop :=
  ∀ event, event = inputs.event ∨ (∃ id, inputs.IsAncestor id ∧ inputs.eventsMap.get id = some event) →
    ∀ states : Id → SharedState Id,
      (∀ parent ∈ event.prevStateEvents, DagStateAfter inputs.mergeCtx parent (states parent)) →
        MergeTieFree inputs.mergeCtx (event.prevStateEvents.map states)

variable {ctx : MergeContext Id C}

omit [ToString Id] [EventContent C] in
theorem map_eraseDups_congr {ids : List Id} (same : ∀ id ∈ ids, left id = right id) :
    ids.eraseDups.map left = ids.eraseDups.map right := map_congr_left fun id mem => same id (mem_eraseDups.mp mem)

theorem DagStateAfter.unique {id : Id} (own : DagStateAfter ctx id left) (other : DagStateAfter ctx id right) :
    left = right := by
  induction own generalizing right with
  | @record id event states before found parents merged ih =>
    cases other with
    | @record _ event' states' before' found' parents' merged' =>
      obtain rfl := Option.some.inj (found.symm.trans found')
      rw [map_eraseDups_congr fun parent cited => ih parent cited (parents' parent cited), merged'] at merged
      rw [ok.inj merged]

theorem mergeStates_eraseDups (ctx : MergeContext Id C) (ids : List Id) (states : Id → SharedState Id) :
    mergeStates ctx (ids.map states) = mergeStates ctx (ids.eraseDups.map states) := by
  cases ids with
  | nil => rfl
  | cons id ids =>
    rw [eraseDups_cons, map_cons, map_cons]
    apply mergeStates_sameParents
    intro _
    simp only [mem_cons, List.mem_map, mem_eraseDups, mem_filter]
    constructor
    · rintro (rfl | ⟨other, mem, rfl⟩)
      · exact .inl rfl
      · by_cases same : other = id
        · exact .inl (by rw [same])
        · exact .inr ⟨other, ⟨mem, by simpa using same⟩, rfl⟩
    · rintro (rfl | ⟨other, ⟨mem, _⟩, rfl⟩)
      · exact .inl rfl
      · exact .inr ⟨other, mem, rfl⟩

end

section

theorem takeCitedParents_ok (parents : List Id) (indexed : ∀ parent ∈ parents, parent ∈ index)
    (slots : Slots Id (SharedState Id)) (prevStates : List (SharedState Id)) (states : Id → SharedState Id)
    (covers : ∀ id, parents.count id ≤ slots.outDegree id)
    (held : ∀ parent ∈ parents, slots.stateAfter parent = some (states parent)) :
    ∃ taken, parents.foldlM (takeCitedParent index) (slots, prevStates) =
        .ok (taken, prevStates ++ parents.map states) ∧
      (∀ id, taken.outDegree id = slots.outDegree id - parents.count id) ∧
      ∀ id, 0 < taken.outDegree id → taken.stateAfter id = slots.stateAfter id := by
  induction parents generalizing slots prevStates with
  | nil => exact ⟨slots, by simp [pure, Except.pure], by simp, fun _ _ => rfl⟩
  | cons parent parents ih =>
    have positive : 0 < slots.outDegree parent := by
      have := covers parent
      rw [count_cons_self] at this
      omega
    obtain ⟨gathered, degrees, kept⟩ := takeFinalizedParent_spec slots prevStates parent
    have first : takeCitedParent index (slots, prevStates) parent = .ok (takeFinalizedParent (slots, prevStates) parent) := by
      unfold takeCitedParent
      rw [if_pos (indexed parent (mem_cons_self ..)), if_pos positive]
    rw [foldlM_cons, first]
    generalize takeFinalizedParent (slots, prevStates) parent = next at gathered degrees kept
    obtain ⟨slots', prevStates'⟩ := next
    dsimp only at gathered degrees kept
    have counts : ∀ id, (parent :: parents).count id = parents.count id + if id = parent then 1 else 0 := by
      intro id
      by_cases same : id = parent
      · simp [same]
      · simp [same, Ne.symm same]
    have covers' : ∀ id, parents.count id ≤ slots'.outDegree id := by
      intro id
      have := covers id
      rw [counts] at this
      rw [degrees]
      omega
    obtain ⟨taken, run, uses, left⟩ := ih (fun other mem => indexed other (mem_cons_of_mem _ mem)) slots'
      prevStates' covers' fun other mem => by
        have needed := covers' other
        have cited := count_pos_iff.mpr mem
        rw [kept other (.inr (by omega))]
        exact held other (mem_cons_of_mem _ mem)
    refine ⟨taken, ?_, fun id => ?_, fun id needed => ?_⟩
    · rw [held parent (mem_cons_self ..), toList_some] at gathered
      subst gathered
      simpa [bind, Except.bind] using run
    · rw [uses, degrees, counts]
      omega
    · rw [left id needed]
      refine kept id (.inr ?_)
      rw [uses] at needed
      omega

theorem reserveParents (parents : List Id) (outDegree : Id → Nat) {id : Id} (mem : id ∈ index) :
    parents.foldl (reserveParent index) outDegree id = outDegree id + parents.count id := by
  induction parents generalizing outDegree with
  | nil => rfl
  | cons parent parents ih =>
    rw [foldl_cons, ih]
    unfold reserveParent
    by_cases same : id = parent
    · subst same
      rw [if_pos mem, Function.update_self, count_cons_self]
      omega
    · rw [count_cons_of_ne (Ne.symm same)]
      split
      · rw [Function.update_of_ne same]
      · rfl

omit [LinearOrder Id] in
theorem recordOwnState_inside {inside : Id → Prop} (within : EntriesIn inside state) (own : inside event.eventId) :
    EntriesIn inside (recordOwnState state event) := by
  unfold recordOwnState
  split
  · intro id mem
    obtain ⟨key, found⟩ := mem_stateValues_iff.mp mem
    rw [getElem?_insert_key] at found
    split at found
    · rw [← Option.some.inj found]
      exact own
    · exact within id (mem_stateValues found)
  · exact within

variable [ToString Id] [EventContent C] {inputs : DagInputs Id C}

theorem DagInputs.merge (legacy : inputs.version = .v2_2)
    (ancestors : ∀ id, inputs.IsAncestor id → id ∈ inputs.eventsMap.keys) {event : LeanEvent Id C}
    (own : event = inputs.event ∨ ∃ id, inputs.IsAncestor id ∧ inputs.eventsMap.get id = some event)
    (within : ∀ parent ∈ event.prevStateEvents, EntriesIn inputs.IsAncestor (states parent)) (order : Order)
    (follows : inputs.TieFree →
      (∀ parent ∈ event.prevStateEvents, DagStateAfter inputs.mergeCtx parent (states parent)) ∧
        caches.Faithful inputs.eventsMap inputs.version) :
    ∃ state after, resolveMergedParentStates order inputs.mergeCtx caches (event.prevStateEvents.map states) =
        .ok (state, after) ∧ EntriesIn inputs.IsAncestor state ∧
      (inputs.TieFree → mergeStates inputs.mergeCtx (event.prevStateEvents.eraseDups.map states) = .ok state ∧
        after.Faithful inputs.eventsMap inputs.version) := by
  have closed : ∀ id, inputs.IsAncestor id → ∀ cited ∈ chainEdges inputs.mergeCtx.eventsMap.get id,
      inputs.IsAncestor cited := fun id reached cited edge => reached.step edge
  have entries : ∀ state ∈ event.prevStateEvents.map states, EntriesIn inputs.IsAncestor state := by
    intro state mem
    obtain ⟨parent, cited, rfl⟩ := List.mem_map.mp mem
    exact within parent cited
  have served : inputs.mergeCtx.version ≠ .v3 := by
    intro third
    cases legacy.symm.trans third
  obtain ⟨⟨state, after⟩, merged⟩ := merge_succeeds closed served ancestors entries order caches
  refine ⟨state, after, merged, merged_inside closed entries merged, fun tieFree => ?_⟩
  obtain ⟨parents, faithful⟩ := follows tieFree
  have warm := resolveMergedParentStates_warm (tieFree event own states parents) faithful order .asListed
  rcases warm.elim with ⟨left, right, warmRun, coldRun, agree, kept⟩ | ⟨reason, warmRun, _⟩
  · obtain rfl : left = (state, after) := ok.inj (warmRun.symm.trans merged)
    refine ⟨?_, kept⟩
    rw [← mergeStates_eraseDups, mergeStates]
    exact (congrArg (Except.map Prod.fst) coldRun).trans (congrArg ok agree.symm)
  · cases warmRun.symm.trans merged

structure Carried (inputs : DagInputs Id C) (index done rest : List Id) (exec : DagExecution Id C) : Prop where
  uses : ∀ id ∈ index, exec.slots.outDegree id =
    (rest.flatMap (prevStateEventsOf inputs.eventsMap)).count id + inputs.event.prevStateEvents.count id
  held : ∀ id ∈ done, 0 < exec.slots.outDegree id → ∃ state, exec.slots.stateAfter id = some state ∧
    EntriesIn inputs.IsAncestor state ∧ (inputs.TieFree → DagStateAfter inputs.mergeCtx id state)
  faithful : inputs.TieFree → exec.caches.Faithful inputs.eventsMap inputs.version

theorem Carried.parents (carried : Carried inputs index done rest exec) (parents : List Id)
    (needed : ∀ parent ∈ parents, parent ∈ done ∧ 0 < exec.slots.outDegree parent) :
    ∃ states : Id → SharedState Id, (∀ parent ∈ parents, exec.slots.stateAfter parent = some (states parent)) ∧
      (∀ parent ∈ parents, EntriesIn inputs.IsAncestor (states parent)) ∧
      (inputs.TieFree → ∀ parent ∈ parents, DagStateAfter inputs.mergeCtx parent (states parent)) := by
  have held := fun parent cited => carried.held parent (needed parent cited).1 (needed parent cited).2
  refine ⟨fun parent => (exec.slots.stateAfter parent).getD ∅, ?_, ?_, ?_⟩
  · intro parent cited
    obtain ⟨state, stored, _⟩ := held parent cited
    dsimp only
    rw [stored, getD_some]
  · intro parent cited
    obtain ⟨state, stored, entries, _⟩ := held parent cited
    dsimp only
    rw [stored, getD_some]
    exact entries
  · intro tieFree parent cited
    obtain ⟨state, stored, _, after⟩ := held parent cited
    dsimp only
    rw [stored, getD_some]
    exact after tieFree

variable (valid : inputs.Valid) {index : List Id} (indexed : ∀ id, id ∈ index ↔ inputs.IsAncestor id)
include valid indexed

omit [ToString Id] [EventContent C] indexed in
theorem DagInputs.Valid.known {id : Id} (ancestor : inputs.IsAncestor id) : id ∈ inputs.eventsMap.keys := by
  obtain ⟨event, found, _⟩ := valid.ancestors id ancestor
  exact EventMap.mem_keys.mpr ⟨event, found⟩

variable {plan : TopologicalPlan Id} (sound : DagPlan inputs.eventsMap index plan)
include sound

theorem Carried.visit {id : Id} (split : plan.sortedAncestors = done ++ id :: rest)
    (carried : Carried inputs index done (id :: rest) exec) (order : Id → Order) :
    ∃ next, inputs.visitAncestor order index exec id = .ok next ∧ Carried inputs index (done ++ [id]) rest next := by
  have ancestor : inputs.IsAncestor id := by
    rw [← indexed, ← sound.perm.mem_iff, split]
    simp
  obtain ⟨event, found, _⟩ := valid.ancestors id ancestor
  have cites := prevStateEventsOf_known found
  have inIndex : ∀ parent ∈ event.prevStateEvents, parent ∈ index := by
    intro parent cited
    rw [indexed]
    exact ancestor.step (cites ▸ cited)
  have counts : ∀ other ∈ index, exec.slots.outDegree other = event.prevStateEvents.count other +
      ((rest.flatMap (prevStateEventsOf inputs.eventsMap)).count other + inputs.event.prevStateEvents.count other) := by
    intro other mem
    rw [carried.uses other mem, flatMap_cons, count_append, cites, Nat.add_assoc]
  have covers : ∀ other, event.prevStateEvents.count other ≤ exec.slots.outDegree other := by
    intro other
    by_cases cited : other ∈ event.prevStateEvents
    · rw [counts other (inIndex other cited)]
      exact Nat.le_add_right _ _
    · rw [count_eq_zero_of_not_mem cited]
      exact Nat.zero_le _
  obtain ⟨states, held, entries, follows⟩ := carried.parents event.prevStateEvents fun parent cited =>
    ⟨sound.first done id rest split parent (cites ▸ cited), lt_of_lt_of_le (count_pos_iff.mpr cited) (covers parent)⟩
  obtain ⟨taken, run, uses, left⟩ := takeCitedParents_ok event.prevStateEvents inIndex exec.slots [] states covers held
  obtain ⟨before, caches, merged, inside, merges⟩ := inputs.merge valid.version (fun _ => valid.known)
    (.inr ⟨id, ancestor, found⟩) entries (order id) fun tieFree => ⟨follows tieFree, carried.faithful tieFree⟩
  refine ⟨⟨retainStateForChildren taken id (recordOwnState before event), caches⟩, ?_, ?_, ?_, ?_⟩
  · unfold DagInputs.visitAncestor
    simp [found, run, merged, bind, Except.bind, Except.mapError, pure, Except.pure]
  · intro other mem
    rw [retainStateForChildren_outDegree, uses, counts other mem]
    omega
  · intro other mem needed
    rw [retainStateForChildren_outDegree] at needed
    rw [retainStateForChildren_stateAfter _ _ _ needed]
    by_cases same : other = id
    · subst same
      rw [if_pos rfl]
      refine ⟨_, rfl, ?_, fun tieFree => .record found (follows tieFree) (merges tieFree).1⟩
      exact recordOwnState_inside inside (EventMap.get_id found ▸ ancestor)
    · rw [if_neg same, left other needed]
      refine carried.held other ((mem_append.mp mem).resolve_right (by simpa using same)) ?_
      rw [uses] at needed
      omega
  · exact fun tieFree => (merges tieFree).2

theorem carried_run (order : Id → Order) {done rest : List Id} (split : plan.sortedAncestors = done ++ rest)
    (carried : Carried inputs index done rest exec) :
    ∃ final, rest.foldlM (inputs.visitAncestor order index) exec = .ok final ∧
      Carried inputs index plan.sortedAncestors [] final := by
  induction rest generalizing done exec with
  | nil =>
    rw [append_nil] at split
    exact ⟨exec, rfl, split ▸ carried⟩
  | cons id rest ih =>
    obtain ⟨next, turn, after⟩ := carried.visit valid indexed sound split order
    obtain ⟨final, run, ended⟩ := ih (split.trans (append_cons done id rest)) after
    refine ⟨final, ?_, ended⟩
    rw [foldlM_cons, turn]
    exact run

theorem Carried.finish
    {exec : DagExecution Id C} (carried : Carried inputs index plan.sortedAncestors [] exec) (last : Order) :
    ∃ state, inputs.finishStateAfterFromDag last index exec = .ok state ∧
      (inputs.TieFree → DagStateBefore inputs.mergeCtx inputs.event state) := by
  have inIndex : ∀ parent ∈ inputs.event.prevStateEvents, parent ∈ index := fun parent cited =>
    (indexed parent).mpr (.seed cited)
  obtain ⟨states, held, entries, follows⟩ := carried.parents inputs.event.prevStateEvents fun parent cited => by
      refine ⟨sound.perm.mem_iff.mpr (inIndex parent cited), ?_⟩
      rw [carried.uses parent (inIndex parent cited)]
      exact Nat.add_pos_right _ (count_pos_iff.mpr cited)
  obtain ⟨state, after, merged, _, merges⟩ := inputs.merge valid.version (fun _ => valid.known) (.inl rfl) entries
    last fun tieFree => ⟨follows tieFree, carried.faithful tieFree⟩
  refine ⟨state, ?_, fun tieFree => ⟨states, follows tieFree, (merges tieFree).1⟩⟩
  have present : inputs.event.prevStateEvents.find? (· ∉ index) = none :=
    find?_eq_none.mpr fun parent cited => by simpa using inIndex parent cited
  have gathered : inputs.event.prevStateEvents.filterMap exec.slots.stateAfter =
      inputs.event.prevStateEvents.map states := by
    rw [← filterMap_eq_map]
    exact filterMap_congr fun parent cited => held parent cited
  unfold DagInputs.finishStateAfterFromDag
  rw [present, gathered]
  rw [merged]

end

section

variable [ToString Id] [EventContent C] {inputs : DagInputs Id C} (order : Id → Order) (last : Order)

omit [ToString Id] [EventContent C] in
theorem validateMsc4242_create {event : LeanEvent Id C} (create : event.eventType = mRoomCreate) :
    validateMsc4242PrevStateEvents event eventsMap = validateCreate event := by
  rw [validateMsc4242PrevStateEvents, if_pos create]

omit [LinearOrder Id] [ToString Id] [EventContent C] in
theorem validateCreate_ok (valid : validateCreate event = .ok ()) : event.prevStateEvents = [] := by
  unfold validateCreate at valid
  split at valid
  · cases valid
  · rename_i empty
    exact not_not.mp empty

theorem DagInputs.Valid.computes (valid : inputs.Valid) :
    ∃ state, computeStateBeforeFromDag order last inputs = .ok state ∧
      (inputs.TieFree → DagStateBefore inputs.mergeCtx inputs.event state) := by
  unfold computeStateBeforeFromDag
  rw [if_neg (not_not.mpr valid.version)]
  by_cases create : inputs.event.eventType = mRoomCreate
  · have own := valid.target
    rw [validateMsc4242_create create] at own
    rw [if_pos create, own]
    refine ⟨∅, rfl, fun _ => ⟨fun _ => ∅, ?_, ?_⟩⟩
    · simp [validateCreate_ok own]
    · rw [validateCreate_ok own]
      rfl
  · rw [if_neg create]
    obtain ⟨index, collected, nodup, indexed⟩ := collectStateDagAncestors_known
      inputs.event.prevStateEvents fun id ancestor => valid.known ancestor
    obtain ⟨all, planned⟩ := topologicalSortStateDag_spec inputs.eventsMap nodup fun id mem parent edge =>
      (indexed parent).mpr (((indexed id).mp mem).step edge)
    have length := all.mpr fun id mem => valid.acyclic id ((indexed id).mp mem)
    have sound := planned length
    have start : Carried inputs index [] (topologicalSortStateDagShortIds index inputs.eventsMap).sortedAncestors
        ⟨⟨inputs.event.prevStateEvents.foldl (reserveParent index)
          (topologicalSortStateDagShortIds index inputs.eventsMap).outDegree, fun _ => none⟩, .new inputs.version⟩ := by
      refine ⟨fun id mem => ?_, by simp, fun _ => ForkResolveCaches.faithful_new _ _⟩
      dsimp only
      rw [reserveParents _ _ mem, sound.uses id mem]
    obtain ⟨exec, run, ended⟩ := carried_run valid indexed sound order (nil_append _).symm start
    obtain ⟨state, finished, follows⟩ := ended.finish valid indexed sound last
    refine ⟨state, ?_, follows⟩
    rw [valid.target, validateStateDagAncestors_ok.mpr valid.ancestors, collected]
    dsimp only [bind, Except.bind, Except.mapError]
    rw [if_neg (not_not.mpr length), run]
    exact finished

theorem fails_of_invalid (invalid : ¬inputs.Valid) :
    ∃ error, computeStateBeforeFromDag order last inputs = .error (.failed error) := by
  unfold computeStateBeforeFromDag
  by_cases version : inputs.version = .v2_2
  · rw [if_neg (not_not.mpr version)]
    by_cases create : inputs.event.eventType = mRoomCreate
    · rw [if_pos create]
      cases own : validateCreate inputs.event with
      | error error => exact ⟨_, rfl⟩
      | ok passed =>
        refine absurd ⟨version, (validateMsc4242_create create).trans own, ?_, ?_⟩ invalid
        all_goals
          rintro id ⟨root, mem, _⟩
          rw [validateCreate_ok own] at mem
          cases mem
    · rw [if_neg create]
      cases target : validateMsc4242PrevStateEvents inputs.event inputs.eventsMap with
      | error error => exact ⟨_, rfl⟩
      | ok passed =>
        cases ancestors : validateStateDagAncestors inputs.event inputs.eventsMap with
        | error error => exact ⟨_, rfl⟩
        | ok passed =>
          have sound := validateStateDagAncestors_ok.mp ancestors
          obtain ⟨index, collected, nodup, indexed⟩ := collectStateDagAncestors_known
            inputs.event.prevStateEvents fun id ancestor => by
              obtain ⟨event, found, _⟩ := sound id ancestor
              exact EventMap.mem_keys.mpr ⟨event, found⟩
          obtain ⟨all, _⟩ := topologicalSortStateDag_spec inputs.eventsMap nodup
            fun id mem parent edge => (indexed parent).mpr (((indexed id).mp mem).step edge)
          have short : (topologicalSortStateDagShortIds index inputs.eventsMap).sortedAncestors.length ≠ index.length := by
            intro length
            exact invalid ⟨version, target, sound, fun id ancestor => all.mp length id ((indexed id).mpr ancestor)⟩
          rw [collected]
          dsimp only [bind, Except.bind, Except.mapError]
          rw [if_pos short]
          exact ⟨_, rfl⟩
  · rw [if_pos version]
    exact ⟨_, rfl⟩

/-- The computation never panics, and it returns a state just for valid inputs. Without ties the state is the one of
    the specification. -/
theorem computeStateBeforeFromDag_exact (inputs : DagInputs Id C) (order : Id → Order) (last : Order) :
    (∀ reason, computeStateBeforeFromDag order last inputs ≠ .error (.panic reason)) ∧
    ((∃ state, computeStateBeforeFromDag order last inputs = .ok state) ↔ inputs.Valid) ∧
    (inputs.TieFree → ∀ state, computeStateBeforeFromDag order last inputs = .ok state →
      DagStateBefore inputs.mergeCtx inputs.event state) := by
  by_cases valid : inputs.Valid
  · obtain ⟨state, computed, follows⟩ := valid.computes order last
    rw [computed]
    refine ⟨fun reason panicked => (by cases panicked), iff_of_true ⟨state, rfl⟩ valid, ?_⟩
    intro tieFree other same
    rw [← ok.inj same]
    exact follows tieFree
  · obtain ⟨error, failed⟩ := fails_of_invalid order last valid
    rw [failed]
    refine ⟨fun reason panicked => (by cases panicked), iff_of_false ?_ valid, ?_⟩
    · rintro ⟨state, returned⟩
      cases returned
    · intro _ state returned
      cases returned

theorem dagTieFree_of_sole (sole : SoleReads inputs.eventsMap) : inputs.TieFree := by
  rintro event - states - order first rest authDiff - - - checked checks - query read
  have known := (mergeInputs_inRoom inputs.mergeCtx first rest order authDiff).checked checks
  exact tieFreeAt_of_sole _ (sole checked known query read)

theorem dagStateAfter_of_table (ctx : MergeContext Id C) (nodup : ids.Nodup) (states : Id → SharedState Id)
    (first : Peel.ParentsFirst (prevStateEventsOf ctx.eventsMap) ids)
    (meets : ∀ id ∈ ids, ((ctx.eventsMap.get id).bind fun event =>
      (mergeStates ctx ((prevStateEventsOf ctx.eventsMap id).eraseDups.map states)).toOption.map fun before =>
        recordOwnState before event) = some (states id)) : ∀ id ∈ ids, DagStateAfter ctx id (states id) := by
  refine first.forall_mem nodup fun id mem after => ?_
  obtain ⟨event, found, merged⟩ := bind_eq_some_iff.mp (meets id mem)
  obtain ⟨before, merged, own⟩ := map_eq_some_iff.mp merged
  rw [prevStateEventsOf_known found] at merged after
  rw [← own]
  exact .record found after (toOption_eq_some merged)

end

namespace Sample

open Basespec.Sample Resolve.Sample Auth

def createDag : LeanEvent Nat Content := create "org.matrix.msc4242.12"

def topicDag : DagInputs Nat Content where
  event := stateEvent 6 "m.room.name" "" "@a:x" {} [4, 5, 4] 6
  eventsMap := ⟨[createDag, joinA [1], openLevels, topic 4 "@a:x" [3], topic 5 "@a:x" [3]], by decide⟩
  version := .v2_2
  emptyKey := ""

def comeAndGoneDag : DagInputs Nat Content where
  event := stateEvent 12 "m.room.name" "" "@a:x" {} [10, 8] 12
  eventsMap := ⟨[createDag, joinA [1], openLevels,
    stateEvent 4 mRoomJoinRules "" "@a:x" { joinRule := some rulePublic } [3] 4,
    memberEvent 5 "@b:x" "@b:x" memJoin [4] 5, stateEvent 7 "m.room.name" "" "@a:x" {} [5] 7,
    memberEvent 6 "@b:x" "@b:x" memLeave [7] 6, stateEvent 8 "m.room.avatar" "" "@a:x" {} [6] 8,
    topic 10 "@b:x" [7, 8]], by decide⟩
  version := .v2_2
  emptyKey := ""

def comeAndGoneAfter (id : Nat) : SharedState Nat :=
  ((comeAndGoneDag.eventsMap.get id).bind fun event =>
    (computeStateBeforeFromDag (fun _ => .asListed) .asListed { comeAndGoneDag with event }).toOption.map fun before =>
      recordOwnState before event).getD ∅

end Sample

open Sample

theorem computeStateBeforeFromDag_exact_topics :
    ∃ state, computeStateBeforeFromDag (fun _ => .asListed) .reversed topicDag = .ok state ∧
      DagStateBefore topicDag.mergeCtx topicDag.event state := by
  have tieFree : topicDag.TieFree := by
    refine dagTieFree_of_sole ?_
    decide
  have ran : (computeStateBeforeFromDag (fun _ => .asListed) .reversed topicDag).isOk = true := by decide
  obtain ⟨_, _, follows⟩ := computeStateBeforeFromDag_exact topicDag (fun _ => .asListed) .reversed
  cases computed : computeStateBeforeFromDag (fun _ => .asListed) .reversed topicDag with
  | error stop =>
    rw [computed] at ran
    cases ran
  | ok state => exact ⟨state, rfl, follows tieFree state computed⟩

theorem comeAndGoneDag_evaluated :
    (∀ id ∈ [1, 2, 3, 4, 5, 7, 6, 8, 10], ((comeAndGoneDag.mergeCtx.eventsMap.get id).bind fun event =>
      (mergeStates comeAndGoneDag.mergeCtx ((prevStateEventsOf comeAndGoneDag.mergeCtx.eventsMap id).eraseDups.map
        comeAndGoneAfter)).toOption.map fun before => recordOwnState before event) = some (comeAndGoneAfter id)) ∧
      (computeStateBeforeFromDag (fun _ => .asListed) .asListed comeAndGoneDag).isOk = true ∧
      (computeStateBeforeFromDag (fun _ => .asListed) .asListed comeAndGoneDag).toOption ≠
        (mergeStates comeAndGoneDag.mergeCtx ([10, 8].map comeAndGoneAfter)).toOption := by
  decide +kernel

theorem comeAndGoneDag_merges {state : SharedState Nat}
    (before : DagStateBefore comeAndGoneDag.mergeCtx comeAndGoneDag.event state) :
    mergeStates comeAndGoneDag.mergeCtx ([10, 8].map comeAndGoneAfter) = .ok state := by
  have first : Peel.ParentsFirst (prevStateEventsOf comeAndGoneDag.eventsMap) [1, 2, 3, 4, 5, 7, 6, 8, 10] :=
    Peel.parentsFirst_of_ordered (by decide +kernel) (by decide +kernel) (by decide +kernel)
  have all := dagStateAfter_of_table comeAndGoneDag.mergeCtx (by decide) comeAndGoneAfter first
    comeAndGoneDag_evaluated.1
  obtain ⟨states, parents, merged⟩ := before
  have listed : ∀ id ∈ comeAndGoneDag.event.prevStateEvents, id ∈ [1, 2, 3, 4, 5, 7, 6, 8, 10] := by decide
  have own : ∀ id ∈ comeAndGoneDag.event.prevStateEvents, states id = comeAndGoneAfter id := by
    intro id cited
    exact (parents id cited).unique (all id (listed id cited))
  have cited : comeAndGoneDag.event.prevStateEvents.eraseDups = [10, 8] := by decide
  rw [map_eraseDups_congr own, cited] at merged
  exact merged

/-- The merge before the topic of B has cached the avatar, and the target's merge then finds B gone. -/
theorem dag_merge_loses_topic :
    ∃ (inputs : DagInputs Nat Content) (state : SharedState Nat),
      computeStateBeforeFromDag (fun _ => .asListed) .asListed inputs = .ok state ∧
        ¬DagStateBefore inputs.mergeCtx inputs.event state := by
  obtain ⟨_, ran, differs⟩ := comeAndGoneDag_evaluated
  cases computed : computeStateBeforeFromDag (fun _ => .asListed) .asListed comeAndGoneDag with
  | error stop =>
    rw [computed] at ran
    cases ran
  | ok state =>
    refine ⟨comeAndGoneDag, state, computed, fun before => differs ?_⟩
    exact (congrArg Except.toOption computed).trans (congrArg Except.toOption (comeAndGoneDag_merges before)).symm

end Rezzy.State
