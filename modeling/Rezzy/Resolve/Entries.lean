import Rezzy.Resolve.MultiResolve

namespace Rezzy.Resolve

open Basespec Auth State Permuted List Option
open IterativeInputs (sortContext)
open EventMap (get_id get_mem)

variable {Id C : Type}

def EntriesExplained (inputs : IterativeInputs Id C) (accepted : LeanEvent Id C → Prop)
    (state : SharedState Id) : Prop :=
  ∀ (key : Key) id, state[key]? = some id → inputs.unconflictedState[key]? = some id ∨
    ∃ event, event.eventId = id ∧ event.key? = some key ∧ accepted event

theorem EntriesExplained.applyAccepted {accepted : LeanEvent Id C → Prop}
    (explained : EntriesExplained inputs accepted resolved) (conflictedKeys : KeySet) (passed : accepted event) :
    EntriesExplained inputs accepted (applyAccepted inputs.version conflictedKeys resolved event) := by
  unfold Resolve.applyAccepted
  split
  · rename_i own known
    split
    · intro key id found
      rw [getElem?_insert_key] at found
      split at found
      · rename_i same
        exact .inr ⟨event, Option.some.inj found, same ▸ known, passed⟩
      · exact explained key id found
    · exact explained
  · exact explained

theorem sortContext_id [LinearOrder Id] {inputs : IterativeInputs Id C} {id : Id}
    (found : inputs.sortContext id = some event) : event.eventId = id := by
  rw [sortContext, or_eq_some_iff] at found
  rcases found with found | ⟨_, found⟩ <;> exact get_id found

section

variable [LinearOrder Id] [ToString Id] [EventContent C]

/-- An event passed the check at its turn: the sorted events of a phase split at it, and the check is made
    on the state that the events before it leave. -/
inductive AcceptedAtTurn (order : Order) (inputs : IterativeInputs Id C) (caches : ResolveCaches Id C) :
    LeanEvent Id C → Prop where
  | power {event : LeanEvent Id C} (before after : List Id)
    (turn : sortedPowerIds order inputs (inputs.powerPhase order) = before ++ event.eventId :: after)
    (found : inputs.sortContext event.eventId = some event)
    (passed : (eventAuthOk inputs (inputs.powerPhase order).createEv true
      (before.foldl (powerTurn inputs (inputs.powerPhase order).createEv caches.conflictedKeys)
        (initialWorking inputs caches.externalAuthCache)) event).1 = true) :
    AcceptedAtTurn order inputs caches event
  | nonPower {event : LeanEvent Id C} (before after : List (LeanEvent Id C))
    (turn : sortedNonPower (screenBannedSenders inputs) order inputs
        (workingAfterPower order inputs caches).resolved (mainlineAfterPower order inputs caches).1 =
      before ++ event :: after)
    (passed : (eventAuthOk inputs (inputs.powerPhase order).createEv false
      (before.foldl (checkEvent inputs (inputs.powerPhase order).createEv caches.conflictedKeys false)
        (workingAfterPower order inputs caches)) event).1 = true) :
    AcceptedAtTurn order inputs caches event

variable {inputs : IterativeInputs Id C} {accepted : LeanEvent Id C → Prop}

theorem EntriesExplained.checkEvent (explained : EntriesExplained inputs accepted w.resolved)
    (createEv : Option (LeanEvent Id C)) (conflictedKeys : KeySet) (isPower : Bool) (event : LeanEvent Id C)
    (passed : (eventAuthOk inputs createEv isPower w event).1 = true → accepted event) :
    EntriesExplained inputs accepted (checkEvent inputs createEv conflictedKeys isPower w event).resolved := by
  unfold Resolve.checkEvent
  dsimp only
  split
  · rename_i ok
    exact explained.applyAccepted conflictedKeys (passed ok)
  · exact explained

variable {order : Order} {caches : ResolveCaches Id C}

theorem workingAfterPower_explained : EntriesExplained inputs (AcceptedAtTurn order inputs caches)
      (workingAfterPower order inputs caches).resolved := by
  have start : EntriesExplained inputs (AcceptedAtTurn order inputs caches)
      (initialWorking inputs caches.externalAuthCache).resolved := by
    intro key id found
    simp only [initialWorking, getInitialResolvedState] at found
    split at found
    · simp at found
    · exact .inl found
  have checked : EntriesExplained inputs (AcceptedAtTurn order inputs caches)
      (runPowerPhaseIterativeChecks order inputs (inputs.powerPhase order) caches.conflictedKeys
        (initialWorking inputs caches.externalAuthCache)).resolved := by
    refine Loop.foldl_invariant (fun w : Working Id C =>
      EntriesExplained inputs (AcceptedAtTurn order inputs caches) w.resolved) start _ ?_
    intro before id after split explained
    unfold powerTurn
    cases found : inputs.sortContext id with
    | none => exact explained
    | some event =>
      have named := sortContext_id found
      exact explained.checkEvent _ _ true event fun passed =>
        .power before after (named ▸ split) (named ▸ found) passed
  intro key id found
  unfold workingAfterPower at found
  rw [getElem?_mergeUnconflictedPowerEvents, or_eq_some_iff] at found
  rcases found with own | ⟨_, merged⟩
  · exact checked key id own
  · split at merged
    · exact .inl merged
    · simp at merged

theorem workingAfterNonPower_explained : EntriesExplained inputs (AcceptedAtTurn order inputs caches)
      (workingAfterNonPower (screenBannedSenders inputs) order inputs caches).resolved := by
  refine Loop.foldl_invariant (fun w : Working Id C =>
      EntriesExplained inputs (AcceptedAtTurn order inputs caches) w.resolved)
    workingAfterPower_explained _ fun before event after split explained => ?_
  exact explained.checkEvent _ _ false event fun passed => .nonPower before after split passed

theorem AcceptedAtTurn.found {event : LeanEvent Id C} (passed : AcceptedAtTurn order inputs caches event) :
    inputs.conflictedEvents.get event.eventId = some event ∨ inputs.authContext.get event.eventId = some event := by
  cases passed with
  | power before after turn found _ =>
    rw [sortContext, or_eq_some_iff] at found
    exact found.imp_right And.right
  | nonPower before after turn _ =>
    have sorted : event ∈ before ++ event :: after := by simp
    rw [← turn] at sorted
    have mem := mem_sortedNonPower (screenBannedSenders_subset inputs) sorted
    exact .inl (EventMap.get_of_mem (nonPower_conflicted mem))

theorem eventAuthOk_not_rejected (passed : (eventAuthOk inputs createEv isPower w event).1 = true) :
    event.rejected = false := by
  unfold eventAuthOk iterativeAuthOk at passed
  cases flag : event.rejected with
  | false => rfl
  | true => simp [flag] at passed

theorem AcceptedAtTurn.not_rejected (passed : AcceptedAtTurn order inputs caches event) : event.rejected = false := by
  cases passed with
  | power _ _ _ _ passed => exact eventAuthOk_not_rejected passed
  | nonPower _ _ _ passed => exact eventAuthOk_not_rejected passed

theorem checkEvent_keeps (createEv : Option (LeanEvent Id C)) (conflictedKeys : KeySet) (isPower : Bool)
    (event : LeanEvent Id C) {key : Key} (held : (w.resolved[key]?).isSome) :
    ((checkEvent inputs createEv conflictedKeys isPower w event).resolved[key]?).isSome := by
  unfold checkEvent applyAccepted
  dsimp only
  split
  · split
    · split
      · rw [getElem?_insert_key]
        split
        · rfl
        · exact held
      · exact held
    · exact held
  · exact held

theorem powerTurn_keeps (createEv : Option (LeanEvent Id C)) (conflictedKeys : KeySet) (id : Id) {key : Key}
    (held : (w.resolved[key]?).isSome) : ((powerTurn inputs createEv conflictedKeys w id).resolved[key]?).isSome := by
  unfold powerTurn
  split
  · exact checkEvent_keeps createEv conflictedKeys true _ held
  · exact held

theorem checkEvent_stores (passed : (eventAuthOk inputs createEv isPower w event).1 = true)
    (keyed : event.key? = some key) (later : inputs.version ≠ .v1) :
    ((checkEvent inputs createEv conflictedKeys isPower w event).resolved[key]?).isSome := by
  unfold checkEvent applyAccepted
  simp [passed, keyed, decidesKey, later]

theorem AcceptedAtTurn.held (accepted : AcceptedAtTurn order inputs caches event) (keyed : event.key? = some key)
    (later : inputs.version ≠ .v1) :
    ((resolveScreened (screenBannedSenders inputs) order inputs caches).state[key]?).isSome := by
  have nonPower : ∀ (turns : List (LeanEvent Id C)) (w : Working Id C), (w.resolved[key]?).isSome →
      ((turns.foldl (checkEvent inputs (inputs.powerPhase order).createEv caches.conflictedKeys false)
        w).resolved[key]?).isSome := fun turns w start =>
    Loop.foldl_invariant (fun w : Working Id C => (w.resolved[key]?).isSome = true) start turns
      fun before x after _ held => checkEvent_keeps _ _ _ x held
  have final : ((workingAfterNonPower (screenBannedSenders inputs) order inputs caches).resolved[key]?).isSome := by
    unfold workingAfterNonPower
    dsimp only
    cases accepted with
    | power before after turn found passed =>
      refine nonPower _ _ ?_
      unfold workingAfterPower runPowerPhaseIterativeChecks
      rw [getElem?_mergeUnconflictedPowerEvents, isSome_or, turn, foldl_append, foldl_cons]
      refine Bool.or_eq_true_iff.mpr (.inl ?_)
      refine Loop.foldl_invariant (fun w : Working Id C => (w.resolved[key]?).isSome = true) ?_ after
        fun before x after _ held => powerTurn_keeps _ _ x held
      unfold powerTurn
      rw [found]
      exact checkEvent_stores passed keyed later
    | nonPower before after turn passed =>
      rw [turn, foldl_append, foldl_cons]
      exact nonPower after _ (checkEvent_stores passed keyed later)
  unfold resolveScreened
  rw [getElem?_mergeFinalResolved, isSome_or]
  exact Bool.or_eq_true_iff.mpr (.inr final)

theorem resolveScreened_explained : EntriesExplained inputs (AcceptedAtTurn order inputs caches)
      (resolveScreened (screenBannedSenders inputs) order inputs caches).state := by
  intro key id found
  unfold resolveScreened at found
  rw [getElem?_mergeFinalResolved, or_eq_some_iff] at found
  rcases found with agreed | ⟨_, own⟩
  · exact .inl agreed
  · exact workingAfterNonPower_explained key id own

end

section

variable [LinearOrder Id] [EventContent C]

/-- An event of the auth context, outside the conflicted events, that a conflicted power event draws into
    the power phase. -/
structure AncestralPower (inputs : IterativeInputs Id C) (event : LeanEvent Id C) : Prop where
  routes : routesAncestors inputs.version = true
  fresh : event.eventId ∉ inputs.conflictedEvents.keys
  found : inputs.authContext.get event.eventId = some event
  power : isAncestralPower inputs.version event = true
  cited : ∃ source ∈ inputs.conflictedEvents.values, ¬StaysNonPower inputs source ∧
    Worklist.Reached (chainEdges inputs.authContext.get) source.authEvents event.eventId

theorem powerPhase_source {id : Id} {event : LeanEvent Id C}
    (found : (inputs.powerPhase order).powerEvents.get id = some event) :
    inputs.conflictedEvents.get id = some event ∨ AncestralPower inputs event := by
  rcases (executePowerPhase_power order inputs _ id event).mp found with
    ⟨routes, ⟨seed, mem, chain⟩, ancestral⟩ | ⟨own, _⟩
  · obtain ⟨fresh, known, power⟩ := ancestralEvent_spec ancestral
    obtain rfl := get_id known
    obtain ⟨source, routed, cites⟩ := mem_flatMap.mp mem
    have drawn := EventMap.get_of_mem routed
    have conflicted := (expandedEvents_splits order inputs).power _ _ drawn
    have reached := ((mem_expandedEvents order inputs _).mp (EventMap.mem_keys.mpr ⟨source, drawn⟩)).2
    exact .inr ⟨routes, fresh, known, power, source, get_mem conflicted,
      fun stays => stays.2 reached, seed, cites, chain⟩
  · exact .inl ((expandedEvents_splits order inputs).power id event own)

variable [ToString Id]

theorem AcceptedAtTurn.source {event : LeanEvent Id C} (accepted : AcceptedAtTurn order inputs caches event) :
    event ∈ inputs.conflictedEvents.values ∨ AncestralPower inputs event := by
  cases accepted with
  | nonPower before after turn _ =>
    have sorted : event ∈ before ++ event :: after := by simp
    rw [← turn] at sorted
    exact .inl (nonPower_conflicted (mem_sortedNonPower (screenBannedSenders_subset inputs) sorted))
  | power before after turn found _ =>
    have sorted : event.eventId ∈ before ++ event.eventId :: after := by simp
    rw [← turn, mem_sortedPowerIds, EventMap.mem_keys] at sorted
    obtain ⟨power, known⟩ := sorted
    rcases powerPhase_source known with own | ancestral
    · rw [sortContext, own] at found
      rw [← Option.some.inj found]
      exact .inl (get_mem own)
    · have named := get_id known
      rw [sortContext, ← named, EventMap.get_eq_none.mpr ancestral.fresh, ancestral.found] at found
      exact .inr (Option.some.inj found ▸ ancestral)

end

section

variable [LinearOrder Id] {order : Order} {stateMaps : List (SharedState Id)} {eventContext : EventMap Id C}
  {version : StateResVersion} {state : SharedState Id}

theorem subgraphIds_known (conflictedIds : List Id) :
    ∀ id ∈ subgraphIds order eventContext none conflictedIds, id ∈ eventContext.keys := by
  intro id mem
  exact ((mem_computeV21ConflictedSubgraph order eventContext conflictedIds id).mp mem).1

variable [ToString Id] [EventContent C]

section

variable (order : Order) (eventContext : EventMap Id C) (version : StateResVersion)

theorem resolveStateMapsGeneric_equal (emptyKey : String)
    (reachability : Option (RangePrefilterReachability Id)) (caches : Option (ForkResolveCaches Id C))
    (nonempty : stateMaps ≠ []) (equal : ∀ map ∈ stateMaps, map = state) :
    resolveStateMapsGeneric order stateMaps eventContext version emptyKey reachability caches =
      .ok ⟨state, ∅, caches⟩ := by
  obtain ⟨first, rest, rfl⟩ := exists_cons_of_ne_nil nonempty
  have all : rest.all (· = first) = true := by
    rw [List.all_eq_true]
    intro map mem
    exact decide_eq_true ((equal map (mem_cons_of_mem _ mem)).trans (equal first (by simp)).symm)
  unfold resolveStateMapsGeneric
  dsimp only
  rw [if_pos all, equal first (by simp)]

theorem resolveStateMaps_equal (nonempty : stateMaps ≠ []) (equal : ∀ map ∈ stateMaps, map = state) :
    resolveStateMaps order stateMaps eventContext version = .ok state := by
  unfold resolveStateMaps resolveWith
  rw [resolveStateMapsGeneric_equal order eventContext version "" none none nonempty equal]
  rfl

end

theorem resolveStateMapsGeneric_cases
    (returned : resolveStateMapsGeneric order stateMaps eventContext version emptyKey none none =
      .ok resolution) : stateMaps ≠ [] ∧ ((∀ map ∈ stateMaps, map = resolution.state) ∨
      (¬∀ left ∈ stateMaps, ∀ right ∈ stateMaps, left = right) ∧ version ≠ .v3 ∧
        Covers eventContext version (partitionStateMaps order stateMaps stateMaps.length) ∧
        ∃ genuine conflicted, Prepared order stateMaps eventContext version none genuine conflicted ∧ resolution.state =
            (preparedResolution order stateMaps eventContext version emptyKey genuine conflicted none).state ∧
          resolution.diffKeys = deriveAllConflictedKeys conflicted emptyKey) := by
  have nonempty : stateMaps ≠ [] := by
    rintro rfl
    cases returned
  refine ⟨nonempty, ?_⟩
  by_cases equal : ∀ left ∈ stateMaps, ∀ right ∈ stateMaps, left = right
  · left
    obtain ⟨first, mem⟩ := List.exists_mem_of_ne_nil _ nonempty
    have all : ∀ map ∈ stateMaps, map = first := fun map inMaps => equal map inMaps first mem
    rw [resolveStateMapsGeneric_equal order eventContext version emptyKey none none nonempty all] at returned
    rw [← Except.ok.inj returned]
    exact all
  · right
    obtain ⟨legacy, covers⟩ := resolveStateMapsGeneric_covers nonempty equal returned
    obtain ⟨genuine, conflicted, prepared, run⟩ := resolveStateMapsGeneric_returns emptyKey none nonempty equal
      legacy covers fun _ => subgraphIds_known _
    rw [run] at returned
    rw [← Except.ok.inj returned]
    exact ⟨equal, legacy, covers, genuine, conflicted, prepared, rfl, rfl⟩

variable (returned : resolveStateMaps order stateMaps eventContext version = .ok state)
include returned

theorem resolveStateMaps_generic :
    ∃ resolution, resolveStateMapsGeneric order stateMaps eventContext version "" none none =
      .ok resolution ∧ resolution.state = state := by
  unfold resolveStateMaps resolveWith at returned
  cases ran : resolveStateMapsGeneric order stateMaps eventContext version "" none
      (none : Option (ForkResolveCaches Id C)) with
  | error panic =>
    rw [ran] at returned
    cases returned
  | ok resolution =>
    rw [ran] at returned
    exact ⟨resolution, rfl, Except.ok.inj returned⟩

theorem resolveStateMaps_cases : stateMaps ≠ [] ∧ ((∀ map ∈ stateMaps, map = state) ∨
      (¬∀ left ∈ stateMaps, ∀ right ∈ stateMaps, left = right) ∧ version ≠ .v3 ∧
        Covers eventContext version (partitionStateMaps order stateMaps stateMaps.length) ∧
        ∃ genuine conflicted, Prepared order stateMaps eventContext version none genuine conflicted ∧ state =
            (preparedResolution order stateMaps eventContext version "" genuine conflicted none).state) := by
  obtain ⟨resolution, ran, rfl⟩ := resolveStateMaps_generic returned
  obtain ⟨nonempty, equal | ⟨differ, legacy, covers, genuine, conflicted, prepared, same, _⟩⟩ :=
    resolveStateMapsGeneric_cases ran
  · exact ⟨nonempty, .inl equal⟩
  · exact ⟨nonempty, .inr ⟨differ, legacy, covers, genuine, conflicted, prepared, same⟩⟩

/-- The result keeps what all maps agree on. Every other entry names an event of the context under its own key that
    was not rejected and passed the check at its turn. -/
theorem resolveStateMaps_entries :
    (∀ (key : Key) id, (∀ map ∈ stateMaps, map[key]? = some id) → state[key]? = some id) ∧
    ∀ (key : Key) id, state[key]? = some id → (¬∀ map ∈ stateMaps, map[key]? = some id) →
      ∃ event, eventContext.get id = some event ∧ event.key? = some key ∧ event.rejected = false ∧
        ∃ genuine conflicted, Prepared order stateMaps eventContext version none genuine conflicted ∧
          state =
            (preparedResolution order stateMaps eventContext version "" genuine conflicted none).state ∧
          AcceptedAtTurn order (iterativeInputsOf order stateMaps eventContext version "" conflicted)
            (resolveCachesOf none genuine "") event := by
  obtain ⟨nonempty, equal | ⟨_, _, _, genuine, conflicted, prepared, ran⟩⟩ := resolveStateMaps_cases returned
  · obtain ⟨first, member⟩ := exists_mem_of_ne_nil _ nonempty
    constructor
    · intro key id agreed
      rw [← equal first member]
      exact agreed first member
    · intro key id found differ
      exact absurd (fun map inMaps => equal map inMaps ▸ found) differ
  · constructor
    · intro key id agreed
      rw [ran]
      unfold preparedResolution resolveScreened
      dsimp only
      rw [getElem?_mergeFinalResolved]
      exact or_eq_some_iff.mpr (.inl ((partition_unconflicted order nonempty key id).mpr agreed))
    · intro key id found differ
      rw [ran] at found
      rcases resolveScreened_explained key id found with agreed | ⟨event, rfl, own, passed⟩
      · exact absurd ((partition_unconflicted order nonempty key id).mp agreed) differ
      · have known : eventContext.get event.eventId = some event :=
          passed.found.elim (fun inside => ((prepared.conflicted _ _).mp inside).1) fun inside => inside
        exact ⟨event, known, own, passed.not_rejected, genuine, conflicted, prepared, ran, passed⟩

end

namespace Sample

open Basespec.Sample

def levels : LeanEvent Nat Content := powerLevels 3 { users := [("@a:x", 100)] } [1, 2]

def forkContext : EventMap Nat Content :=
  ⟨[create "10", joinA [1], levels, topic 4 "@a:x" [1, 2, 3], topic 5 "@a:x" [1, 2, 3]], by decide⟩

def forkMaps : List (SharedState Nat) :=
  [stateOf [create "10", joinA [1], levels, topic 4 "@a:x" [1, 2, 3]],
    stateOf [create "10", joinA [1], levels, topic 5 "@a:x" [1, 2, 3]]]

end Sample

open Sample in
theorem resolveStateMaps_entries_fork :
    ∃ state, resolveStateMaps .asListed forkMaps forkContext .v2 = .ok state ∧
      state[((⟨mRoomPowerLevels⟩, "") : Key)]? = some 3 ∧
      ∃ event, forkContext.get 5 = some event ∧ event.key? = some (⟨"m.room.topic"⟩, "") ∧
        event.rejected = false := by
  have returned : resolveStateMaps .asListed forkMaps forkContext .v2 =
      .ok (stateOf [Basespec.Sample.create "10", Basespec.Sample.joinA [1], levels,
        Basespec.Sample.topic 5 "@a:x" [1, 2, 3]]) := by decide
  obtain ⟨agreed, others⟩ := resolveStateMaps_entries returned
  obtain ⟨event, found, own, kept, _⟩ := others (⟨"m.room.topic"⟩, "") 5 (by decide)
    (by decide)
  exact ⟨_, returned, agreed _ 3 (by decide), event, found, own, kept⟩

end Rezzy.Resolve
