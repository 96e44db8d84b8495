import Rezzy.Resolve.Lazy
import Rezzy.State.Merge

namespace Rezzy.State

open List Std.ExtTreeSet Std.ExtTreeMap Except

open Auth.AuthGraph (AuthClosed)
open Basespec Resolve Permuted

variable {Id C : Type} [LinearOrder Id]

section

theorem stateDiff_entry {old new : SharedState Id} :
    old[key]? ≠ new[key]? ↔ ∃ entry ∈ stateDiff old new, entry.key = key := by
  constructor
  · intro differ
    cases found : diffEntry old new key with
    | none => exact absurd (diffEntry_none found) differ
    | some entry =>
      refine ⟨entry, List.mem_filterMap.mpr ⟨key, ?_, found⟩, (diffEntry_some found).1⟩
      rw [mem_toList, Std.ExtTreeSet.mem_ofList, List.contains_iff_mem, mem_append,
        Std.ExtTreeMap.mem_keys, Std.ExtTreeMap.mem_keys]
      by_contra neither
      push Not at neither
      rw [getElem?_eq_none neither.1, getElem?_eq_none neither.2] at differ
      exact differ rfl
  · rintro ⟨entry, mem, rfl⟩
    exact (diffOver_honest mem).2.2

variable {first : SharedState Id} {rest : List (SharedState Id)}

theorem mem_conflictedKeysAt : key ∈ conflictedKeysAt first rest ↔ ∃ other ∈ rest, first[key]? ≠ other[key]? := by
  unfold conflictedKeysAt parentDiffs
  rw [Std.ExtTreeSet.mem_ofList, List.contains_iff_mem, List.mem_map]
  constructor
  · rintro ⟨entry, mem, rfl⟩
    obtain ⟨other, inRest, listed⟩ := mem_flatMap.mp mem
    exact ⟨other, inRest, stateDiff_entry.mpr ⟨entry, listed, rfl⟩⟩
  · rintro ⟨other, inRest, differ⟩
    obtain ⟨entry, listed, rfl⟩ := stateDiff_entry.mp differ
    exact ⟨entry, mem_flatMap.mpr ⟨other, inRest, listed⟩, rfl⟩

theorem mem_conflictedStateSet {id : Id} :
    id ∈ conflictedStateSet first rest ↔ ∃ key : Key, ∃ other ∈ rest, first[key]? ≠ other[key]? ∧
      (first[key]? = some id ∨ other[key]? = some id) := by
  have values : ∀ entry : StateDiffEntry Id, id ∈ entry.eventIds ↔
      entry.oldEventId? = some id ∨ entry.newEventId? = some id := by
    intro entry
    unfold StateDiffEntry.eventIds
    rw [mem_append, Option.mem_toList, Option.mem_toList]
  unfold conflictedStateSet parentDiffs
  rw [mem_dedup, mem_flatMap]
  constructor
  · rintro ⟨entry, mem, own⟩
    obtain ⟨other, inRest, listed⟩ := mem_flatMap.mp mem
    obtain ⟨old, new, differ⟩ := diffOver_honest listed
    rw [values, old, new] at own
    exact ⟨entry.key, other, inRest, differ, own⟩
  · rintro ⟨key, other, inRest, differ, own⟩
    obtain ⟨entry, listed, rfl⟩ := stateDiff_entry.mp differ
    obtain ⟨old, new, _⟩ := diffOver_honest listed
    refine ⟨entry, mem_flatMap.mpr ⟨other, inRest, listed⟩, ?_⟩
    rwa [values, old, new]

theorem disputed_iff {key : Key} {id : Id} :
    ((∃ map ∈ first :: rest, map[key]? = some id) ∧ ∃ map ∈ first :: rest, map[key]? ≠ some id) ↔
      ∃ other ∈ rest, first[key]? ≠ other[key]? ∧ (first[key]? = some id ∨ other[key]? = some id) := by
  constructor
  · rintro ⟨⟨map, inMaps, own⟩, other, inOther, differ⟩
    by_cases held : first[key]? = some id
    · rcases mem_cons.mp inOther with rfl | inRest
      · exact absurd held differ
      · exact ⟨other, inRest, held ▸ differ.symm, .inl held⟩
    · rcases mem_cons.mp inMaps with rfl | inRest
      · exact absurd own held
      · exact ⟨map, inRest, own ▸ held, .inr own⟩
  · rintro ⟨other, inRest, differ, own | own⟩
    · exact ⟨⟨first, mem_cons_self, own⟩, other, mem_cons_of_mem _ inRest, own ▸ differ.symm⟩
    · exact ⟨⟨other, mem_cons_of_mem _ inRest, own⟩, first, mem_cons_self, own ▸ differ⟩

theorem conflictedStateSet_partition (order : Order) (id : Id) : id ∈ conflictedStateSet first rest ↔
      id ∈ (partitionStateMaps order (first :: rest) (first :: rest).length).conflictedIds := by
  rw [mem_conflictedStateSet, mem_conflictedIds]
  exact exists_congr fun key => disputed_iff.symm

omit [LinearOrder Id] in
theorem getElem?_foldl_erase (keys : List Key) (state : SharedState Id) (key : Key) :
    (keys.foldl (fun state key => state.erase key) state)[key]? = if key ∈ keys then none else state[key]? := by
  induction keys generalizing state with
  | nil => rfl
  | cons own keys ih =>
    rw [foldl_cons, ih, getElem?_erase]
    by_cases same : key = own
    · subst same
      rw [if_pos Std.ReflCmp.compare_self, if_pos mem_cons_self, ite_self]
    · have other : keyCmp own key ≠ .eq := fun equal => same (keyCmp_eq equal).symm
      rw [if_neg other]
      simp only [mem_cons, same, false_or]

theorem unconflictedAt_partition (order : Order) : unconflictedAt first rest =
    (partitionStateMaps order (first :: rest) (first :: rest).length).unconflictedState := by
  apply Std.ExtTreeMap.ext_getElem?
  intro key
  unfold unconflictedAt
  rw [getElem?_foldl_erase]
  simp only [mem_toList]
  ext id
  rw [partition_unconflicted order (cons_ne_nil _ _)]
  constructor
  · intro own
    split at own
    · cases own
    · rename_i agreed
      rw [mem_conflictedKeysAt] at agreed
      push Not at agreed
      exact forall_mem_cons.mpr ⟨own, fun other inRest => (agreed other inRest).symm.trans own⟩
  · intro all
    have agreed : key ∉ conflictedKeysAt first rest := by
      rw [mem_conflictedKeysAt]
      rintro ⟨other, inRest, differ⟩
      exact differ ((all first mem_cons_self).trans (all other (mem_cons_of_mem _ inRest)).symm)
    rw [if_neg agreed]
    exact all first mem_cons_self

end

section

omit [LinearOrder Id] in
theorem applyAccepted_keys (later : version ≠ .v1) (left right : KeySet) (resolved : SharedState Id)
    (event : LeanEvent Id C) :
    applyAccepted version left resolved event = applyAccepted version right resolved event := by
  unfold applyAccepted decidesKey
  cases event.key? with
  | none => rfl
  | some key => simp [later]

variable [ToString Id] [EventContent C]

theorem checkEvent_keys (later : inputs.version ≠ .v1) (left right : KeySet) (createEv : Option (LeanEvent Id C))
    (isPower : Bool) : checkEvent inputs createEv left isPower = checkEvent inputs createEv right isPower := by
  funext w event
  unfold checkEvent
  rw [applyAccepted_keys later left right]

theorem resolveScreened_keys (screen : SharedState Id → List (LeanEvent Id C) → List (LeanEvent Id C)) (order : Order)
    (later : inputs.version ≠ .v1) (caches : ResolveCaches Id C) (conflictedKeys : KeySet) :
    resolveScreened screen order inputs { caches with conflictedKeys := conflictedKeys } =
      resolveScreened screen order inputs caches := by
  have turn : ∀ createEv, powerTurn inputs createEv conflictedKeys = powerTurn inputs createEv caches.conflictedKeys := by
    intro createEv
    funext w id
    unfold powerTurn
    rw [checkEvent_keys later conflictedKeys caches.conflictedKeys]
  have power : workingAfterPower order inputs { caches with conflictedKeys := conflictedKeys } =
      workingAfterPower order inputs caches := by
    unfold workingAfterPower runPowerPhaseIterativeChecks
    rw [turn]
  unfold resolveScreened workingAfterNonPower mainlineAfterPower
  rw [power, checkEvent_keys later conflictedKeys caches.conflictedKeys]

end

section

def SubgraphAccounted (order : Order) (eventsMap : EventMap Id C) (version : StateResVersion)
    (states : List (SharedState Id)) : Prop :=
  let partition := partitionStateMaps order states states.length
  addsSubgraph version = true → ∀ id ∈ computeV21ConflictedSubgraph order eventsMap partition.conflictedIds,
    id ∈ partition.conflictedIds ∨ InAuthDifference eventsMap states partition id

theorem SubgraphAccounted.fullConflicted (accounted : SubgraphAccounted order eventsMap version states) (id : Id) :
    FullConflicted eventsMap states version (partitionStateMaps order states states.length)
        (subgraphIds order eventsMap none (partitionStateMaps order states states.length).conflictedIds) id ↔
      id ∈ (partitionStateMaps order states states.length).conflictedIds ∨
        version ≠ .v1 ∧ InAuthDifference eventsMap states (partitionStateMaps order states states.length) id := by
  constructor
  · rintro (own | ⟨adds, inside⟩ | ancestral)
    · exact .inl own
    · refine (accounted adds id inside).imp_right fun ancestral => ⟨?_, ancestral⟩
      rintro rfl
      cases adds
    · exact .inr ancestral
  · exact fun either => either.imp_right .inr

variable {ctx : MergeContext Id C} {first : SharedState Id} {rest : List (SharedState Id)}

theorem mem_mergeAuthDifference (diff : mergeAuthDifference order ctx first rest
      (order.iter .conflictedState (conflictedStateSet first rest)) = .ok authDiff) (id : Id) :
    id ∈ authDiff ↔ ctx.version ≠ .v1 ∧ InAuthDifference ctx.eventsMap (first :: rest)
      (partitionStateMaps orderMaps (first :: rest) (first :: rest).length) id := by
  unfold mergeAuthDifference at diff
  split at diff
  · rename_i initial
    obtain rfl := ok.inj diff
    simp [initial]
  · rename_i later
    have ids : ∀ id, id ∈ order.iter .conflictedState (conflictedStateSet first rest) ↔
        id ∈ (partitionStateMaps orderMaps (first :: rest) (first :: rest).length).conflictedIds :=
      fun id => (order.perm _ _).mem_iff.trans (conflictedStateSet_partition orderMaps id)
    rw [authDifference_same order orderMaps _ _ ids, unconflictedAt_partition orderMaps] at diff
    cases found : authDifference orderMaps
        (partitionStateMaps orderMaps (first :: rest) (first :: rest).length).unconflictedState (first :: rest)
        (partitionStateMaps orderMaps (first :: rest) (first :: rest).length).conflictedIds
        (EventMap.eventAuth ctx.eventsMap) with
    | error missing =>
      rw [found] at diff
      cases diff
    | ok members =>
      rw [found] at diff
      obtain rfl := ok.inj diff
      have closed : ∃ visited, unconflictedClosure (EventMap.eventAuth ctx.eventsMap)
          (partitionStateMaps orderMaps (first :: rest) (first :: rest).length).unconflictedState = .ok visited := by
        unfold authDifference at found
        cases closure : unconflictedClosure (EventMap.eventAuth ctx.eventsMap)
            (partitionStateMaps orderMaps (first :: rest) (first :: rest).length).unconflictedState with
        | error missing =>
          rw [closure] at found
          cases found
        | ok visited => exact ⟨visited, rfl⟩
      obtain ⟨visited, closure⟩ := closed
      rw [mem_authDifference closure found]
      constructor
      · exact fun mem => ⟨later, visited, closure, mem⟩
      · rintro ⟨_, other, same, mem⟩
        obtain rfl := ok.inj (closure.symm.trans same)
        exact mem

theorem mergeInputs_prepared
    (prepared : Prepared orderMaps (first :: rest) ctx.eventsMap ctx.version none genuine conflicted)
    (accounted : SubgraphAccounted orderMaps ctx.eventsMap ctx.version (first :: rest))
    (diff : mergeAuthDifference order ctx first rest
      (order.iter .conflictedState (conflictedStateSet first rest)) = .ok authDiff) :
    (mergeInputs order ctx first rest authDiff).Shuffled
      (iterativeInputsOf orderMaps (first :: rest) ctx.eventsMap ctx.version ctx.emptyKey conflicted) where
  unconflicted := unconflictedAt_partition orderMaps
  conflicted := EventMap.perm_of_get fun id => by
    have members : (id ∈ authDiff ∨ id ∈ conflictedStateSet first rest) ↔ _ :=
      or_comm.trans ((or_congr (conflictedStateSet_partition orderMaps id) (mem_mergeAuthDifference diff id)).trans
        (accounted.fullConflicted id).symm)
    rw [get_mergeInputs]
    show _ = conflicted.get id
    ext event
    rw [prepared.conflicted, ← members]
    split
    · rename_i mem
      exact ⟨fun found => ⟨found, mem⟩, And.left⟩
    · rename_i absent
      exact ⟨fun found => (nomatch found), fun found => absurd found.2 absent⟩
  auth := .refl _
  version := rfl
  emptyKey := rfl

theorem mergeAuthDifference_ok (closed : AuthClosed ctx.eventsMap) (within : StatesOver ctx.eventsMap (first :: rest))
    (order : Order) :
    ∃ authDiff, mergeAuthDifference order ctx first rest
      (order.iter .conflictedState (conflictedStateSet first rest)) = .ok authDiff := by
  unfold mergeAuthDifference
  split
  · exact ⟨[], rfl⟩
  · rename_i later
    have covers : Covers ctx.eventsMap ctx.version (partitionStateMaps order (first :: rest) (first :: rest).length) :=
      within.covers closed ctx.version
    obtain ⟨visited, closure, _⟩ := (unconflictedClosure_spec ctx.eventsMap _).1 (covers.closure later)
    rw [unconflictedAt_partition order]
    unfold authDifference
    rw [closure]
    exact ⟨_, rfl⟩

theorem conflictedKeysAt_prepared (within : StatesOver ctx.eventsMap (first :: rest))
    (ownKeyed : OwnKeyed ctx.eventsMap (first :: rest))
    (prepared : Prepared orderMaps (first :: rest) ctx.eventsMap ctx.version none genuine conflicted) :
    conflictedKeysAt first rest = deriveAllConflictedKeys genuine ctx.emptyKey := by
  apply ext_mem
  intro key
  rw [mem_conflictedKeysAt]
  constructor
  · rintro ⟨other, inRest, differ⟩
    obtain ⟨id, own⟩ : ∃ id, first[key]? = some id ∨ other[key]? = some id := by
      cases held : first[key]? with
      | some id => exact ⟨id, .inl rfl⟩
      | none =>
        rw [held] at differ
        obtain ⟨id, found⟩ := Option.ne_none_iff_exists'.mp differ.symm
        exact ⟨id, .inr found⟩
    obtain ⟨⟨map, inMaps, found⟩, disputed⟩ := disputed_iff.mpr ⟨other, inRest, differ, own⟩
    obtain ⟨event, known⟩ := EventMap.mem_keys.mp (within map inMaps id (mem_stateValues found))
    have conflicted := (mem_conflictedIds orderMaps id).mpr ⟨key, ⟨map, inMaps, found⟩, disputed⟩
    exact mem_deriveAllConflictedKeys (EventMap.get_mem ((prepared.genuine id event).mpr ⟨known, conflicted⟩))
      (ownKeyed map inMaps key id event found known)
  · intro derived
    unfold deriveAllConflictedKeys at derived
    rw [Std.ExtTreeSet.mem_ofList, List.contains_iff_mem] at derived
    obtain ⟨event, mem, same⟩ := List.mem_map.mp derived
    obtain ⟨known, conflicted⟩ := (prepared.genuine event.eventId event).mp (EventMap.get_of_mem mem)
    obtain ⟨own, ⟨map, inMaps, found⟩, disputed⟩ := (mem_conflictedIds orderMaps event.eventId).mp conflicted
    have keyed := ownKeyed map inMaps own event.eventId event found known
    have equal : own = key := by
      unfold LeanEvent.key? at keyed
      cases held : event.stateKey with
      | none => simp [held] at keyed
      | some stateKey =>
        rw [held] at keyed same
        exact (Option.some.inj keyed).symm.trans same
    subst equal
    obtain ⟨other, inRest, differ, _⟩ := disputed_iff.mp ⟨⟨map, inMaps, found⟩, disputed⟩
    exact ⟨other, inRest, differ⟩

end

section

variable [ToString Id] [EventContent C] {ctx : MergeContext Id C} {first : SharedState Id}
  {rest : List (SharedState Id)}

theorem mergeResolution_prepared (within : StatesOver ctx.eventsMap (first :: rest))
    (keyed : ctx.version = .v1 → OwnKeyed ctx.eventsMap (first :: rest))
    (prepared : Prepared orderMaps (first :: rest) ctx.eventsMap ctx.version none genuine conflicted)
    (accounted : SubgraphAccounted orderMaps ctx.eventsMap ctx.version (first :: rest))
    (diff : mergeAuthDifference order ctx first rest
      (order.iter .conflictedState (conflictedStateSet first rest)) = .ok authDiff) :
    (mergeResolution order ctx (.new ctx.version) first rest authDiff).1 =
      (preparedResolution orderMaps (first :: rest) ctx.eventsMap ctx.version ctx.emptyKey genuine conflicted
        none).state := by
  have same := (mergeInputs_prepared prepared accounted diff).sameInputs
  have caches : SameCaches (fun _ => True) (mergeInputs order ctx first rest authDiff)
      (iterativeInputsOf orderMaps (first :: rest) ctx.eventsMap ctx.version ctx.emptyKey conflicted)
      ⟨some (.new ctx.version), [], deriveAllConflictedKeys genuine ctx.emptyKey⟩
      ⟨none, [], deriveAllConflictedKeys genuine ctx.emptyKey⟩ := by
    refine ⟨rfl, fun id _ => ?_, fun _ _ found => (nomatch found), fun _ _ found => (nomatch found)⟩
    show (ite _ _ _ : LocalAuthCache Id C).map id = _
    split <;> rfl
  have resolved := same.resolveScreened caches order orderMaps
  unfold mergeResolution preparedResolution
  by_cases initial : ctx.version = .v1
  · have keys := conflictedKeysAt_prepared within (keyed initial) prepared
    unfold resolveCachesAt
    rw [keys]
    exact resolved
  · have later : (mergeInputs order ctx first rest authDiff).version ≠ .v1 := initial
    have swapped := resolveScreened_keys (screenBannedSenders (mergeInputs order ctx first rest authDiff)) order later
      ⟨some (.new ctx.version), [], deriveAllConflictedKeys genuine ctx.emptyKey⟩ (conflictedKeysAt first rest)
    exact (congrArg Resolution.state swapped).trans resolved

theorem resolveMergedParentStates_fresh (order orderMaps : Order) (nonempty : states ≠ [])
    (legacy : ctx.version ≠ .v3) (plain : ctx.emptyKey = "") (closed : AuthClosed ctx.eventsMap)
    (within : StatesOver ctx.eventsMap states) (keyed : ctx.version = .v1 → OwnKeyed ctx.eventsMap states)
    (accounted : SubgraphAccounted orderMaps ctx.eventsMap ctx.version states) :
    ∃ state after, resolveMergedParentStates order ctx (.new ctx.version) states = .ok (state, after) ∧
      resolveStateMaps orderMaps states ctx.eventsMap ctx.version = .ok state := by
  obtain ⟨first, rest, rfl⟩ := exists_cons_of_ne_nil nonempty
  by_cases equal : rest.all (first = ·)
  · have all : ∀ map ∈ first :: rest, map = first :=
      forall_mem_cons.mpr ⟨rfl, fun map mem => (of_decide_eq_true (all_eq_true.mp equal map mem)).symm⟩
    refine ⟨first, .new ctx.version, ?_, resolveStateMaps_equal orderMaps ctx.eventsMap ctx.version nonempty all⟩
    unfold resolveMergedParentStates
    dsimp only
    rw [if_pos equal]
  · have differ : ¬∀ left ∈ first :: rest, ∀ right ∈ first :: rest, left = right := by
      intro all
      apply equal
      rw [all_eq_true]
      exact fun map mem => decide_eq_true (all first mem_cons_self map (mem_cons_of_mem _ mem))
    have covers : Covers ctx.eventsMap ctx.version
        (partitionStateMaps orderMaps (first :: rest) (first :: rest).length) := within.covers closed ctx.version
    obtain ⟨genuine, conflicted, prepared, run⟩ := resolveStateMapsGeneric_returns "" none nonempty differ legacy
      covers fun _ => subgraphIds_known _
    obtain ⟨authDiff, diff⟩ := mergeAuthDifference_ok closed within order
    refine ⟨(mergeResolution order ctx (.new ctx.version) first rest authDiff).1,
      (mergeResolution order ctx (.new ctx.version) first rest authDiff).2, ?_, ?_⟩
    · rw [resolveMergedParentStates_distinct first rest order ctx _ equal, diff]
      dsimp only [Except.bind]
      rw [if_neg legacy]
    · rw [mergeResolution_prepared within keyed prepared accounted diff, plain]
      unfold resolveStateMaps resolveWith
      rw [run]
      rfl

/-- Caches that change nothing in a merge: empty ones, and those of a room where the events that it checks read keys
    without ties. -/
def ServesMerge (ctx : MergeContext Id C) (caches : ForkResolveCaches Id C) (states : List (SharedState Id)) : Prop :=
  caches = .new ctx.version ∨ caches.Faithful ctx.eventsMap ctx.version ∧ MergeTieFree ctx states

end

namespace Sample

open Basespec.Sample Resolve.Sample

def topicMaps : List (SharedState Nat) :=
  [stateOf (agreed ++ [topic 4 "@a:x" []]), stateOf (agreed ++ [topic 5 "@a:x" []])]

def name (eventId : Nat) : LeanEvent Nat Content :=
  stateEvent eventId "m.room.name" "" "@a:x" {} [2, 3, 5] eventId

def rulesBetween : EventMap Nat Content :=
  ⟨[create "12", joinA [], openLevels, topic 4 "@a:x" [2, 3],
    stateEvent 5 mRoomJoinRules "" "@a:x" { joinRule := some rulePublic } [2, 3, 4] 5, topic 6 "@a:x" [2, 3, 5],
    name 7, name 8], by decide⟩

def rulesBetweenMaps : List (SharedState Nat) :=
  [[1, 2, 3, 6, 7], [1, 2, 3, 4, 8]].map fun ids => stateOf (ids.filterMap rulesBetween.get)

end Sample

open Sample Resolve.Sample

end Rezzy.State
