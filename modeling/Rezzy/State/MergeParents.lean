import Rezzy.State.MergeAgrees
import Rezzy.State.PipelineSpec

namespace Rezzy.State

open Basespec Resolve Permuted Worklist List

variable {Id C : Type} [LinearOrder Id]

section

theorem authDifference_sameMaps (orderLeft orderRight : Order) (unconflictedState : SharedState Id)
    (maps : ∀ state, state ∈ mapsLeft ↔ state ∈ mapsRight) (ids : ∀ id, id ∈ idsLeft ↔ id ∈ idsRight)
    (eventAuth : EventAuth Id) : authDifference orderLeft unconflictedState mapsLeft idsLeft eventAuth =
      authDifference orderRight unconflictedState mapsRight idsRight eventAuth := by
  rw [authDifference_same orderLeft orderRight unconflictedState mapsLeft ids]
  unfold authDifference
  cases unconflictedClosure eventAuth unconflictedState with
  | error id => rfl
  | ok visited =>
    dsimp only [Bind.bind, Except.bind, Pure.pure, Except.pure]
    generalize conflictedChain eventAuth visited idsRight = chain
    have union : (mapsLeft.map chain).flatten.dedup.Perm (mapsRight.map chain).flatten.dedup := by
      refine (perm_ext_iff_of_nodup (nodup_dedup _) (nodup_dedup _)).mpr fun id => ?_
      simp only [mem_dedup, mem_flatten, mem_map, maps]
    have agreed : ∀ id, ((mapsLeft.map chain).all fun ids => decide (id ∈ ids)) =
        (mapsRight.map chain).all fun ids => decide (id ∈ ids) := by
      intro id
      rw [Bool.eq_iff_iff]
      simp only [all_eq_true, mem_map, maps]
    have listed := orderRight.iter_perm orderRight IterSite.authDifference union
    simp only [agreed]
    congr 1
    exact ((perm_insertionSort _ _).trans ((listed.filter _).trans
      (perm_insertionSort _ _).symm)).eq_of_pairwise' (pairwise_insertionSort _ _) (pairwise_insertionSort _ _)

variable {first : SharedState Id} {rest others : List (SharedState Id)}
  (same : ∀ state, state ∈ first :: rest ↔ state ∈ first :: others)
include same

omit [LinearOrder Id] in
theorem differing_mem {key : Key} (mem : other ∈ rest) (differ : first[key]? ≠ other[key]?) : other ∈ others := by
  rcases mem_cons.mp ((same other).mp (mem_cons_of_mem _ mem)) with rfl | inOthers
  · exact absurd rfl differ
  · exact inOthers

theorem conflictedKeysAt_same : conflictedKeysAt first rest = conflictedKeysAt first others := by
  apply Std.ExtTreeSet.ext_mem
  intro _
  rw [mem_conflictedKeysAt, mem_conflictedKeysAt]
  constructor
  · rintro ⟨other, mem, differ⟩
    exact ⟨other, differing_mem same mem differ, differ⟩
  · rintro ⟨other, mem, differ⟩
    exact ⟨other, differing_mem (fun state => (same state).symm) mem differ, differ⟩

theorem unconflictedAt_same : unconflictedAt first rest = unconflictedAt first others := by
  unfold unconflictedAt
  rw [conflictedKeysAt_same same]

theorem mem_conflictedStateSet_same (id : Id) :
    id ∈ conflictedStateSet first rest ↔ id ∈ conflictedStateSet first others := by
  rw [mem_conflictedStateSet, mem_conflictedStateSet]
  constructor
  · rintro ⟨key, other, mem, differ, own⟩
    exact ⟨key, other, differing_mem same mem differ, differ, own⟩
  · rintro ⟨key, other, mem, differ, own⟩
    exact ⟨key, other, differing_mem (fun state => (same state).symm) mem differ, differ, own⟩

omit [LinearOrder Id] in
theorem all_equal_same [DecidableEq Id] : rest.all (first = ·) = others.all (first = ·) := by
  rw [Bool.eq_iff_iff]
  simp only [all_eq_true, decide_eq_true_eq]
  constructor
  · intro equal state mem
    rcases mem_cons.mp ((same state).mpr (mem_cons_of_mem _ mem)) with rfl | inRest
    · rfl
    · exact equal state inRest
  · intro equal state mem
    rcases mem_cons.mp ((same state).mp (mem_cons_of_mem _ mem)) with rfl | inOthers
    · rfl
    · exact equal state inOthers

variable (ctx : MergeContext Id C) (orderLeft orderRight : Order)

theorem mergeAuthDifference_sameParents :
    mergeAuthDifference orderLeft ctx first rest (orderLeft.iter .conflictedState (conflictedStateSet first rest)) =
      mergeAuthDifference orderRight ctx first others
        (orderRight.iter .conflictedState (conflictedStateSet first others)) := by
  unfold mergeAuthDifference
  have ids : ∀ id, id ∈ orderLeft.iter .conflictedState (conflictedStateSet first rest) ↔
      id ∈ orderRight.iter .conflictedState (conflictedStateSet first others) := by
    intro id
    rw [(orderLeft.perm _ _).mem_iff, (orderRight.perm _ _).mem_iff, mem_conflictedStateSet_same same]
  rw [unconflictedAt_same same, authDifference_sameMaps orderLeft orderRight _ same ids]

theorem mergeInputs_sameParents (authDiff : List Id) :
    (mergeInputs orderLeft ctx first rest authDiff).Shuffled (mergeInputs orderRight ctx first others authDiff) where
  unconflicted := unconflictedAt_same same
  conflicted := EventMap.perm_of_get fun id => by
    rw [get_mergeInputs, get_mergeInputs]
    simp only [mem_conflictedStateSet_same same]
  auth := .refl _
  version := rfl
  emptyKey := rfl

variable [ToString Id] [EventContent C]

theorem mergeResolution_sameParents (authDiff : List Id) :
    (mergeResolution orderLeft ctx (.new ctx.version) first rest authDiff).1 =
      (mergeResolution orderRight ctx (.new ctx.version) first others authDiff).1 := by
  have caches : SameCaches (fun _ => True) (mergeInputs orderLeft ctx first rest authDiff)
      (mergeInputs orderRight ctx first others authDiff) (resolveCachesAt (.new ctx.version) first rest)
      (resolveCachesAt (.new ctx.version) first others) := by
    refine ⟨conflictedKeysAt_same same, fun _ _ => rfl, ?_, ?_⟩
    all_goals
      intro _ _ known
      cases known
  have shuffled := mergeInputs_sameParents same ctx orderLeft orderRight authDiff
  exact shuffled.sameInputs.resolveScreened caches orderLeft orderRight

theorem mergeStates_sameParents : mergeStates ctx (first :: rest) = mergeStates ctx (first :: others) := by
  unfold mergeStates
  by_cases equal : rest.all (first = ·)
  · unfold resolveMergedParentStates
    dsimp only
    rw [if_pos equal, if_pos (all_equal_same same ▸ equal)]
  · rw [resolveMergedParentStates_distinct first rest _ ctx _ equal,
      resolveMergedParentStates_distinct first others _ ctx _ (all_equal_same same ▸ equal),
      mergeAuthDifference_sameParents same ctx .asListed .asListed]
    generalize mergeAuthDifference _ ctx first others _ = outcome
    cases outcome with
    -- `rfl` would compare the two resolutions
    | error reason => dsimp only [Except.bind, Except.map]
    | ok authDiff =>
      dsimp only [Except.bind]
      split
      · rfl
      · dsimp only [Except.map]
        rw [mergeResolution_sameParents same ctx .asListed .asListed authDiff]

end

variable {ctx : MergeContext Id C} {inside : Id → Prop}

def EntriesIn (inside : Id → Prop) (state : SharedState Id) : Prop := ∀ id ∈ stateValues state, inside id

theorem EntriesIn.unconflictedAt (within : EntriesIn inside first) (rest : List (SharedState Id)) :
    EntriesIn inside (unconflictedAt first rest) := by
  intro id mem
  obtain ⟨key, found⟩ := mem_stateValues_iff.mp mem
  unfold State.unconflictedAt at found
  rw [getElem?_foldl_erase] at found
  split at found
  · cases found
  · exact within id (mem_stateValues found)

theorem conflictedStateSet_inside (within : ∀ state ∈ first :: rest, EntriesIn inside state) {id : Id}
    (mem : id ∈ conflictedStateSet first rest) : inside id := by
  obtain ⟨key, other, inRest, _, own | own⟩ := mem_conflictedStateSet.mp mem
  · exact within first (mem_cons_self ..) id (mem_stateValues own)
  · exact within other (mem_cons_of_mem _ inRest) id (mem_stateValues own)

variable (closed : ∀ id, inside id → ∀ cited ∈ chainEdges ctx.eventsMap.get id, inside cited)
include closed

theorem chain_inside (starts : ∀ id ∈ start, inside id) {id : Id}
    (reached : Reached (chainEdges ctx.eventsMap.get) start id) : inside id :=
  reached.subset_of_closed inside starts fun id cited inId edge => closed id inId cited edge

theorem merge_succeeds [ToString Id] [EventContent C] (legacy : ctx.version ≠ .v3)
    (known : ∀ id, inside id → id ∈ ctx.eventsMap.keys) (within : ∀ state ∈ prevStates, EntriesIn inside state)
    (order : Order) (caches : ForkResolveCaches Id C) :
    ∃ merged, resolveMergedParentStates order ctx caches prevStates = .ok merged := by
  cases prevStates with
  | nil => exact ⟨_, rfl⟩
  | cons first rest =>
    by_cases equal : rest.all (first = ·)
    · unfold resolveMergedParentStates
      dsimp only
      rw [if_pos equal]
      exact ⟨_, rfl⟩
    · have diff : ∃ authDiff, mergeAuthDifference order ctx first rest
          (order.iter .conflictedState (conflictedStateSet first rest)) = .ok authDiff := by
        unfold mergeAuthDifference
        split
        · exact ⟨[], rfl⟩
        · have own : EntriesIn inside (unconflictedAt first rest) :=
            (within first (mem_cons_self ..)).unconflictedAt rest
          obtain ⟨visited, closure, _⟩ := (unconflictedClosure_spec ctx.eventsMap (unconflictedAt first rest)).1
            fun id reached => known id (chain_inside closed own reached)
          unfold authDifference
          rw [closure]
          exact ⟨_, rfl⟩
      obtain ⟨authDiff, diff⟩ := diff
      rw [resolveMergedParentStates_distinct first rest order ctx caches equal, diff]
      dsimp only [Except.bind]
      rw [if_neg legacy]
      exact ⟨_, rfl⟩

theorem authDiff_inside (within : ∀ state ∈ first :: rest, EntriesIn inside state)
    (diff : mergeAuthDifference order ctx first rest
      (order.iter .conflictedState (conflictedStateSet first rest)) = .ok authDiff) {id : Id} (mem : id ∈ authDiff) :
    inside id := by
  have different : ctx.version ≠ .v1 ∧ InAuthDifference ctx.eventsMap (first :: rest)
      (partitionStateMaps order (first :: rest) (first :: rest).length) id := (mem_mergeAuthDifference diff id).mp mem
  obtain ⟨_, visited, _, ⟨state, inMaps, chained⟩, _⟩ := different
  have seeds := within state inMaps
  refine ((mem_conflictedChain _ _ _ _ _).mp chained).2.subset_of_closed inside ?_ ?_
  · intro cited listed
    obtain ⟨seed, own, edge⟩ := mem_flatMap.mp listed
    exact closed seed (seeds seed (mem_of_mem_filter own)) cited (mem_of_mem_filter edge)
  · intro x y inX edge
    exact closed x inX y (mem_of_mem_filter edge)

theorem merged_inside [ToString Id] [EventContent C] (within : ∀ state ∈ prevStates, EntriesIn inside state)
    {caches after : ForkResolveCaches Id C}
    (merged : resolveMergedParentStates order ctx caches prevStates = .ok (state, after)) :
    EntriesIn inside state := by
  cases prevStates with
  | nil =>
    obtain ⟨rfl, _⟩ := Prod.mk.inj (Except.ok.inj merged)
    intro id mem
    obtain ⟨key, found⟩ := mem_stateValues_iff.mp mem
    simp at found
  | cons first rest =>
    by_cases equal : rest.all (first = ·)
    · unfold resolveMergedParentStates at merged
      dsimp only at merged
      rw [if_pos equal] at merged
      obtain ⟨rfl, _⟩ := Prod.mk.inj (Except.ok.inj merged)
      exact within _ (mem_cons_self ..)
    · rw [resolveMergedParentStates_distinct first rest order ctx caches equal] at merged
      cases diff : mergeAuthDifference order ctx first rest
          (order.iter .conflictedState (conflictedStateSet first rest)) with
      | error reason =>
        rw [diff] at merged
        cases merged
      | ok authDiff =>
        rw [diff] at merged
        split at merged
        · cases merged
        · obtain ⟨rfl, _⟩ := Prod.mk.inj (Except.ok.inj merged)
          have conflicted : ∀ event ∈ (mergeInputs order ctx first rest authDiff).conflictedEvents.values,
              inside event.eventId ∧ ctx.eventsMap.get event.eventId = some event := by
            intro event mem
            have found := EventMap.get_of_mem mem
            rw [get_mergeInputs] at found
            split at found
            · rename_i source
              exact ⟨source.elim (authDiff_inside closed within diff) (conflictedStateSet_inside within), found⟩
            · cases found
          intro id mem
          obtain ⟨key, found⟩ := mem_stateValues_iff.mp mem
          rcases resolveScreened_explained key id found with agreed | ⟨event, rfl, _, accepted⟩
          · exact (within first (mem_cons_self ..)).unconflictedAt rest id (mem_stateValues agreed)
          · rcases accepted.source with own | ancestral
            · exact (conflicted event own).1
            · obtain ⟨source, own, _, reached⟩ := ancestral.cited
              obtain ⟨inSource, known⟩ := conflicted source own
              refine chain_inside closed (fun cited listed => closed source.eventId inSource cited ?_) reached
              rw [chainEdges, known]
              exact listed

end Rezzy.State
