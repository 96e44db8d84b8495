import Rezzy.State.MergeAgrees
import Rezzy.State.PipelineSpec

namespace Rezzy.State

open List

section

open Basespec Resolve Permuted

variable {Id C : Type}

section

inductive StateDagValidationError (Id : Type) where
  | fanoutExceeded (count limit : Nat)
  | createWithPrevStateEvents
  | createWithMissingStateKey
  | createWithNonEmptyStateKey (stateKey : String)
  | nonCreateWithoutPrevStateEvents (eventId : Id)
  | referencedNonStateEvent (citingEvent referencedEvent : Id)
  | referencedForeignRoom (citingEvent referencedEvent : Id) (expectedRoom : String) (actualRoom : Option String)
  | referencedRejectedEvent (citingEvent referencedEvent : Id)
  | missingReferencedEvent (citingEvent missingId : Id)
  | unsupportedVersionForDag (version : String)
deriving DecidableEq

inductive StateDagError (Id : Type) where
  | validation (error : StateDagValidationError Id)
  | incompleteDag (missingEventIds : List Id)
  | cycleDetected
deriving DecidableEq

/-- The names that the derived `Debug` prints. -/
def versionName : StateResVersion → String
  | .v1 => "V1"
  | .v2 => "V2"
  | .v2_1 => "V2_1"
  | .v2_1_1 => "V2_1_1"
  | .v2_2 => "V2_2"
  | .v3 => "V3"

/-- The source checks create events in two places, in the same way. -/
def validateCreate (event : LeanEvent Id C) : Except (StateDagValidationError Id) Unit :=
  if event.prevStateEvents ≠ [] then .error .createWithPrevStateEvents
  else
    match event.stateKey with
    | none => .error .createWithMissingStateKey
    | some stateKey => if stateKey = "" then .ok () else .error (.createWithNonEmptyStateKey stateKey)

variable [DecidableEq Id]

def validateReference (eventsMap : EventMap Id C) (event : LeanEvent Id C) (pseId : Id) :
    Except (StateDagValidationError Id) Unit :=
  match eventsMap.get pseId with
  | none => .error (.missingReferencedEvent event.eventId pseId)
  | some parent =>
    if parent.stateKey = none then .error (.referencedNonStateEvent event.eventId pseId)
    else if parent.rejected then .error (.referencedRejectedEvent event.eventId pseId)
    else
      match event.roomId with
      | none => .ok ()
      | some expectedRoom =>
        if parent.roomId = some expectedRoom then .ok ()
        else .error (.referencedForeignRoom event.eventId pseId expectedRoom parent.roomId)

def validateMsc4242PrevStateEvents (event : LeanEvent Id C) (eventsMap : EventMap Id C) :
    Except (StateDagValidationError Id) Unit :=
  if event.eventType = mRoomCreate then validateCreate event
  else if event.prevStateEvents = [] then .error (.nonCreateWithoutPrevStateEvents event.eventId)
  else if event.prevStateEvents.length > maxPrevStateEvents then
    .error (.fanoutExceeded event.prevStateEvents.length maxPrevStateEvents)
  else event.prevStateEvents.forM (validateReference eventsMap event)

structure AncestorCheck (Id : Type) where
  checked : List Id
  pending : List Id
  fault : Option (StateDagError Id)

def AncestorCheck.turn (eventsMap : EventMap Id C) (s : AncestorCheck Id) : Option (AncestorCheck Id) :=
  match s.fault, s.pending with
  | none, id :: rest =>
    some (
      if id ∈ s.checked then { s with pending := rest }
      else
        match eventsMap.get id with
        | none => ⟨s.checked ++ [id], rest, some (.incompleteDag [id])⟩
        | some ancestor =>
          match validateMsc4242PrevStateEvents ancestor eventsMap with
          | .error error => ⟨s.checked ++ [id], rest, some (.validation error)⟩
          | .ok () => ⟨s.checked ++ [id], ancestor.prevStateEvents.reverse ++ rest, none⟩)
  | _, _ => none

def prevStateEventsOf (eventsMap : EventMap Id C) (id : Id) : List Id :=
  ((eventsMap.get id).map LeanEvent.prevStateEvents).getD []

def validateStateDagAncestors (event : LeanEvent Id C) (eventsMap : EventMap Id C) :
    Except (StateDagError Id) Unit :=
  let s := Loop.run (AncestorCheck.turn eventsMap)
    (event.prevStateEvents.length + Worklist.edgeCount (prevStateEventsOf eventsMap) eventsMap.keys)
    ⟨[], event.prevStateEvents.reverse, none⟩
  match s.fault with
  | some error => .error error
  | none => .ok ()

def collectStateDagAncestorShortIdsBatch (targets : List Id) (eventsMap : EventMap Id C) :
    Except (List Id) (List Id) :=
  let offered := Worklist.flood Worklist.popFront eventsMap.containsKey (prevStateEventsOf eventsMap) eventsMap.keys
    targets
  let missing := offered.filter fun id => !eventsMap.containsKey id
  if missing = [] then .ok (offered.filter eventsMap.containsKey) else .error missing

def citedIndexed (index : List Id) (eventsMap : EventMap Id C) (id : Id) : List Id :=
  (prevStateEventsOf eventsMap id).filter (· ∈ index)

def topologicalSortStateDagShortIds (index : List Id) (eventsMap : EventMap Id C) : TopologicalPlan Id :=
  let parents := citedIndexed index eventsMap
  let adjacency := Peel.citers index parents
  let inDegree := fun id => (parents id).length
  ⟨(Peel.peel adjacency inDegree (index.filter fun id => inDegree id = 0) index.length).done,
    fun id => (adjacency id).length⟩

end

structure DagInputs (Id C : Type) where
  event : LeanEvent Id C
  eventsMap : EventMap Id C
  version : StateResVersion
  emptyKey : String

/-- The failed expectations and assertions of the computation, and those of the merges it runs. -/
inductive DagPanic (Id : Type) where
  | indexedEventMissing (id : Id)
  | parentNotIndexed (id : Id)
  | parentUsedUp (id : Id)
  | merge (reason : Panic Id)

inductive DagStop (Id : Type) where
  | panic (reason : DagPanic Id)
  | failed (error : StateDagError Id)

structure DagExecution (Id C : Type) where
  slots : Slots Id (SharedState Id)
  caches : ForkResolveCaches Id C

variable [LinearOrder Id]

def DagInputs.mergeCtx (inputs : DagInputs Id C) : MergeContext Id C :=
  ⟨inputs.eventsMap, inputs.version, inputs.emptyKey⟩

def takeCitedParent (index : List Id) (taken : Slots Id (SharedState Id) × List (SharedState Id)) (parent : Id) :
    Except (DagPanic Id) (Slots Id (SharedState Id) × List (SharedState Id)) :=
  if parent ∈ index then
    if 0 < taken.1.outDegree parent then .ok (takeFinalizedParent taken parent) else .error (.parentUsedUp parent)
  else .error (.parentNotIndexed parent)

def reserveParent (index : List Id) (outDegree : Id → Nat) (parent : Id) : Id → Nat :=
  if parent ∈ index then Function.update outDegree parent (outDegree parent + 1) else outDegree

variable [ToString Id] [EventContent C]

def DagInputs.visitAncestor (order : Id → Order) (inputs : DagInputs Id C) (index : List Id)
    (exec : DagExecution Id C) (id : Id) : Except (DagPanic Id) (DagExecution Id C) :=
  match inputs.eventsMap.get id with
  | none => .error (.indexedEventMissing id)
  | some event => do
    let taken ← event.prevStateEvents.foldlM (takeCitedParent index) (exec.slots, [])
    let merged ← (resolveMergedParentStates (order id) inputs.mergeCtx exec.caches taken.2).mapError DagPanic.merge
    return ⟨retainStateForChildren taken.1 id (recordOwnState merged.1 event), merged.2⟩

def DagInputs.finishStateAfterFromDag (last : Order) (inputs : DagInputs Id C) (index : List Id)
    (exec : DagExecution Id C) : Except (DagStop Id) (SharedState Id) :=
  match inputs.event.prevStateEvents.find? (· ∉ index) with
  | some missing => .error (.failed (.incompleteDag [missing]))
  | none =>
    match resolveMergedParentStates last inputs.mergeCtx exec.caches
        (inputs.event.prevStateEvents.filterMap exec.slots.stateAfter) with
    | .error reason => .error (.panic (.merge reason))
    | .ok merged => .ok merged.1

/-- `order` is the hash order that the merge before an ancestor sees, `last` the one of the target's merge. -/
def computeStateBeforeFromDag (order : Id → Order) (last : Order) (inputs : DagInputs Id C) :
    Except (DagStop Id) (SharedState Id) :=
  if inputs.version ≠ .v2_2 then
    .error (.failed (.validation (.unsupportedVersionForDag (versionName inputs.version))))
  else if inputs.event.eventType = mRoomCreate then
    ((validateCreate inputs.event).mapError fun error => .failed (.validation error)).map fun _ => ∅
  else do
    (validateMsc4242PrevStateEvents inputs.event inputs.eventsMap).mapError fun error =>
      DagStop.failed (.validation error)
    (validateStateDagAncestors inputs.event inputs.eventsMap).mapError DagStop.failed
    let index ← (collectStateDagAncestorShortIdsBatch inputs.event.prevStateEvents inputs.eventsMap).mapError
      fun missing => DagStop.failed (.incompleteDag missing)
    let plan := topologicalSortStateDagShortIds index inputs.eventsMap
    if plan.sortedAncestors.length ≠ index.length then .error (.failed .cycleDetected)
    else
      let outDegree := inputs.event.prevStateEvents.foldl (reserveParent index) plan.outDegree
      let exec ← (plan.sortedAncestors.foldlM (inputs.visitAncestor order index)
        ⟨⟨outDegree, fun _ => none⟩, .new inputs.version⟩).mapError DagStop.panic
      inputs.finishStateAfterFromDag last index exec

end

open Basespec Resolve Worklist

variable {Id C : Type}

section

variable [DecidableEq Id]

def ValidAncestor (eventsMap : EventMap Id C) (id : Id) : Prop :=
  ∃ ancestor, eventsMap.get id = some ancestor ∧ validateMsc4242PrevStateEvents ancestor eventsMap = .ok ()

def DagInputs.IsAncestor (inputs : DagInputs Id C) : Id → Prop :=
  Reached (prevStateEventsOf inputs.eventsMap) inputs.event.prevStateEvents

variable {eventsMap : EventMap Id C} {s t : AncestorCheck Id}

theorem prevStateEventsOf_known {id : Id} {event : LeanEvent Id C} (found : eventsMap.get id = some event) :
    prevStateEventsOf eventsMap id = event.prevStateEvents := by
  rw [prevStateEventsOf, found, Option.map_some, Option.getD_some]

theorem prevStateEventsOf_support (id : Id) (cites : prevStateEventsOf eventsMap id ≠ []) : id ∈ eventsMap.keys := by
  by_contra unknown
  apply cites
  rw [prevStateEventsOf, EventMap.get_eq_none.mpr unknown]
  rfl

theorem ancestorTurn_cases (step : s.turn eventsMap = some t) : s.fault = none ∧ ∃ id rest, s.pending = id :: rest ∧
      ((t.fault = none ∧ (id ∉ s.checked → ValidAncestor eventsMap id) ∧
        Turned (prevStateEventsOf eventsMap) ⟨s.checked, s.pending⟩ ⟨t.checked, t.pending⟩ id rest) ∨
      (t.fault.isSome ∧ ¬ValidAncestor eventsMap id)) := by
  unfold AncestorCheck.turn at step
  split at step
  · rename_i id rest sound pending
    refine ⟨sound, id, rest, pending, ?_⟩
    rw [← Option.some.inj step]
    by_cases seen : id ∈ s.checked
    · rw [if_pos seen]
      refine .inl ⟨sound, fun fresh => absurd seen fresh, pending, fun _ => rfl, ?_, ?_⟩
      · exact fun fresh => absurd seen fresh
      · exact fun fresh => absurd seen fresh
    · rw [if_neg seen]
      cases found : eventsMap.get id with
      | none =>
        refine .inr ⟨by simp, ?_⟩
        rintro ⟨ancestor, known, _⟩
        cases found.symm.trans known
      | some ancestor =>
        cases outcome : validateMsc4242PrevStateEvents ancestor eventsMap with
        | error fault =>
          refine .inr ⟨by simp [outcome], ?_⟩
          rintro ⟨other, known, valid⟩
          obtain rfl := Option.some.inj (found.symm.trans known)
          cases outcome.symm.trans valid
        | ok valid =>
          simp only [outcome]
          refine .inl ⟨trivial, fun _ => ⟨ancestor, found, outcome⟩, pending, fun old => absurd old seen,
            fun _ => rfl, fun _ => ?_⟩
          rw [prevStateEventsOf_known found]
          exact ((reverse_perm _).append_right rest).trans perm_append_comm
  · cases step

structure Checking (eventsMap : EventMap Id C) (start : List Id) (s : AncestorCheck Id) : Prop where
  sound : s.fault = none → VisitInv (prevStateEventsOf eventsMap) start ⟨s.checked, s.pending⟩ ∧
    ∀ id ∈ s.checked, ValidAncestor eventsMap id
  failed : s.fault.isSome → ∃ id, Reached (prevStateEventsOf eventsMap) start id ∧ ¬ValidAncestor eventsMap id

theorem ancestorTurn_checking (inv : Checking eventsMap start s) (step : s.turn eventsMap = some t) :
    Checking eventsMap start t := by
  obtain ⟨clear, id, rest, pending, cases⟩ := ancestorTurn_cases step
  obtain ⟨visit, valid⟩ := inv.sound clear
  rcases cases with ⟨sound, fresh, turned⟩ | ⟨fault, invalid⟩
  · refine ⟨fun _ => ⟨visit.turn turned, fun other mem => ?_⟩, fun fault => by simp [sound] at fault⟩
    by_cases seen : id ∈ s.checked
    · have same : t.checked = s.checked := congrArg Visit.visited (turned.seen seen)
      exact valid other (same ▸ mem)
    · have grown : t.checked = s.checked ++ [id] := turned.visited seen
      rw [grown, mem_append, mem_singleton] at mem
      rcases mem with old | rfl
      · exact valid other old
      · exact fresh seen
  · refine ⟨fun sound => by simp [sound] at fault, fun _ => ⟨id, visit.sound id (.inr ?_), invalid⟩⟩
    rw [pending]
    exact mem_cons_self ..

theorem validateStateDagAncestors_ok : validateStateDagAncestors event eventsMap = .ok () ↔
    ∀ id, Reached (prevStateEventsOf eventsMap) event.prevStateEvents id → ValidAncestor eventsMap id := by
  unfold validateStateDagAncestors
  have start : Checking eventsMap event.prevStateEvents ⟨[], event.prevStateEvents.reverse, none⟩ :=
    ⟨fun _ => ⟨.initial (reverse_perm _), by simp⟩, fun fault => by cases fault⟩
  have inv := Loop.run_invariant (fun s t => ancestorTurn_checking)
    (event.prevStateEvents.length + edgeCount (prevStateEventsOf eventsMap) eventsMap.keys) start
  have ends := Loop.run_finished (fun _ => True) (fun s : AncestorCheck Id => if s.fault = none then
      unvisitedEdges (prevStateEventsOf eventsMap) eventsMap.keys ⟨s.checked, s.pending⟩ else 0)
    (fun _ _ _ _ => trivial) (fun s t _ step => by
      obtain ⟨clear, id, rest, pending, cases⟩ := ancestorTurn_cases step
      rw [if_pos clear]
      rcases cases with ⟨sound, _, turned⟩ | ⟨fault, _⟩
      · rw [if_pos sound]
        exact turned.decreases prevStateEventsOf_support
      · rw [if_neg (Option.isSome_iff_ne_none.mp fault)]
        simp [unvisitedEdges, pending])
    (event.prevStateEvents.length + edgeCount (prevStateEventsOf eventsMap) eventsMap.keys)
    (s := ⟨[], event.prevStateEvents.reverse, none⟩) trivial (by simp [unvisitedEdges])
  revert inv ends
  dsimp only
  generalize Loop.run (AncestorCheck.turn eventsMap) _ _ = final
  intro inv ends
  cases fault : final.fault with
  | some error =>
    obtain ⟨id, reached, invalid⟩ := inv.failed (by simp [fault])
    exact iff_of_false (by simp) fun all => invalid (all id reached)
  | none =>
    obtain ⟨visit, valid⟩ := inv.sound fault
    have empty : final.pending = [] := by
      unfold AncestorCheck.turn at ends
      cases pending : final.pending with
      | nil => rfl
      | cons id rest => simp [fault, pending] at ends
    refine iff_of_true rfl fun id reached => valid id ?_
    exact (visit.mem_visited empty id).mpr reached

end

variable [LinearOrder Id] {eventsMap : EventMap Id C} {index targets : List Id}

theorem kept_prevStateEventsOf (eventsMap : EventMap Id C) :
    keptNext eventsMap.containsKey (prevStateEventsOf eventsMap) = prevStateEventsOf eventsMap := by
  funext id
  unfold keptNext
  split
  · rfl
  · rename_i missing
    by_contra cites
    exact missing (containsKey_iff.mpr (prevStateEventsOf_support id fun none => cites none.symm))

theorem collectStateDagAncestors_known (targets : List Id)
    (known : ∀ id, Reached (prevStateEventsOf eventsMap) targets id → id ∈ eventsMap.keys) :
    ∃ index, collectStateDagAncestorShortIdsBatch targets eventsMap = .ok index ∧ index.Nodup ∧
      ∀ id, id ∈ index ↔ Reached (prevStateEventsOf eventsMap) targets id := by
  have offered : ∀ id, id ∈ flood popFront eventsMap.containsKey (prevStateEventsOf eventsMap) eventsMap.keys targets ↔
      Reached (prevStateEventsOf eventsMap) targets id := by
    intro id
    rw [mem_flood popFront_pops fun id known => containsKey_iff.mp known, kept_prevStateEventsOf]
  have nodup : (flood popFront eventsMap.containsKey (prevStateEventsOf eventsMap) eventsMap.keys targets).Nodup :=
    nodup_flood popFront_pops _ _ _ _
  unfold collectStateDagAncestorShortIdsBatch
  revert offered nodup
  generalize flood popFront eventsMap.containsKey (prevStateEventsOf eventsMap) eventsMap.keys targets = marked
  intro offered nodup
  have there : ∀ id ∈ marked, eventsMap.containsKey id = true := fun id mem =>
    containsKey_iff.mpr (known id ((offered id).mp mem))
  have none : (marked.filter fun id => !eventsMap.containsKey id) = [] :=
    filter_eq_nil_iff.mpr fun id mem => by simp [there id mem]
  rw [if_pos none, filter_eq_self.mpr there]
  exact ⟨marked, rfl, nodup, offered⟩

structure DagPlan (eventsMap : EventMap Id C) (index : List Id) (plan : TopologicalPlan Id) : Prop where
  perm : plan.sortedAncestors.Perm index
  first : Peel.ParentsFirst (prevStateEventsOf eventsMap) plan.sortedAncestors
  uses : ∀ id ∈ index, plan.outDegree id =
    (plan.sortedAncestors.flatMap (prevStateEventsOf eventsMap)).count id

theorem length_citers_eq_count (nodes : List Id) (parents : Id → List Id) (id : Id) :
    (Peel.citers nodes parents id).length = (nodes.flatMap parents).count id := by
  unfold Peel.citers
  rw [length_flatMap, count_flatMap]
  congr 1
  refine map_congr_left fun node _ => ?_
  rw [length_map, Function.comp_apply, count_eq_length_filter]
  congr 1

theorem topologicalSortStateDag_spec (eventsMap : EventMap Id C) (nodup : index.Nodup)
    (closed : ∀ id ∈ index, ∀ parent ∈ prevStateEventsOf eventsMap id, parent ∈ index) :
    let plan := topologicalSortStateDagShortIds index eventsMap
    (plan.sortedAncestors.length = index.length ↔
      ∀ id ∈ index, ¬Relation.TransGen (Peel.Cites (prevStateEventsOf eventsMap)) id id) ∧
    (plan.sortedAncestors.length = index.length → DagPlan eventsMap index plan) := by
  have same : ∀ id ∈ index, prevStateEventsOf eventsMap id = citedIndexed index eventsMap id := by
    intro id mem
    refine (filter_eq_self.mpr fun parent cited => ?_).symm
    exact decide_eq_true (closed id mem parent cited)
  have within : ∀ id ∈ index, ∀ parent ∈ citedIndexed index eventsMap id, parent ∈ index := by
    intro id mem parent cited
    rw [← same id mem] at cited
    exact closed id mem parent cited
  have graph : Peel.Graph index (citedIndexed index eventsMap)
      (Peel.citers index (citedIndexed index eventsMap)) := ⟨nodup, within, fun _ => .refl _⟩
  obtain ⟨distinct, inside, first, complete⟩ := Peel.peel_order graph (.refl _)
  unfold topologicalSortStateDagShortIds
  constructor
  · rw [complete]
    refine forall₂_congr fun id mem => not_congr ⟨fun path => ?_, fun path => ?_⟩
    · exact Ancestry.transGen_congr within (fun x inIndex => (same x inIndex).symm) mem path
    · exact Ancestry.transGen_congr closed same mem path
  · intro all
    have perm := (subperm_of_subset distinct inside).perm_of_length_le (le_of_eq all.symm)
    refine ⟨perm, ?_, ?_⟩
    · intro before id after split parent cited
      dsimp only at split
      refine first before id after split parent ?_
      rw [← same id (perm.mem_iff.mp (by rw [split]; simp))]
      exact cited
    · intro id mem
      dsimp only
      rw [length_citers_eq_count, (perm.flatMap_right _).count_eq, count_flatMap, count_flatMap]
      congr 1
      refine map_congr_left fun node listed => ?_
      rw [Function.comp_apply, Function.comp_apply, same node listed]

end Rezzy.State
