import Rezzy.Basespec.Event
import Rezzy.Lib.DepthFirst

namespace Rezzy.State

open Relation.TransGen DepthFirst

section

open Basespec

variable {Id C : Type}

def statePredecessors (event : LeanEvent Id C) (version : StateResVersion) : List Id :=
  if version = .v2_2 then event.prevStateEvents else event.prevEvents

structure StateDagWalkOptions where
  maxSteps : Option Nat := some 10000
  stopOnFirstMissing : Bool := false

def StateDagWalkOptions.unlimited : StateDagWalkOptions := ⟨none, false⟩

inductive StateDagCompleteness (Id : Type) where
  | complete (createEventId : Id) (stateEventCount : Nat)
  | incomplete (missingEventIds disconnectedEventIds reachableEventIds : List Id)

inductive WalkEnd where
  | truncated
  | stoppedOnMissing
deriving DecidableEq

/-- The sets that the source keeps beside its lists hold the same ids as these, and its step count is the length of
    `reachable`. -/
structure StateDagWalk (Id : Type) where
  queue : List Id
  reachable : List Id
  missing : List Id
  disconnected : List Id
  createEventId : Option Id
  ended : Option WalkEnd

variable [DecidableEq Id]

def pushOnce (ids : List Id) (id : Id) : List Id := if id ∈ ids then ids else ids ++ [id]

def StateDagWalk.visitEvent (version : StateResVersion) (s : StateDagWalk Id) (rest : List Id)
    (event : LeanEvent Id C) : StateDagWalk Id :=
  let reachable := s.reachable ++ [event.eventId]
  if event.eventType = mRoomCreate then
    { s with queue := rest, reachable, createEventId := s.createEventId.or (some event.eventId) }
  else if statePredecessors event version = [] then
    { s with queue := rest, reachable, disconnected := pushOnce s.disconnected event.eventId }
  else { s with queue := rest ++ (statePredecessors event version).filter (· ∉ reachable), reachable }

def StateDagWalk.visitId (options : StateDagWalkOptions) (eventsMap : EventMap Id C) (version : StateResVersion)
    (s : StateDagWalk Id) (currentId : Id) (rest : List Id) : StateDagWalk Id :=
  if currentId ∈ s.reachable then { s with queue := rest }
  else if options.maxSteps.any (· ≤ s.reachable.length) then
    { s with queue := rest, ended := some .truncated }
  else
    match eventsMap.get currentId with
    | none => { s with
        queue := rest
        missing := pushOnce s.missing currentId
        ended := if options.stopOnFirstMissing then some .stoppedOnMissing else none }
    | some event => s.visitEvent version rest event

def StateDagWalk.turn (options : StateDagWalkOptions) (eventsMap : EventMap Id C) (version : StateResVersion)
    (s : StateDagWalk Id) : Option (StateDagWalk Id) :=
  match s.ended, s.queue with
  | none, currentId :: rest => some (s.visitId options eventsMap version currentId rest)
  | _, _ => none

def statePredecessorsOf (eventsMap : EventMap Id C) (version : StateResVersion) (id : Id) : List Id :=
  ((eventsMap.get id).map fun event => statePredecessors event version).getD []

def discoverStateDag (startEvents : List Id) (eventsMap : EventMap Id C) (options : StateDagWalkOptions)
    (version : StateResVersion) : StateDagWalk Id :=
  Loop.run (StateDagWalk.turn options eventsMap version)
    (startEvents.length + Worklist.edgeCount (statePredecessorsOf eventsMap version) eventsMap.keys)
    ⟨startEvents, [], [], [], none, none⟩

def reachablePredecessors (eventsMap : EventMap Id C) (version : StateResVersion) (reachable : List Id) (id : Id) :
    List Id :=
  (statePredecessorsOf eventsMap version id).filter (· ∈ reachable)

def walkStateDag (startEvents : List Id) (eventsMap : EventMap Id C) (options : StateDagWalkOptions)
    (version : StateResVersion) : StateDagCompleteness Id :=
  let s := discoverStateDag startEvents eventsMap options version
  let hasCycle := DepthFirst.hasCycle (reachablePredecessors eventsMap version s.reachable) s.reachable
  match s.createEventId with
  | some createEventId =>
    if s.ended = none ∧ hasCycle = false ∧ s.missing = [] ∧ s.disconnected = [] then
      .complete createEventId s.reachable.length
    else .incomplete s.missing s.disconnected s.reachable
  | none => .incomplete s.missing s.disconnected s.reachable

end

open Basespec Worklist

variable {Id C : Type} [DecidableEq Id]

section

def walkedPredecessors (eventsMap : EventMap Id C) (version : StateResVersion) (id : Id) : List Id :=
  match eventsMap.get id with
  | some event => if event.eventType = mRoomCreate then [] else statePredecessors event version
  | none => []

def StateDagReached (startEvents : List Id) (eventsMap : EventMap Id C) (version : StateResVersion) : Id → Prop :=
  Reached (walkedPredecessors eventsMap version) startEvents

def IsCreateId (eventsMap : EventMap Id C) (id : Id) : Prop :=
  ∃ event, eventsMap.get id = some event ∧ event.eventType = mRoomCreate

def IsDisconnectedId (eventsMap : EventMap Id C) (version : StateResVersion) (id : Id) : Prop :=
  ∃ event, eventsMap.get id = some event ∧ event.eventType ≠ mRoomCreate ∧ statePredecessors event version = []

instance (eventsMap : EventMap Id C) : DecidablePred (IsCreateId eventsMap) := fun id =>
  decidable_of_iff ((eventsMap.get id).any (·.eventType = mRoomCreate) = true) (by
    unfold IsCreateId
    simp [Option.any_eq_true])

instance (eventsMap : EventMap Id C) (version : StateResVersion) :
    DecidablePred (IsDisconnectedId eventsMap version) := fun id =>
  decidable_of_iff ((eventsMap.get id).any (fun event =>
      event.eventType ≠ mRoomCreate ∧ statePredecessors event version = []) = true) (by
    unfold IsDisconnectedId
    simp [Option.any_eq_true])

def ReachedEdge (startEvents : List Id) (eventsMap : EventMap Id C) (version : StateResVersion) (parent id : Id) :
    Prop :=
  StateDagReached startEvents eventsMap version parent ∧ StateDagReached startEvents eventsMap version id ∧
    parent ∈ statePredecessorsOf eventsMap version id

structure ConnectedDag (startEvents : List Id) (eventsMap : EventMap Id C) (version : StateResVersion) : Prop where
  known : ∀ id, StateDagReached startEvents eventsMap version id → eventsMap.containsKey id
  founded : ∀ id, StateDagReached startEvents eventsMap version id → ¬IsDisconnectedId eventsMap version id
  acyclic : ∀ id, ¬Relation.TransGen (ReachedEdge startEvents eventsMap version) id id
  rooted : ∃ id, StateDagReached startEvents eventsMap version id ∧ IsCreateId eventsMap id

variable {startEvents : List Id} {eventsMap : EventMap Id C} {options : StateDagWalkOptions}
  {version : StateResVersion} {s t : StateDagWalk Id}

theorem statePredecessorsOf_known {id : Id} (found : eventsMap.get id = some event) :
    statePredecessorsOf eventsMap version id = statePredecessors event version := by
  rw [statePredecessorsOf, found, Option.map_some, Option.getD_some]

open List

theorem walkedPredecessors_sublist (id : Id) :
    (walkedPredecessors eventsMap version id).Sublist (statePredecessorsOf eventsMap version id) := by
  unfold walkedPredecessors
  split
  · rename_i event found
    rw [statePredecessorsOf_known found]
    split
    · exact nil_sublist _
    · exact List.Sublist.refl _
  · exact nil_sublist _

theorem pushOnce_fresh {id : Id} (fresh : id ∉ ids) : pushOnce ids id = ids ++ [id] := if_neg fresh

theorem mem_pushOnce {id other : Id} : other ∈ pushOnce ids id ↔ other ∈ ids ∨ other = id := by
  unfold pushOnce
  split
  · rename_i mem
    exact ⟨.inl, fun either => either.elim (fun old => old) fun same => same ▸ mem⟩
  · rw [mem_append, mem_singleton]

theorem nodup_pushOnce (nodup : ids.Nodup) (id : Id) : (pushOnce ids id).Nodup := by
  unfold pushOnce
  split
  · exact nodup
  · rename_i fresh
    exact nodup.append (by simp) (by simpa using fresh)

theorem visitEvent_eq {id : Id} (found : eventsMap.get id = some event) (rest : List Id) :
    s.visitEvent version rest event =
      ⟨rest ++ (walkedPredecessors eventsMap version id).filter (· ∉ s.reachable ++ [id]),
        s.reachable ++ [id], s.missing,
        if IsDisconnectedId eventsMap version id then pushOnce s.disconnected id else s.disconnected,
        if IsCreateId eventsMap id then s.createEventId.or (some id) else s.createEventId, s.ended⟩ := by
  have named := EventMap.get_id found
  have create : IsCreateId eventsMap id ↔ event.eventType = mRoomCreate := by simp [IsCreateId, found]
  have disconnected : IsDisconnectedId eventsMap version id ↔
      event.eventType ≠ mRoomCreate ∧ statePredecessors event version = [] := by simp [IsDisconnectedId, found]
  have walked : walkedPredecessors eventsMap version id =
      if event.eventType = mRoomCreate then [] else statePredecessors event version := by
    rw [walkedPredecessors, found]
  unfold StateDagWalk.visitEvent
  rw [walked]
  simp only [create, disconnected, named]
  by_cases creates : event.eventType = mRoomCreate
  · simp [creates]
  · by_cases none : statePredecessors event version = []
    · simp [creates, none]
    · simp [creates, none]

inductive Popped (eventsMap : EventMap Id C) (version : StateResVersion) (s : StateDagWalk Id) (id : Id)
    (rest : List Id) : StateDagWalk Id → Prop where
  | again (seen : id ∈ s.reachable) : Popped eventsMap version s id rest { s with queue := rest }
  | cut : Popped eventsMap version s id rest { s with queue := rest, ended := some .truncated }
  | unknown (unknown : eventsMap.get id = none) (ended : Option WalkEnd) :
      Popped eventsMap version s id rest { s with queue := rest, missing := pushOnce s.missing id, ended := ended }
  | visited (fresh : id ∉ s.reachable) (event : LeanEvent Id C) (found : eventsMap.get id = some event) :
      Popped eventsMap version s id rest (s.visitEvent version rest event)

theorem turn_popped (step : s.turn options eventsMap version = some t) :
    s.ended = none ∧ ∃ id rest, s.queue = id :: rest ∧ Popped eventsMap version s id rest t := by
  unfold StateDagWalk.turn at step
  split at step
  · rename_i id rest running queue
    refine ⟨running, id, rest, queue, ?_⟩
    rw [← Option.some.inj step]
    unfold StateDagWalk.visitId
    split
    · exact .again ‹_›
    · rename_i fresh
      split
      · exact .cut
      · cases found : eventsMap.get id with
        | none => exact .unknown found _
        | some event => exact .visited fresh event found
  · cases step

theorem turn_none (stopped : s.turn options eventsMap version = none) : s.ended ≠ none ∨ s.queue = [] := by
  unfold StateDagWalk.turn at stopped
  cases ended : s.ended with
  | some why => exact .inl (by simp)
  | none =>
    cases queue : s.queue with
    | nil => exact .inr rfl
    | cons id rest => simp [ended, queue] at stopped

structure Discovered (startEvents : List Id) (eventsMap : EventMap Id C) (version : StateResVersion)
    (s : StateDagWalk Id) : Prop where
  reached : ∀ id, id ∈ s.reachable ∨ id ∈ s.missing ∨ id ∈ s.queue → StateDagReached startEvents eventsMap version id
  known : ∀ id ∈ s.reachable, id ∈ eventsMap.keys
  unknown : ∀ id ∈ s.missing, eventsMap.get id = none
  nodup : s.reachable.Nodup
  missingNodup : s.missing.Nodup
  disconnected : s.disconnected = s.reachable.filter (IsDisconnectedId eventsMap version ·)
  create : s.createEventId = s.reachable.find? (IsCreateId eventsMap ·)

structure Offered (startEvents : List Id) (eventsMap : EventMap Id C) (version : StateResVersion)
    (s : StateDagWalk Id) : Prop where
  seeds : ∀ id ∈ startEvents, id ∈ s.reachable ∨ id ∈ s.missing ∨ id ∈ s.queue
  closed : ∀ id ∈ s.reachable, ∀ parent ∈ walkedPredecessors eventsMap version id,
    parent ∈ s.reachable ∨ parent ∈ s.missing ∨ parent ∈ s.queue

theorem turn_discovered (inv : Discovered startEvents eventsMap version s)
    (step : s.turn options eventsMap version = some t) : Discovered startEvents eventsMap version t := by
  obtain ⟨_, id, rest, queue, popped⟩ := turn_popped step
  obtain ⟨reached, known, unknown, nodup, missingNodup, disconnected, create⟩ := inv
  rw [queue] at reached
  have own := reached id (.inr (.inr (mem_cons_self ..)))
  have kept : ∀ other, other ∈ s.reachable ∨ other ∈ s.missing ∨ other ∈ rest →
      StateDagReached startEvents eventsMap version other := fun other mem =>
    reached other (mem.imp_right (Or.imp_right (mem_cons_of_mem _)))
  cases popped with
  | again seen => exact ⟨kept, known, unknown, nodup, missingNodup, disconnected, create⟩
  | cut => exact ⟨kept, known, unknown, nodup, missingNodup, disconnected, create⟩
  | unknown gone ended =>
    refine ⟨?_, known, ?_, nodup, nodup_pushOnce missingNodup id, disconnected, create⟩
    · intro other mem
      simp only [mem_pushOnce] at mem
      rcases mem with old | (old | rfl) | waits
      · exact kept other (.inl old)
      · exact kept other (.inr (.inl old))
      · exact own
      · exact kept other (.inr (.inr waits))
    · intro other mem
      rcases mem_pushOnce.mp mem with old | rfl
      · exact unknown other old
      · exact gone
  | visited fresh event found =>
    rw [visitEvent_eq found]
    constructor
    · intro other mem
      simp only [mem_append, mem_singleton, mem_filter] at mem
      rcases mem with (old | rfl) | old | waits | ⟨edge, _⟩
      · exact kept other (.inl old)
      · exact own
      · exact kept other (.inr (.inl old))
      · exact kept other (.inr (.inr waits))
      · exact own.step edge
    · intro other mem
      rcases mem_append.mp mem with old | new
      · exact known other old
      · rw [mem_singleton.mp new]
        exact EventMap.mem_keys.mpr ⟨event, found⟩
    · exact unknown
    · exact nodup.append (by simp) (by simpa using fresh)
    · exact missingNodup
    · rw [filter_append, filter_singleton, ← disconnected]
      have outside : id ∉ s.disconnected := fun mem => by
        rw [disconnected] at mem
        exact fresh (mem_of_mem_filter mem)
      by_cases lone : IsDisconnectedId eventsMap version id
      · simp [lone, pushOnce_fresh outside]
      · simp [lone]
    · rw [find?_append, ← create]
      by_cases creates : IsCreateId eventsMap id
      · simp [creates]
      · simp [creates]

theorem turn_offered (offered : Offered startEvents eventsMap version s)
    (step : s.turn options eventsMap version = some t) (running : t.ended = none) :
    Offered startEvents eventsMap version t := by
  obtain ⟨_, id, rest, queue, popped⟩ := turn_popped step
  obtain ⟨seeds, closed⟩ := offered
  rw [queue] at seeds closed
  simp only [mem_cons] at seeds closed
  cases popped with
  | again seen =>
    have still : ∀ other, other ∈ s.reachable ∨ other ∈ s.missing ∨ other = id ∨ other ∈ rest →
        other ∈ s.reachable ∨ other ∈ s.missing ∨ other ∈ rest := by
      rintro other (old | old | rfl | waits)
      · exact .inl old
      · exact .inr (.inl old)
      · exact .inl seen
      · exact .inr (.inr waits)
    exact ⟨fun other mem => still other (seeds other mem),
      fun other mem parent edge => still parent (closed other mem parent edge)⟩
  | cut => cases running
  | unknown gone ended =>
    have still : ∀ other, other ∈ s.reachable ∨ other ∈ s.missing ∨ other = id ∨ other ∈ rest →
        other ∈ s.reachable ∨ other ∈ pushOnce s.missing id ∨ other ∈ rest := by
      intro other either
      rw [mem_pushOnce, or_assoc]
      exact either
    exact ⟨fun other mem => still other (seeds other mem),
      fun other mem parent edge => still parent (closed other mem parent edge)⟩
  | visited fresh event found =>
    rw [visitEvent_eq found]
    have still : ∀ other, other ∈ s.reachable ∨ other ∈ s.missing ∨ other = id ∨ other ∈ rest →
        other ∈ s.reachable ++ [id] ∨ other ∈ s.missing ∨
          other ∈ rest ++ (walkedPredecessors eventsMap version id).filter (· ∉ s.reachable ++ [id]) := by
      rintro other (old | old | rfl | waits)
      · exact .inl (mem_append_left _ old)
      · exact .inr (.inl old)
      · exact .inl (mem_append_right _ (mem_singleton_self _))
      · exact .inr (.inr (mem_append_left _ waits))
    constructor
    · exact fun other mem => still other (seeds other mem)
    · intro other mem parent edge
      rcases mem_append.mp mem with old | new
      · exact still parent (closed other old parent edge)
      · rw [mem_singleton.mp new] at edge
        by_cases inside : parent ∈ s.reachable ++ [id]
        · exact .inl inside
        · exact .inr (.inr (mem_append_right _ (mem_filter.mpr ⟨edge, by simpa using inside⟩)))

def unwalked (eventsMap : EventMap Id C) (version : StateResVersion) (s : StateDagWalk Id) : Nat :=
  s.queue.length + edgeCount (statePredecessorsOf eventsMap version) (eventsMap.keys.filter (· ∉ s.reachable))

theorem turn_unwalked (step : s.turn options eventsMap version = some t) :
    unwalked eventsMap version t < unwalked eventsMap version s := by
  obtain ⟨_, id, rest, queue, popped⟩ := turn_popped step
  unfold unwalked
  rw [queue, length_cons]
  cases popped with
  | again seen => exact Nat.add_lt_add_right (Nat.lt_succ_self _) _
  | cut => exact Nat.add_lt_add_right (Nat.lt_succ_self _) _
  | unknown gone ended => exact Nat.add_lt_add_right (Nat.lt_succ_self _) _
  | visited fresh event found =>
    rw [visitEvent_eq found]
    dsimp only
    have bound := edgeCount_filter_visited (statePredecessorsOf eventsMap version) eventsMap.keys s.reachable id fresh
      fun _ => EventMap.mem_keys.mpr ⟨event, found⟩
    have offered := (length_filter_le (· ∉ s.reachable ++ [id]) (walkedPredecessors eventsMap version id)).trans
      (walkedPredecessors_sublist id).length_le
    rw [length_append]
    omega

variable (startEvents eventsMap options version)

theorem discover_discovered :
    Discovered startEvents eventsMap version (discoverStateDag startEvents eventsMap options version) := by
  refine Loop.run_invariant (fun _ _ => turn_discovered) _ ?_
  constructor
  · intro _ mem
    exact .seed (by simpa using mem)
  all_goals simp

theorem discover_offered : (discoverStateDag startEvents eventsMap options version).ended = none →
      Offered startEvents eventsMap version (discoverStateDag startEvents eventsMap options version) := by
  refine @Loop.run_invariant _ _ (fun s : StateDagWalk Id => s.ended = none →
    Offered startEvents eventsMap version s) ?_ _ _ ?_
  · intro s _ offered step
    exact turn_offered (offered (turn_popped step).1) step
  · intro _
    exact ⟨fun id mem => .inr (.inr mem), by simp⟩

theorem discover_ends :
    (discoverStateDag startEvents eventsMap options version).turn options eventsMap version = none := by
  refine Loop.run_finished (fun _ => True) (unwalked eventsMap version) (fun _ _ _ _ => trivial)
    (fun _ _ _ => turn_unwalked) _ trivial ?_
  simp [unwalked]

end

variable {startEvents : List Id} {eventsMap : EventMap Id C} {options : StateDagWalkOptions}
  {version : StateResVersion} {s : StateDagWalk Id}

theorem walkedPredecessors_unknown {id : Id} (unknown : eventsMap.get id = none) :
    walkedPredecessors eventsMap version id = [] := by
  rw [walkedPredecessors, unknown]

theorem Offered.covers (offered : Offered startEvents eventsMap version s)
    (inv : Discovered startEvents eventsMap version s) (empty : s.queue = []) {id : Id}
    (reached : StateDagReached startEvents eventsMap version id) : id ∈ s.reachable ∨ id ∈ s.missing := by
  obtain ⟨seeds, closed⟩ := offered
  simp only [empty, List.not_mem_nil, or_false] at seeds closed
  refine reached.subset_of_closed (fun id => id ∈ s.reachable ∨ id ∈ s.missing) seeds ?_
  intro id parent inside edge
  rcases inside with visited | missing
  · exact closed id visited parent edge
  · rw [walkedPredecessors_unknown (inv.unknown id missing)] at edge
    cases edge

/-- What a walk without a limit on its way has found. -/
structure Exhausted (startEvents : List Id) (eventsMap : EventMap Id C) (version : StateResVersion)
    (s : StateDagWalk Id) : Prop where
  reachable : ∀ id, id ∈ s.reachable ↔ StateDagReached startEvents eventsMap version id ∧ eventsMap.containsKey id
  missing : ∀ id, id ∈ s.missing ↔ StateDagReached startEvents eventsMap version id ∧ ¬eventsMap.containsKey id

theorem discover_exhausted (running : (discoverStateDag startEvents eventsMap options version).ended = none) :
    Exhausted startEvents eventsMap version (discoverStateDag startEvents eventsMap options version) := by
  have inv := discover_discovered startEvents eventsMap options version
  have offered := discover_offered startEvents eventsMap options version running
  have ends := discover_ends startEvents eventsMap options version
  revert running inv offered ends
  generalize discoverStateDag startEvents eventsMap options version = s
  intro running inv offered ends
  have empty := (turn_none ends).resolve_left fun why => why running
  have known : ∀ id, id ∈ s.reachable → eventsMap.containsKey id = true := fun id mem => by
    rw [EventMap.containsKey, Option.isSome_iff_exists]
    exact EventMap.mem_keys.mp (inv.known id mem)
  have unknown : ∀ id, id ∈ s.missing → ¬eventsMap.containsKey id = true := fun id mem => by
    rw [EventMap.containsKey, inv.unknown id mem]
    simp
  constructor
  · intro id
    refine ⟨fun mem => ⟨inv.reached id (.inl mem), known id mem⟩, fun both => ?_⟩
    exact (offered.covers inv empty both.1).resolve_right fun missing => unknown id missing both.2
  · intro id
    refine ⟨fun mem => ⟨inv.reached id (.inr (.inl mem)), unknown id mem⟩, fun both => ?_⟩
    exact (offered.covers inv empty both.1).resolve_left fun visited => both.2 (known id visited)

section

variable {reachable : List Id} (all : ∀ id, id ∈ reachable ↔ StateDagReached startEvents eventsMap version id)

theorem cites_reachablePredecessors {parent id : Id} :
    Peel.Cites (reachablePredecessors eventsMap version reachable) parent id ↔
      parent ∈ statePredecessorsOf eventsMap version id ∧ parent ∈ reachable := by
  simp [Peel.Cites, reachablePredecessors]

include all

theorem reached_path (mem : last ∈ reachable)
    (path : Relation.TransGen (Peel.Cites (reachablePredecessors eventsMap version reachable)) first last) :
    first ∈ reachable ∧ Relation.TransGen (ReachedEdge startEvents eventsMap version) first last := by
  induction path using head_induction_on with
  | single edge =>
    obtain ⟨cited, inside⟩ := cites_reachablePredecessors.mp edge
    exact ⟨inside, .single ⟨(all _).mp inside, (all _).mp mem, cited⟩⟩
  | head edge _ ih =>
    obtain ⟨cited, inside⟩ := cites_reachablePredecessors.mp edge
    exact ⟨inside, .head ⟨(all _).mp inside, (all _).mp ih.1, cited⟩ ih.2⟩

theorem hasCycle_reached : hasCycle (reachablePredecessors eventsMap version reachable) reachable = true ↔
      ∃ id, Relation.TransGen (ReachedEdge startEvents eventsMap version) id id := by
  rw [hasCycle_iff fun id _ parent edge => (cites_reachablePredecessors.mp edge).2]
  constructor
  · rintro ⟨id, mem, path⟩
    exact ⟨id, (reached_path all mem path).2⟩
  · rintro ⟨id, path⟩
    obtain ⟨last, _, edge⟩ := tail'_iff.mp path
    refine ⟨id, (all id).mpr edge.2.1, mono (fun parent child step => ?_) _ _ path⟩
    exact cites_reachablePredecessors.mpr ⟨step.2.2, (all parent).mpr step.1⟩

end

theorem walkStateDag_complete
    (complete : walkStateDag startEvents eventsMap options version = .complete createEventId count) :
    let s := discoverStateDag startEvents eventsMap options version
    s.ended = none ∧ DepthFirst.hasCycle (reachablePredecessors eventsMap version s.reachable) s.reachable = false ∧
      s.missing = [] ∧ s.disconnected = [] ∧ s.createEventId = some createEventId ∧ count = s.reachable.length := by
  unfold walkStateDag at complete
  dsimp only at complete ⊢
  split at complete
  · rename_i id create
    split at complete
    · rename_i conditions
      obtain ⟨ended, acyclic, missing, disconnected⟩ := conditions
      injection complete with same length
      exact ⟨ended, acyclic, missing, disconnected, same ▸ create, length.symm⟩
    · cases complete
  · cases complete

theorem connected_of_complete
    (complete : walkStateDag startEvents eventsMap options version = .complete createEventId count) :
    ConnectedDag startEvents eventsMap version ∧
      count = Set.ncard { id | StateDagReached startEvents eventsMap version id } := by
  obtain ⟨running, acyclic, missing, disconnected, create, length⟩ := walkStateDag_complete complete
  have inv := discover_discovered startEvents eventsMap options version
  have found := discover_exhausted running
  revert running acyclic missing disconnected create length inv found
  generalize discoverStateDag startEvents eventsMap options version = s
  intro running acyclic missing disconnected create length inv found
  have known : ∀ id, StateDagReached startEvents eventsMap version id → eventsMap.containsKey id := by
    intro id reached
    by_contra unknown
    have gap := (found.missing id).mpr ⟨reached, unknown⟩
    rw [missing] at gap
    cases gap
  have all : ∀ id, id ∈ s.reachable ↔ StateDagReached startEvents eventsMap version id := by
    intro id
    rw [found.reachable]
    exact ⟨fun both => both.1, fun reached => ⟨reached, known id reached⟩⟩
  have roots := List.find?_some (inv.create.symm.trans create)
  have lists := List.mem_of_find?_eq_some (inv.create.symm.trans create)
  constructor
  · constructor
    · exact known
    · intro id reached lone
      have listed : id ∈ s.reachable.filter (IsDisconnectedId eventsMap version ·) :=
        List.mem_filter.mpr ⟨(all id).mpr reached, by simpa using lone⟩
      rw [← inv.disconnected, disconnected] at listed
      cases listed
    · intro id path
      rw [(hasCycle_reached all).mpr ⟨id, path⟩] at acyclic
      cases acyclic
    · exact ⟨createEventId, (all _).mp lists, by simpa using roots⟩
  · have same : { id | StateDagReached startEvents eventsMap version id } = (s.reachable.toFinset : Set Id) := by
      ext id
      simp [all]
    rw [same, Set.ncard_coe_finset, List.toFinset_card_of_nodup inv.nodup, length]

theorem turn_unlimited (step : s.turn .unlimited eventsMap version = some t) (running : s.ended = none) :
    t.ended = none := by
  unfold StateDagWalk.turn at step
  split at step
  · rename_i id rest _ _
    rw [← Option.some.inj step]
    unfold StateDagWalk.visitId
    split
    · exact running
    · rw [if_neg (by simp [StateDagWalkOptions.unlimited])]
      split
      · rfl
      · rename_i event found
        rw [visitEvent_eq found]
        exact running
  · cases step

theorem discover_unlimited (startEvents : List Id) (eventsMap : EventMap Id C) (version : StateResVersion) :
    (discoverStateDag startEvents eventsMap .unlimited version).ended = none := by
  refine @Loop.run_invariant _ _ (fun s : StateDagWalk Id => s.ended = none) ?_ _ _ rfl
  exact fun s t running step => turn_unlimited step running

theorem complete_of_connected (connected : ConnectedDag startEvents eventsMap version) : ∃ createEventId count,
      walkStateDag startEvents eventsMap .unlimited version = .complete createEventId count := by
  have running := discover_unlimited startEvents eventsMap version
  have inv := discover_discovered startEvents eventsMap .unlimited version
  have found := discover_exhausted running
  unfold walkStateDag
  dsimp only
  revert running inv found
  generalize discoverStateDag startEvents eventsMap .unlimited version = s
  intro running inv found
  have all : ∀ id, id ∈ s.reachable ↔ StateDagReached startEvents eventsMap version id := by
    intro id
    rw [found.reachable]
    exact ⟨fun both => both.1, fun reached => ⟨reached, connected.known id reached⟩⟩
  have missing : s.missing = [] := List.eq_nil_iff_forall_not_mem.mpr fun id mem =>
    ((found.missing id).mp mem).2 (connected.known id ((found.missing id).mp mem).1)
  have disconnected : s.disconnected = [] := by
    rw [inv.disconnected]
    refine List.filter_eq_nil_iff.mpr fun id mem => ?_
    simpa using connected.founded id ((all id).mp mem)
  have acyclic : hasCycle (reachablePredecessors eventsMap version s.reachable) s.reachable = false := by
    by_contra cyclic
    obtain ⟨id, path⟩ := (hasCycle_reached all).mp (Bool.not_eq_false _ ▸ cyclic)
    exact connected.acyclic id path
  obtain ⟨root, reached, creates⟩ := connected.rooted
  have create : s.createEventId.isSome := by
    rw [inv.create, List.find?_isSome]
    exact ⟨root, (all root).mpr reached, by simpa using creates⟩
  obtain ⟨createEventId, create⟩ := Option.isSome_iff_exists.mp create
  rw [create]
  dsimp only
  rw [if_pos ⟨running, acyclic, missing, disconnected⟩]
  exact ⟨_, _, rfl⟩

theorem walkStateDag_incomplete
    (incomplete : walkStateDag startEvents eventsMap options version = .incomplete missing disconnected reachable) :
    missing = (discoverStateDag startEvents eventsMap options version).missing ∧
      disconnected = (discoverStateDag startEvents eventsMap options version).disconnected := by
  unfold walkStateDag at incomplete
  dsimp only at incomplete
  split at incomplete
  · split at incomplete
    · cases incomplete
    · injection incomplete with gaps lone _
      exact ⟨gaps.symm, lone.symm⟩
  · injection incomplete with gaps lone _
    exact ⟨gaps.symm, lone.symm⟩

/-- Without limits the walk answers exactly; a walk that has not visited all never says that it has. -/
theorem walkStateDag_exact (startEvents : List Id) (eventsMap : EventMap Id C) (version : StateResVersion) :
    ((∃ createEventId count, walkStateDag startEvents eventsMap .unlimited version = .complete createEventId count) ↔
      ConnectedDag startEvents eventsMap version) ∧
    (∀ createEventId count,
      walkStateDag startEvents eventsMap .unlimited version = .complete createEventId count →
        count = Set.ncard { id | StateDagReached startEvents eventsMap version id }) ∧
    (∀ missing disconnected reachable,
      walkStateDag startEvents eventsMap .unlimited version = .incomplete missing disconnected reachable →
        (missing.Nodup ∧ ∀ id, id ∈ missing ↔
          StateDagReached startEvents eventsMap version id ∧ ¬eventsMap.containsKey id) ∧
        disconnected.Nodup ∧ ∀ id, id ∈ disconnected ↔
          StateDagReached startEvents eventsMap version id ∧ IsDisconnectedId eventsMap version id) ∧
    ∀ options id, StateDagReached startEvents eventsMap version id → eventsMap.containsKey id →
      id ∉ (discoverStateDag startEvents eventsMap options version).reachable →
        ∀ createEventId count, walkStateDag startEvents eventsMap options version ≠ .complete createEventId count := by
  refine ⟨⟨?_, complete_of_connected⟩, ?_, ?_, ?_⟩
  · rintro ⟨createEventId, count, complete⟩
    exact (connected_of_complete complete).1
  · intro createEventId count complete
    exact (connected_of_complete complete).2
  · intro missing disconnected reachable incomplete
    obtain ⟨rfl, rfl⟩ := walkStateDag_incomplete incomplete
    have inv := discover_discovered startEvents eventsMap .unlimited version
    have found := discover_exhausted (discover_unlimited startEvents eventsMap version)
    refine ⟨⟨inv.missingNodup, found.missing⟩, inv.disconnected ▸ inv.nodup.filter _, fun id => ?_⟩
    rw [inv.disconnected, List.mem_filter, found.reachable, decide_eq_true_eq]
    refine ⟨fun both => ⟨both.1.1, both.2⟩, fun both => ⟨⟨both.1, ?_⟩, both.2⟩⟩
    obtain ⟨event, known, _⟩ := both.2
    rw [EventMap.containsKey, known, Option.isSome_some]
  · intro options id reached known unvisited createEventId count complete
    exact unvisited (((discover_exhausted (walkStateDag_complete complete).1).reachable id).mpr ⟨reached, known⟩)

end Rezzy.State
