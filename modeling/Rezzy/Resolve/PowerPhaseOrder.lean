import Rezzy.Resolve.MainlineOrder
import Rezzy.Resolve.Iterative

namespace Rezzy.Resolve

open Basespec Auth State Permuted Worklist List LeanEvent IterativeInputs Option
open EventMap (get_mem get_of_perm perm_of_get)
open Worklist.Reached (congr perm)

variable {Id C : Type}

section

variable [DecidableEq Id]

theorem get_iterated (order : Order) (site : IterSite) (events : EventMap Id C) (id : Id) :
    (iterated order site events).get id = events.get id := get_of_perm (order.perm site events.values) id

theorem get_removeEvent (events : EventMap Id C) (id other : Id) :
    (removeEvent events id).get other = if other = id then none else events.get other := by
  rw [removeEvent, EventMap.get_filter]
  cases found : events.get other with
  | none => simp
  | some event =>
    have named := EventMap.get_id found
    by_cases same : other = id
    · simp [Option.filter, same, named]
    · simp [Option.filter, same, named]

theorem mem_keys_insert (events : EventMap Id C) (event : LeanEvent Id C) (id : Id) :
    id ∈ (events.insert event).keys ↔ id = event.eventId ∨ id ∈ events.keys := by
  rw [EventMap.mem_keys, EventMap.mem_keys, EventMap.get_insert]
  split
  · rename_i same
    simp [same]
  · rename_i differ
    simp [Ne.symm differ]

theorem containsKey_iff {events : EventMap Id C} {id : Id} : events.containsKey id = true ↔ id ∈ events.keys := by
  rw [EventMap.containsKey, isSome_iff_exists, EventMap.mem_keys]

structure Splits (sortSet : EventMap Id C) (routed : RoutedEvents Id C) : Prop where
  power : ∀ id event, routed.powerEvents.get id = some event → sortSet.get id = some event
  rest : ∀ id event, routed.nonPowerEvents.get id = some event ↔
    sortSet.get id = some event ∧ id ∉ routed.powerEvents.keys

section

variable [EventContent C] (order : Order) (sortSet : EventMap Id C) (version : StateResVersion)

theorem routePowerEvents_power (id : Id) : (routePowerEvents order sortSet version).powerEvents.get id =
      (sortSet.get id).filter (·.isPowerEvent version) := by
  rw [routePowerEvents, EventMap.get_filter, get_iterated]

theorem routePowerEvents_splits : Splits sortSet (routePowerEvents order sortSet version) where
  power id event found := by
    rw [routePowerEvents_power] at found
    exact (filter_eq_some_iff.mp found).1
  rest id event := by
    have nonPower : (routePowerEvents order sortSet version).nonPowerEvents.get id =
        (sortSet.get id).filter fun ev => !ev.isPowerEvent version := by
      rw [routePowerEvents, EventMap.get_filter, get_iterated]
    rw [nonPower, EventMap.mem_keys, filter_eq_some_iff]
    refine and_congr_right fun found => ?_
    rw [routePowerEvents_power, found]
    cases power : event.isPowerEvent version <;> simp [Option.filter, power]

end

def promotedEdges (sortSet : EventMap Id C) (id : Id) : List Id :=
  ((sortSet.get id).map LeanEvent.authEvents).getD []

structure ExpansionRel (sortSet : EventMap Id C) (s : Expansion Id C) (t : Worklist.Frontier Id) : Prop where
  splits : Splits sortSet s.toRoutedEvents
  queue : s.queue = t.pending
  marked : ∀ id, id ∈ s.powerEvents.keys ↔ id ∈ t.marked ∧ sortSet.containsKey id = true

theorem promote_offer (sortSet : EventMap Id C) {s : Expansion Id C} {t : Worklist.Frontier Id}
    (related : ExpansionRel sortSet s t) (aid : Id) :
    ExpansionRel sortSet (promote sortSet s aid) (offer sortSet.containsKey t aid) := by
  unfold promote offer
  by_cases mem : s.powerEvents.containsKey aid = true
  · have marked := ((related.marked aid).mp (containsKey_iff.mp mem)).1
    rw [if_pos mem, if_pos marked]
    exact related
  · rw [if_neg mem]
    have outside : aid ∉ s.powerEvents.keys := fun inside => mem (containsKey_iff.mpr inside)
    have rest : s.nonPowerEvents.get aid = sortSet.get aid := by
      ext event
      rw [related.splits.rest aid event]
      exact ⟨And.left, fun found => ⟨found, outside⟩⟩
    rw [rest]
    cases found : sortSet.get aid with
    | none =>
      have dropped : sortSet.containsKey aid = false := by simp [EventMap.containsKey, found]
      dsimp only
      split
      · exact related
      · refine ⟨related.splits, by simp [dropped, related.queue], fun id => ?_⟩
        rw [related.marked id]
        simp only [mem_append, mem_singleton]
        constructor
        · exact fun ⟨marked, kept⟩ => ⟨.inl marked, kept⟩
        · rintro ⟨marked | rfl, kept⟩
          · exact ⟨marked, kept⟩
          · simp [dropped] at kept
    | some event =>
      have named := EventMap.get_id found
      have kept : sortSet.containsKey aid = true := by simp [EventMap.containsKey, found]
      have fresh : aid ∉ t.marked := fun marked => outside ((related.marked aid).mpr ⟨marked, kept⟩)
      rw [if_neg fresh]
      refine ⟨⟨?_, ?_⟩, by simp [kept, related.queue], ?_⟩
      · intro id other got
        rw [EventMap.get_insert] at got
        split at got
        · rename_i same
          rw [← Option.some.inj got, ← same, named]
          exact found
        · exact related.splits.power id other got
      · intro id other
        rw [get_removeEvent, mem_keys_insert, named]
        by_cases same : id = aid
        · simp [same]
        · simp [same, related.splits.rest id other]
      · intro id
        rw [mem_keys_insert, named, related.marked id, mem_append, mem_singleton]
        constructor
        · rintro (rfl | ⟨marked, kept⟩)
          · exact ⟨.inr rfl, kept⟩
          · exact ⟨.inl marked, kept⟩
        · rintro ⟨marked | same, kept⟩
          · exact .inr ⟨marked, kept⟩
          · exact .inl same

theorem promotes_offer (sortSet : EventMap Id C) (ids : List Id) (related : ExpansionRel sortSet s t) :
    ExpansionRel sortSet (ids.foldl (promote sortSet) s) (ids.foldl (offer sortSet.containsKey) t) := by
  induction ids generalizing s t with
  | nil => exact related
  | cons id ids ih => exact ih (promote_offer sortSet related id)

theorem expandTurn_expand (sortSet : EventMap Id C) (s : Expansion Id C) (t : Worklist.Frontier Id)
    (related : ExpansionRel sortSet s t) :
    Option.Rel (ExpansionRel sortSet) (expandTurn sortSet s)
      (expand popFront sortSet.containsKey (promotedEdges sortSet) t) := by
  unfold expandTurn expand
  rw [← related.queue]
  cases waiting : s.queue with
  | nil => exact .none
  | cons id rest =>
    have popped : ExpansionRel sortSet { s with queue := rest } ⟨t.marked, rest⟩ :=
      ⟨related.splits, rfl, related.marked⟩
    dsimp only [popFront, promotedEdges]
    cases sortSet.get id with
    | none => exact .some popped
    | some event => exact .some (promotes_offer sortSet event.authEvents popped)

theorem offers_fresh (ids : List Id) (kept : ∀ id ∈ ids, keep id = true) (t : Worklist.Frontier Id)
    (fresh : ∀ id ∈ ids, id ∉ t.marked) (nodup : ids.Nodup) :
    ids.foldl (offer keep) t = ⟨t.marked ++ ids, t.pending ++ ids⟩ := by
  induction ids generalizing t with
  | nil => simp
  | cons id ids ih =>
    obtain ⟨outside, nodup⟩ := nodup_cons.mp nodup
    have first : offer keep t id = ⟨t.marked ++ [id], t.pending ++ [id]⟩ := by
      rw [offer, if_neg (fresh id (by simp)), if_pos (kept id (by simp))]
    rw [foldl_cons, first, ih (fun x mem => kept x (mem_cons_of_mem _ mem)) _ ?_ nodup]
    · simp
    · intro x mem
      rw [mem_append, mem_singleton]
      rintro (marked | rfl)
      · exact fresh x (mem_cons_of_mem _ mem) marked
      · exact outside mem

theorem expandTurns_rel (order : Order) {routed : RoutedEvents Id C} {sortSet : EventMap Id C}
    (splits : Splits sortSet routed) (n : Nat) :
    ExpansionRel sortSet (Loop.run (expandTurn sortSet) n ⟨routed, order.iter .expandQueue routed.powerEvents.keys⟩)
      (Loop.run (expand popFront sortSet.containsKey (promotedEdges sortSet)) n
        ((order.iter .expandQueue routed.powerEvents.keys).foldl (offer sortSet.containsKey) ⟨[], []⟩)) := by
  have kept : ∀ id ∈ routed.powerEvents.keys, sortSet.containsKey id = true := by
    intro id mem
    obtain ⟨event, found⟩ := EventMap.mem_keys.mp mem
    simp [EventMap.containsKey, splits.power id event found]
  have shuffled := order.perm .expandQueue routed.powerEvents.keys
  apply Loop.run_simulation _ (expandTurn_expand sortSet)
  rw [offers_fresh _ (fun id mem => kept id (shuffled.mem_iff.mp mem)) _ (by simp)
    (shuffled.nodup_iff.mpr routed.powerEvents.distinct)]
  refine ⟨splits, by simp, fun id => ?_⟩
  rw [nil_append, shuffled.mem_iff]
  exact ⟨fun mem => ⟨mem, kept id mem⟩, And.left⟩

theorem expandV2PowerEventsAuthChains_spec (order : Order) {routed : RoutedEvents Id C}
    {sortSet : EventMap Id C} (splits : Splits sortSet routed) :
    Splits sortSet (expandV2PowerEventsAuthChains order routed sortSet) ∧
      ∀ id, id ∈ (expandV2PowerEventsAuthChains order routed sortSet).powerEvents.keys ↔
        id ∈ sortSet.keys ∧ Worklist.Reached (promotedEdges sortSet) routed.powerEvents.keys id := by
  have final := expandTurns_rel order splits (routed.powerEvents.values.length + sortSet.values.length)
  have flooded : ∀ id, id ∈ flood popFront sortSet.containsKey (promotedEdges sortSet)
      (routed.powerEvents.keys ++ sortSet.keys) (order.iter .expandQueue routed.powerEvents.keys) ↔ _ :=
    mem_flood popFront_pops fun id kept => mem_append_right _ (containsKey_iff.mp kept)
  refine ⟨final.splits, fun id => ?_⟩
  unfold expandV2PowerEventsAuthChains
  rw [final.marked id]
  have length : (routed.powerEvents.keys ++ sortSet.keys).length =
      routed.powerEvents.values.length + sortSet.values.length := by simp [EventMap.keys]
  have reached := flooded id
  rw [flood, length] at reached
  rw [reached, containsKey_iff, and_comm]
  have edges : keptNext sortSet.containsKey (promotedEdges sortSet) = promotedEdges sortSet := by
    funext x
    unfold keptNext promotedEdges EventMap.containsKey
    cases sortSet.get x <;> simp
  rw [edges, perm (order.perm .expandQueue routed.powerEvents.keys)]

theorem Splits.union {routed : RoutedEvents Id C} {sortSet : EventMap Id C} (splits : Splits sortSet routed) (id : Id) :
    (routed.powerEvents.get id).or (routed.nonPowerEvents.get id) = sortSet.get id := by
  cases power : routed.powerEvents.get id with
  | some event => exact (splits.power id event power).symm
  | none =>
    have outside : id ∉ routed.powerEvents.keys := by simp [EventMap.mem_keys, power]
    ext event
    rw [none_or, splits.rest id event]
    exact and_iff_left outside

/-- The loop ends, with the least set that holds the first power events and is closed under `auth_events` within
    `sort_set`, and the two maps are still a split. -/
theorem expandV2PowerEventsAuthChains_least (order : Order) {routed : RoutedEvents Id C} {sortSet : EventMap Id C}
    (splits : Splits sortSet routed) :
    expandTurn sortSet (Loop.run (expandTurn sortSet) (routed.powerEvents.values.length + sortSet.values.length)
      ⟨routed, order.iter .expandQueue routed.powerEvents.keys⟩) = none ∧
    IsLeast {keys : Set Id | (∀ id ∈ routed.powerEvents.keys, id ∈ keys) ∧ ∀ id ∈ keys, ∀ event,
        sortSet.get id = some event → ∀ aid ∈ event.authEvents, aid ∈ sortSet.keys → aid ∈ keys}
      {id | id ∈ (expandV2PowerEventsAuthChains order routed sortSet).powerEvents.keys} ∧
    ∀ id,
      (id ∈ (expandV2PowerEventsAuthChains order routed sortSet).powerEvents.keys →
        id ∉ (expandV2PowerEventsAuthChains order routed sortSet).nonPowerEvents.keys) ∧
      ((expandV2PowerEventsAuthChains order routed sortSet).powerEvents.get id).or
          ((expandV2PowerEventsAuthChains order routed sortSet).nonPowerEvents.get id) =
        (routed.powerEvents.get id).or (routed.nonPowerEvents.get id) := by
  obtain ⟨final, reached⟩ := expandV2PowerEventsAuthChains_spec order splits
  have known : ∀ id ∈ routed.powerEvents.keys, id ∈ sortSet.keys := by
    intro id member
    obtain ⟨event, found⟩ := EventMap.mem_keys.mp member
    exact EventMap.mem_keys.mpr ⟨event, splits.power id event found⟩
  refine ⟨?_, ⟨⟨?_, ?_⟩, ?_⟩, fun id => ⟨?_, ?_⟩⟩
  · have turn := expandTurn_expand sortSet _ _
      (expandTurns_rel order splits (routed.powerEvents.values.length + sortSet.values.length))
    have length : (routed.powerEvents.keys ++ sortSet.keys).length =
        routed.powerEvents.values.length + sortSet.values.length := by simp [EventMap.keys]
    rw [← length, flood_finished popFront_pops fun id kept => mem_append_right _ (containsKey_iff.mp kept)] at turn
    rw [← length]
    exact Loop.stopped_of_rel turn
  · exact fun id member => (reached id).mpr ⟨known id member, .seed member⟩
  · intro id member event found aid cited inside
    refine (reached aid).mpr ⟨inside, ((reached id).mp member).2.step ?_⟩
    simpa [promotedEdges, found] using cited
  · rintro keys ⟨seeds, closed⟩ id member
    obtain ⟨inside, path⟩ := (reached id).mp member
    refine path.subset_of_closed (fun x => x ∈ sortSet.keys → x ∈ keys) (fun x first _ => seeds x first) ?_ inside
    intro x y within edge inside'
    cases found : sortSet.get x with
    | none => simp [promotedEdges, found] at edge
    | some event =>
      exact closed x (within (EventMap.mem_keys.mpr ⟨event, found⟩)) event found y (by simpa [promotedEdges, found] using edge) inside'
  · intro power other
    obtain ⟨event, found⟩ := EventMap.mem_keys.mp other
    exact ((final.rest id event).mp found).2 power
  · rw [final.union, splits.union]

namespace Sample

open Basespec.Sample

def cyclicSet : EventMap Nat Content := ⟨[powerLevels 3 {} [4], topic 4 "@a:x" [3]], by decide⟩

end Sample

open Sample in
theorem expandV2PowerEventsAuthChains_least_cycle :
    4 ∈ (expandV2PowerEventsAuthChains .asListed (routePowerEvents .asListed cyclicSet .v2) cyclicSet).powerEvents.keys ∧
      4 ∉ (expandV2PowerEventsAuthChains .asListed (routePowerEvents .asListed cyclicSet .v2)
        cyclicSet).nonPowerEvents.keys := by
  have promoted : 4 ∈ (expandV2PowerEventsAuthChains .asListed (routePowerEvents .asListed cyclicSet .v2)
      cyclicSet).powerEvents.keys := by decide
  have least := expandV2PowerEventsAuthChains_least .asListed (routePowerEvents_splits .asListed cyclicSet .v2)
  exact ⟨promoted, (least.2.2 4).1 promoted⟩

theorem mem_conflictedPowerAncestry (order : Order) (powerEvents authContext : EventMap Id C) (id : Id) :
    id ∈ conflictedPowerAncestry order powerEvents authContext ↔
      Worklist.Reached (chainEdges authContext.get) (powerEvents.values.flatMap authEvents) id := by
  have support : ∀ x, chainEdges authContext.get x ≠ [] → x ∈ authContext.keys := by
    intro x edges
    rw [EventMap.mem_keys]
    cases found : authContext.get x with
    | none => simp [chainEdges, found] at edges
    | some event => exact ⟨event, rfl⟩
  rw [conflictedPowerAncestry, mem_close support]
  exact perm ((order.perm .ancestryQueue powerEvents.values).flatMap_right _) id

def ancestralEvent (authContext : EventMap Id C) (originalConflictedKeys : List Id)
    (version : StateResVersion) (id : Id) : Option (LeanEvent Id C) :=
  if id ∈ originalConflictedKeys then none else (authContext.get id).filter (isAncestralPower version)

section

variable (authContext : EventMap Id C) (originalConflictedKeys : List Id) (version : StateResVersion)

theorem get_routeAncestor (powerEvents : EventMap Id C) (id other : Id) :
    (routeAncestor authContext originalConflictedKeys version powerEvents id).get other =
      if other = id then (ancestralEvent authContext originalConflictedKeys version id).or
        (powerEvents.get other) else powerEvents.get other := by
  unfold routeAncestor ancestralEvent
  by_cases original : id ∈ originalConflictedKeys
  · simp [original]
  · rw [if_neg original, if_neg original]
    cases found : authContext.get id with
    | none => simp
    | some event =>
      cases power : isAncestralPower version event with
      | false => simp [Option.filter, power]
      | true => simp [Option.filter, power, EventMap.get_insert, EventMap.get_id found, eq_comm]

theorem get_routeAncestors (ids : List Id) (powerEvents : EventMap Id C) (id : Id) :
    (ids.foldl (routeAncestor authContext originalConflictedKeys version) powerEvents).get id =
      if id ∈ ids then (ancestralEvent authContext originalConflictedKeys version id).or
        (powerEvents.get id) else powerEvents.get id := by
  induction ids generalizing powerEvents with
  | nil => simp
  | cons first ids ih =>
    rw [foldl_cons, ih, get_routeAncestor]
    by_cases same : id = first
    · subst same
      by_cases mem : id ∈ ids <;> simp [mem, ← Option.or_assoc]
    · by_cases mem : id ∈ ids <;> simp [mem, same]

end

theorem ancestralEvent_spec {authContext : EventMap Id C} {originals : List Id}
    {version : StateResVersion} {id : Id} {event : LeanEvent Id C}
    (found : ancestralEvent authContext originals version id = some event) :
    id ∉ originals ∧ authContext.get id = some event ∧ isAncestralPower version event = true := by
  unfold ancestralEvent at found
  split at found
  · simp at found
  · rename_i fresh
    exact ⟨fresh, filter_eq_some_iff.mp found⟩

theorem Splits.get_power (splits : Splits sortSet routed) (id : Id) (event : LeanEvent Id C) :
    routed.powerEvents.get id = some event ↔ id ∈ routed.powerEvents.keys ∧ sortSet.get id = some event := by
  constructor
  · exact fun found => ⟨EventMap.mem_keys.mpr ⟨event, found⟩, splits.power id event found⟩
  · rintro ⟨mem, found⟩
    obtain ⟨other, own⟩ := EventMap.mem_keys.mp mem
    rw [own, ← splits.power id other own, found]

end

def ReadsAgreed (version : StateResVersion) (emptyKey : String) (key : Key) : Prop :=
  if version.isV2_1Plus then
    key.2 = emptyKey ∧ key.1.asStr ∈ [mRoomPowerLevels, mRoomJoinRules, mRoomCreate] ∨
      version.hasBanEvasionHardening ∧ key.1.asStr = mRoomMember
  else key.2 = emptyKey ∧ key.1.asStr = mRoomCreate ∨ key.1.asStr ∈ validAuthTypes

variable [LinearOrder Id]

/-- Inputs that look alike from the conflicted events: same agreed state, same conflicted events, and auth contexts
    that agree on all that the resolver can meet. -/
structure SameInputs (inside : Id → Prop) (left right : IterativeInputs Id C) : Prop where
  version : left.version = right.version
  emptyKey : left.emptyKey = right.emptyKey
  unconflicted : left.unconflictedState = right.unconflictedState
  conflicted : left.conflictedEvents.values.Perm right.conflictedEvents.values
  auth : AgreeOn inside left.authContext.get right.authContext.get
  members : ∀ event ∈ left.conflictedEvents.values, inside event.eventId
  cited : ∀ event ∈ left.conflictedEvents.values, ∀ aid ∈ event.authEvents, inside aid
  agreed : ∀ key id, ReadsAgreed left.version left.emptyKey key →
    left.unconflictedState[key]? = some id → inside id

variable {inside : Id → Prop} {left right : IterativeInputs Id C}

section

variable (same : SameInputs inside left right)
include same

theorem SameInputs.get (id : Id) : left.conflictedEvents.get id = right.conflictedEvents.get id :=
  get_of_perm same.conflicted id

theorem SameInputs.closed_of_mem {event : LeanEvent Id C} {id : Id} (mem : inside id)
    (found : left.authContext.get id = some event ∨ left.conflictedEvents.get id = some event) :
    ∀ aid ∈ event.authEvents, inside aid := by
  rcases found with found | found
  · exact same.auth.closed id event mem found
  · exact same.cited event (get_mem found)

theorem SameInputs.lookupAuth : AgreeOn inside (lookupAuth left.authContext left.conflictedEvents)
      (lookupAuth right.authContext right.conflictedEvents) where
  same id member := by rw [State.lookupAuth, State.lookupAuth, same.auth.same id member, same.get id]
  closed id event member found := by
    refine same.closed_of_mem member ?_
    rw [State.lookupAuth, or_eq_some_iff] at found
    exact found.imp_right And.right

theorem SameInputs.sortContext : AgreeOn inside left.sortContext right.sortContext where
  same id member := by
    rw [IterativeInputs.sortContext, IterativeInputs.sortContext, same.auth.same id member, same.get id]
  closed id event member found := by
    refine same.closed_of_mem member ?_
    rw [IterativeInputs.sortContext, or_eq_some_iff] at found
    exact (found.imp_right And.right).symm

end

theorem lists_sortNodes (inputs : IterativeInputs Id C) : Lists inputs.sortNodes inputs.sortContext := by
  intro _ event found
  rw [sortContext, or_eq_some_iff] at found
  rw [sortNodes, mem_append, EventMap.mem_keys, EventMap.mem_keys]
  rcases found with found | ⟨_, found⟩
  · exact .inl ⟨event, found⟩
  · exact .inr ⟨event, found⟩

theorem readsAgreed_create (version : StateResVersion) (emptyKey : String) :
    ReadsAgreed version emptyKey (⟨mRoomCreate⟩, emptyKey) := by
  unfold ReadsAgreed
  split <;> simp

theorem SameInputs.createEv (same : SameInputs inside left right) (orderLeft orderRight : Order) :
    chooseCreateEvent orderLeft left = chooseCreateEvent orderRight right := by
  unfold chooseCreateEvent
  have agreed : left.unconflictedState[((⟨mRoomCreate⟩, left.emptyKey) : Key)]?.bind
        (State.lookupAuth left.authContext left.conflictedEvents) =
      right.unconflictedState[((⟨mRoomCreate⟩, right.emptyKey) : Key)]?.bind
        (State.lookupAuth right.authContext right.conflictedEvents) := by
    rw [← same.unconflicted, ← same.emptyKey]
    cases found : left.unconflictedState[((⟨mRoomCreate⟩, left.emptyKey) : Key)]? with
    | none => rfl
    | some id => exact same.lookupAuth.same id (same.agreed _ id (readsAgreed_create _ _) found)
  rw [agreed]
  congr 1
  apply argmin_perm
  · intro _ hx _ hy
    exact EventMap.mem_unique ((orderLeft.perm _ _).mem_iff.mp (mem_of_mem_filter hx))
      ((orderLeft.perm _ _).mem_iff.mp (mem_of_mem_filter hy))
  · exact (orderLeft.iter_perm orderRight .createScan same.conflicted).filter _

variable [EventContent C]

def expandedEvents (order : Order) (inputs : IterativeInputs Id C) : RoutedEvents Id C :=
  if inputs.version ≠ .v1 then
    expandV2PowerEventsAuthChains order
      (routePowerEvents order inputs.conflictedEvents inputs.version) inputs.conflictedEvents
  else routePowerEvents order inputs.conflictedEvents inputs.version

section

variable (order : Order) (inputs : IterativeInputs Id C)

theorem expandedEvents_splits : Splits inputs.conflictedEvents (expandedEvents order inputs) := by
  have routed := routePowerEvents_splits order inputs.conflictedEvents inputs.version
  unfold expandedEvents
  split
  · exact (expandV2PowerEventsAuthChains_spec order routed).1
  · exact routed

theorem mem_expandedEvents (id : Id) :
    id ∈ (expandedEvents order inputs).powerEvents.keys ↔ id ∈ inputs.conflictedEvents.keys ∧
      Worklist.Reached (if inputs.version ≠ .v1 then promotedEdges inputs.conflictedEvents else fun _ => [])
        ((inputs.conflictedEvents.filter (·.isPowerEvent inputs.version)).keys) id := by
  have routed := routePowerEvents_splits order inputs.conflictedEvents inputs.version
  have keys : ∀ x, x ∈ (routePowerEvents order inputs.conflictedEvents inputs.version).powerEvents.keys ↔
      x ∈ (inputs.conflictedEvents.filter (·.isPowerEvent inputs.version)).keys := by
    intro x
    rw [EventMap.mem_keys, EventMap.mem_keys, routePowerEvents_power, EventMap.get_filter]
  unfold expandedEvents
  by_cases later : inputs.version ≠ .v1
  · rw [if_pos later, if_pos later, (expandV2PowerEventsAuthChains_spec order routed).2 id]
    exact and_congr_right fun _ => congr (fun _ _ => rfl) keys id
  · rw [if_neg later, if_neg later, keys]
    constructor
    · intro mem
      refine ⟨?_, .seed mem⟩
      obtain ⟨event, found⟩ := EventMap.mem_keys.mp mem
      rw [EventMap.get_filter, filter_eq_some_iff] at found
      exact EventMap.mem_keys.mpr ⟨event, found.1⟩
    · rintro ⟨_, reached⟩
      exact reached.subset_of_closed _ (fun _ mem => mem) (by simp)

theorem executePowerPhase_power (originals : List Id) (id : Id) (event : LeanEvent Id C) :
    (executePowerPhase order inputs originals).powerEvents.get id = some event ↔ (routesAncestors inputs.version ∧
        Worklist.Reached (chainEdges inputs.authContext.get)
          ((expandedEvents order inputs).powerEvents.values.flatMap authEvents) id ∧
        ancestralEvent inputs.authContext originals inputs.version id = some event) ∨
      (expandedEvents order inputs).powerEvents.get id = some event ∧ ¬(routesAncestors inputs.version ∧
          Worklist.Reached (chainEdges inputs.authContext.get)
            ((expandedEvents order inputs).powerEvents.values.flatMap authEvents) id ∧
          ∃ other, ancestralEvent inputs.authContext originals inputs.version id = some other) := by
  have unfolded : (executePowerPhase order inputs originals).powerEvents =
      routeMsc4297AncestralPowerEvents order (expandedEvents order inputs).powerEvents inputs.authContext
        originals inputs.version := rfl
  rw [unfolded, routeMsc4297AncestralPowerEvents]
  by_cases routes : routesAncestors inputs.version
  · rw [if_pos routes, get_routeAncestors, ← mem_conflictedPowerAncestry order]
    split
    · rename_i reached
      cases ancestralEvent inputs.authContext originals inputs.version id <;> simp [routes, reached]
    · rename_i unreached
      simp [unreached]
  · rw [if_neg routes]
    simp [routes]

theorem executePowerPhase_nonPower (originals : List Id) :
    (executePowerPhase order inputs originals).nonPowerEvents = (expandedEvents order inputs).nonPowerEvents := rfl

end

theorem executePowerPhase_power_source {order : Order} {inputs : IterativeInputs Id C} {originals : List Id}
    {id : Id} {event : LeanEvent Id C}
    (found : (executePowerPhase order inputs originals).powerEvents.get id = some event) :
    inputs.conflictedEvents.get id = some event ∨ id ∉ originals ∧ inputs.authContext.get id = some event ∧
        routesAncestors inputs.version ∧ isAncestralPower inputs.version event = true := by
  rcases (executePowerPhase_power order inputs originals id event).mp found with
    ⟨routes, _, ancestral⟩ | ⟨own, _⟩
  · obtain ⟨fresh, known, power⟩ := ancestralEvent_spec ancestral
    exact .inr ⟨fresh, known, routes, power⟩
  · exact .inl ((expandedEvents_splits order inputs).power id event own)

variable (same : SameInputs inside left right)
include same

theorem SameInputs.expanded_keys (orderLeft orderRight : Order)
    (id : Id) : id ∈ (expandedEvents orderLeft left).powerEvents.keys ↔
      id ∈ (expandedEvents orderRight right).powerEvents.keys := by
  rw [mem_expandedEvents, mem_expandedEvents, ← same.version]
  have edges : promotedEdges left.conflictedEvents = promotedEdges right.conflictedEvents := by
    funext x
    simp only [promotedEdges, same.get x]
  rw [edges, EventMap.mem_keys, EventMap.mem_keys, same.get id]
  refine and_congr_right fun _ => congr (fun _ _ => rfl) (fun x => ?_) id
  rw [EventMap.mem_keys, EventMap.mem_keys, EventMap.get_filter, EventMap.get_filter, same.get x]

theorem SameInputs.expanded_power (orderLeft orderRight : Order)
    (id : Id) : (expandedEvents orderLeft left).powerEvents.get id =
      (expandedEvents orderRight right).powerEvents.get id := by
  ext event
  rw [(expandedEvents_splits orderLeft left).get_power, (expandedEvents_splits orderRight right).get_power,
    same.expanded_keys orderLeft orderRight, same.get id]

theorem SameInputs.nonPower (orderLeft orderRight : Order) (originals others : List Id) :
    (executePowerPhase orderLeft left originals).nonPowerEvents.values.Perm
      (executePowerPhase orderRight right others).nonPowerEvents.values := by
  apply perm_of_get
  intro id
  ext event
  rw [executePowerPhase_nonPower, executePowerPhase_nonPower, (expandedEvents_splits orderLeft left).rest,
    (expandedEvents_splits orderRight right).rest, same.expanded_keys orderLeft orderRight, same.get id]

theorem SameInputs.ancestry_inside (order : Order) {id : Id}
    (reached : Worklist.Reached (chainEdges left.authContext.get)
      ((expandedEvents order left).powerEvents.values.flatMap authEvents) id) : inside id := by
  refine reached.subset_of_closed inside ?_ ?_
  · intro aid mem
    obtain ⟨event, power, cited⟩ := mem_flatMap.mp mem
    have known := (expandedEvents_splits order left).power _ event (EventMap.get_of_mem power)
    exact same.cited event (get_mem known) aid cited
  · intro x y mem edge
    unfold chainEdges at edge
    cases found : left.authContext.get x with
    | none => simp [found] at edge
    | some event => exact same.auth.closed x event mem found y (by simpa [found] using edge)

theorem SameInputs.ancestry (orderLeft orderRight : Order) (id : Id) :
    Worklist.Reached (chainEdges left.authContext.get)
        ((expandedEvents orderLeft left).powerEvents.values.flatMap authEvents) id ↔
      Worklist.Reached (chainEdges right.authContext.get)
        ((expandedEvents orderRight right).powerEvents.values.flatMap authEvents) id := by
  have perm := perm_of_get (same.expanded_power orderLeft orderRight)
  refine congr (fun x reached => ?_) (fun x => (perm.flatMap_right _).mem_iff) id
  have mem := same.ancestry_inside orderLeft reached
  unfold chainEdges
  rw [same.auth.same x mem]

theorem SameInputs.power (orderLeft orderRight : Order)
    {originals others : List Id} (kept : ∀ id, id ∈ originals ↔ id ∈ others) :
    (executePowerPhase orderLeft left originals).powerEvents.values.Perm
      (executePowerPhase orderRight right others).powerEvents.values := by
  apply perm_of_get
  intro id
  have ancestral : Worklist.Reached (chainEdges left.authContext.get)
        ((expandedEvents orderLeft left).powerEvents.values.flatMap authEvents) id →
      ancestralEvent left.authContext originals left.version id =
        ancestralEvent right.authContext others right.version id := by
    intro reached
    unfold ancestralEvent
    simp only [kept id, same.version, same.auth.same id (same.ancestry_inside orderLeft reached)]
  ext event
  rw [executePowerPhase_power, executePowerPhase_power, ← same.ancestry orderLeft orderRight, same.version,
    same.expanded_power orderLeft orderRight]
  by_cases reached : Worklist.Reached (chainEdges left.authContext.get)
      ((expandedEvents orderLeft left).powerEvents.values.flatMap authEvents) id
  · rw [← same.version, ancestral reached, same.version]
  · simp [reached]

end Rezzy.Resolve
