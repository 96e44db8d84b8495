import Rezzy.Resolve.Entries

namespace Rezzy.Resolve

section

open Basespec Auth State Permuted

variable {Id C : Type} [LinearOrder Id]

def IterativeInputs.SharedIds (inputs : IterativeInputs Id C) : Prop :=
  ∀ id left right, inputs.conflictedEvents.get id = some left → inputs.authContext.get id = some right →
    left = right

def IterativeInputs.authLookup (inputs : IterativeInputs Id C) : Id → Option (LeanEvent Id C) :=
  lookupAuth inputs.authContext inputs.conflictedEvents

section

variable {inputs : IterativeInputs Id C}

theorem IterativeInputs.SharedIds.sortContext (shared : inputs.SharedIds) : inputs.sortContext = inputs.authLookup := by
  funext id
  unfold IterativeInputs.sortContext IterativeInputs.authLookup lookupAuth
  cases conflicted : inputs.conflictedEvents.get id with
  | none => simp
  | some event =>
    cases auth : inputs.authContext.get id with
    | none => rfl
    | some other => rw [shared id event other conflicted auth]

theorem IterativeInputs.SharedIds.authLookup_conflicted (shared : inputs.SharedIds)
    (mem : event ∈ inputs.conflictedEvents.values) : inputs.authLookup event.eventId = some event := by
  rw [← shared.sortContext, IterativeInputs.sortContext, EventMap.get_of_mem mem]
  rfl

theorem IterativeInputs.sharedIds_of_subset
    (subset : ∀ event ∈ inputs.conflictedEvents.values, event ∈ inputs.authContext.values) :
    inputs.SharedIds := by
  intro _ left _ conflicted auth
  have same := EventMap.get_of_mem (subset left (EventMap.get_mem conflicted))
  rw [EventMap.get_id conflicted, auth] at same
  exact (Option.some.inj same).symm

end

/-- Whether some events are checked before it or not, an event gets the same local auth map: its auth
    chain has no ties, or none of those events. -/
def IterativeInputs.Settled (inputs : IterativeInputs Id C) (cache : LocalAuthCache Id C) (skip : Id → Prop)
    (event : LeanEvent Id C) : Prop :=
  gathersTransitively inputs.version = true →
    cache.Valid inputs.authLookup inputs.version ∧ TieFree inputs.authLookup event.authEvents ∨
      ∀ aid, Worklist.Reached (chainEdges inputs.authLookup) event.authEvents aid → ¬skip aid

theorem IterativeInputs.settled_of_uncited {inputs : IterativeInputs Id C} {skip : Id → Prop}
    (uncited : ∀ event ∈ inputs.authContext.values ++ inputs.conflictedEvents.values,
      ∀ aid ∈ event.authEvents, ¬skip aid) (mem : event ∈ inputs.authContext.values ++ inputs.conflictedEvents.values)
    (cache : LocalAuthCache Id C) : inputs.Settled cache skip event := by
  refine fun _ => .inr fun aid reached => ?_
  refine reached.subset_of_closed (fun aid => ¬skip aid) (uncited event mem) fun x y _ edge => ?_
  unfold chainEdges at edge
  cases found : inputs.authLookup x with
  | none => simp [found] at edge
  | some other =>
    refine uncited other ?_ y (by simpa [found] using edge)
    rw [List.mem_append]
    rcases Option.or_eq_some_iff.mp found with known | ⟨_, known⟩
    · exact .inl (EventMap.get_mem known)
    · exact .inr (EventMap.get_mem known)

def IterativeInputs.SkipFree (inputs : IterativeInputs Id C) (skip : Id → Prop) (id : Id) : Prop :=
  ¬skip id ∧ (gathersTransitively inputs.version = true → ∀ event, inputs.authLookup id = some event →
    ∀ aid, Worklist.Reached (chainEdges inputs.authLookup) event.authEvents aid → ¬skip aid)

structure Apart (inputs : IterativeInputs Id C) (cache : LocalAuthCache Id C) (skip : Id → Prop)
    (left right : Working Id C) : Prop where
  resolved : left.resolved = right.resolved
  validLeft : cache.Valid inputs.authLookup inputs.version →
    left.localAuthCache.Valid inputs.authLookup inputs.version
  validRight : cache.Valid inputs.authLookup inputs.version →
    right.localAuthCache.Valid inputs.authLookup inputs.version
  cached : ∀ id, inputs.SkipFree skip id → left.localAuthCache.map id = right.localAuthCache.map id

variable {inputs : IterativeInputs Id C} {cache : LocalAuthCache Id C} {skip : Id → Prop}
  {left right : Working Id C} {event : LeanEvent Id C}

theorem Apart.refl (valid : cache.Valid inputs.authLookup inputs.version →
    w.localAuthCache.Valid inputs.authLookup inputs.version) : Apart inputs cache skip w w :=
  ⟨rfl, valid, valid, fun _ _ => rfl⟩

theorem Apart.localAuth (apart : Apart inputs cache skip left right)
    (known : gathersTransitively inputs.version = true → inputs.authLookup event.eventId = some event)
    (kept : ¬skip event.eventId) (settled : inputs.Settled cache skip event) :
    (computeLocalAuth event inputs.authContext inputs.conflictedEvents left.localAuthCache inputs.version).1 =
      (computeLocalAuth event inputs.authContext inputs.conflictedEvents right.localAuthCache inputs.version).1 := by
  by_cases gathers : gathersTransitively inputs.version = true
  · rcases settled gathers with ⟨valid, tieFree⟩ | clear
    · have nearestLeft := (computeLocalAuth_valid (apart.validLeft valid) known).1 gathers
      have nearestRight := (computeLocalAuth_valid (apart.validRight valid) known).1 gathers
      exact nearestLeft.unique tieFree nearestRight
    · have own : inputs.SkipFree skip event.eventId := by
        refine ⟨kept, fun _ other found => ?_⟩
        obtain rfl := Option.some.inj ((known gathers).symm.trans found)
        exact clear
      refine computeLocalAuth_congr inputs.version (apart.cached _ own) fun aid reached =>
        ⟨rfl, fun _ => apart.cached aid ⟨clear aid reached, fun _ other found next further => ?_⟩⟩
      refine clear next (further.subset_of_closed _ (fun x cites => reached.step ?_) fun x y chain edge =>
        chain.step edge)
      have unfolded : lookupAuth inputs.authContext inputs.conflictedEvents aid = some other := found
      simpa [chainEdges, unfolded] using cites
  · exact computeLocalAuth_congr inputs.version
      (apart.cached _ ⟨kept, fun transitive => absurd transitive gathers⟩) fun aid _ =>
        ⟨rfl, fun transitive => absurd transitive gathers⟩

variable [ToString Id] [EventContent C]

theorem eventAuthOk_valid (valid : left.localAuthCache.Valid inputs.authLookup inputs.version)
    (known : gathersTransitively inputs.version = true → inputs.authLookup event.eventId = some event)
    (createEv : Option (LeanEvent Id C)) (isPower : Bool) :
    (eventAuthOk inputs createEv isPower left event).2.Valid inputs.authLookup inputs.version :=
  (computeLocalAuth_valid valid known).2

section

variable (apart : Apart inputs cache skip left right)
  (known : gathersTransitively inputs.version = true → inputs.authLookup event.eventId = some event)
include apart known

section

variable (kept : ¬skip event.eventId) (settled : inputs.Settled cache skip event)
  (createEv : Option (LeanEvent Id C))
include kept settled

theorem Apart.eventAuthOk (isPower : Bool) : (eventAuthOk inputs createEv isPower left event).1 =
        (eventAuthOk inputs createEv isPower right event).1 ∧
      ∀ resolved, Apart inputs cache skip ⟨resolved, (eventAuthOk inputs createEv isPower left event).2⟩
        ⟨resolved, (eventAuthOk inputs createEv isPower right event).2⟩ := by
  have localAuth := apart.localAuth known kept settled
  refine ⟨?_, fun resolved => ⟨rfl, fun valid => ?_, fun valid => ?_, fun id free => ?_⟩⟩
  · unfold Resolve.eventAuthOk
    dsimp only
    rw [localAuth, apart.resolved]
  · exact eventAuthOk_valid (apart.validLeft valid) known createEv isPower
  · exact eventAuthOk_valid (apart.validRight valid) known createEv isPower
  · unfold Resolve.eventAuthOk
    rw [computeLocalAuth_map, computeLocalAuth_map, localAuth, apart.cached id free]

theorem Apart.checkEvent (conflictedKeys : KeySet) (isPower : Bool) :
    Apart inputs cache skip (checkEvent inputs createEv conflictedKeys isPower left event)
      (checkEvent inputs createEv conflictedKeys isPower right event) := by
  obtain ⟨accepted, after⟩ := apart.eventAuthOk known kept settled createEv isPower
  unfold Resolve.checkEvent
  dsimp only
  rw [accepted, apart.resolved]
  exact after _

end

theorem Apart.checkSkipped (skipped : skip event.eventId) (createEv : Option (LeanEvent Id C)) (conflictedKeys : KeySet)
    (isPower : Bool)
    (same : (Resolve.checkEvent inputs createEv conflictedKeys isPower left event).resolved = left.resolved) :
    Apart inputs cache skip (Resolve.checkEvent inputs createEv conflictedKeys isPower left event) right where
  resolved := same.trans apart.resolved
  validLeft valid := eventAuthOk_valid (apart.validLeft valid) known createEv isPower
  validRight := apart.validRight
  cached id free := by
    have differ : id ≠ event.eventId := fun own => free.1 (own ▸ skipped)
    have unchanged : (Resolve.checkEvent inputs createEv conflictedKeys isPower left event).localAuthCache.map
        id = left.localAuthCache.map id := by
      unfold Resolve.checkEvent Resolve.eventAuthOk
      rw [computeLocalAuth_map, if_neg differ]
    rw [unchanged]
    exact apart.cached id free

end

theorem checkEvent_rejected (rejected : (Resolve.eventAuthOk inputs createEv isPower left event).1 = false)
    (conflictedKeys : KeySet) :
    (Resolve.checkEvent inputs createEv conflictedKeys isPower left event).resolved = left.resolved := by
  unfold Resolve.checkEvent
  simp [rejected]

theorem workingAfterPower_valid (shared : inputs.SharedIds) (order : Order) (caches : ResolveCaches Id C)
    (valid : (selectLocalAuthCache caches.externalAuthCache inputs.version).Valid inputs.authLookup inputs.version) :
    (workingAfterPower order inputs caches).localAuthCache.Valid inputs.authLookup inputs.version := by
  refine Loop.foldl_invariant
    (fun w : Working Id C => w.localAuthCache.Valid inputs.authLookup inputs.version) valid _ ?_
  intro _ id _ _ valid
  unfold powerTurn
  cases found : inputs.sortContext id with
  | none => exact valid
  | some event =>
    refine eventAuthOk_valid valid (fun _ => ?_) (inputs.powerPhase order).createEv true
    rw [← shared.sortContext, sortContext_id found]
    exact found

end

open Basespec Auth State Permuted

variable {Id C : Type} [LinearOrder Id]

structure AuthClosedIn (room eventContext : EventMap Id C) : Prop where
  subset : ∀ id event, eventContext.get id = some event → room.get id = some event
  closed : ∀ event ∈ eventContext.values, ∀ aid ∈ event.authEvents, aid ∈ room.keys →
    aid ∈ eventContext.keys

theorem AuthClosedIn.refl (room : EventMap Id C) : AuthClosedIn room room :=
  ⟨fun _ _ found => found, fun _ _ _ _ known => known⟩

section

variable {room eventContext : EventMap Id C} (context : AuthClosedIn room eventContext)
include context

theorem AuthClosedIn.agreeOn : AgreeOn (fun id => eventContext.get id = room.get id) eventContext.get room.get where
  same _ agrees := agrees
  closed id event _ found aid cites := by
    cases known : room.get aid with
    | none =>
      cases inContext : eventContext.get aid with
      | none => rfl
      | some other =>
        rw [context.subset aid other inContext] at known
        cases known
    | some other =>
      obtain ⟨own, inContext⟩ := EventMap.mem_keys.mp
        (context.closed event (EventMap.get_mem found) aid cites (EventMap.mem_keys.mpr ⟨other, known⟩))
      rw [inContext, ← known, context.subset aid own inContext]

theorem AuthClosedIn.agrees {id : Id} (found : eventContext.get id = some event) :
    eventContext.get id = room.get id := by
  rw [found, context.subset id event found]

theorem AuthClosedIn.chain (mem : event ∈ eventContext.values)
    (reached : Worklist.Reached (chainEdges eventContext.get) event.authEvents aid) :
    eventContext.get aid = room.get aid := by
  have found := EventMap.get_of_mem mem
  refine reached.subset_of_closed (fun id => eventContext.get id = room.get id)
    (context.agreeOn.closed _ event (context.agrees found) found) fun x y agrees edge => ?_
  unfold chainEdges at edge
  cases known : eventContext.get x with
  | none => simp [known] at edge
  | some other => exact context.agreeOn.closed x other agrees known y (by simpa [known] using edge)

end

section

def IsLocalAuth (room : EventMap Id C) (version : StateResVersion) (event : LeanEvent Id C)
    (localAuth : LocalAuthCacheMap Id C) : Prop :=
  if gathersTransitively version then IsNearest room.get event.authEvents localAuth
  else localAuth = (computeLocalAuth event room .empty (.new version) version).1

def LocalAuthCache.Faithful (room : EventMap Id C) (version : StateResVersion)
    (cache : LocalAuthCache Id C) : Prop :=
  ∀ id localAuth, cache.map id = some localAuth →
    ∃ event, room.get id = some event ∧ IsLocalAuth room version event localAuth

theorem faithful_new (room : EventMap Id C) (version other : StateResVersion) :
    LocalAuthCache.Faithful room version (.new other) := by
  intro _ _ found
  cases found

def TieFreeReads [EventContent C] (room : EventMap Id C) (version : StateResVersion)
    (event : LeanEvent Id C) : Prop :=
  gathersTransitively version = true → ∀ query ∈ authReads event,
    TieFreeAt room.get event.authEvents (⟨query.1⟩, query.2)

theorem IsLocalAuth.reads [EventContent C] {room : EventMap Id C} (ownLeft : IsLocalAuth room version event left)
    (ownRight : IsLocalAuth room version event right) (tieFree : TieFreeReads room version event)
    (query : String × String) (read : query ∈ authReads event) :
    left[((⟨query.1⟩, query.2) : Key)]? = right[((⟨query.1⟩, query.2) : Key)]? := by
  unfold IsLocalAuth at ownLeft ownRight
  split at ownLeft
  · rename_i gathers
    rw [if_pos gathers] at ownRight
    exact ownLeft.unique_at (tieFree gathers query read) ownRight
  · rename_i direct
    rw [if_neg direct] at ownRight
    rw [ownLeft, ownRight]

variable {room eventContext conflictedEvents : EventMap Id C}

theorem lookupAuth_empty (room : EventMap Id C) : lookupAuth room .empty = room.get := by
  funext id
  rw [lookupAuth]
  exact Option.or_none

variable (context : AuthClosedIn room eventContext)
  (lookup : lookupAuth eventContext conflictedEvents = eventContext.get)
include context lookup

theorem computeLocalAuth_room (mem : event ∈ eventContext.values) (cache : LocalAuthCache Id C) :
    (computeLocalAuth event eventContext conflictedEvents cache version).1 =
      (computeLocalAuth event room .empty cache version).1 := by
  refine computeLocalAuth_congr version rfl fun aid reached => ⟨?_, fun _ => rfl⟩
  rw [lookup] at reached
  rw [lookup, lookupAuth_empty]
  exact context.chain mem reached

theorem computeLocalAuth_faithful
    (faithful : LocalAuthCache.Faithful room version cache) (mem : event ∈ eventContext.values) :
    IsLocalAuth room version event (computeLocalAuth event eventContext conflictedEvents cache version).1 ∧
      LocalAuthCache.Faithful room version (computeLocalAuth event eventContext conflictedEvents cache version).2 := by
  have known : room.get event.eventId = some event := context.subset _ _ (EventMap.get_of_mem mem)
  have own : IsLocalAuth room version event (computeLocalAuth event eventContext conflictedEvents cache version).1 := by
    rw [computeLocalAuth_room context lookup mem]
    unfold IsLocalAuth
    split
    · rename_i gathers
      have valid : cache.Valid (lookupAuth room .empty) version := by
        intro _ id localAuth found
        obtain ⟨other, here, allowed⟩ := faithful id localAuth found
        rw [IsLocalAuth, if_pos gathers] at allowed
        rw [lookupAuth_empty]
        exact ⟨other, here, allowed⟩
      have found : gathersTransitively version = true → lookupAuth room .empty event.eventId = some event := by
        intro _
        rw [lookupAuth_empty]
        exact known
      have nearest := (computeLocalAuth_valid valid found).1 gathers
      rw [lookupAuth_empty] at nearest
      exact nearest
    · rename_i direct
      cases cached : cache.map event.eventId with
      | none =>
        exact computeLocalAuth_congr version (cached.trans rfl) fun aid _ =>
          ⟨rfl, fun gathers => absurd gathers direct⟩
      | some localAuth =>
        obtain ⟨other, here, allowed⟩ := faithful _ localAuth cached
        obtain rfl := Option.some.inj (known.symm.trans here)
        rw [IsLocalAuth, if_neg direct] at allowed
        rw [← allowed]
        unfold computeLocalAuth
        rw [cached]
  refine ⟨own, fun id localAuth found => ?_⟩
  rw [computeLocalAuth_map] at found
  split at found
  · rename_i same
    rw [← Option.some.inj found, same]
    exact ⟨event, known, own⟩
  · exact faithful id localAuth found

end

structure IterativeInputs.InRoom (room : EventMap Id C) (inputs : IterativeInputs Id C) : Prop where
  context : AuthClosedIn room inputs.authContext
  conflicted : ∀ event ∈ inputs.conflictedEvents.values, event ∈ inputs.authContext.values

variable {room : EventMap Id C} {inputs : IterativeInputs Id C} {left right : Working Id C}

theorem IterativeInputs.InRoom.conflicted_get (inRoom : inputs.InRoom room) {id : Id}
    (found : inputs.conflictedEvents.get id = some event) : inputs.authContext.get id = some event := by
  obtain rfl := EventMap.get_id found
  exact EventMap.get_of_mem (inRoom.conflicted event (EventMap.get_mem found))

theorem IterativeInputs.InRoom.authLookup (inRoom : inputs.InRoom room) :
    inputs.authLookup = inputs.authContext.get := by
  funext id
  unfold IterativeInputs.authLookup lookupAuth
  cases auth : inputs.authContext.get id with
  | some event => rfl
  | none =>
    cases conflicted : inputs.conflictedEvents.get id with
    | none => rfl
    | some event =>
      rw [inRoom.conflicted_get conflicted] at auth
      cases auth

theorem IterativeInputs.InRoom.sortContext (inRoom : inputs.InRoom room) :
    inputs.sortContext = inputs.authContext.get :=
  (sharedIds_of_subset inRoom.conflicted).sortContext.trans inRoom.authLookup

variable [EventContent C]

def IterativeInputs.Checks (inputs : IterativeInputs Id C) (event : LeanEvent Id C) : Prop :=
  event ∈ inputs.conflictedEvents.values ∨ AncestralPower inputs event

theorem IterativeInputs.InRoom.checked (inRoom : inputs.InRoom room) (checked : inputs.Checks event) :
    event ∈ inputs.authContext.values :=
  checked.elim (inRoom.conflicted event) fun ancestral => EventMap.get_mem ancestral.found

theorem IterativeInputs.InRoom.power_checked (inRoom : inputs.InRoom room) {id : Id}
    (mem : id ∈ sortedPowerIds order inputs (inputs.powerPhase order)) (found : inputs.sortContext id = some event) :
    inputs.Checks event := by
  obtain ⟨power, known⟩ := EventMap.mem_keys.mp ((mem_sortedPowerIds order inputs _ id).mp mem)
  rw [inRoom.sortContext] at found
  rcases powerPhase_source known with own | ancestral
  · obtain rfl := Option.some.inj (found.symm.trans (inRoom.conflicted_get own))
    exact .inl (EventMap.get_mem own)
  · have named := EventMap.get_id known
    rw [← named, ancestral.found] at found
    exact .inr (Option.some.inj found ▸ ancestral)

structure Warm (room : EventMap Id C) (version : StateResVersion) (left right : Working Id C) : Prop where
  resolved : left.resolved = right.resolved
  faithfulLeft : LocalAuthCache.Faithful room version left.localAuthCache
  faithfulRight : LocalAuthCache.Faithful room version right.localAuthCache

variable [ToString Id]

theorem Warm.checkEvent (warm : Warm room inputs.version left right) (inRoom : inputs.InRoom room)
    {event : LeanEvent Id C} (mem : event ∈ inputs.authContext.values)
    (tieFree : TieFreeReads room inputs.version event) (createEv : Option (LeanEvent Id C))
    (conflictedKeys : KeySet) (isPower : Bool) :
    Warm room inputs.version (checkEvent inputs createEv conflictedKeys isPower left event)
      (checkEvent inputs createEv conflictedKeys isPower right event) := by
  obtain ⟨ownLeft, faithfulLeft⟩ := computeLocalAuth_faithful inRoom.context inRoom.authLookup warm.faithfulLeft mem
  obtain ⟨ownRight, faithfulRight⟩ := computeLocalAuth_faithful inRoom.context inRoom.authLookup warm.faithfulRight mem
  refine ⟨?_, faithfulLeft, faithfulRight⟩
  have accepted : (eventAuthOk inputs createEv isPower left event).1 =
      (eventAuthOk inputs createEv isPower right event).1 := by
    unfold eventAuthOk
    rw [← warm.resolved]
    exact iterativeAuthOk_congr (.everywhere _) (fun _ _ _ _ => trivial) (ownLeft.reads ownRight tieFree)
      createEv inputs.version isPower
  unfold Resolve.checkEvent
  dsimp only
  rw [accepted, warm.resolved]

structure ResolveCaches.Faithful (room : EventMap Id C) (inputs : IterativeInputs Id C)
    (caches : ResolveCaches Id C) : Prop where
  localAuth : LocalAuthCache.Faithful room inputs.version
    (selectLocalAuthCache caches.externalAuthCache inputs.version)
  mainline : caches.mainlineCache.Valid (nearestPowerLevels room.get room.keys inputs.version)

/-- Where a room's caches serve a call: checked events have no ties, and the agreed power levels event is
    known if the room knows it. -/
structure IterativeInputs.Serves (room : EventMap Id C) (inputs : IterativeInputs Id C) : Prop where
  inRoom : inputs.InRoom room
  tieFree : ∀ event, inputs.Checks event → TieFreeReads room inputs.version event
  agreedLevels : ∀ id, inputs.unconflictedState[((⟨mRoomPowerLevels⟩, inputs.emptyKey) : Key)]? = some id →
    inputs.authContext.get id = room.get id

theorem IterativeInputs.InRoom.mainlineAfterPower {caches : ResolveCaches Id C} (inRoom : inputs.InRoom room)
    (agreedLevels : ∀ id, inputs.unconflictedState[((⟨mRoomPowerLevels⟩, inputs.emptyKey) : Key)]? = some id →
      inputs.authContext.get id = room.get id)
    (valid : caches.mainlineCache.Valid (nearestPowerLevels room.get room.keys inputs.version))
    (order : Order) :
    (mainlineAfterPower order inputs caches).1 =
        (Loop.run (followTurn (nearestPowerLevels room.get room.keys inputs.version)) (1 + inputs.sortNodes.length)
          ([], (Resolve.workingAfterPower order inputs
            caches).resolved[((⟨mRoomPowerLevels⟩, inputs.emptyKey) : Key)]?)).1 ∧
      (mainlineAfterPower order inputs caches).2.Valid (nearestPowerLevels room.get room.keys inputs.version) := by
  have agree : AgreeOn (fun id => inputs.authContext.get id = room.get id) inputs.sortContext room.get := by
    rw [inRoom.sortContext]
    exact inRoom.context.agreeOn
  have lists : Lists room.keys room.get := fun id event found => EventMap.mem_keys.mpr ⟨event, found⟩
  have nearest := nearestPowerLevels_congr agree (lists_sortNodes inputs) lists inputs.version
  have own := nearestPowerLevels_parents (lists_sortNodes inputs) inputs.version agree.closed
  refine buildMainlineWithCache_spec nearest ⟨fun id parentId mem found => ?_,
    fun id parentId mem found => ?_⟩ _ _ valid fun id found => ?_
  · exact own.listed id parentId mem ((nearest id mem).trans found)
  · exact own.closed id parentId mem ((nearest id mem).trans found)
  · rcases workingAfterPower_explained _ id found with agreed | ⟨event, rfl, _, accepted⟩
    · exact agreedLevels id agreed
    · exact inRoom.context.agrees (EventMap.get_of_mem (inRoom.checked accepted.source))

variable {cachesLeft cachesRight : ResolveCaches Id C} (serves : inputs.Serves room)
  (faithfulLeft : cachesLeft.Faithful room inputs) (faithfulRight : cachesRight.Faithful room inputs)
  (keys : cachesLeft.conflictedKeys = cachesRight.conflictedKeys) (order : Order)
include serves faithfulLeft faithfulRight keys

theorem IterativeInputs.Serves.workingAfterPower : Warm room inputs.version (workingAfterPower order inputs cachesLeft)
      (workingAfterPower order inputs cachesRight) := by
  have checked : Warm room inputs.version
      (runPowerPhaseIterativeChecks order inputs (inputs.powerPhase order) cachesLeft.conflictedKeys
        (initialWorking inputs cachesLeft.externalAuthCache))
      (runPowerPhaseIterativeChecks order inputs (inputs.powerPhase order) cachesRight.conflictedKeys
        (initialWorking inputs cachesRight.externalAuthCache)) := by
    rw [← keys]
    refine List.foldl_rel (r := Warm room inputs.version)
      ⟨rfl, faithfulLeft.localAuth, faithfulRight.localAuth⟩ fun id mem left right warm => ?_
    unfold powerTurn
    cases found : inputs.sortContext id with
    | none => exact warm
    | some event =>
      have checks := serves.inRoom.power_checked mem found
      exact warm.checkEvent serves.inRoom (serves.inRoom.checked checks) (serves.tieFree event checks) _ _ true
  unfold Resolve.workingAfterPower
  dsimp only
  rw [checked.resolved]
  exact ⟨rfl, checked.faithfulLeft, checked.faithfulRight⟩

theorem IterativeInputs.Serves.workingAfterNonPower :
    Warm room inputs.version (workingAfterNonPower (screenBannedSenders inputs) order inputs cachesLeft)
      (workingAfterNonPower (screenBannedSenders inputs) order inputs cachesRight) := by
  have power := serves.workingAfterPower faithfulLeft faithfulRight keys order
  have mainline : (Resolve.mainlineAfterPower order inputs cachesLeft).1 =
      (Resolve.mainlineAfterPower order inputs cachesRight).1 := by
    rw [(serves.inRoom.mainlineAfterPower serves.agreedLevels faithfulLeft.mainline order).1,
      (serves.inRoom.mainlineAfterPower serves.agreedLevels faithfulRight.mainline order).1, power.resolved]
  unfold Resolve.workingAfterNonPower
  dsimp only
  rw [← power.resolved, ← mainline, ← keys]
  refine List.foldl_rel (r := Warm room inputs.version) power fun event mem left right warm => ?_
  have conflicted := nonPower_conflicted (mem_sortedNonPower (screenBannedSenders_subset inputs) mem)
  exact warm.checkEvent serves.inRoom (serves.inRoom.conflicted event conflicted)
    (serves.tieFree event (.inl conflicted)) _ _ false

theorem IterativeInputs.Serves.resolveScreened :
    (resolveScreened (screenBannedSenders inputs) order inputs cachesLeft).state =
        (resolveScreened (screenBannedSenders inputs) order inputs cachesRight).state ∧
      LocalAuthCache.Faithful room inputs.version
        (resolveScreened (screenBannedSenders inputs) order inputs cachesLeft).localAuthCache ∧
      (resolveScreened (screenBannedSenders inputs) order inputs cachesLeft).mainlineCache.Valid
        (nearestPowerLevels room.get room.keys inputs.version) := by
  have final := serves.workingAfterNonPower faithfulLeft faithfulRight keys order
  unfold Resolve.resolveScreened
  dsimp only
  rw [final.resolved]
  exact ⟨rfl, final.faithfulLeft, (serves.inRoom.mainlineAfterPower serves.agreedLevels faithfulLeft.mainline order).2⟩

end Rezzy.Resolve
