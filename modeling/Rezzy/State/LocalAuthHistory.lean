import Rezzy.State.LocalAuth

namespace Rezzy.State

section

open Basespec

variable {Id C : Type} [DecidableEq Id] (authContext conflictedEvents : EventMap Id C) (version : StateResVersion)

def localAuthRun (calls : List (LeanEvent Id C)) : LocalAuthCache Id C :=
  calls.foldl (fun cache event => (computeLocalAuth event authContext conflictedEvents cache version).2) (.new version)

def localAuthEvents (event : LeanEvent Id C) (cache : LocalAuthCache Id C) (key : Key) : Option (LeanEvent Id C) :=
  ((computeLocalAuth event authContext conflictedEvents cache version).1[key]?).map LocalAuthEntry.event

end

open Basespec

variable {Id C : Type} [DecidableEq Id] {authContext conflictedEvents : EventMap Id C} {version : StateResVersion}

theorem localAuthRun_snoc (calls : List (LeanEvent Id C)) (event : LeanEvent Id C) :
    localAuthRun authContext conflictedEvents version (calls ++ [event]) = (computeLocalAuth event authContext
      conflictedEvents (localAuthRun authContext conflictedEvents version calls) version).2 := by
  simp [localAuthRun]

theorem localAuthRun_valid (version : StateResVersion) (calls : List (LeanEvent Id C))
    (known : ∀ call ∈ calls, lookupAuth authContext conflictedEvents call.eventId = some call) :
    (localAuthRun authContext conflictedEvents version calls).Valid
      (lookupAuth authContext conflictedEvents) version := by
  induction calls using List.reverseRecOn with
  | nil => exact fun _ _ _ found => nomatch found
  | append_singleton calls event ih =>
    rw [localAuthRun_snoc]
    exact (computeLocalAuth_valid (ih fun call mem => known call (List.mem_append_left _ mem))
      fun _ => known event (by simp)).2

/-- Without the transitive walk a call looks at the events its own event cites, whatever is cached. -/
theorem computeLocalAuth_direct (direct : gathersTransitively version = false)
    (freshLeft : left.map event.eventId = none) (freshRight : right.map event.eventId = none) :
    (computeLocalAuth event authContext conflictedEvents left version).1 =
      (computeLocalAuth event authContext conflictedEvents right version).1 :=
  computeLocalAuth_congr version (freshLeft.trans freshRight.symm)
    fun _ _ => ⟨rfl, fun gathers => by simp [direct] at gathers⟩

theorem localAuthRun_direct (direct : gathersTransitively version = false)
    (known : ∀ call ∈ calls, lookupAuth authContext conflictedEvents call.eventId = some call)
    (found : lookupAuth authContext conflictedEvents event.eventId = some event)
    (hit : (localAuthRun authContext conflictedEvents version calls).map event.eventId = some cached) :
    cached = (computeLocalAuth event authContext conflictedEvents (.new version) version).1 := by
  induction calls using List.reverseRecOn generalizing cached with
  | nil => cases hit
  | append_singleton calls last ih =>
    have earlier : ∀ call ∈ calls, lookupAuth authContext conflictedEvents call.eventId = some call :=
      fun call mem => known call (List.mem_append_left _ mem)
    rw [localAuthRun_snoc, computeLocalAuth_map] at hit
    split at hit
    · rename_i same
      have again := known last (by simp)
      rw [← same, found] at again
      obtain rfl := Option.some.inj again
      rw [← Option.some.inj hit]
      cases own : (localAuthRun authContext conflictedEvents version calls).map event.eventId with
      | none => exact computeLocalAuth_direct direct own rfl
      | some before =>
        rw [← ih earlier own]
        unfold computeLocalAuth
        rw [own]
    · exact ih earlier hit

/-- Calls for events of one graph leave no trace in the answer for an event whose auth chain has no ties. -/
theorem localAuthEvents_unchanged (calls : List (LeanEvent Id C)) (event : LeanEvent Id C)
    (known : ∀ call ∈ event :: calls, lookupAuth authContext conflictedEvents call.eventId = some call)
    (tieFree : gathersTransitively version = true →
      TieFree (lookupAuth authContext conflictedEvents) event.authEvents) :
    localAuthEvents authContext conflictedEvents version event (localAuthRun authContext conflictedEvents version calls) =
      localAuthEvents authContext conflictedEvents version event (.new version) := by
  have found := known event List.mem_cons_self
  have earlier : ∀ call ∈ calls, lookupAuth authContext conflictedEvents call.eventId = some call :=
    fun call member => known call (List.mem_cons_of_mem _ member)
  have same : (computeLocalAuth event authContext conflictedEvents
      (localAuthRun authContext conflictedEvents version calls) version).1 =
      (computeLocalAuth event authContext conflictedEvents (.new version) version).1 := by
    cases gathers : gathersTransitively version with
    | true =>
      have warm := (computeLocalAuth_valid (localAuthRun_valid version calls earlier) fun _ => found).1 gathers
      have cold := (computeLocalAuth_valid (localAuthRun_valid version [] nofun) fun _ => found).1 gathers
      exact warm.unique (tieFree gathers) cold
    | false =>
      cases own : (localAuthRun authContext conflictedEvents version calls).map event.eventId with
      | none => exact computeLocalAuth_direct gathers own rfl
      | some cached =>
        rw [← localAuthRun_direct gathers earlier found own]
        unfold computeLocalAuth
        rw [own]
  funext key
  unfold localAuthEvents
  rw [same]

namespace Sample

open Basespec.Sample

def avatar (authEvents : List Nat) : LeanEvent Nat Content := stateEvent 4 "m.room.avatar" "" "@a:x" {} authEvents 4

def oneLevel : EventMap Nat Content := ⟨[powerLevels 1 {} [], avatar [1], topic 5 "@a:x" [4]], by decide⟩

/-- The topic cites a name and an avatar, which cite different power-level events. -/
def twoLevels : EventMap Nat Content :=
  ⟨[powerLevels 1 {} [], powerLevels 2 {} [], stateEvent 3 "m.room.name" "" "@a:x" {} [1] 3, avatar [2],
    topic 5 "@a:x" [3, 4]], by decide⟩

theorem lookup_mem {graph : EventMap Nat Content} {id : Nat} (found : lookupAuth graph .empty id = some event) :
    event ∈ graph.values ∧ event.eventId = id := by
  unfold lookupAuth at found
  rw [show (EventMap.empty : EventMap Nat Content).get id = none from rfl, Option.or_none] at found
  exact ⟨EventMap.get_mem found, EventMap.get_id found⟩

theorem oneLevel_tieFree (start : List Nat) : TieFree (lookupAuth oneLevel .empty) start := by
  have sole : ∀ event ∈ oneLevel.values, ∀ other ∈ oneLevel.values, event.key? = other.key? →
      event.eventId = other.eventId := by decide
  rintro key event other hops ⟨_, -, found, keyed⟩ ⟨_, -, found', keyed'⟩ -
  have inside := (lookup_mem found).1
  have inside' := (lookup_mem found').1
  exact EventMap.mem_unique inside inside' (sole _ inside _ inside' (keyed.trans keyed'.symm))

theorem twoLevels_acyclic (id : Nat) :
    ¬Relation.TransGen (fun aid id => aid ∈ chainEdges (lookupAuth twoLevels .empty) id) id id := by
  have older : ∀ event ∈ twoLevels.values, ∀ aid ∈ event.authEvents, aid < event.eventId := by decide
  have grows : ∀ aid id, aid ∈ chainEdges (lookupAuth twoLevels .empty) id → aid < id := by
    intro aid id cited
    unfold chainEdges at cited
    cases found : lookupAuth twoLevels .empty id with
    | none => simp [found] at cited
    | some event =>
      obtain ⟨inside, rfl⟩ := lookup_mem found
      exact older event inside aid (by simpa [found] using cited)
  have chained : ∀ aid id, Relation.TransGen (fun aid id => aid ∈ chainEdges (lookupAuth twoLevels .empty) id) aid id →
      aid < id := by
    intro aid id path
    induction path with
    | single edge => exact grows _ _ edge
    | tail _ edge ih => exact Nat.lt_trans ih (grows _ _ edge)
  exact fun cycle => Nat.lt_irrefl id (chained id id cycle)

end Sample

open Sample Basespec.Sample

theorem localAuthEvents_unchanged_sole :
    localAuthEvents oneLevel .empty .v2_1_1 (topic 5 "@a:x" [4]) (localAuthRun oneLevel .empty .v2_1_1 [avatar [1]]) =
      localAuthEvents oneLevel .empty .v2_1_1 (topic 5 "@a:x" [4]) (.new .v2_1_1) := by
  apply localAuthEvents_unchanged
  · intro call member
    rcases List.mem_pair.mp member with rfl | rfl <;> rfl
  · exact fun _ => oneLevel_tieFree _

/-- Two power-level events are two hops away. A fresh walk comes to the one behind the name first; the cached map of
    the avatar brings in the other one before it. -/
theorem cached_avatar_wins_tie : ∃ (graph : EventMap Nat Content) (calls : List (LeanEvent Nat Content))
    (event : LeanEvent Nat Content),
    (∀ call ∈ event :: calls, lookupAuth graph .empty call.eventId = some call) ∧
      (∀ id, ¬Relation.TransGen (fun aid id => aid ∈ chainEdges (lookupAuth graph .empty) id) id id) ∧
      localAuthEvents graph .empty .v2_1_1 event (localAuthRun graph .empty .v2_1_1 calls) ≠
        localAuthEvents graph .empty .v2_1_1 event (.new .v2_1_1) := by
  refine ⟨twoLevels, [avatar [2]], topic 5 "@a:x" [3, 4], ?_, twoLevels_acyclic, fun same => ?_⟩
  · intro call member
    rcases List.mem_pair.mp member with rfl | rfl <;> rfl
  · have picked := congrArg (fun found => (found (⟨mRoomPowerLevels⟩, "")).map LeanEvent.eventId) same
    revert picked
    decide +kernel

end Rezzy.State
