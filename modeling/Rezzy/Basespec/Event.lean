import Mathlib.Data.List.Dedup
import Mathlib.Data.List.Nodup
import Rezzy.Basespec.EventTypes

namespace Rezzy.Basespec

open List

/-- Content accessors. A `visit` method of the source hands entries to a callback; here it is the list
    of entries in the order they are handed over. -/
class EventContent (C : Type) where
  getMembership : C → Option String
  getJoinRule : C → Option String
  getUserPowerLevel : C → String → Option Int
  getEventPowerLevel : C → String → Option Int
  getUsersDefault : C → Option Int
  getEventsDefault : C → Option Int
  getStateDefault : C → Option Int
  getBan : C → Option Int
  getKick : C → Option Int
  getInvite : C → Option Int
  getRedact : C → Option Int
  getCreator : C → Option String
  getRoomVersion : C → Option String := fun _ => none
  hasMalformedRoomVersion : C → Bool := fun _ => false
  getMFederate : C → Option Bool := fun _ => none
  getRedacts : C → Option String := fun _ => none
  hasAdditionalCreator : C → String → Bool
  getJoinAuthorisedViaUsersServer : C → Option String
  hasThirdPartyInvite : C → Bool := fun _ => false
  getThirdPartyInviteToken : C → Option String := fun _ => none
  getThirdPartyInviteMxid : C → Option String := fun _ => none
  hasThirdPartyInviteSignatures : C → Bool := fun _ => false
  visitEventPowerLevels : C → List (String × Int)
  visitUserPowerLevels : C → List (String × Int)
  visitNotificationPowerLevels : C → List (String × Int)
  findNonIntegerScalarPl : C → Option String := fun _ => none
  findNonIntegerMapPl : C → Option String := fun _ => none
  hasNonIntegerUsersPl : C → Bool → Bool := fun _ _ => false
  visitUserKeys : C → List String
  hasUserInUsers : C → String → Bool := fun _ _ => false

/-- A Matrix event as the resolver sees it. Under V2.2 `authEvents` holds the wire list
    `prev_state_events`. -/
structure LeanEvent (Id C : Type) where
  eventId : Id
  eventType : String
  stateKey : Option String
  powerLevel : Int
  originServerTs : Nat
  sender : String
  content : C
  prevEvents : List Id
  authEvents : List Id
  depth : Nat
  rejected : Bool
  roomId : Option String := none

namespace LeanEvent

variable {Id C : Type}

def prevStateEvents (event : LeanEvent Id C) : List Id := event.authEvents

def dagEdges (event : LeanEvent Id C) (version : StateResVersion) : List Id :=
  if version = .v2_2 then event.prevStateEvents else event.authEvents

@[simp] theorem dagEdges_eq (event : LeanEvent Id C) (version : StateResVersion) :
    event.dagEdges version = event.authEvents := by
  unfold dagEdges prevStateEvents
  split <;> rfl

def key? (event : LeanEvent Id C) : Option Key :=
  event.stateKey.map fun stateKey => (⟨event.eventType⟩, stateKey)

variable [EventContent C]

def getMembership (event : LeanEvent Id C) : Option String :=
  EventContent.getMembership event.content

def isBanOrKick (event : LeanEvent Id C) : Bool :=
  event.eventType = mRoomMember &&
    match event.getMembership with
    | some membership =>
      (membership = memBan || membership = memLeave) &&
        match event.stateKey with
        | some stateKey => stateKey != event.sender
        | none => false
    | none => false

def isPowerEvent (event : LeanEvent Id C) (version : StateResVersion) : Bool :=
  event.eventType = mRoomCreate || event.eventType = mRoomPowerLevels ||
    event.eventType = mRoomJoinRules ||
    (event.eventType = mRoomMember && (version = .v1 || event.isBanOrKick))

end LeanEvent

structure EventMap (Id C : Type) where
  values : List (LeanEvent Id C)
  distinct : (values.map LeanEvent.eventId).Nodup

namespace EventMap

variable {Id C : Type}

def keys (events : EventMap Id C) : List Id := events.values.map LeanEvent.eventId

def empty : EventMap Id C := ⟨[], by simp⟩

def filter (events : EventMap Id C) (keep : LeanEvent Id C → Bool) : EventMap Id C where
  values := events.values.filter keep
  distinct := (List.Sublist.map _ List.filter_sublist).nodup events.distinct

theorem mem_unique {events : EventMap Id C} (hl : left ∈ events.values) (hr : right ∈ events.values)
    (same : left.eventId = right.eventId) : left = right := inj_on_of_nodup_map events.distinct hl hr same

variable [DecidableEq Id]

def get (events : EventMap Id C) (id : Id) : Option (LeanEvent Id C) :=
  events.values.find? fun event => event.eventId = id

def containsKey (events : EventMap Id C) (id : Id) : Bool := (events.get id).isSome

section

variable {events : EventMap Id C}

theorem get_id {id : Id} (found : events.get id = some event) : event.eventId = id := by
  simpa using find?_some found

theorem get_mem {id : Id} (found : events.get id = some event) : event ∈ events.values :=
  mem_of_find?_eq_some found

theorem get_of_mem (mem : event ∈ events.values) : events.get event.eventId = some event := by
  cases found : events.get event.eventId with
  | none =>
    have missing := find?_eq_none.mp found event mem
    simp at missing
  | some other => rw [mem_unique (get_mem found) mem (get_id found)]

theorem get_eq_some {id : Id} : events.get id = some event ↔ event ∈ events.values ∧ event.eventId = id :=
  ⟨fun found => ⟨get_mem found, get_id found⟩, fun ⟨mem, same⟩ => same ▸ get_of_mem mem⟩

theorem get_eq_none {id : Id} : events.get id = none ↔ id ∉ events.keys := by
  simp [get, keys]

theorem mem_keys {id : Id} : id ∈ events.keys ↔ ∃ event, events.get id = some event := by
  rw [← Option.isSome_iff_exists, Option.isSome_iff_ne_none, ne_eq, get_eq_none, not_not]

theorem get_filter {id : Id} : (events.filter keep).get id = (events.get id).filter keep := by
  ext event
  rw [Option.filter_eq_some_iff, get_eq_some, get_eq_some]
  simp only [filter, mem_filter]
  tauto

end

theorem perm_of_get {left right : EventMap Id C} (same : ∀ id, left.get id = right.get id) :
    left.values.Perm right.values := by
  apply (perm_ext_iff_of_nodup left.distinct.of_map right.distinct.of_map).mpr
  intro event
  have lookup := same event.eventId
  constructor
  · intro mem
    rw [get_of_mem mem] at lookup
    exact get_mem lookup.symm
  · intro mem
    rw [get_of_mem mem] at lookup
    exact get_mem lookup

theorem get_of_perm {left right : EventMap Id C} (same : left.values.Perm right.values) (id : Id) :
    left.get id = right.get id := by
  ext event
  rw [get_eq_some, get_eq_some, same.mem_iff]

def insert (events : EventMap Id C) (event : LeanEvent Id C) : EventMap Id C where
  values := events.values.filter (fun other => other.eventId ≠ event.eventId) ++ [event]
  distinct := by
    rw [List.map_append, List.map_singleton]
    refine List.Nodup.append ((List.Sublist.map _ List.filter_sublist).nodup events.distinct) (by simp) ?_
    simp only [List.disjoint_singleton, List.mem_map, not_exists, not_and, List.mem_filter]
    intro other kept same
    simp [same] at kept

theorem get_insert (events : EventMap Id C) (event : LeanEvent Id C) (id : Id) :
    (events.insert event).get id = if event.eventId = id then some event else events.get id := by
  ext other
  simp only [get_eq_some, insert, mem_append, mem_filter, mem_singleton]
  split
  · rename_i same
    simp only [Option.some.injEq]
    constructor
    · rintro ⟨⟨_, differ⟩ | rfl, named⟩
      · simp [named, same] at differ
      · rfl
    · rintro rfl
      exact ⟨.inr rfl, same⟩
  · rename_i differ
    rw [get_eq_some]
    constructor
    · rintro ⟨⟨mem, _⟩ | rfl, named⟩
      · exact ⟨mem, named⟩
      · exact absurd named differ
    · rintro ⟨mem, named⟩
      refine ⟨.inl ⟨mem, ?_⟩, named⟩
      simp only [ne_eq, decide_eq_true_eq]
      rw [named]
      exact fun same => differ same.symm

end EventMap

def maxPowerLevelJson : Int := 2 ^ 53 - 1

structure Content where
  membership : Option String := none
  joinRule : Option String := none
  users : List (String × Int) := []
  events : List (String × Int) := []
  notifications : List (String × Int) := []
  usersDefault : Option Int := none
  eventsDefault : Option Int := none
  stateDefault : Option Int := none
  ban : Option Int := none
  kick : Option Int := none
  invite : Option Int := none
  redact : Option Int := none
  creator : Option String := none
  roomVersion : Option String := none
  additionalCreators : List String := []
  joinAuthorisedViaUsersServer : Option String := none

namespace Content

def clamp (level : Int) : Int := min level maxPowerLevelJson

def visitPowerLevelObject (levels : List (String × Int)) : List (String × Int) :=
  levels.map fun entry => (entry.1, clamp entry.2)

instance : EventContent Content where
  getMembership c := c.membership
  getJoinRule c := c.joinRule
  getUserPowerLevel c user := (c.users.lookup user).map clamp
  getEventPowerLevel c eventType := (c.events.lookup eventType).map clamp
  getUsersDefault c := c.usersDefault.map clamp
  getEventsDefault c := c.eventsDefault.map clamp
  getStateDefault c := c.stateDefault.map clamp
  getBan c := c.ban.map clamp
  getKick c := c.kick.map clamp
  getInvite c := c.invite.map clamp
  getRedact c := c.redact
  getCreator c := c.creator
  getRoomVersion c := c.roomVersion
  hasAdditionalCreator c sender := sender ∈ c.additionalCreators
  getJoinAuthorisedViaUsersServer c := c.joinAuthorisedViaUsersServer
  visitEventPowerLevels c := visitPowerLevelObject c.events
  visitUserPowerLevels c := visitPowerLevelObject c.users
  visitNotificationPowerLevels c := visitPowerLevelObject c.notifications
  visitUserKeys c := c.users.map Prod.fst
  hasUserInUsers c user := (c.users.lookup user).isSome

end Content

def stateEvent {Id : Type} (eventId : Id) (eventType stateKey sender : String) (content : Content)
    (authEvents : List Id) (originServerTs : Nat) : LeanEvent Id Content where
  eventId := eventId
  eventType := eventType
  stateKey := some stateKey
  powerLevel := 0
  originServerTs := originServerTs
  sender := sender
  content := content
  prevEvents := []
  authEvents := authEvents
  depth := 0
  rejected := false

def memberEvent {Id : Type} (eventId : Id) (sender target membership : String) (authEvents : List Id)
    (originServerTs : Nat) : LeanEvent Id Content :=
  stateEvent eventId mRoomMember target sender { membership := some membership } authEvents originServerTs

def stateOf {Id C : Type} (events : List (LeanEvent Id C)) : SharedState Id :=
  .ofList (events.filterMap fun event => event.key?.map fun key => (key, event.eventId)) keyCmp

namespace Sample

def create (roomVersion : String) : LeanEvent Nat Content :=
  stateEvent 1 mRoomCreate "" "@a:x" { roomVersion := some roomVersion, creator := some "@a:x" } [] 1

def joinA (authEvents : List Nat) : LeanEvent Nat Content := memberEvent 2 "@a:x" "@a:x" memJoin authEvents 2

def powerLevels (eventId : Nat) (content : Content) (authEvents : List Nat) : LeanEvent Nat Content :=
  stateEvent eventId mRoomPowerLevels "" "@a:x" content authEvents eventId

def openLevels : LeanEvent Nat Content := powerLevels 3 { stateDefault := some 0 } [2]

def topic (eventId : Nat) (sender : String) (authEvents : List Nat) : LeanEvent Nat Content :=
  stateEvent eventId "m.room.topic" "" sender {} authEvents eventId

end Sample

end Rezzy.Basespec
