import Rezzy.Basespec.Event
import Rezzy.Basespec.Redaction

namespace Rezzy.Json.Value

def asNumber : Value → Option Number
  | .number n => some n
  | _ => none

def asObject : Value → Option Object.Members
  | .object members => some members
  | _ => none

def asArray : Value → Option (List Value)
  | .array items => some items
  | _ => none

def asBool : Value → Option Bool
  | .bool value => some value
  | _ => none

def asI64 (value : Value) : Option Int := value.asNumber.bind Number.asI64

def asU64 (value : Value) : Option Nat := value.asNumber.bind Number.asU64

def isI64 (value : Value) : Bool := value.asI64.isSome

def isU64 (value : Value) : Bool := value.asU64.isSome

end Rezzy.Json.Value

namespace Rezzy.Basespec

open Json

def fieldMembership : String := "membership"
def fieldUsers : String := "users"
def fieldUsersDefault : String := "users_default"
def fieldEvents : String := "events"
def fieldEventsDefault : String := "events_default"
def fieldStateDefault : String := "state_default"
def fieldBan : String := "ban"
def fieldKick : String := "kick"
def fieldInvite : String := "invite"
def fieldRedact : String := "redact"
def fieldJoinRule : String := "join_rule"
def fieldCreator : String := "creator"
def fieldRoomVersion : String := "room_version"
def fieldRedacts : String := "redacts"
def fieldAdditionalCreators : String := "additional_creators"
def fieldThirdPartyInvite : String := "third_party_invite"
def fieldSigned : String := "signed"
def fieldToken : String := "token"
def fieldJoinAuthorisedViaUsersServer : String := "join_authorised_via_users_server"
def fieldMxid : String := "mxid"
def fieldNotifications : String := "notifications"

/-- `floatToI64` reads a number as a float and cuts it toward zero; it gives nothing where the result is no `i64`. -/
structure JsonContent (floatToI64 : Number → Option Int) where
  value : Value
  formed : ∃ depth, value.Formed depth

namespace JsonContent

section

variable (floatToI64 : Number → Option Int)

def coerceJsonToI64 (pl : Value) : Option Int :=
  let val := pl.asI64.or <| (pl.asU64.map fun u => min (u : Int) (2 ^ 63 - 1)).or <|
    (pl.asNumber.bind floatToI64).or (pl.asStr.bind fun s => parseI64 (asBytes s))
  val.map fun v => max (-maxPowerLevelJson) (min v maxPowerLevelJson)

def levelOf (pl : Value) : Option Int := (coerceJsonToI64 floatToI64 pl).map fun i => min i maxPowerLevelJson

def visitPowerLevelObject (obj : Option Object.Members) : List (String × Int) :=
  (obj.getD []).filterMap fun member => (levelOf floatToI64 member.2).map (Prod.mk member.1)

end

variable {floatToI64 : Number → Option Int} (content : JsonContent floatToI64)

def get (field : String) : Option Value := content.value.get field

def str (field : String) : Option String := (content.get field).bind Value.asStr

def objectAt (field : String) : Option Object.Members := (content.get field).bind Value.asObject

def level (field : String) : Option Int := (content.get field).bind (levelOf floatToI64)

def levelIn (field key : String) : Option Int :=
  (content.objectAt field).bind fun members => (Sorted.lookup members key).bind (levelOf floatToI64)

def signed (field : String) : Option Value :=
  (content.get fieldThirdPartyInvite).bind fun invite => (invite.get fieldSigned).bind (Value.get · field)

def scalarPls : List (String × String) :=
  [(fieldUsersDefault, "users_default"), (fieldEventsDefault, "events_default"), (fieldStateDefault, "state_default"),
    (fieldBan, "ban"), (fieldRedact, "redact"), (fieldKick, "kick"), (fieldInvite, "invite")]

def mapPls : List (String × String) := [(fieldEvents, "events"), (fieldNotifications, "notifications")]

def isInteger (value : Value) : Bool := value.isI64 || value.isU64

def findNonIntegerScalarPl : Option String :=
  (scalarPls.find? fun scalar => (content.get scalar.1).any fun val => !isInteger val).map Prod.snd

def findNonIntegerMapPl : Option String :=
  (mapPls.find? fun map => (content.get map.1).any fun val =>
    match val.asObject with
    | some obj => obj.any fun member => !isInteger member.2
    | none => true).map Prod.snd

def hasNonIntegerUsersPl (strict : Bool) : Bool :=
  (content.get fieldUsers).any fun val =>
    match val.asObject with
    | some obj => obj.any fun member =>
      if strict then !isInteger member.2 else (coerceJsonToI64 floatToI64 member.2).isNone
    | none => true

instance : EventContent (JsonContent floatToI64) where
  getMembership c := c.str fieldMembership
  getJoinRule c := c.str fieldJoinRule
  getUserPowerLevel c user := c.levelIn fieldUsers user
  getEventPowerLevel c eventType := c.levelIn fieldEvents eventType
  getUsersDefault c := c.level fieldUsersDefault
  getEventsDefault c := c.level fieldEventsDefault
  getStateDefault c := c.level fieldStateDefault
  getBan c := c.level fieldBan
  getKick c := c.level fieldKick
  getInvite c := c.level fieldInvite
  getRedact c := (c.get fieldRedact).bind (coerceJsonToI64 floatToI64)
  getCreator c := c.str fieldCreator
  getRoomVersion c := c.str fieldRoomVersion
  hasMalformedRoomVersion c := (c.get fieldRoomVersion).any fun v => v.asStr.isNone
  getMFederate c := (c.get "m.federate").bind Value.asBool
  getRedacts c := c.str fieldRedacts
  hasAdditionalCreator c sender :=
    ((c.get fieldAdditionalCreators).bind Value.asArray).any fun arr => arr.any fun v => v.asStr = some sender
  getJoinAuthorisedViaUsersServer c := c.str fieldJoinAuthorisedViaUsersServer
  hasThirdPartyInvite c := (c.get fieldThirdPartyInvite).isSome
  getThirdPartyInviteToken c := (c.signed fieldToken).bind Value.asStr
  getThirdPartyInviteMxid c := (c.signed fieldMxid).bind Value.asStr
  hasThirdPartyInviteSignatures c := ((c.signed fieldSignatures).bind Value.asObject).any fun m => !m.isEmpty
  visitEventPowerLevels c := visitPowerLevelObject floatToI64 (c.objectAt fieldEvents)
  visitUserPowerLevels c := visitPowerLevelObject floatToI64 (c.objectAt fieldUsers)
  visitNotificationPowerLevels c := visitPowerLevelObject floatToI64 (c.objectAt fieldNotifications)
  findNonIntegerScalarPl c := c.findNonIntegerScalarPl
  findNonIntegerMapPl c := c.findNonIntegerMapPl
  hasNonIntegerUsersPl c strict := c.hasNonIntegerUsersPl strict
  visitUserKeys c := ((c.objectAt fieldUsers).getD []).map Prod.fst
  hasUserInUsers c user := (c.objectAt fieldUsers).any fun obj => (Sorted.lookup obj user).isSome

section

variable {content}

theorem objectAt_sorted (found : content.objectAt field = some members) : Sorted.SortedKeys members := by
  obtain ⟨value, depth, formed⟩ := content
  obtain ⟨inner, held, same⟩ := Option.bind_eq_some_iff.mp found
  have formedInner : ∃ depth, inner.Formed depth := by
    cases formed with
    | object _ inside => exact ⟨_, inside _ (Sorted.mem_of_lookup held)⟩
    | _ => cases held
  obtain ⟨deeper, formed⟩ := formedInner
  cases formed with
  | object sorted _ => exact Option.some.inj same ▸ sorted
  | _ => cases same

theorem levels_sorted : Sorted.SortedKeys (visitPowerLevelObject floatToI64 (content.objectAt field)) := by
  cases found : content.objectAt field with
  | none => exact List.Pairwise.nil
  | some members => exact (objectAt_sorted found).filterMap fun _ => levelOf floatToI64

theorem lookup_levels :
    Sorted.lookup (visitPowerLevelObject floatToI64 (content.objectAt field)) user = content.levelIn field user := by
  unfold levelIn
  cases found : content.objectAt field with
  | none => rfl
  | some members => exact Sorted.lookup_filterMap (objectAt_sorted found) (fun _ => levelOf floatToI64) user

theorem hasUser_iff : EventContent.hasUserInUsers content user = true ↔ user ∈ EventContent.visitUserKeys content := by
  show (content.objectAt fieldUsers).any _ = true ↔ user ∈ ((content.objectAt fieldUsers).getD []).map Prod.fst
  cases content.objectAt fieldUsers with
  | none => simp
  | some members =>
    show (Sorted.lookup members user).isSome = true ↔ user ∈ members.map Prod.fst
    rw [Option.isSome_iff_ne_none, Ne, Sorted.lookup_eq_none, List.mem_map]
    push Not
    rfl

end

namespace Sample

def text (field value : String) : JsonContent floatToI64 :=
  ⟨.object [(field, .string value)], 1, .object (List.pairwise_singleton _ _) fun _ member => by
    rw [List.mem_singleton.mp member]
    exact .string value⟩

def levels (users : List (String × Int)) (sorted : Sorted.SortedKeys users) : JsonContent floatToI64 :=
  ⟨.object [(fieldUsers, .object (users.map fun user => (user.1, .number (Number.ofInt user.2))))], 2, by
    apply Value.Formed.object (List.pairwise_singleton _ _)
    intro _ member
    rw [List.mem_singleton.mp member]
    have inner : Sorted.SortedKeys (users.map fun user => (user.1, Value.number (Number.ofInt user.2))) :=
      List.pairwise_map.mpr sorted
    apply Value.Formed.object inner
    intro _ member
    obtain ⟨user, -, rfl⟩ := List.mem_map.mp member
    exact .number _⟩

section

variable {users : List (String × Int)} {sorted : Sorted.SortedKeys users} {field : String}

theorem levels_get (other : field ≠ fieldUsers) : (levels users sorted : JsonContent floatToI64).get field = none := by
  apply Sorted.lookup_eq_none.mpr
  intro _ inside
  rw [List.mem_singleton.mp inside]
  exact other.symm

theorem levels_objectAt : (levels users sorted : JsonContent floatToI64).objectAt fieldUsers =
    some (users.map fun user => (user.1, .number (Number.ofInt user.2))) := by
  have held : (levels users sorted : JsonContent floatToI64).get fieldUsers =
      some (.object (users.map fun user => (user.1, .number (Number.ofInt user.2)))) := by
    show Sorted.lookup [(fieldUsers, _)] fieldUsers = _
    exact Sorted.lookup_singleton
  unfold objectAt
  rw [held]
  rfl

end

def stateEvent (eventId : Nat) (eventType stateKey sender : String) (content : JsonContent floatToI64) :
    LeanEvent Nat (JsonContent floatToI64) where
  eventId := eventId
  eventType := eventType
  stateKey := some stateKey
  powerLevel := 0
  originServerTs := eventId
  sender := sender
  content := content
  prevEvents := []
  authEvents := []
  depth := 0
  rejected := false

def create (roomVersion : String) : LeanEvent Nat (JsonContent floatToI64) :=
  stateEvent 1 mRoomCreate "" "@a:x" (text fieldRoomVersion roomVersion)

def joinA : LeanEvent Nat (JsonContent floatToI64) := stateEvent 2 mRoomMember "@a:x" "@a:x" (text fieldMembership memJoin)

end Sample

end JsonContent

end Rezzy.Basespec
