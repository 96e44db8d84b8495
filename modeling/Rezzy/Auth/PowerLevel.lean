import Mathlib.Data.List.Basic
import Rezzy.Basespec.Event

namespace Rezzy.Auth

open Basespec
open EventContent (getBan getCreator getEventsDefault getInvite getKick getRedact getStateDefault getUsersDefault visitEventPowerLevels visitUserPowerLevels)

inductive AuthError (Id : Type) where
  | notMember (sender : String) (eventId : Id)
  | insufficientPowerLevel (required actual : Int) (eventType : String)
  | bannedUser (sender : String) (eventId : Id)
  | invalidStateKey (expected actual : String)
  | createWithPrevEvents
  | missingAuthEvent (id : Id)
  | missingCreate
  | invalidSyntax (reason : String)
  | incompleteAuthEvents (eventType stateKey : String)
  | foreignRoomEvent (eventId authEventId : Id) (expected : String) (actual : Option String)
  | rejectedAuthEvent (eventId authEventId : Id)
deriving DecidableEq

abbrev StateProvider (Id C : Type) := String → String → Option (LeanEvent Id C)

abbrev Check (Id : Type) := Except (AuthError Id)

def rejectIf {Id : Type} (condition : Prop) [Decidable condition] (error : AuthError Id) : Check Id Unit :=
  if condition then .error error else .ok ()

variable {Id C : Type} [EventContent C]

def plFieldOrDefault (state : StateProvider Id C) (select : C → Option Int) (default : Int) : Int :=
  ((state mRoomPowerLevels mEmptyStateKey).bind fun event => select event.content).getD default

def getRedactPowerLevel (state : StateProvider Id C) : Int :=
  plFieldOrDefault state getRedact defaultPlRedact

def getKickPowerLevel (state : StateProvider Id C) : Int :=
  plFieldOrDefault state getKick defaultPlKick

def getInvitePowerLevel (state : StateProvider Id C) : Int :=
  plFieldOrDefault state getInvite defaultPlInvite

def getBanPowerLevel (state : StateProvider Id C) : Int :=
  plFieldOrDefault state getBan defaultPlBan

def isV12Plus : StateResVersion → Bool
  | .v2_1 | .v2_1_1 | .v2_2 | .v3 => true
  | .v1 | .v2 => false

def isCreator (createEvent : LeanEvent Id C) (user : String) : Bool :=
  createEvent.sender = user || EventContent.hasAdditionalCreator createEvent.content user

def getSenderPowerLevel (sender : String) (state : StateProvider Id C) (version : StateResVersion) : Int :=
  if isV12Plus version && (state mRoomCreate "").any (isCreator · sender) then maxPowerLevelRust
  else
    match state mRoomPowerLevels "" with
    | some plEvent =>
      ((EventContent.getUserPowerLevel plEvent.content sender).or
        (getUsersDefault plEvent.content)).getD defaultPlUser
    | none =>
      match state mRoomCreate "" with
      | some createEvent =>
        if (getCreator createEvent.content).getD createEvent.sender = sender then 100
        else defaultPlUser
      | none => defaultPlUser

def plThresholdForEvent (plEvent : LeanEvent Id C) (eventType : String) (stateKey : Option String) : Int :=
  if eventType = mRoomThirdPartyInvite then (getInvite plEvent.content).getD 0
  else
    match EventContent.getEventPowerLevel plEvent.content eventType with
    | some level => level
    | none =>
      if stateKey.isSome then (getStateDefault plEvent.content).getD 50
      else (getEventsDefault plEvent.content).getD 0

def getRequiredPowerLevel (eventType : String) (stateKey : Option String) (state : StateProvider Id C) :
    Int :=
  match state mRoomPowerLevels "" with
  | some plEvent => plThresholdForEvent plEvent eventType stateKey
  | none => if eventType = mRoomThirdPartyInvite then 0 else if stateKey.isSome then 50 else 0

def checkScalarPl (field : String) (old new : Option Int) (senderPl : Int) : Check Id Unit :=
  if old = new then .ok ()
  else do
    old.forM fun oldVal => rejectIf (oldVal > senderPl) (.invalidSyntax
      ("cannot change " ++ field ++ ": current value " ++ toString oldVal ++ " > sender PL " ++
        toString senderPl))
    new.forM fun newVal => rejectIf (newVal > senderPl) (.invalidSyntax
      ("cannot set " ++ field ++ " to " ++ toString newVal ++ ": exceeds sender PL " ++
        toString senderPl))

def levelMap (entries : List (String × Int)) : Std.ExtTreeMap String Int compare :=
  entries.foldl (fun levels entry => levels.insert entry.1 entry.2) ∅

def changedEntries (old new : Std.ExtTreeMap String Int compare) : List (String × Int) :=
  old.toList.filter fun entry => new[entry.1]? ≠ some entry.2

def checkLevelMap (field : String) (old new : List (String × Int)) (senderPl : Int) : Check Id Unit := do
  (changedEntries (levelMap old) (levelMap new)).forM fun (key, oldVal) =>
    rejectIf (oldVal > senderPl) (.invalidSyntax
      ("cannot change " ++ field ++ "[" ++ key ++ "]: current value " ++ toString oldVal ++
        " > sender PL " ++ toString senderPl))
  (changedEntries (levelMap new) (levelMap old)).forM fun (key, newVal) =>
    rejectIf (newVal > senderPl) (.invalidSyntax
      ("cannot set " ++ field ++ "[" ++ key ++ "] to " ++ toString newVal ++ ": exceeds sender PL " ++
        toString senderPl))

def checkUserMap (sender : String) (old new : List (String × Int)) (senderPl : Int) : Check Id Unit := do
  (changedEntries (levelMap old) (levelMap new)).forM fun (key, oldVal) =>
    rejectIf (key ≠ sender ∧ oldVal ≥ senderPl) (.invalidSyntax
      ("cannot change users[" ++ key ++ "]: current PL " ++ toString oldVal ++ " >= sender PL " ++
        toString senderPl))
  (changedEntries (levelMap new) (levelMap old)).forM fun (key, newVal) =>
    rejectIf (newVal > senderPl) (.invalidSyntax
      ("cannot set users[" ++ key ++ "] to " ++ toString newVal ++ ": exceeds sender PL " ++
        toString senderPl))

def checkPowerLevelsRules (sender : String) (newContent prevPl : C) (senderPl : Int) : Check Id Unit := do
  checkScalarPl "users_default" (getUsersDefault prevPl)
    (getUsersDefault newContent) senderPl
  checkScalarPl "events_default" (getEventsDefault prevPl)
    (getEventsDefault newContent) senderPl
  checkScalarPl "state_default" (getStateDefault prevPl)
    (getStateDefault newContent) senderPl
  checkScalarPl "ban" (getBan prevPl) (getBan newContent) senderPl
  checkScalarPl "redact" (getRedact prevPl) (getRedact newContent) senderPl
  checkScalarPl "kick" (getKick prevPl) (getKick newContent) senderPl
  checkScalarPl "invite" (getInvite prevPl) (getInvite newContent) senderPl
  checkLevelMap "events" (visitEventPowerLevels prevPl)
    (visitEventPowerLevels newContent) senderPl
  checkLevelMap "notifications" (EventContent.visitNotificationPowerLevels prevPl)
    (EventContent.visitNotificationPowerLevels newContent) senderPl
  checkUserMap sender (visitUserPowerLevels prevPl)
    (visitUserPowerLevels newContent) senderPl

end Rezzy.Auth
