import Rezzy.Auth.PowerLevel

namespace Rezzy.Auth

section

open Basespec

structure EventVerifier (Id : Type) where
  verifyEventIdHash : Id → Except String Unit
  verifySignatures : Id → Except String Unit
  verifyContentHash : Id → Except String Unit
  verifyThirdPartyInvite : Id → String → Except String Unit
  verifyJoinAuthorisedViaUsersServer : Id → String → Except String Unit

def verified {Id : Type} (outcome : Except String Unit) : Check Id Unit :=
  outcome.mapError .invalidSyntax

variable {Id C : Type} [EventContent C]

def membershipOf (state : StateProvider Id C) (user : String) : Option String :=
  (state mRoomMember user).bind LeanEvent.getMembership

def getRoomVersionNum (state : StateProvider Id C) : Check Id Nat :=
  match state mRoomCreate "" with
  | none => .error .missingCreate
  | some create =>
    match EventContent.getRoomVersion create.content with
    | none => .ok 1
    | some label =>
      match StateResVersion.fromRoomVersion label with
      | none =>
        .error (.invalidSyntax "m.room.create content.room_version is not a recognised room version")
      | some version =>
        match parseU32 label with
        | some num => .ok num
        | none => .ok (if version.isV2_1Plus then 12 else 1)

def roomVersionAtLeast (state : StateProvider Id C) (minimumVersion : Nat) : Check Id Bool := do
  return decide ((← getRoomVersionNum state) ≥ minimumVersion)

def checkLeaveRules (event : LeanEvent Id C) (state : StateProvider Id C)
    (targetUser currentMembership : String) (version : StateResVersion) : Check Id Unit :=
  if targetUser = event.sender then
    rejectIf (¬(currentMembership = memInvite ∨ currentMembership = memJoin ∨
      currentMembership = memKnock)) (.notMember event.sender event.eventId)
  else
    let senderPl := getSenderPowerLevel event.sender state version
    let (required, label) :=
      if currentMembership = memBan then (getBanPowerLevel state, "unban")
      else (getKickPowerLevel state, "kick")
    rejectIf (senderPl < required) (.insufficientPowerLevel required senderPl label)

def checkBanRules (event : LeanEvent Id C) (state : StateProvider Id C) (version : StateResVersion) :
    Check Id Unit :=
  let senderPl := getSenderPowerLevel event.sender state version
  let banPl := getBanPowerLevel state
  rejectIf (senderPl < banPl) (.insufficientPowerLevel banPl senderPl "ban")

def required {α : Type} (value : Option α) (error : AuthError Id) : Check Id α :=
  match value with
  | some found => .ok found
  | none => .error error

def checkThirdPartyInvite (event : LeanEvent Id C) (state : StateProvider Id C)
    (targetUser currentMembership : String) (version : StateResVersion)
    (verifier : Option (EventVerifier Id)) : Check Id Unit := do
  rejectIf (currentMembership = memBan) (.bannedUser targetUser event.eventId)
  let token ← required (EventContent.getThirdPartyInviteToken event.content)
    (.invalidSyntax "invalid third_party_invite: missing signed.token")
  let mxid ← required (EventContent.getThirdPartyInviteMxid event.content)
    (.invalidSyntax "invalid third_party_invite: missing signed.mxid")
  rejectIf (!EventContent.hasThirdPartyInviteSignatures event.content)
    (.invalidSyntax "invalid third_party_invite: missing or empty signed.signatures")
  verifier.forM fun v => verified (v.verifyThirdPartyInvite event.eventId token)
  rejectIf (mxid ≠ targetUser) (.invalidStateKey ("mxid == " ++ targetUser) mxid)
  let tpiEvent ← required (state mRoomThirdPartyInvite token)
    (.invalidStateKey "m.room.third_party_invite event exists" "missing")
  rejectIf (tpiEvent.sender ≠ event.sender)
    (.invalidStateKey ("sender == " ++ tpiEvent.sender) event.sender)
  let issuerPl := getSenderPowerLevel tpiEvent.sender state version
  let invitePl := getInvitePowerLevel state
  rejectIf (issuerPl < invitePl) (.insufficientPowerLevel invitePl issuerPl "invite")

def checkInviteRules (event : LeanEvent Id C) (state : StateProvider Id C)
    (targetUser currentMembership : String) (version : StateResVersion)
    (verifier : Option (EventVerifier Id)) : Check Id Unit := do
  rejectIf (targetUser = event.sender) (.invalidStateKey ("!= " ++ event.sender) targetUser)
  if EventContent.hasThirdPartyInvite event.content then
    checkThirdPartyInvite event state targetUser currentMembership version verifier
  else
    let invitePl := getInvitePowerLevel state
    let senderPl := getSenderPowerLevel event.sender state version
    rejectIf (senderPl < invitePl) (.insufficientPowerLevel invitePl senderPl "invite")
    rejectIf (currentMembership = memJoin) (.notMember targetUser event.eventId)
    rejectIf (currentMembership = memBan) (.bannedUser targetUser event.eventId)

def checkAuthorisingUser (event : LeanEvent Id C) (state : StateProvider Id C) (authorisingUser : String)
    (version : StateResVersion) (verifier : Option (EventVerifier Id)) : Check Id Unit := do
  rejectIf ((membershipOf state authorisingUser).getD "" ≠ memJoin)
    (.notMember event.sender event.eventId)
  rejectIf (getSenderPowerLevel authorisingUser state version < getInvitePowerLevel state)
    (.notMember event.sender event.eventId)
  verifier.forM fun v => verified (v.verifyJoinAuthorisedViaUsersServer event.eventId authorisingUser)

def joinRuleOf (state : StateProvider Id C) : String :=
  ((state mRoomJoinRules "").bind fun event => EventContent.getJoinRule event.content).getD ruleInvite

def checkJoinRules (event : LeanEvent Id C) (state : StateProvider Id C) (targetUser : String)
    (version : StateResVersion) (verifier : Option (EventVerifier Id)) : Check Id Unit := do
  rejectIf (targetUser ≠ event.sender) (.invalidStateKey event.sender targetUser)
  let currentMembership := (membershipOf state targetUser).getD ""
  rejectIf (currentMembership = memBan) (.bannedUser event.sender event.eventId)
  let joinRule := joinRuleOf state
  let supportsRestricted ← roomVersionAtLeast state 8
  let supportsKnockRestricted ← roomVersionAtLeast state 10
  let isInvited := currentMembership = memInvite ∨ currentMembership = memJoin
  if (state mRoomCreate "").any (·.sender = event.sender) then .ok ()
  else if joinRule = ruleInvite ∨ joinRule = ruleKnock then
    rejectIf (¬isInvited) (.notMember event.sender event.eventId)
  else if (joinRule = ruleRestricted ∧ supportsRestricted) ∨
      (joinRule = ruleKnockRestricted ∧ supportsKnockRestricted) then
    if isInvited then .ok ()
    else
      match EventContent.getJoinAuthorisedViaUsersServer event.content with
      | some authorisingUser => checkAuthorisingUser event state authorisingUser version verifier
      | none => .error (.notMember event.sender event.eventId)
  else rejectIf (joinRule ≠ rulePublic) (.notMember event.sender event.eventId)

def checkKnockRules (event : LeanEvent Id C) (state : StateProvider Id C) (targetUser : String) :
    Check Id Unit := do
  rejectIf (targetUser ≠ event.sender) (.invalidStateKey event.sender targetUser)
  let currentMembership := (membershipOf state targetUser).getD ""
  rejectIf (currentMembership = memBan) (.bannedUser event.sender event.eventId)
  rejectIf (currentMembership = memInvite ∨ currentMembership = memJoin)
    (.notMember event.sender event.eventId)
  let joinRule := joinRuleOf state
  let supportsKnockRestricted ← roomVersionAtLeast state 10
  rejectIf (joinRule ≠ ruleKnock ∧ ¬(joinRule = ruleKnockRestricted ∧ supportsKnockRestricted))
    (.notMember event.sender event.eventId)

def saturatingSucc (level : Int) : Int := min (level + 1) maxPowerLevelRust

def checkMembershipPlHierarchies (event : LeanEvent Id C) (state : StateProvider Id C)
    (targetUser newMembership : String) (version : StateResVersion) : Check Id Unit :=
  let senderPl := getSenderPowerLevel event.sender state version
  let targetPl := getSenderPowerLevel targetUser state version
  rejectIf (targetUser ≠ event.sender ∧ (newMembership = memLeave ∨ newMembership = memBan) ∧
      senderPl ≤ targetPl)
    (.insufficientPowerLevel (saturatingSucc targetPl) senderPl "m.rezzy.member_pl_greater_than_target")

def checkTransition (event : LeanEvent Id C) (state : StateProvider Id C)
    (targetUser newMembership : String) (version : StateResVersion)
    (verifier : Option (EventVerifier Id)) : Check Id Unit :=
  let currentMembership := (membershipOf state targetUser).getD ""
  if newMembership = memJoin then checkJoinRules event state targetUser version verifier
  else if newMembership = memLeave then checkLeaveRules event state targetUser currentMembership version
  else if newMembership = memBan then checkBanRules event state version
  else if newMembership = memInvite then
    checkInviteRules event state targetUser currentMembership version verifier
  else if newMembership = memKnock then checkKnockRules event state targetUser
  else .error (.invalidSyntax ("unknown membership: " ++ newMembership))

def checkMemberEvent (event : LeanEvent Id C) (state : StateProvider Id C) (version : StateResVersion)
    (verifier : Option (EventVerifier Id)) : Check Id Unit := do
  let targetUser ← required event.stateKey (.invalidSyntax "m.room.member event missing state_key")
  let newMembership ← required event.getMembership
    (.invalidSyntax "m.room.member event missing membership field")
  rejectIf (newMembership = memBan ∧ targetUser = event.sender)
    (.invalidStateKey ("!= " ++ event.sender) targetUser)
  checkTransition event state targetUser newMembership version verifier
  checkMembershipPlHierarchies event state targetUser newMembership version

end

open Basespec

variable {Id C : Type} [EventContent C]

def checkSyntax (event : LeanEvent Id C) (version : StateResVersion) : Check Id Unit := do
  rejectIf (event.prevEvents.length > 20)
    (.invalidSyntax "prev_events exceeds maximum allowed length of 20")
  rejectIf (version ≠ .v2_2 ∧ event.authEvents.length > 10)
    (.invalidSyntax "auth_events exceeds maximum allowed length of 10")
  rejectIf (version = .v2_2 ∧ event.prevStateEvents.length > maxPrevStateEvents)
    (.invalidSyntax ("prev_state_events exceeds maximum allowed length of " ++
      toString maxPrevStateEvents))
  rejectIf event.eventType.isEmpty (.invalidSyntax "event_type cannot be empty")
  rejectIf event.rejected (.invalidSyntax "rejected events must not be auth-checked")

def rejectIfFlaggedAuthState (state : StateProvider Id C) (eventType stateKey : String) : Check Id Unit :=
  rejectIf ((state eventType stateKey).any (·.rejected)) (.invalidSyntax
    ("rejected auth state event " ++ eventType ++ "/" ++ stateKey ++ " must not be used"))

def when (condition : Prop) [Decidable condition] (check : Check Id Unit) : Check Id Unit :=
  if condition then check else .ok ()

def rejectFlaggedAuthState (event : LeanEvent Id C) (state : StateProvider Id C) : Check Id Unit := do
  rejectIfFlaggedAuthState state mRoomCreate ""
  rejectIfFlaggedAuthState state mRoomPowerLevels ""
  rejectIfFlaggedAuthState state mRoomMember event.sender
  when (event.eventType = mRoomMember) do
    event.stateKey.forM (rejectIfFlaggedAuthState state mRoomMember)
    let membership := event.getMembership
    when (membership = some memJoin ∨ membership = some memInvite ∨ membership = some memKnock)
      (rejectIfFlaggedAuthState state mRoomJoinRules "")
    when (membership = some memJoin)
      ((EventContent.getJoinAuthorisedViaUsersServer event.content).forM
        (rejectIfFlaggedAuthState state mRoomMember))
    when (membership = some memInvite)
      ((EventContent.getThirdPartyInviteToken event.content).forM
        (rejectIfFlaggedAuthState state mRoomThirdPartyInvite))

def runVerifier (event : LeanEvent Id C) (verifier : Option (EventVerifier Id)) : Check Id Unit :=
  verifier.forM fun v => do
    verified (v.verifyEventIdHash event.eventId)
    verified (v.verifySignatures event.eventId)
    verified (v.verifyContentHash event.eventId)

def unrecognisedRoomVersion : AuthError Id :=
  .invalidSyntax "m.room.create content.room_version is not a recognised room version"

def checkCreateEvent (event : LeanEvent Id C) : Check Id Unit := do
  rejectIf (¬event.prevEvents.isEmpty) .createWithPrevEvents
  rejectIf (!isValidMxid event.sender) (.invalidSyntax "m.room.create sender must be a valid MXID")
  rejectIf (EventContent.hasMalformedRoomVersion event.content ∨
      (EventContent.getRoomVersion event.content).any
        (fun label => (StateResVersion.fromRoomVersion label).isNone))
    unrecognisedRoomVersion

def validatedRoomVersionOrV1 (state : StateProvider Id C) : Check Id (Option String) :=
  match state mRoomCreate "" with
  | none => .ok none
  | some create =>
    match EventContent.getRoomVersion create.content with
    | none =>
      if EventContent.hasMalformedRoomVersion create.content then .error unrecognisedRoomVersion
      else .ok none
    | some label =>
      if (StateResVersion.fromRoomVersion label).isNone then .error unrecognisedRoomVersion
      else .ok (some label)

def roomVersionStrOrV1 (state : StateProvider Id C) : Check Id String := do
  return (← validatedRoomVersionOrV1 state).getD "1"

def checkFederation (event : LeanEvent Id C) (state : StateProvider Id C) : Check Id Unit :=
  (state mRoomCreate "").forM fun create =>
    rejectIf (EventContent.getMFederate create.content = some false ∧
        !domainMatches event.sender create.sender)
      (.invalidSyntax ("cross-domain event from sender " ++ event.sender ++
        " rejected: room has m.federate=false"))

def checkAliases (event : LeanEvent Id C) (state : StateProvider Id C) : Check Id Unit :=
  when (event.eventType = mRoomAliases) do
    let roomVersion ← roomVersionStrOrV1 state
    when (roomVersion ∈ ["1", "2", "3", "4", "5"]) do
      let stateKey ← required event.stateKey
        (.invalidSyntax "m.room.aliases event must have a state_key")
      rejectIf (!domainMatches stateKey event.sender)
        (.invalidSyntax "m.room.aliases state_key domain must match sender domain")

def checkRedaction [ToString Id] (event : LeanEvent Id C) (state : StateProvider Id C)
    (version : StateResVersion) : Check Id Unit :=
  when (event.eventType = mRoomRedaction) do
    let roomVersion ← roomVersionStrOrV1 state
    let sameDomain := (EventContent.getRedacts event.content).any fun target =>
      domainMatches target (toString event.eventId)
    when (roomVersion ∈ ["1", "2"])
      (rejectIf (getSenderPowerLevel event.sender state version < getRedactPowerLevel state ∧ !sameDomain)
        (.invalidSyntax
          "m.room.redaction requires sender PL >= redact level, or same domain as the redacted event"))

def validAuthTypes : List String :=
  [mRoomCreate, mRoomMember, mRoomPowerLevels, mRoomJoinRules, mRoomThirdPartyInvite]

def authTypesForEventCore (eventType sender : String)
    (stateKey membership thirdPartyInviteToken joinAuthorisedViaUsersServer : Option String)
    (version : StateResVersion) (roomVersion : String) : List (String × String) :=
  if eventType = mRoomCreate then []
  else
    (if version.isV2_1Plus then [] else [(mRoomCreate, "")]) ++
      [(mRoomMember, sender), (mRoomPowerLevels, "")] ++
      if eventType = mRoomMember then
        ((stateKey.filter (· ≠ sender)).toList.map fun target => (mRoomMember, target)) ++
        (if membership = some memJoin ∨ membership = some memInvite ∨ membership = some memKnock then
          [(mRoomJoinRules, "")] else []) ++
        (if membership = some memInvite then
          thirdPartyInviteToken.toList.map fun token => (mRoomThirdPartyInvite, token) else []) ++
        (if membership = some memJoin ∧
            ((parseU32 (String.ofList (roomVersion.toList.takeWhile (· ≠ '.')))).any (· ≥ 8) ∨
              (StateResVersion.fromRoomVersion roomVersion).any (·.isV2_1Plus)) then
          joinAuthorisedViaUsersServer.toList.map fun user => (mRoomMember, user) else [])
      else []

def requiredAuthTypesFor (event : LeanEvent Id C) (version : StateResVersion) (roomVersion : String) :
    List (String × String) :=
  authTypesForEventCore event.eventType event.sender event.stateKey event.getMembership
    (EventContent.getThirdPartyInviteToken event.content)
    (EventContent.getJoinAuthorisedViaUsersServer event.content) version roomVersion

abbrev EventProvider (Id C : Type) := Id → Option (LeanEvent Id C)

def checkCitation (event : LeanEvent Id C) (version : StateResVersion) (provider : EventProvider Id C)
    (seenTuples : List ((String × String) × Id)) (authId : Id) :
    Check Id (List ((String × String) × Id)) := do
  let authEv ← required (provider authId) (.missingAuthEvent authId)
  rejectIf authEv.rejected (.rejectedAuthEvent event.eventId authId)
  rejectIf (version.isV2_1Plus ∧ authEv.eventType = mRoomCreate)
    (.invalidSyntax "referencing m.room.create in auth_events is forbidden in room v12+")
  rejectIf (authEv.eventType ∉ validAuthTypes)
    (.invalidSyntax ("unexpected event type in auth_events: " ++ authEv.eventType))
  let key := (authEv.eventType, authEv.stateKey.getD "")
  rejectIf (seenTuples.lookup key).isSome
    (.invalidSyntax "auth_events contains duplicate (type, state_key) pair")
  .ok ((key, authId) :: seenTuples)

def checkCitations [DecidableEq Id] (event : LeanEvent Id C) (state : StateProvider Id C)
    (version : StateResVersion) (provider : EventProvider Id C) : Check Id Unit := do
  when (!version.isV2_1Plus) do
    let createEv ← required (state mRoomCreate "") (.invalidSyntax
      "missing m.room.create in room state (cannot validate auth_events for v1-v11)")
    rejectIf (createEv.eventId ∉ event.authEvents)
      (.invalidSyntax "auth_events must contain m.room.create in room versions 1-11")
  let seenTuples ← event.authEvents.foldlM (checkCitation event version provider) []
  let roomVersion ← roomVersionStrOrV1 state
  (requiredAuthTypesFor event version roomVersion).forM fun (reqType, reqKey) =>
    (state reqType reqKey).forM fun stateEv =>
      rejectIf (seenTuples.lookup (reqType, reqKey) ≠ some stateEv.eventId)
        (.incompleteAuthEvents reqType reqKey)

def checkSenderMembership (event : LeanEvent Id C) (state : StateProvider Id C) : Check Id Unit := do
  let membership := (membershipOf state event.sender).getD memLeave
  rejectIf (membership = memBan) (.bannedUser event.sender event.eventId)
  rejectIf (membership ≠ memJoin ∧ ¬(event.eventType = mRoomMember ∧
      event.stateKey = some event.sender ∧ event.getMembership ≠ some memBan))
    (.notMember event.sender event.eventId)

def checkRequiredLevel (event : LeanEvent Id C) (state : StateProvider Id C)
    (version : StateResVersion) : Check Id Unit :=
  let isFirstPl := (state mRoomPowerLevels "").isNone ∧ event.eventType = mRoomPowerLevels
  let senderPl := getSenderPowerLevel event.sender state version
  let requiredPl := getRequiredPowerLevel event.eventType event.stateKey state
  rejectIf (event.eventType ≠ mRoomMember ∧ ¬isFirstPl ∧ senderPl < requiredPl)
    (.insufficientPowerLevel requiredPl senderPl event.eventType)

def checkOwnStateKey (event : LeanEvent Id C) : Check Id Unit :=
  event.stateKey.forM fun stateKey =>
    rejectIf (event.eventType ≠ mRoomMember ∧ stateKey.toList.head? = some '@' ∧
      stateKey ≠ event.sender) (.invalidStateKey event.sender stateKey)

def checkNoCreators (newContent createContent : C) : Check Id Unit := do
  (EventContent.getCreator createContent).forM fun creator =>
    rejectIf (EventContent.hasUserInUsers newContent creator)
      (.invalidSyntax ("m.room.power_levels users contains creator " ++ creator))
  ((EventContent.visitUserKeys newContent).filter
      (EventContent.hasAdditionalCreator createContent)).getLast?.forM fun user =>
    .error (.invalidSyntax ("m.room.power_levels users contains additional_creator " ++ user))

def checkPowerLevelsEvent (event : LeanEvent Id C) (state : StateProvider Id C)
    (version : StateResVersion) : Check Id Unit := do
  let newContent := event.content
  let roomVersion ← getRoomVersionNum state
  let isRoomV10Plus := decide (roomVersion ≥ 10)
  when isRoomV10Plus do
    (EventContent.findNonIntegerScalarPl newContent).forM fun field =>
      .error (.invalidSyntax ("m.room.power_levels " ++ field ++ " is not an integer"))
    (EventContent.findNonIntegerMapPl newContent).forM fun field =>
      .error (.invalidSyntax ("m.room.power_levels " ++ field ++
        " is not an object with integer values"))
  when (isV12Plus version)
    ((state mRoomCreate "").forM fun createEvent => checkNoCreators newContent createEvent.content)
  rejectIf (EventContent.hasNonIntegerUsersPl newContent isRoomV10Plus)
    (.invalidSyntax "m.room.power_levels users contains non-integer value or is not an object")
  ((EventContent.visitUserKeys newContent).filter
      (fun user => user.toList.head? ≠ some '@' || !user.toList.contains ':')).getLast?.forM fun user =>
    .error (.invalidSyntax ("users key is not a valid user ID: " ++ user))
  (state mRoomPowerLevels "").forM fun prevPlEvent =>
    checkPowerLevelsRules event.sender newContent prevPlEvent.content
      (getSenderPowerLevel event.sender state version)

def checkOrdinary [DecidableEq Id] [ToString Id] (event : LeanEvent Id C) (state : StateProvider Id C)
    (version : StateResVersion) (verifier : Option (EventVerifier Id))
    (authContext : Option (EventProvider Id C)) : Check Id Unit := do
  let _ ← validatedRoomVersionOrV1 state
  checkFederation event state
  checkAliases event state
  checkRedaction event state version
  -- Under V2.2 the citation list is the state DAG, to which the selection rules do not apply.
  when (version ≠ .v2_2) (authContext.forM (checkCitations event state version))
  checkSenderMembership event state
  checkRequiredLevel event state version
  checkOwnStateKey event
  when (event.eventType = mRoomPowerLevels) (checkPowerLevelsEvent event state version)
  when (event.eventType = mRoomMember) (checkMemberEvent event state version verifier)

def checkAuthWithContext [DecidableEq Id] [ToString Id] (event : LeanEvent Id C)
    (state : StateProvider Id C) (version : StateResVersion) (verifier : Option (EventVerifier Id))
    (authContext : Option (EventProvider Id C)) : Check Id Unit := do
  checkSyntax event version
  rejectFlaggedAuthState event state
  runVerifier event verifier
  if event.eventType = mRoomCreate then checkCreateEvent event
  else checkOrdinary event state version verifier authContext

def checkAuth [DecidableEq Id] [ToString Id] (event : LeanEvent Id C) (state : StateProvider Id C)
    (version : StateResVersion) (verifier : Option (EventVerifier Id)) : Check Id Unit :=
  checkAuthWithContext event state version verifier none

end Rezzy.Auth
