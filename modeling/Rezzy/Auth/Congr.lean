import Rezzy.Auth.Check

namespace Rezzy.Auth

open Basespec List EventContent

variable {Id C : Type}

structure LevelsAgree (left right : StateProvider Id C) : Prop where
  create : left mRoomCreate "" = right mRoomCreate ""
  powerLevels : left mRoomPowerLevels "" = right mRoomPowerLevels ""

structure MemberAgree [EventContent C] (event : LeanEvent Id C) (left right : StateProvider Id C) : Prop where
  target : ∀ user, event.stateKey = some user → left mRoomMember user = right mRoomMember user
  joinRules : event.getMembership = some memJoin ∨ event.getMembership = some memInvite ∨
    event.getMembership = some memKnock → left mRoomJoinRules "" = right mRoomJoinRules ""
  authorising : event.getMembership = some memJoin → ∀ user,
    EventContent.getJoinAuthorisedViaUsersServer event.content = some user →
      left mRoomMember user = right mRoomMember user
  thirdPartyInvite : event.getMembership = some memInvite → ∀ token,
    EventContent.getThirdPartyInviteToken event.content = some token →
      left mRoomThirdPartyInvite token = right mRoomThirdPartyInvite token

structure Agree [EventContent C] (event : LeanEvent Id C) (left right : StateProvider Id C) : Prop extends
    LevelsAgree left right where
  sender : left mRoomMember event.sender = right mRoomMember event.sender
  member : event.eventType = mRoomMember → MemberAgree event left right

section

variable [EventContent C]

def authReads (event : LeanEvent Id C) : List (String × String) :=
  [(mRoomCreate, ""), (mRoomPowerLevels, ""), (mRoomMember, event.sender)] ++
    if event.eventType = mRoomMember then
      (mRoomJoinRules, "") :: event.stateKey.toList.map (fun user => (mRoomMember, user)) ++
        (EventContent.getJoinAuthorisedViaUsersServer event.content).toList.map
          (fun user => (mRoomMember, user)) ++
        (EventContent.getThirdPartyInviteToken event.content).toList.map
          fun token => (mRoomThirdPartyInvite, token)
    else []

theorem authReads_types {event : LeanEvent Id C} (read : query ∈ authReads event) : query.1 ∈ validAuthTypes := by
  unfold authReads at read
  rw [mem_append] at read
  rcases read with read | read
  · simp only [mem_cons, not_mem_nil, or_false] at read
    rcases read with rfl | rfl | rfl <;> simp [validAuthTypes]
  · split at read
    · simp only [cons_append, mem_cons, mem_append, mem_map] at read
      rcases read with rfl | (⟨_, _, rfl⟩ | ⟨_, _, rfl⟩) | ⟨_, _, rfl⟩ <;> simp [validAuthTypes]
    · simp at read

theorem Agree.of_reads {event : LeanEvent Id C}
    (same : ∀ eventType stateKey, (eventType, stateKey) ∈ authReads event →
      left eventType stateKey = right eventType stateKey) : Agree event left right where
  create := same _ _ (by simp [authReads])
  powerLevels := same _ _ (by simp [authReads])
  sender := same _ _ (by simp [authReads])
  member isMember := by
    refine ⟨fun user known => same _ _ ?_, fun _ => same _ _ ?_, fun _ user known => same _ _ ?_,
      fun _ token known => same _ _ ?_⟩
    all_goals simp_all [authReads]

end

theorem rejectIfFlaggedAuthState_congr (same : left eventType stateKey = right eventType stateKey) :
    rejectIfFlaggedAuthState left eventType stateKey = rejectIfFlaggedAuthState right eventType stateKey := by
  unfold rejectIfFlaggedAuthState
  rw [same]

theorem forM_congr {α ε : Type} {value : Option α} {f g : α → Except ε Unit}
    (same : ∀ x, value = some x → f x = g x) : value.forM f = value.forM g := by
  cases value with
  | none => rfl
  | some x => exact same x rfl

theorem when_congr {condition : Prop} [Decidable condition] (same : condition → left = right) :
    when condition left = when condition right := by
  unfold when
  split
  · exact same ‹_›
  · rfl

theorem required_some_bind {α β : Type} (value : α) (error : AuthError Id) (f : α → Check Id β) :
    required (some value) error >>= f = f value := rfl

theorem membershipOf_congr [EventContent C] {left right : StateProvider Id C}
    (same : left mRoomMember user = right mRoomMember user) : membershipOf left user = membershipOf right user := by
  unfold membershipOf
  rw [same]

section

variable {left right : StateProvider Id C} (agree : LevelsAgree left right)
include agree

theorem plFieldOrDefault_congr (select : C → Option Int) (default : Int) :
    plFieldOrDefault left select default = plFieldOrDefault right select default := by
  unfold plFieldOrDefault mEmptyStateKey
  rw [agree.powerLevels]

variable [EventContent C]

theorem getSenderPowerLevel_congr (sender : String) (version : StateResVersion) :
    getSenderPowerLevel sender left version = getSenderPowerLevel sender right version := by
  unfold getSenderPowerLevel
  rw [agree.powerLevels, agree.create]

theorem roomVersionAtLeast_congr (minimumVersion : Nat) :
    roomVersionAtLeast left minimumVersion = roomVersionAtLeast right minimumVersion := by
  unfold roomVersionAtLeast getRoomVersionNum
  rw [agree.create]

theorem roomVersionStrOrV1_congr : roomVersionStrOrV1 left = roomVersionStrOrV1 right := by
  unfold roomVersionStrOrV1 validatedRoomVersionOrV1
  rw [agree.create]

theorem checkLeaveRules_congr (event : LeanEvent Id C) (targetUser currentMembership : String)
    (version : StateResVersion) :
    checkLeaveRules event left targetUser currentMembership version =
      checkLeaveRules event right targetUser currentMembership version := by
  unfold checkLeaveRules getBanPowerLevel getKickPowerLevel
  simp only [getSenderPowerLevel_congr agree, plFieldOrDefault_congr agree]

theorem checkPowerLevelsEvent_congr (event : LeanEvent Id C) (version : StateResVersion) :
    checkPowerLevelsEvent event left version = checkPowerLevelsEvent event right version := by
  unfold checkPowerLevelsEvent getRoomVersionNum
  simp only [getSenderPowerLevel_congr agree, agree.create, agree.powerLevels]

theorem checkRequiredLevel_congr (event : LeanEvent Id C) (version : StateResVersion) :
    checkRequiredLevel event left version = checkRequiredLevel event right version := by
  unfold checkRequiredLevel getRequiredPowerLevel
  simp only [getSenderPowerLevel_congr agree, agree.powerLevels]

theorem checkRedaction_congr [ToString Id] (event : LeanEvent Id C) (version : StateResVersion) :
    checkRedaction event left version = checkRedaction event right version := by
  unfold checkRedaction getRedactPowerLevel
  simp only [getSenderPowerLevel_congr agree, plFieldOrDefault_congr agree, roomVersionStrOrV1_congr agree]

end

variable [EventContent C] {event : LeanEvent Id C} {left right : StateProvider Id C}

section

variable (levels : LevelsAgree left right) (agree : MemberAgree event left right)
include levels agree

theorem checkJoinRules_congr (target : event.stateKey = some targetUser) (joins : event.getMembership = some memJoin)
    (version : StateResVersion) (verifier : Option (EventVerifier Id)) :
    checkJoinRules event left targetUser version verifier =
      checkJoinRules event right targetUser version verifier := by
  unfold checkJoinRules joinRuleOf
  simp only [membershipOf_congr (agree.target targetUser target), roomVersionAtLeast_congr levels,
    agree.joinRules (.inl joins), levels.create]
  cases known : getJoinAuthorisedViaUsersServer event.content with
  | none => rfl
  | some user =>
    unfold checkAuthorisingUser getInvitePowerLevel
    simp only [membershipOf_congr (agree.authorising joins user known), getSenderPowerLevel_congr levels,
      plFieldOrDefault_congr levels]

section

variable (invites : event.getMembership = some memInvite) (targetUser currentMembership : String)
  (version : StateResVersion) (verifier : Option (EventVerifier Id))
include invites

theorem checkThirdPartyInvite_congr : checkThirdPartyInvite event left targetUser currentMembership version verifier =
      checkThirdPartyInvite event right targetUser currentMembership version verifier := by
  unfold checkThirdPartyInvite getInvitePowerLevel
  cases known : getThirdPartyInviteToken event.content with
  | none => rfl
  | some token =>
    simp only [required_some_bind, agree.thirdPartyInvite invites token known, getSenderPowerLevel_congr levels,
      plFieldOrDefault_congr levels]

theorem checkInviteRules_congr : checkInviteRules event left targetUser currentMembership version verifier =
      checkInviteRules event right targetUser currentMembership version verifier := by
  unfold checkInviteRules getInvitePowerLevel
  simp only [checkThirdPartyInvite_congr levels agree invites, getSenderPowerLevel_congr levels,
    plFieldOrDefault_congr levels]

end

theorem checkKnockRules_congr (target : event.stateKey = some targetUser)
    (knocks : event.getMembership = some memKnock) :
    checkKnockRules event left targetUser = checkKnockRules event right targetUser := by
  unfold checkKnockRules joinRuleOf
  simp only [membershipOf_congr (agree.target targetUser target), roomVersionAtLeast_congr levels,
    agree.joinRules (.inr (.inr knocks))]

theorem checkTransition_congr (target : event.stateKey = some targetUser)
    (moves : event.getMembership = some newMembership) (version : StateResVersion)
    (verifier : Option (EventVerifier Id)) : checkTransition event left targetUser newMembership version verifier =
      checkTransition event right targetUser newMembership version verifier := by
  unfold checkTransition checkBanRules getBanPowerLevel
  simp only [membershipOf_congr (agree.target targetUser target), checkLeaveRules_congr levels,
    getSenderPowerLevel_congr levels, plFieldOrDefault_congr levels]
  split
  · rename_i joins
    exact checkJoinRules_congr levels agree target (moves.trans (congrArg some joins)) version verifier
  · split
    · rfl
    · split
      · rfl
      · split
        · rename_i invites
          exact checkInviteRules_congr levels agree (moves.trans (congrArg some invites)) _ _ version verifier
        · split
          · rename_i knocks
            exact checkKnockRules_congr levels agree target (moves.trans (congrArg some knocks))
          · rfl

theorem checkMemberEvent_congr (version : StateResVersion) (verifier : Option (EventVerifier Id)) :
    checkMemberEvent event left version verifier = checkMemberEvent event right version verifier := by
  unfold checkMemberEvent
  cases target : event.stateKey with
  | none => rfl
  | some targetUser =>
    cases moves : event.getMembership with
    | none => rfl
    | some newMembership =>
      unfold checkMembershipPlHierarchies
      simp only [required_some_bind, checkTransition_congr levels agree target moves, getSenderPowerLevel_congr levels]

end

variable (agree : Agree event left right)
include agree

theorem rejectFlaggedAuthState_congr : rejectFlaggedAuthState event left = rejectFlaggedAuthState event right := by
  unfold rejectFlaggedAuthState
  rw [rejectIfFlaggedAuthState_congr agree.create, rejectIfFlaggedAuthState_congr agree.powerLevels,
    rejectIfFlaggedAuthState_congr agree.sender]
  congr 1
  funext _
  congr 1
  funext _
  congr 1
  funext _
  refine when_congr fun isMember => ?_
  have mem := agree.member isMember
  have joinRules : ∀ moves : event.getMembership = some memJoin ∨ event.getMembership = some memInvite ∨
      event.getMembership = some memKnock, rejectIfFlaggedAuthState left mRoomJoinRules "" =
        rejectIfFlaggedAuthState right mRoomJoinRules "" :=
    fun moves => rejectIfFlaggedAuthState_congr (mem.joinRules moves)
  have authorising : ∀ joins : event.getMembership = some memJoin,
      (getJoinAuthorisedViaUsersServer event.content).forM (rejectIfFlaggedAuthState left mRoomMember) =
        (getJoinAuthorisedViaUsersServer event.content).forM (rejectIfFlaggedAuthState right mRoomMember) :=
    fun joins => forM_congr fun user known => rejectIfFlaggedAuthState_congr (mem.authorising joins user known)
  have thirdPartyInvite : ∀ invites : event.getMembership = some memInvite,
      (getThirdPartyInviteToken event.content).forM (rejectIfFlaggedAuthState left mRoomThirdPartyInvite) =
        (getThirdPartyInviteToken event.content).forM (rejectIfFlaggedAuthState right mRoomThirdPartyInvite) :=
    fun invites => forM_congr fun token known =>
      rejectIfFlaggedAuthState_congr (mem.thirdPartyInvite invites token known)
  dsimp only
  rw [forM_congr fun user known => rejectIfFlaggedAuthState_congr (mem.target user known),
    when_congr joinRules, when_congr authorising, when_congr thirdPartyInvite]

/-- The rules read nothing but the entries of `authReads`. -/
theorem checkAuth_congr [DecidableEq Id] [ToString Id] (version : StateResVersion)
    (verifier : Option (EventVerifier Id)) :
    checkAuth event left version verifier = checkAuth event right version verifier := by
  have mem : when (event.eventType = mRoomMember) (checkMemberEvent event left version verifier) =
      when (event.eventType = mRoomMember) (checkMemberEvent event right version verifier) :=
    when_congr fun isMember => checkMemberEvent_congr agree.toLevelsAgree (agree.member isMember) version verifier
  unfold checkAuth checkAuthWithContext checkOrdinary checkFederation checkAliases checkSenderMembership
    validatedRoomVersionOrV1
  simp only [Option.forM, rejectFlaggedAuthState_congr agree, checkRedaction_congr agree.toLevelsAgree,
    checkRequiredLevel_congr agree.toLevelsAgree, checkPowerLevelsEvent_congr agree.toLevelsAgree, mem,
    membershipOf_congr agree.sender, roomVersionStrOrV1_congr agree.toLevelsAgree, agree.create]

end Rezzy.Auth
