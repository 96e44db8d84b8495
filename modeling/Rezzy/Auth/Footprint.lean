import Rezzy.Auth.Bans
import Rezzy.Auth.Congr

namespace Rezzy.Auth

open Basespec Outcome EventContent

variable {Id C : Type}

section

def withEntry (state : StateProvider Id C) (eventType stateKey : String) (entry : LeanEvent Id C) :
    StateProvider Id C :=
  fun otherType otherKey => if otherType = eventType ∧ otherKey = stateKey then some entry else state otherType otherKey

def onlyCreate (create : Option (LeanEvent Id C)) : StateProvider Id C :=
  fun eventType stateKey => if eventType = mRoomCreate ∧ stateKey = "" then create else none

def flaggedAs (event : LeanEvent Id C) (eventType stateKey : String) : LeanEvent Id C :=
  { event with
    eventType := eventType
    stateKey := some stateKey
    rejected := true }

theorem not_rejected (wellFormed : checkSyntax event version = .ok ()) : event.rejected = false := by
  iterate 4 obtain ⟨_, _, wellFormed⟩ := bind_eq_ok.mp wellFormed
  simpa using rejectIf_ok wellFormed

theorem rejectIfFlagged_ok {state : StateProvider Id C}
    (free : ∀ entry, state eventType stateKey = some entry → entry.rejected = false) :
    rejectIfFlaggedAuthState state eventType stateKey = .ok () := by
  unfold rejectIfFlaggedAuthState rejectIf
  rw [if_neg]
  cases held : state eventType stateKey with
  | none => simp
  | some entry => simp [free entry held]

end

variable [EventContent C]

def roomVersionOf (create : Option (LeanEvent Id C)) : String :=
  (create.bind fun createEv => EventContent.getRoomVersion createEv.content).getD "1"

def selected (event : LeanEvent Id C) (version : StateResVersion) (create : Option (LeanEvent Id C)) :
    List (String × String) :=
  requiredAuthTypesFor event version (roomVersionOf create)

structure AgreeOnSelected (event : LeanEvent Id C) (version : StateResVersion) (create : Option (LeanEvent Id C))
    (left right : StateProvider Id C) : Prop where
  leftCreate : left mRoomCreate "" = create
  rightCreate : right mRoomCreate "" = create
  same : ∀ query ∈ selected event version create, left query.1 query.2 = right query.1 query.2

def NamesUnselected (event : LeanEvent Id C) (version : StateResVersion) (create : Option (LeanEvent Id C)) : Prop :=
  event.eventType = mRoomMember ∧ event.getMembership = some memJoin ∧
    ∃ user, EventContent.getJoinAuthorisedViaUsersServer event.content = some user ∧
      (mRoomMember, user) ∉ selected event version create

def recognisedRoomVersion (createEv : LeanEvent Id C) : Bool :=
  match EventContent.getRoomVersion createEv.content with
  | none => !EventContent.hasMalformedRoomVersion createEv.content
  | some label => (StateResVersion.fromRoomVersion label).isSome

/-- The event is of a kind for which an entry is looked at that is not selected, and would otherwise pass. -/
structure Exposed (event : LeanEvent Id C) (version : StateResVersion) (create : Option (LeanEvent Id C)) : Prop where
  leak : event.eventType = mRoomCreate ∨ NamesUnselected event version create
  wellFormed : checkSyntax event version = .ok ()
  unflagged : ∀ createEv, create = some createEv → createEv.rejected = false
  founds : event.eventType = mRoomCreate → checkCreateEvent event = .ok ()
  joins : event.eventType ≠ mRoomCreate → event.stateKey = some event.sender ∧
    ∃ createEv, create = some createEv ∧ recognisedRoomVersion createEv = true ∧
      (EventContent.getMFederate createEv.content = some false → domainMatches event.sender createEv.sender = true)

variable {event : LeanEvent Id C} {version : StateResVersion} {create : Option (LeanEvent Id C)}
  {left right : StateProvider Id C}

section

theorem selected_sender (ordinary : event.eventType ≠ mRoomCreate) :
    (mRoomMember, event.sender) ∈ selected event version create := by
  simp [selected, requiredAuthTypesFor, authTypesForEventCore, ordinary]

theorem selected_powerLevels (ordinary : event.eventType ≠ mRoomCreate) :
    (mRoomPowerLevels, "") ∈ selected event version create := by
  simp [selected, requiredAuthTypesFor, authTypesForEventCore, ordinary]

theorem member_ne_create : mRoomMember ≠ mRoomCreate := by decide

theorem memJoin_ne_memBan : memJoin ≠ memBan := by decide

section

variable (mem : event.eventType = mRoomMember)
include mem

theorem selected_target (target : event.stateKey = some user) :
    (mRoomMember, user) ∈ selected event version create := by
  by_cases own : user = event.sender
  · rw [own]
    exact selected_sender (mem ▸ member_ne_create)
  · simp [selected, requiredAuthTypesFor, authTypesForEventCore, mem, target, own, member_ne_create, Option.filter]

theorem selected_joinRules (moves : event.getMembership = some memJoin ∨ event.getMembership = some memInvite ∨
      event.getMembership = some memKnock) : (mRoomJoinRules, "") ∈ selected event version create := by
  simp [selected, requiredAuthTypesFor, authTypesForEventCore, mem, member_ne_create, moves]

theorem selected_thirdPartyInvite (invites : event.getMembership = some memInvite)
    (known : getThirdPartyInviteToken event.content = some token) :
    (mRoomThirdPartyInvite, token) ∈ selected event version create := by
  simp [selected, requiredAuthTypesFor, authTypesForEventCore, mem, member_ne_create, invites, known]

end

theorem AgreeOnSelected.agree (agree : AgreeOnSelected event version create left right)
    (ordinary : event.eventType ≠ mRoomCreate) (tight : ¬NamesUnselected event version create) :
    Agree event left right where
  create := agree.leftCreate.trans agree.rightCreate.symm
  powerLevels := agree.same _ (selected_powerLevels ordinary)
  sender := agree.same _ (selected_sender ordinary)
  member isMember := {
    target := fun _ target => agree.same _ (selected_target isMember target)
    joinRules := fun moves => agree.same _ (selected_joinRules isMember moves)
    authorising := by
      intro joins user known
      by_cases picked : (mRoomMember, user) ∈ selected event version create
      · exact agree.same _ picked
      · exact absurd ⟨isMember, joins, user, known, picked⟩ tight
    thirdPartyInvite := fun invites _ known => agree.same _ (selected_thirdPartyInvite isMember invites known) }

theorem recognised_of_validated {createEv : LeanEvent Id C} (created : state mRoomCreate "" = some createEv)
    (ok : validatedRoomVersionOrV1 state = .ok label) : recognisedRoomVersion createEv = true := by
  rw [validatedRoomVersionOrV1, created] at ok
  dsimp only at ok
  unfold recognisedRoomVersion
  cases known : getRoomVersion createEv.content with
  | none =>
    rw [known] at ok
    cases malformed : hasMalformedRoomVersion createEv.content with
    | false => rfl
    | true => simp [malformed] at ok
  | some named =>
    rw [known] at ok
    cases recognised : StateResVersion.fromRoomVersion named with
    | none => simp [recognised] at ok
    | some _ =>
      dsimp only
      rw [recognised]
      rfl

theorem checkMemberEvent_join (ok : (checkMemberEvent event state version none).isOk = true)
    (joins : event.getMembership = some memJoin) :
    event.stateKey = some event.sender ∧ ∃ createEv, state mRoomCreate "" = some createEv := by
  unfold checkMemberEvent at ok
  rw [joins] at ok
  obtain ⟨target, keyed, ok⟩ := isOk_bind ok
  obtain ⟨_, same, ok⟩ := isOk_bind ok
  obtain rfl := Except.ok.inj same
  obtain ⟨_, _, ok⟩ := isOk_bind ok
  obtain ⟨_, moved, _⟩ := isOk_bind ok
  rw [checkTransition, if_pos rfl, checkJoinRules] at moved
  obtain ⟨_, own, moved⟩ := bind_eq_ok.mp moved
  obtain ⟨_, _, moved⟩ := bind_eq_ok.mp moved
  obtain ⟨_, atLeast, _⟩ := bind_eq_ok.mp moved
  refine ⟨(required_eq_ok keyed).trans (congrArg some (not_not.mp (rejectIf_ok own))), ?_⟩
  cases created : state mRoomCreate "" with
  | none =>
    rw [roomVersionAtLeast, getRoomVersionNum, created] at atLeast
    cases atLeast
  | some createEv => exact ⟨createEv, rfl⟩

variable [DecidableEq Id] [ToString Id]

theorem Exposed.of_accepted (created : state mRoomCreate "" = create)
    (ok : (checkAuth event state version none).isOk = true)
    (leak : event.eventType = mRoomCreate ∨ NamesUnselected event version create) : Exposed event version create := by
  have whole := ok
  obtain ⟨_, wellFormed, ok⟩ := isOk_bind ok
  obtain ⟨_, flagged, ok⟩ := isOk_bind ok
  obtain ⟨_, _, ok⟩ := isOk_bind ok
  refine ⟨leak, wellFormed, ?_, ?_, ?_⟩
  · rintro createEv rfl
    rw [rejectFlaggedAuthState] at flagged
    obtain ⟨_, free, _⟩ := bind_eq_ok.mp flagged
    have free := rejectIf_ok free
    rw [created] at free
    simpa using free
  · intro founds
    rw [if_pos founds] at ok
    cases checked : checkCreateEvent event with
    | error reason =>
      rw [checked] at ok
      cases ok
    | ok _ => rfl
  · intro ordinary
    obtain ⟨mem, joins, _⟩ := leak.resolve_left ordinary
    obtain ⟨own, createEv, found⟩ := checkMemberEvent_join ((checkAuth_late whole ordinary).2 mem) joins
    refine ⟨own, createEv, created.symm.trans found, ?_, ?_⟩
    all_goals
      rw [if_neg ordinary, checkOrdinary] at ok
      obtain ⟨_, validated, ok⟩ := isOk_bind ok
      obtain ⟨_, federates, ok⟩ := isOk_bind ok
    · exact recognised_of_validated found validated
    · intro closed
      rw [checkFederation, found] at federates
      have open' := rejectIf_ok federates
      simpa [closed] using open'

theorem AgreeOnSelected.verdict (agree : AgreeOnSelected event version create left right)
    (covered : ¬Exposed event version create) :
    (checkAuth event left version none).isOk = (checkAuth event right version none).isOk := by
  by_cases leak : event.eventType = mRoomCreate ∨ NamesUnselected event version create
  · have refused : ∀ state : StateProvider Id C, state mRoomCreate "" = create →
        (checkAuth event state version none).isOk = false := by
      intro state created
      by_contra accepted
      exact covered (Exposed.of_accepted created (Bool.eq_true_of_not_eq_false accepted) leak)
    rw [refused left agree.leftCreate, refused right agree.rightCreate]
  · obtain ⟨ordinary, tight⟩ := not_or.mp leak
    rw [checkAuth_congr (agree.agree ordinary tight)]

theorem Exposed.create_accepted (exposed : Exposed event version create) (founds : event.eventType = mRoomCreate) :
    checkAuth event (onlyCreate create) version none = .ok () := by
  have flagged : rejectFlaggedAuthState event (onlyCreate create) = .ok () := by
    rw [rejectFlaggedAuthState, rejectIfFlagged_ok, rejectIfFlagged_ok, rejectIfFlagged_ok]
    · rw [when, if_neg (founds ▸ member_ne_create.symm)]
      rfl
    · simp [onlyCreate, member_ne_create]
    · intro _ held
      rw [onlyCreate, if_neg (by decide)] at held
      cases held
    · simpa [onlyCreate] using exposed.unflagged
  rw [checkAuth, checkAuthWithContext, exposed.wellFormed, flagged, if_pos founds, exposed.founds founds]
  rfl

omit [DecidableEq Id] [ToString Id] in
theorem validated_of_recognised {createEv : LeanEvent Id C} (created : state mRoomCreate "" = some createEv)
    (recognised : recognisedRoomVersion createEv = true) :
    (∃ label, validatedRoomVersionOrV1 state = .ok label) ∧ ∃ number, getRoomVersionNum state = .ok number := by
  unfold validatedRoomVersionOrV1 getRoomVersionNum
  rw [created]
  unfold recognisedRoomVersion at recognised
  dsimp only
  cases known : getRoomVersion createEv.content with
  | none =>
    rw [known] at recognised
    exact ⟨⟨none, by simp_all⟩, 1, rfl⟩
  | some label =>
    rw [known] at recognised
    obtain ⟨roomVersion, recognised⟩ := Option.isSome_iff_exists.mp recognised
    dsimp only
    rw [recognised]
    refine ⟨⟨some label, by simp⟩, ?_⟩
    cases parseU32 label with
    | none => exact ⟨_, rfl⟩
    | some number => exact ⟨number, rfl⟩

theorem Exposed.join_accepted (exposed : Exposed event version create) (names : NamesUnselected event version create) :
    checkAuth event (withEntry (onlyCreate create) mRoomMember event.sender event) version none = .ok () := by
  obtain ⟨mem, joins, user, authorises, unselected⟩ := names
  have ordinary : event.eventType ≠ mRoomCreate := mem ▸ member_ne_create
  obtain ⟨own, createEv, rfl, recognised, federates⟩ := exposed.joins ordinary
  generalize states : withEntry (onlyCreate (some createEv)) mRoomMember event.sender event = state
  have created : state mRoomCreate "" = some createEv := by
    rw [← states]
    rfl
  have joined : state mRoomMember event.sender = some event := by
    rw [← states, withEntry, if_pos ⟨rfl, rfl⟩]
  have free : ∀ eventType stateKey, eventType ≠ mRoomCreate →
      ¬(eventType = mRoomMember ∧ stateKey = event.sender) → state eventType stateKey = none := by
    intro eventType stateKey notCreate notOwn
    rw [← states, withEntry, if_neg notOwn, onlyCreate, if_neg fun same => notCreate same.1]
  have flagged : rejectFlaggedAuthState event state = .ok () := by
    have clear : ∀ eventType stateKey, eventType ≠ mRoomCreate →
        rejectIfFlaggedAuthState state eventType stateKey = .ok () := by
      intro eventType stateKey notCreate
      apply rejectIfFlagged_ok
      intro entry held
      by_cases mine : eventType = mRoomMember ∧ stateKey = event.sender
      · rw [mine.1, mine.2, joined] at held
        rw [← Option.some.inj held]
        exact not_rejected exposed.wellFormed
      · rw [free eventType stateKey notCreate mine] at held
        cases held
    have createClear : rejectIfFlaggedAuthState state mRoomCreate "" = .ok () := by
      apply rejectIfFlagged_ok
      rw [created]
      exact exposed.unflagged
    rw [rejectFlaggedAuthState, createClear, clear mRoomPowerLevels "" (by decide), clear mRoomMember _ (by decide), when,
      if_pos mem, own, joins, authorises]
    dsimp only [Option.forM]
    rw [clear mRoomMember _ (by decide), clear mRoomJoinRules "" (by decide), clear mRoomMember _ (by decide)]
    simp [when, memJoin, memInvite]
    rfl
  have entered : membershipOf state event.sender = some memJoin := by
    rw [membershipOf, joined]
    exact joins
  obtain ⟨⟨label, validated⟩, number, numbered⟩ := validated_of_recognised created recognised
  have rules : checkMemberEvent event state version none = .ok () := by
    have noRules : joinRuleOf state = ruleInvite := by
      rw [joinRuleOf, free mRoomJoinRules "" (by decide) fun same => absurd same.1 (by decide)]
      rfl
    have join : checkJoinRules event state event.sender version none = .ok () := by
      rw [checkJoinRules, entered, noRules, roomVersionAtLeast, roomVersionAtLeast, numbered]
      simp only [rejectIf, Option.getD_some, ne_eq, not_true_eq_false, if_false, memJoin_ne_memBan, true_or, or_true,
        if_true, not_true_eq_false, bind, Except.bind, pure, Except.pure, ite_self]
    rw [checkMemberEvent, own, joins]
    simp only [required, rejectIf, checkTransition, join, checkMembershipPlHierarchies, if_true, memJoin_ne_memBan,
      false_and, if_false, bind, Except.bind, ne_eq, not_true_eq_false]
  have passes : checkOrdinary event state version none none = .ok () := by
    have sender : checkSenderMembership event state = .ok () := by
      rw [checkSenderMembership, entered]
      simp only [rejectIf, Option.getD_some, memJoin_ne_memBan, if_false, ne_eq, not_true_eq_false, false_and, bind,
        Except.bind]
    have federation : checkFederation event state = .ok () := by
      rw [checkFederation, created]
      dsimp only [Option.forM]
      rw [rejectIf, if_neg]
      rintro ⟨closed, cross⟩
      simp [federates closed] at cross
    have level : checkRequiredLevel event state version = .ok () := if_neg fun outside => outside.1 mem
    have stateKey : checkOwnStateKey event = .ok () := by
      rw [checkOwnStateKey, own]
      exact if_neg fun outside => outside.1 mem
    have kinds : ∀ eventType, eventType ≠ mRoomMember → ∀ check : Check Id Unit,
        when (event.eventType = eventType) check = .ok () := by
      intro eventType others check
      rw [when, if_neg fun same => others (same.symm.trans mem)]
    rw [checkOrdinary, validated, federation, checkAliases, kinds mRoomAliases (by decide), checkRedaction,
      kinds mRoomRedaction (by decide), sender, level, stateKey, kinds mRoomPowerLevels (by decide), rules, when, when]
    simp only [Option.forM, pure, Except.pure, bind, Except.bind, ite_self]
  rw [checkAuth, checkAuthWithContext, exposed.wellFormed, flagged, if_neg ordinary]
  exact passes

theorem checkAuth_unflagged (ok : (checkAuth event state version none).isOk = true) :
    (state mRoomPowerLevels "").any (·.rejected) = false ∧
      (event.eventType = mRoomMember → event.getMembership = some memJoin → ∀ user,
        getJoinAuthorisedViaUsersServer event.content = some user →
          (state mRoomMember user).any (·.rejected) = false) := by
  obtain ⟨_, _, ok⟩ := isOk_bind ok
  obtain ⟨_, flags, _⟩ := isOk_bind ok
  rw [rejectFlaggedAuthState] at flags
  obtain ⟨_, _, flags⟩ := bind_eq_ok.mp flags
  obtain ⟨_, levels, flags⟩ := bind_eq_ok.mp flags
  obtain ⟨_, _, flags⟩ := bind_eq_ok.mp flags
  refine ⟨Bool.eq_false_of_not_eq_true (rejectIf_ok levels), fun mem joins user authorises => ?_⟩
  rw [when, if_pos mem] at flags
  obtain ⟨_, _, flags⟩ := bind_eq_ok.mp flags
  obtain ⟨_, _, flags⟩ := bind_eq_ok.mp flags
  obtain ⟨_, named, _⟩ := bind_eq_ok.mp flags
  rw [when, if_pos joins, authorises] at named
  exact Bool.eq_false_of_not_eq_true (rejectIf_ok named)

omit [DecidableEq Id] [ToString Id] in
theorem AgreeOnSelected.withEntry (state : StateProvider Id C) (created : state mRoomCreate "" = create)
    (other : eventType ≠ mRoomCreate) (unselected : (eventType, stateKey) ∉ selected event version create)
    (entry : LeanEvent Id C) :
    AgreeOnSelected event version create state (withEntry state eventType stateKey entry) where
  leftCreate := created
  rightCreate := by rw [Auth.withEntry, if_neg fun same => other same.1.symm, created]
  same := by
    intro _ _
    rw [Auth.withEntry, if_neg]
    intro same
    exact unselected (by rwa [← same.1, ← same.2])

theorem Exposed.leaks (exposed : Exposed event version create) : ∃ left right : StateProvider Id C,
    AgreeOnSelected event version create left right ∧ (checkAuth event left version none).isOk = true ∧
      (checkAuth event right version none).isOk = false := by
  rcases exposed.leak with founds | names
  · have unselected : (mRoomPowerLevels, "") ∉ selected event version create := by
      simp [selected, requiredAuthTypesFor, authTypesForEventCore, founds]
    refine ⟨_, _, .withEntry (onlyCreate create) rfl (by decide) unselected (flaggedAs event mRoomPowerLevels ""),
      ?_, ?_⟩
    · rw [exposed.create_accepted founds]
      rfl
    · by_contra accepted
      have clean := (checkAuth_unflagged (Bool.eq_true_of_not_eq_false accepted)).1
      rw [withEntry, if_pos ⟨rfl, rfl⟩] at clean
      cases clean
  · have accepted := exposed.join_accepted names
    obtain ⟨mem, joins, user, authorises, unselected⟩ := names
    refine ⟨_, _, .withEntry (withEntry (onlyCreate create) mRoomMember event.sender event) rfl member_ne_create
      unselected (flaggedAs event mRoomMember user), ?_, ?_⟩
    · rw [accepted]
      rfl
    · by_contra accepted
      have clean := (checkAuth_unflagged (Bool.eq_true_of_not_eq_false accepted)).2 mem joins user authorises
      rw [withEntry, if_pos ⟨rfl, rfl⟩] at clean
      cases clean

/-- The selected entries fix the verdict on an event exactly when the event is not exposed. -/
theorem checkAuth_footprint (event : LeanEvent Id C) (version : StateResVersion) (create : Option (LeanEvent Id C)) :
    (∀ left right, AgreeOnSelected event version create left right →
      (checkAuth event left version none).isOk = (checkAuth event right version none).isOk) ↔
    ¬Exposed event version create := by
  constructor
  · intro determined exposed
    obtain ⟨left, right, agree, accepted, refused⟩ := exposed.leaks
    have same := determined left right agree
    rw [accepted, refused] at same
    cases same
  · intro covered left right agree
    exact agree.verdict covered

end

namespace Sample

open Basespec.Sample

def namedJoin : LeanEvent Nat Content :=
  { joinA [1] with
    content := { membership := some memJoin, joinAuthorisedViaUsersServer := some "@c:x" } }

def versionSix : StateProvider Nat Content := onlyCreate (some (Basespec.Sample.create "6"))

def flaggedMember : StateProvider Nat Content :=
  withEntry versionSix mRoomMember "@c:x" (flaggedAs (memberEvent 5 "@c:x" "@c:x" memJoin [1] 5) mRoomMember "@c:x")

end Sample

open Sample in
/-- A rejected membership that no rule selects turns the verdict on a join. -/
theorem flagged_member_turns_verdict :
    AgreeOnSelected namedJoin .v2 (some (Basespec.Sample.create "6")) versionSix flaggedMember ∧
      checkAuth namedJoin versionSix .v2 none = .ok () ∧
      checkAuth namedJoin flaggedMember .v2 none =
        .error (.invalidSyntax "rejected auth state event m.room.member/@c:x must not be used") :=
  ⟨.withEntry versionSix rfl member_ne_create (by decide) _, rfl, rfl⟩

end Rezzy.Auth
