import Rezzy.Auth.Bans

namespace Rezzy.Auth

open Basespec Outcome

variable {Id C : Type} [EventContent C] {event : LeanEvent Id C} {state : StateProvider Id C} {version : StateResVersion}
  {verifier : Option (EventVerifier Id)} {target : String}

def Supports (state : StateProvider Id C) (minimumVersion : Nat) : Prop := roomVersionAtLeast state minimumVersion = .ok true

/-- A knock takes version 7, and version 10 where the join rule is `knock_restricted`. -/
def KnockGated (event : LeanEvent Id C) (state : StateProvider Id C) : Prop :=
  event.getMembership = some memKnock → Supports state 7 ∧ (joinRuleOf state = ruleKnockRestricted → Supports state 10)

def Authorised (event : LeanEvent Id C) (state : StateProvider Id C) (version : StateResVersion) : Prop :=
  ∃ user, EventContent.getJoinAuthorisedViaUsersServer event.content = some user ∧
    membershipOf state user = some memJoin ∧ getInvitePowerLevel state ≤ getSenderPowerLevel user state version

/-- A user who was neither invited nor in the room joins a public room, or one whose rule the version supports. -/
def JoinGated (event : LeanEvent Id C) (state : StateProvider Id C) (version : StateResVersion) : Prop :=
  event.getMembership = some memJoin → (∀ create, state mRoomCreate "" = some create → create.sender ≠ event.sender) →
    membershipOf state event.sender ≠ some memInvite → membershipOf state event.sender ≠ some memJoin →
    joinRuleOf state = rulePublic ∨
      (joinRuleOf state = ruleRestricted ∧ Supports state 8 ∨ joinRuleOf state = ruleKnockRestricted ∧ Supports state 10) ∧
        Authorised event state version

section

theorem roomVersionAtLeast_ok (ok : roomVersionAtLeast state minimumVersion = .ok supports) :
    ∃ number, getRoomVersionNum state = .ok number ∧ supports = decide (minimumVersion ≤ number) := by
  obtain ⟨number, found, same⟩ := bind_eq_ok.mp ok
  exact ⟨number, found, (Except.ok.inj same).symm⟩

theorem roomVersionAtLeast_of_num (found : getRoomVersionNum state = .ok number) (minimumVersion : Nat) :
    roomVersionAtLeast state minimumVersion = .ok (decide (minimumVersion ≤ number)) := by
  unfold roomVersionAtLeast
  rw [found]
  rfl

theorem Supports.mono (supports : Supports state minimumVersion) (less : lower ≤ minimumVersion) :
    Supports state lower := by
  obtain ⟨number, found, enough⟩ := roomVersionAtLeast_ok supports
  unfold Supports
  rw [roomVersionAtLeast_of_num found, decide_eq_true (less.trans (of_decide_eq_true enough.symm))]

theorem membershipOf_getD (known : membership ≠ "") :
    (membershipOf state user).getD "" = membership ↔ membershipOf state user = some membership := by
  cases membershipOf state user with
  | none => exact ⟨fun same => absurd same.symm known, nofun⟩
  | some other => exact ⟨congrArg some, Option.some.inj⟩

theorem checkAuthorisingUser_isOk (ok : (checkAuthorisingUser event state user version verifier).isOk = true) :
    membershipOf state user = some memJoin ∧ getInvitePowerLevel state ≤ getSenderPowerLevel user state version := by
  obtain ⟨_, joined, ok⟩ := isOk_bind ok
  obtain ⟨_, able, _⟩ := isOk_bind ok
  exact ⟨(membershipOf_getD (by decide)).mp (not_not.mp (rejectIf_ok joined)), not_lt.mp (rejectIf_ok able)⟩

theorem checkKnockRules_isOk (ok : (checkKnockRules event state target).isOk = true) : ∃ number,
    getRoomVersionNum state = .ok number ∧
      (joinRuleOf state = ruleKnock ∨ joinRuleOf state = ruleKnockRestricted ∧ Supports state 10) := by
  iterate 3 obtain ⟨_, _, ok⟩ := isOk_bind ok
  obtain ⟨supports, versioned, ok⟩ := isOk_bind ok
  obtain ⟨number, found, -⟩ := roomVersionAtLeast_ok versioned
  have rules := rejectIf_isOk ok
  rw [not_and_or, not_not, not_not] at rules
  refine ⟨number, found, rules.imp id fun restricted => ⟨restricted.1, ?_⟩⟩
  rw [Supports, versioned, restricted.2]

theorem checkJoinRules_isOk (ok : (checkJoinRules event state target version verifier).isOk = true)
    (fresh : ∀ create, state mRoomCreate "" = some create → create.sender ≠ event.sender)
    (uninvited : membershipOf state event.sender ≠ some memInvite) (outside : membershipOf state event.sender ≠ some memJoin) :
    joinRuleOf state = rulePublic ∨
      (joinRuleOf state = ruleRestricted ∧ Supports state 8 ∨ joinRuleOf state = ruleKnockRestricted ∧ Supports state 10) ∧
        Authorised event state version := by
  obtain ⟨_, own, ok⟩ := isOk_bind ok
  obtain rfl : target = event.sender := not_not.mp (rejectIf_ok own)
  obtain ⟨_, _, ok⟩ := isOk_bind ok
  obtain ⟨restricted, eight, ok⟩ := isOk_bind ok
  obtain ⟨knockRestricted, ten, ok⟩ := isOk_bind ok
  have founder : ¬(state mRoomCreate "").any (fun create => create.sender = event.sender) = true := by
    rw [Option.any_eq_true]
    rintro ⟨create, created, same⟩
    exact fresh create created (of_decide_eq_true same)
  have invited : ¬((membershipOf state event.sender).getD "" = memInvite ∨
      (membershipOf state event.sender).getD "" = memJoin) := by
    rw [membershipOf_getD (by decide), membershipOf_getD (by decide)]
    exact fun either => either.elim uninvited outside
  rw [if_neg founder] at ok
  split at ok
  · exact absurd invited (rejectIf_isOk ok)
  · split at ok
    · rename_i gate
      right
      constructor
      · apply gate.imp
        · rintro ⟨rule, rfl⟩
          exact ⟨rule, eight⟩
        · rintro ⟨rule, rfl⟩
          exact ⟨rule, ten⟩
      · cases names : EventContent.getJoinAuthorisedViaUsersServer event.content with
        | none =>
          rw [names] at ok
          cases ok
        | some user =>
          rw [names] at ok
          exact ⟨user, names, checkAuthorisingUser_isOk ok⟩
    · exact .inl (not_not.mp (rejectIf_isOk ok))

theorem checkMemberEvent_isOk (ok : (checkMemberEvent event state version verifier).isOk = true) : ∃ target membership,
    event.getMembership = some membership ∧ (checkTransition event state target membership version verifier).isOk = true := by
  obtain ⟨target, _, ok⟩ := isOk_bind ok
  obtain ⟨membership, found, ok⟩ := isOk_bind ok
  obtain ⟨_, _, ok⟩ := isOk_bind ok
  obtain ⟨_, moved, _⟩ := isOk_bind ok
  exact ⟨target, membership, required_eq_ok found, congrArg Except.isOk moved⟩

end

/-- A knock on a room that asks for knocks is let through in every version, and all else is gated. -/
theorem membership_gates [DecidableEq Id] [ToString Id] (accepted : checkAuth event state version verifier = .ok ())
    (member : event.eventType = mRoomMember) : KnockGated event state ∧ JoinGated event state version ↔
      ¬(event.getMembership = some memKnock ∧ joinRuleOf state = ruleKnock ∧ roomVersionAtLeast state 7 = .ok false) := by
  have ordinary : event.eventType ≠ mRoomCreate := by
    rw [member]
    decide
  have ok := (checkAuth_late (congrArg Except.isOk accepted) ordinary).2 member
  obtain ⟨target, membership, found, moved⟩ := checkMemberEvent_isOk ok
  unfold checkTransition at moved
  constructor
  · rintro ⟨gated, -⟩ ⟨knocks, -, early⟩
    have late := (gated knocks).1
    rw [Supports, early] at late
    cases late
  · intro gate
    constructor
    · intro knocks
      obtain rfl := Option.some.inj (found.symm.trans knocks)
      rw [if_neg (by decide), if_neg (by decide), if_neg (by decide), if_neg (by decide), if_pos rfl] at moved
      obtain ⟨number, numbered, rules⟩ := checkKnockRules_isOk moved
      rcases rules with rule | ⟨rule, late⟩
      · have seven := roomVersionAtLeast_of_num numbered 7
        constructor
        · cases enough : decide (7 ≤ number) with
          | true =>
            rw [enough] at seven
            exact seven
          | false =>
            rw [enough] at seven
            exact absurd ⟨knocks, rule, seven⟩ gate
        · intro other
          exact absurd (rule.symm.trans other) (by decide)
      · exact ⟨late.mono (by decide), fun _ => late⟩
    · intro joins fresh uninvited outside
      obtain rfl := Option.some.inj (found.symm.trans joins)
      rw [if_pos rfl] at moved
      exact checkJoinRules_isOk moved fresh uninvited outside

namespace Gates.Sample

def knock : LeanEvent Nat Content := memberEvent 5 "@b:x" "@b:x" memKnock [] 5

def knockable (roomVersion : String) : StateProvider Nat Content := fun eventType stateKey =>
  [Sample.create roomVersion, stateEvent 4 mRoomJoinRules "" "@a:x" { joinRule := some ruleKnock } [] 4].find? fun event =>
    event.eventType = eventType ∧ event.stateKey = some stateKey

end Gates.Sample

open Gates.Sample in
/-- Somebody knocks in a room of version 6. -/
theorem early_knock_accepted : checkAuth knock (knockable "6") .v2 none = .ok () ∧ ¬KnockGated knock (knockable "6") := by
  refine ⟨by decide, fun gated => ?_⟩
  have late := (gated rfl).1
  exact absurd late (by unfold Supports; decide)

open Gates.Sample in
theorem late_knock_gated : KnockGated knock (knockable "7") ∧ JoinGated knock (knockable "7") .v2 := by
  have accepted : checkAuth knock (knockable "7") .v2 none = .ok () := by decide
  exact (membership_gates accepted rfl).mpr fun early => absurd early.2.2 (by decide)

end Rezzy.Auth
