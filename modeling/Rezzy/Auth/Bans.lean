import Rezzy.Auth.Check
import Rezzy.Lib.Loop

namespace Rezzy.Auth

open Basespec

variable {Id C : Type}

section

theorem isOk_bind {α β : Type} {check : Check Id α} {next : α → Check Id β}
    (ok : (check >>= next).isOk = true) : ∃ value, check = .ok value ∧ (next value).isOk = true := by
  cases check with
  | error reason => simp [bind, Except.bind, Except.isOk, Except.toBool] at ok
  | ok value => exact ⟨value, rfl, ok⟩

section

variable {condition : Prop} [Decidable condition] {error : AuthError Id}

theorem rejectIf_ok {value : Unit} (ok : rejectIf condition error = .ok value) : ¬condition := by
  intro holds
  rw [rejectIf, if_pos holds] at ok
  cases ok

theorem rejectIf_isOk (ok : (rejectIf condition error).isOk = true) : ¬condition := by
  intro holds
  rw [rejectIf, if_pos holds] at ok
  cases ok

end

theorem required_eq_ok {α : Type} {value : Option α} {error : AuthError Id} {found : α}
    (ok : required value error = .ok found) : value = some found := by
  cases value with
  | none => cases ok
  | some other => rw [Except.ok.inj ok]

end

variable [EventContent C] {event : LeanEvent Id C} {state : StateProvider Id C}
  {version : StateResVersion} {verifier : Option (EventVerifier Id)}

section

theorem checkTransition_banned {target membership : String}
    (ok : (checkTransition event state target membership version verifier).isOk = true)
    (banned : membershipOf state target = some memBan) :
    membership = memLeave ∧ target ≠ event.sender ∨ membership = memBan := by
  unfold checkTransition at ok
  rw [banned] at ok
  split at ok
  · obtain ⟨_, _, ok⟩ := isOk_bind ok
    obtain ⟨_, free, _⟩ := isOk_bind ok
    exact absurd (by simp [banned]) (rejectIf_ok free)
  · split at ok
    · rename_i leaves
      refine .inl ⟨leaves, fun own => ?_⟩
      rw [checkLeaveRules, if_pos own] at ok
      exact absurd (by decide) (rejectIf_isOk ok)
    · split at ok
      · rename_i bans
        exact .inr bans
      · split at ok
        · obtain ⟨_, _, ok⟩ := isOk_bind ok
          split at ok
          · obtain ⟨_, free, _⟩ := isOk_bind ok
            exact absurd rfl (rejectIf_ok free)
          · obtain ⟨_, _, ok⟩ := isOk_bind ok
            obtain ⟨_, _, ok⟩ := isOk_bind ok
            exact absurd rfl (rejectIf_isOk ok)
        · split at ok
          · obtain ⟨_, _, ok⟩ := isOk_bind ok
            obtain ⟨_, free, _⟩ := isOk_bind ok
            exact absurd (by simp [banned]) (rejectIf_ok free)
          · cases ok

variable {target : String} (ok : (checkMemberEvent event state version verifier).isOk = true)
include ok

theorem checkMemberEvent_free (mem : event.eventType = mRoomMember) (keyed : event.stateKey = some target)
    (mild : event.isBanOrKick = false) :
    membershipOf state target ≠ some memBan ∧ event.getMembership ≠ some memBan := by
  unfold checkMemberEvent at ok
  rw [keyed] at ok
  obtain ⟨_, same, ok⟩ := isOk_bind ok
  obtain rfl := Except.ok.inj same
  obtain ⟨membership, found, ok⟩ := isOk_bind ok
  have own := required_eq_ok found
  obtain ⟨_, notSelf, ok⟩ := isOk_bind ok
  obtain ⟨_, moved, _⟩ := isOk_bind ok
  have transition : (checkTransition event state target membership version verifier).isOk = true := by
    rw [moved]
    rfl
  have selfBan := rejectIf_ok notSelf
  rw [LeanEvent.isBanOrKick, mem, own, keyed] at mild
  simp only [decide_true, Bool.true_and, Bool.and_eq_false_iff, Bool.or_eq_false_iff,
    decide_eq_false_iff_not, bne_eq_false_iff_eq] at mild
  constructor
  · intro banned
    rcases checkTransition_banned transition banned with ⟨leaves, other⟩ | bans
    · exact mild.elim (fun neither => neither.2 leaves) other
    · exact mild.elim (fun neither => neither.1 bans) fun self => selfBan ⟨bans, self⟩
  · intro bans
    have bans : membership = memBan := by simpa [own] using bans
    exact mild.elim (fun neither => neither.1 bans) fun self => selfBan ⟨bans, self⟩

theorem checkMemberEvent_banned
    (keyed : event.stateKey = some target) (banned : membershipOf state target = some memBan) :
    event.getMembership = some memBan ∨ event.getMembership = some memLeave ∧ event.sender ≠ target ∧
        getBanPowerLevel state ≤ getSenderPowerLevel event.sender state version ∧
        getSenderPowerLevel target state version < getSenderPowerLevel event.sender state version := by
  unfold checkMemberEvent at ok
  rw [keyed] at ok
  obtain ⟨_, same, ok⟩ := isOk_bind ok
  obtain rfl := Except.ok.inj same
  obtain ⟨membership, found, ok⟩ := isOk_bind ok
  have own := required_eq_ok found
  obtain ⟨_, _, ok⟩ := isOk_bind ok
  obtain ⟨_, moved, ok⟩ := isOk_bind ok
  have transition : (checkTransition event state target membership version verifier).isOk = true := by
    rw [moved]
    rfl
  rcases checkTransition_banned transition banned with ⟨leaves, other⟩ | bans
  · right
    subst leaves
    have outranks := rejectIf_isOk ok
    have may : ¬getSenderPowerLevel event.sender state version < getBanPowerLevel state := by
      rw [checkTransition, if_neg (by decide), if_pos rfl, checkLeaveRules, if_neg other, banned] at transition
      exact rejectIf_isOk transition
    refine ⟨own, Ne.symm other, Int.not_lt.mp may, Int.not_le.mp fun below => outranks ⟨other, .inl rfl, below⟩⟩
  · exact .inl (bans ▸ own)

end

variable [DecidableEq Id] [ToString Id] {authContext : Option (EventProvider Id C)}

variable (ok : (checkAuthWithContext event state version verifier authContext).isOk = true)
  (ordinary : event.eventType ≠ mRoomCreate)
include ok ordinary

theorem checkAuth_ordinary : (checkOrdinary event state version verifier authContext).isOk = true := by
  iterate 3 obtain ⟨_, _, ok⟩ := isOk_bind ok
  rw [if_neg ordinary] at ok
  exact ok

theorem checkAuth_late : checkSenderMembership event state = .ok () ∧
      (event.eventType = mRoomMember → (checkMemberEvent event state version verifier).isOk = true) := by
  have ok := checkAuth_ordinary ok ordinary
  iterate 5 obtain ⟨_, _, ok⟩ := isOk_bind ok
  obtain ⟨_, sender, ok⟩ := isOk_bind ok
  iterate 3 obtain ⟨_, _, ok⟩ := isOk_bind ok
  refine ⟨sender, fun mem => ?_⟩
  rw [when, if_pos mem] at ok
  exact ok

theorem checkAuth_sender_free : membershipOf state event.sender ≠ some memBan := by
  intro banned
  have sender : (checkSenderMembership event state).isOk = true := by
    rw [(checkAuth_late ok ordinary).1]
    rfl
  obtain ⟨_, free, _⟩ := isOk_bind sender
  exact absurd (by simp [banned]) (rejectIf_ok free)

theorem checkAuth_sender_joined (other : event.stateKey ≠ some event.sender) :
    membershipOf state event.sender = some memJoin := by
  have sender : (checkSenderMembership event state).isOk = true := by
    rw [(checkAuth_late ok ordinary).1]
    rfl
  obtain ⟨_, _, joined⟩ := isOk_bind sender
  have joined := rejectIf_isOk joined
  cases known : membershipOf state event.sender with
  | none =>
    rw [known] at joined
    exact absurd ⟨by decide, fun own => other own.2.1⟩ joined
  | some membership =>
    rw [known] at joined
    by_contra differs
    exact joined ⟨fun same => differs (congrArg some same), fun own => other own.2.1⟩

end Rezzy.Auth
