import Rezzy.Auth.Chain
import Rezzy.Auth.Escalation

namespace Rezzy.Auth

open Basespec Json EventContent

variable {Id C : Type} [EventContent C] {version : StateResVersion} {ceiling : Int}

def CappedBy (ceiling : Int) (state : StateProvider Id C) : Prop :=
  ∃ levels, state mRoomPowerLevels "" = some levels ∧ (getUsersDefault levels.content).getD defaultPlUser ≤ ceiling ∧
    ∀ user level, getUserPowerLevel levels.content user = some level → level ≤ ceiling

/-- A creator of a late room, whose level no power levels event can say. -/
def Founds (version : StateResVersion) (state : StateProvider Id C) (user : String) : Prop :=
  (isV12Plus version && (state mRoomCreate "").any (isCreator · user)) = true

theorem CappedBy.level_le {state : StateProvider Id C} (capped : CappedBy ceiling state)
    (ordinary : ¬Founds version state user) : getSenderPowerLevel user state version ≤ ceiling := by
  obtain ⟨levels, held, default, entries⟩ := capped
  unfold Founds at ordinary
  rw [getSenderPowerLevel, if_neg ordinary, held]
  dsimp only
  cases entry : getUserPowerLevel levels.content user with
  | some level => exact entries user level entry
  | none => exact default

variable {floatToI64 : Number → Option Int} [DecidableEq Id] [ToString Id]
  {event : LeanEvent Id (JsonContent floatToI64)} {state afterwards : StateProvider Id (JsonContent floatToI64)}
  {sortedEvents : List (LeanEvent Id (JsonContent floatToI64))} {initialState : RoomState Id (JsonContent floatToI64)}

theorem CappedBy.next (capped : CappedBy ceiling state) (positive : 0 ≤ ceiling)
    (ok : (checkAuthWithContext event state version verifier authContext).isOk = true)
    (own : event.eventType = mRoomPowerLevels) (ordinary : ¬Founds version state event.sender)
    (stored : afterwards mRoomPowerLevels "" = some event) : CappedBy ceiling afterwards := by
  have level := capped.level_le ordinary
  obtain ⟨levels, held, default, entries⟩ := capped
  have rules := (checkPowerLevelsEvent_isOk (checkAuth_powerLevels ok own)).2 levels held
  obtain ⟨defaults, users⟩ := checkPowerLevelsRules_isOk rules
  refine ⟨event, stored, ?_, fun user high entry => ?_⟩
  · cases given : getUsersDefault event.content with
    | none => exact positive
    | some high =>
      rw [given] at defaults
      rcases checkScalarPl_isOk defaults with kept | low
      · rwa [kept] at default
      · exact low.trans level
  · rcases (checkUserMap_isOk users).bounded user high ((levelsRead event.content user).trans entry) with kept | low
    · exact entries user high ((levelsRead levels.content user).symm.trans kept)
    · exact low.trans level

/-- Whatever a run accepts, nobody but a creator of a late room lifts anyone above a level that caps all. -/
theorem checkAuthChain_power_ceiling (positive : 0 ≤ ceiling) (later : m ≤ n)
    (capped : CappedBy ceiling (chainState sortedEvents initialState version m))
    (ordinary : ∀ k, m ≤ k → k < n → ∀ event, AcceptedAt sortedEvents initialState version k event →
      event.eventType = mRoomPowerLevels → ¬Founds version (chainState sortedEvents initialState version k) event.sender) :
    CappedBy ceiling (chainState sortedEvents initialState version n) ∧
      ∀ user, ¬Founds version (chainState sortedEvents initialState version n) user →
        getSenderPowerLevel user (chainState sortedEvents initialState version n) version ≤ ceiling := by
  have kept : CappedBy ceiling (chainState sortedEvents initialState version n) := by
    induction n, later using Nat.le_induction with
    | base => exact capped
    | succ n after ih =>
      have before := ih fun k first last => ordinary k first (last.trans n.lt_succ_self)
      rcases chainState_succ sortedEvents initialState version n mRoomPowerLevels "" with
        same | ⟨event, accepted, own, -, stored⟩
      · unfold CappedBy
        rwa [same]
      · exact before.next positive (acceptedAt_iff.mp accepted).2.isOk own
          (ordinary n after n.lt_succ_self event accepted own) stored
  exact ⟨kept, fun user => kept.level_le⟩

namespace Sample

open JsonContent.Sample

def grantRun : List (LeanEvent Nat (JsonContent fun _ => none)) :=
  [create "10", { joinA with authEvents := [1] }, { Escalation.Sample.entries with authEvents := [1, 2] },
    { Escalation.Sample.moreEntries with authEvents := [1, 2, 3] }]

end Sample

open Sample in
theorem checkAuthChain_power_ceiling_grant : CappedBy 100 (chainState grantRun ∅ .v2 4) := by
  refine (checkAuthChain_power_ceiling (m := 3) (by decide) (by decide) ⟨_, rfl, by decide, ?_⟩ ?_).1
  · intro user level entry
    exact (by decide : ∀ pair ∈ visitUserPowerLevels Escalation.Sample.entries.content, pair.2 ≤ (100 : Int)) _
      (Sorted.mem_of_lookup (JsonContent.lookup_levels.trans entry))
  · rintro k - - event - - late
    exact Bool.false_ne_true late

end Rezzy.Auth
