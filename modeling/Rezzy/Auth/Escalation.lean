import Rezzy.Auth.Bans
import Rezzy.Basespec.JsonContent

namespace Rezzy.Auth

open Basespec Json EventContent Except

variable {Id C : Type} [EventContent C] {event : LeanEvent Id C} {state : StateProvider Id C}
  {version : StateResVersion} {verifier : Option (EventVerifier Id)}

def stored (event : LeanEvent Id C) (state : StateProvider Id C) : StateProvider Id C :=
  fun eventType stateKey =>
    if event.eventType = eventType ∧ event.stateKey = some stateKey then some event else state eventType stateKey

section

theorem forM_isOk {α : Type} {check : α → Check Id Unit} {list : List α} (ok : (list.forM check).isOk = true) :
    ∀ item ∈ list, (check item).isOk = true := by
  induction list with
  | nil => exact fun item mem => nomatch mem
  | cons first rest ih =>
    obtain ⟨value, checked, ok⟩ := isOk_bind ok
    intro item mem
    rcases List.mem_cons.mp mem with rfl | mem
    · rw [checked]
      rfl
    · exact ih ok item mem

theorem checkScalarPl_isOk (ok : (checkScalarPl field old (some level) senderPl : Check Id Unit).isOk = true) :
    old = some level ∨ level ≤ senderPl := by
  unfold checkScalarPl at ok
  by_cases same : old = some level
  · exact .inl same
  · rw [if_neg same] at ok
    obtain ⟨_, _, ok⟩ := isOk_bind ok
    exact .inr (not_lt.mp (rejectIf_isOk ok))

theorem mem_changedEntries :
    (key, level) ∈ changedEntries old new ↔ old[key]? = some level ∧ new[key]? ≠ some level := by
  unfold changedEntries
  rw [List.mem_filter, decide_eq_true_iff]
  exact and_congr_left' Std.ExtTreeMap.mem_toList_iff_getElem?_eq_some

structure UsersWithin (sender : String) (old new : Std.ExtTreeMap String Int compare) (senderPl : Int) : Prop where
  kept : ∀ (key : String) (level : Int), key ≠ sender → old[key]? = some level → senderPl ≤ level → new[key]? = some level
  bounded : ∀ (key : String) (level : Int), new[key]? = some level → old[key]? = some level ∨ level ≤ senderPl

theorem checkUserMap_isOk (ok : (checkUserMap sender old new senderPl : Check Id Unit).isOk = true) :
    UsersWithin sender (levelMap old) (levelMap new) senderPl := by
  obtain ⟨_, removed, ok⟩ := isOk_bind ok
  have removed := forM_isOk (congrArg isOk removed)
  have added := forM_isOk ok
  constructor
  · intro key level other entry high
    by_contra changed
    exact rejectIf_isOk (removed (key, level) (mem_changedEntries.mpr ⟨entry, changed⟩)) ⟨other, high⟩
  · intro key level entry
    by_cases unchanged : (levelMap old)[key]? = some level
    · exact .inl unchanged
    · exact .inr (not_lt.mp (rejectIf_isOk (added (key, level) (mem_changedEntries.mpr ⟨entry, unchanged⟩))))

theorem checkPowerLevelsRules_isOk {newContent prevPl : C}
    (ok : (checkPowerLevelsRules sender newContent prevPl senderPl : Check Id Unit).isOk = true) :
    (checkScalarPl "users_default" (getUsersDefault prevPl) (getUsersDefault newContent)
        senderPl : Check Id Unit).isOk = true ∧
      (checkUserMap sender (visitUserPowerLevels prevPl) (visitUserPowerLevels newContent)
        senderPl : Check Id Unit).isOk = true := by
  obtain ⟨_, default, ok⟩ := isOk_bind ok
  refine ⟨congrArg isOk default, ?_⟩
  iterate 8 obtain ⟨_, _, ok⟩ := isOk_bind ok
  exact ok

theorem checkPowerLevelsEvent_isOk (ok : (checkPowerLevelsEvent event state version).isOk = true) :
    (∀ create, isV12Plus version = true → state mRoomCreate "" = some create →
      (checkNoCreators event.content create.content : Check Id Unit).isOk = true) ∧
    ∀ prev, state mRoomPowerLevels "" = some prev → (checkPowerLevelsRules event.sender event.content prev.content
        (getSenderPowerLevel event.sender state version) : Check Id Unit).isOk = true := by
  obtain ⟨_, _, ok⟩ := isOk_bind ok
  obtain ⟨_, _, ok⟩ := isOk_bind ok
  obtain ⟨_, creators, ok⟩ := isOk_bind ok
  obtain ⟨_, _, ok⟩ := isOk_bind ok
  obtain ⟨_, _, ok⟩ := isOk_bind ok
  constructor
  · intro _ late held
    rw [when, if_pos late, held] at creators
    exact congrArg isOk creators
  · intro _ held
    rw [held] at ok
    exact ok

variable [DecidableEq Id] [ToString Id]

theorem checkAuth_powerLevels (ok : (checkAuthWithContext event state version verifier authContext).isOk = true)
    (levels : event.eventType = mRoomPowerLevels) : (checkPowerLevelsEvent event state version).isOk = true := by
  have ordinary : event.eventType ≠ mRoomCreate := by
    rw [levels]
    decide
  have ok := checkAuth_ordinary ok ordinary
  iterate 8 obtain ⟨_, _, ok⟩ := isOk_bind ok
  obtain ⟨_, checked, ok⟩ := isOk_bind ok
  rw [when, if_pos levels] at checked
  exact congrArg isOk checked

end

section

omit [EventContent C] in
theorem stored_create (levels : event.eventType = mRoomPowerLevels) : stored event state mRoomCreate "" = state mRoomCreate "" := by
  unfold stored
  rw [if_neg]
  rintro ⟨same, -⟩
  exact absurd (levels.symm.trans same) (by decide)

omit [EventContent C] in
theorem stored_powerLevels (levels : event.eventType = mRoomPowerLevels) :
    stored event state mRoomPowerLevels "" = if event.stateKey = some "" then some event else state mRoomPowerLevels "" := by
  unfold stored
  rw [levels]
  by_cases own : event.stateKey = some ""
  · rw [if_pos own, if_pos ⟨rfl, own⟩]
  · rw [if_neg own, if_neg fun both => own both.2]

def LevelsRead (content : C) : Prop :=
  ∀ user, (levelMap (EventContent.visitUserPowerLevels content))[user]? = EventContent.getUserPowerLevel content user

theorem getSenderPowerLevel_of_levels (created : state mRoomCreate "" = some create)
    (held : state mRoomPowerLevels "" = some prev) : getSenderPowerLevel user state version =
      if isV12Plus version && isCreator create user then maxPowerLevelRust
      else ((getUserPowerLevel prev.content user).or (getUsersDefault prev.content)).getD
        defaultPlUser := by
  unfold getSenderPowerLevel
  rw [created, held]
  rfl

section

variable {create old : LeanEvent Id C} (created : state mRoomCreate "" = some create)
  (held : state mRoomPowerLevels "" = some old) (levels : event.eventType = mRoomPowerLevels)
  (oldRead : LevelsRead old.content) (newRead : LevelsRead event.content)
include created held levels oldRead newRead

theorem level_bounded (positive : 0 ≤ senderPl) (default : (getUsersDefault old.content).getD defaultPlUser ≤ senderPl)
    (defaults : (checkScalarPl "users_default" (getUsersDefault old.content)
      (getUsersDefault event.content) senderPl : Check Id Unit).isOk = true)
    (within : UsersWithin event.sender (levelMap (visitUserPowerLevels old.content))
      (levelMap (visitUserPowerLevels event.content)) senderPl) (own : event.stateKey = some "")
    (user : String) : getSenderPowerLevel user (stored event state) version ≤
      max (getSenderPowerLevel user state version) senderPl := by
  have createdAfter : stored event state mRoomCreate "" = some create := (stored_create levels).trans created
  have heldAfter : stored event state mRoomPowerLevels "" = some event := by
    rw [stored_powerLevels levels, if_pos own]
  rw [getSenderPowerLevel_of_levels createdAfter heldAfter, getSenderPowerLevel_of_levels created held]
  split
  · exact le_max_left _ _
  · cases entry : getUserPowerLevel event.content user with
    | some level =>
      rcases within.bounded user level ((newRead user).trans entry) with unchanged | low
      · rw [(oldRead user).symm.trans unchanged]
        exact le_max_left _ _
      · exact le_max_of_le_right low
    | none =>
      apply le_max_of_le_right
      cases given : getUsersDefault event.content with
      | none => exact positive
      | some level =>
        rw [given] at defaults
        rcases checkScalarPl_isOk defaults with same | low
        · rw [same] at default
          exact default
        · exact low

theorem level_kept (within : UsersWithin event.sender (levelMap (visitUserPowerLevels old.content))
      (levelMap (visitUserPowerLevels event.content)) senderPl) (own : event.stateKey = some "")
    (other : user ≠ event.sender) (entry : getUserPowerLevel old.content user = some level)
    (high : senderPl ≤ level) :
    getSenderPowerLevel user (stored event state) version = getSenderPowerLevel user state version := by
  have createdAfter : stored event state mRoomCreate "" = some create := (stored_create levels).trans created
  have heldAfter : stored event state mRoomPowerLevels "" = some event := by
    rw [stored_powerLevels levels, if_pos own]
  have kept := within.kept user level other ((oldRead user).trans entry) high
  rw [getSenderPowerLevel_of_levels createdAfter heldAfter, getSenderPowerLevel_of_levels created held, entry,
    (newRead user).symm.trans kept]
  rfl

end

theorem getSenderPowerLevel_unstored (levels : event.eventType = mRoomPowerLevels) (elsewhere : event.stateKey ≠ some "")
    (user : String) : getSenderPowerLevel user (stored event state) version = getSenderPowerLevel user state version := by
  unfold getSenderPowerLevel
  rw [stored_create levels, stored_powerLevels levels, if_neg elsewhere]

variable {floatToI64 : Number → Option Int} {event : LeanEvent Id (JsonContent floatToI64)}
  {state : StateProvider Id (JsonContent floatToI64)} [DecidableEq Id] [ToString Id]

theorem levelsRead (content : JsonContent floatToI64) : LevelsRead content := by
  intro _
  have visited : Sorted.assignAll (visitUserPowerLevels content) = visitUserPowerLevels content :=
    JsonContent.levels_sorted.assignAll_self
  unfold levelMap
  rw [Sorted.getElem?_eq_lookup, Sorted.toList_foldl_insert, visited]
  exact JsonContent.lookup_levels

/-- An accepted power levels event raises nobody above its sender, and changes no entry that is as high as he. -/
theorem no_escalation {create old : LeanEvent Id (JsonContent floatToI64)}
    (created : state mRoomCreate "" = some create) (held : state mRoomPowerLevels "" = some old)
    (levels : event.eventType = mRoomPowerLevels) (accepted : checkAuth event state version verifier = .ok ())
    (positive : 0 ≤ getSenderPowerLevel event.sender state version)
    (default : (EventContent.getUsersDefault old.content).getD defaultPlUser ≤
      getSenderPowerLevel event.sender state version) :
    (∀ user, getSenderPowerLevel user (stored event state) version ≤
      max (getSenderPowerLevel user state version) (getSenderPowerLevel event.sender state version)) ∧
    ∀ user level, user ≠ event.sender → EventContent.getUserPowerLevel old.content user = some level →
      getSenderPowerLevel event.sender state version ≤ level →
      getSenderPowerLevel user (stored event state) version = getSenderPowerLevel user state version := by
  have checked := (checkPowerLevelsEvent_isOk (checkAuth_powerLevels (congrArg isOk accepted) levels)).2 old held
  obtain ⟨defaults, users⟩ := checkPowerLevelsRules_isOk checked
  have within := checkUserMap_isOk users
  by_cases own : event.stateKey = some ""
  · constructor
    · intro user
      exact level_bounded created held levels (levelsRead _) (levelsRead _) positive default defaults within own user
    · intro user level other entry high
      exact level_kept created held levels (levelsRead _) (levelsRead _) within own other entry high
  · constructor
    · intro user
      rw [getSenderPowerLevel_unstored levels own]
      exact le_max_left _ _
    · intro user level other entry high
      exact getSenderPowerLevel_unstored levels own user

end

namespace Escalation.Sample

open JsonContent.Sample

def entries : LeanEvent Nat (JsonContent fun _ => none) :=
  stateEvent 3 mRoomPowerLevels "" "@a:x"
    (levels [("@a:x", 100), ("@c:x", 100)] (by unfold Sorted.SortedKeys; decide))

def moreEntries : LeanEvent Nat (JsonContent fun _ => none) :=
  stateEvent 4 mRoomPowerLevels "" "@a:x"
    (levels [("@a:x", 100), ("@b:x", 50), ("@c:x", 100)] (by unfold Sorted.SortedKeys; decide))

def room : StateProvider Nat (JsonContent fun _ => none) := fun eventType stateKey =>
  [JsonContent.Sample.create "10", joinA, entries].find? fun event =>
    event.eventType = eventType ∧ event.stateKey = some stateKey

theorem room_no_escalation :
    getSenderPowerLevel "@b:x" (stored moreEntries room) .v2 ≤
      max (getSenderPowerLevel "@b:x" room .v2) (getSenderPowerLevel "@a:x" room .v2) ∧
    getSenderPowerLevel "@c:x" (stored moreEntries room) .v2 = getSenderPowerLevel "@c:x" room .v2 := by
  obtain ⟨bounded, kept⟩ := @no_escalation Nat .v2 none _ moreEntries room _ _ (JsonContent.Sample.create "10") entries
    rfl rfl rfl (by decide) (by decide) (by decide)
  exact ⟨bounded "@b:x", kept "@c:x" 100 (by decide) (by decide) (by decide)⟩

end Escalation.Sample

end Rezzy.Auth
