import Rezzy.Auth.Escalation
import Rezzy.Auth.Footprint

namespace Rezzy.Auth

open Basespec Json Outcome List EventContent JsonContent Except Option

variable {Id : Type} {floatToI64 : Number → Option Int} {event create : LeanEvent Id (JsonContent floatToI64)}
  {state : StateProvider Id (JsonContent floatToI64)} {version : StateResVersion} {verifier : Option (EventVerifier Id)}
  {user : String}

/-- The content of the create event names its sender in one of the two places that rule 10.4 looks at. -/
def NamesSender (create : LeanEvent Id (JsonContent floatToI64)) : Prop :=
  EventContent.getCreator create.content = some create.sender ∨
    EventContent.hasAdditionalCreator create.content create.sender = true

def isUserKey (user : String) : Prop := user.toList.head? = some '@' ∧ user.toList.contains ':' = true

structure Hosts (create : LeanEvent Id (JsonContent floatToI64)) : Prop where
  unflagged : create.rejected = false
  recognised : recognisedRoomVersion create = true
  keyed : isUserKey create.sender
  federates : EventContent.getMFederate create.content = some false → domainMatches create.sender create.sender = true

def CreatorsOut [DecidableEq Id] [ToString Id] (version : StateResVersion) (create : LeanEvent Id (JsonContent floatToI64)) : Prop :=
  ∀ (state : StateProvider Id (JsonContent floatToI64)) (event : LeanEvent Id (JsonContent floatToI64))
    (verifier : Option (EventVerifier Id)), state mRoomCreate "" = some create → event.eventType = mRoomPowerLevels →
    checkAuth event state version verifier = .ok () →
    ∀ user, isCreator create user = true → EventContent.hasUserInUsers event.content user = false

section

theorem getLast?_forM_isOk {α : Type} {list : List α} {error : α → AuthError Id}
    (ok : (list.getLast?.forM fun item => (.error (error item) : Check Id Unit)).isOk = true) : list = [] := by
  cases last : list.getLast? with
  | none => exact getLast?_eq_none_iff.mp last
  | some item =>
    rw [last] at ok
    cases ok

theorem checkNoCreators_isOk {newContent createContent : JsonContent floatToI64}
    (ok : (checkNoCreators newContent createContent : Check Id Unit).isOk = true) :
    (∀ creator, getCreator createContent = some creator → hasUserInUsers newContent creator = false) ∧
    ∀ user, hasAdditionalCreator createContent user = true → hasUserInUsers newContent user = false := by
  obtain ⟨_, creator, ok⟩ := isOk_bind ok
  constructor
  · intro _ given
    rw [given] at creator
    exact Bool.eq_false_iff.mpr (rejectIf_ok creator)
  · intro user additional
    rw [Bool.eq_false_iff]
    intro listed
    have none := filter_eq_nil_iff.mp (getLast?_forM_isOk ok) user (hasUser_iff.mp listed)
    exact none additional

variable [DecidableEq Id] [ToString Id]

theorem listed_isUserKey (accepted : checkAuth event state version verifier = .ok ())
    (levels : event.eventType = mRoomPowerLevels) (listed : hasUserInUsers event.content user = true) :
    isUserKey user := by
  have ok := checkAuth_powerLevels (congrArg isOk accepted) levels
  iterate 4 obtain ⟨_, _, ok⟩ := isOk_bind ok
  obtain ⟨_, keys, _⟩ := isOk_bind ok
  have none := filter_eq_nil_iff.mp (getLast?_forM_isOk (congrArg isOk keys)) user (hasUser_iff.mp listed)
  by_contra malformed
  apply none
  simp only [Bool.or_eq_true, decide_eq_true_iff, Bool.not_eq_true']
  by_cases leading : user.toList.head? = some '@'
  · exact .inr (Bool.eq_false_iff.mpr fun separated => malformed ⟨leading, separated⟩)
  · exact .inl leading

theorem hosts_of_accepted (accepted : checkAuth event state version verifier = .ok ())
    (created : state mRoomCreate "" = some create) (levels : event.eventType = mRoomPowerLevels)
    (listed : EventContent.hasUserInUsers event.content create.sender = true) : Hosts create := by
  have ordinary : event.eventType ≠ mRoomCreate := by
    rw [levels]
    decide
  have ok : (checkAuth event state version verifier).isOk = true := congrArg Except.isOk accepted
  have late := checkAuth_ordinary ok ordinary
  obtain ⟨_, _, ok⟩ := isOk_bind ok
  obtain ⟨_, flagged, ok⟩ := isOk_bind ok
  obtain ⟨_, unflagged, _⟩ := bind_eq_ok.mp flagged
  obtain ⟨_, validated, late⟩ := isOk_bind late
  obtain ⟨_, federated, late⟩ := isOk_bind late
  constructor
  · have free := rejectIf_ok unflagged
    rw [created] at free
    exact Bool.eq_false_iff.mpr free
  · exact recognised_of_validated created validated
  · exact listed_isUserKey accepted levels listed
  · intro closed
    unfold checkFederation at federated
    rw [created] at federated
    have matching := rejectIf_ok federated
    rw [not_and, Bool.not_eq_true', Bool.not_eq_false] at matching
    have near := matching closed
    unfold domainMatches at near ⊢
    simp only [Bool.and_eq_true, decide_eq_true_iff] at near ⊢
    exact ⟨⟨near.1.2, near.1.2⟩, trivial⟩

end

section

open JsonContent.Sample

variable (create)

def selfLevels : LeanEvent Id (JsonContent floatToI64) where
  eventId := create.eventId
  eventType := mRoomPowerLevels
  stateKey := some ""
  powerLevel := 0
  originServerTs := 0
  sender := create.sender
  content := levels [(create.sender, 100)] (List.pairwise_singleton _ _)
  prevEvents := []
  authEvents := []
  depth := 0
  rejected := false

def young : StateProvider Id (JsonContent floatToI64) := fun eventType stateKey =>
  if eventType = mRoomCreate ∧ stateKey = "" then some create
  else if eventType = mRoomMember ∧ stateKey = create.sender then
    some { selfLevels create with eventType := mRoomMember, stateKey := some create.sender, content := text fieldMembership memJoin }
  else none

variable {create}

theorem selfLevels_users : (selfLevels create).content.objectAt fieldUsers =
    some [(create.sender, Value.number (Number.ofInt 100))] :=
  @levels_objectAt floatToI64 [(create.sender, 100)] (pairwise_singleton _ _)

theorem selfLevels_get (other : field ≠ fieldUsers) : (selfLevels create).content.get field = none :=
  @levels_get floatToI64 [(create.sender, 100)] (pairwise_singleton _ _) field other

theorem selfLevels_keys : visitUserKeys (selfLevels create).content = [create.sender] := by
  show (((selfLevels create).content.objectAt fieldUsers).getD []).map Prod.fst = _
  rw [selfLevels_users]
  rfl

theorem selfLevels_hasUser : hasUserInUsers (selfLevels create).content user = true ↔ user = create.sender := by
  rw [hasUser_iff, selfLevels_keys]
  exact mem_singleton

theorem selfLevels_integers (strict : Bool) : EventContent.findNonIntegerScalarPl (selfLevels create).content = none ∧
      EventContent.findNonIntegerMapPl (selfLevels create).content = none ∧
      EventContent.hasNonIntegerUsersPl (selfLevels create).content strict = false := by
  have scalars : ∀ scalar ∈ scalarPls, scalar.1 ≠ fieldUsers := by decide
  have maps : ∀ map ∈ mapPls, map.1 ≠ fieldUsers := by decide
  refine ⟨?_, ?_, ?_⟩
  · show (selfLevels create).content.findNonIntegerScalarPl = none
    unfold JsonContent.findNonIntegerScalarPl
    rw [map_eq_none_iff, find?_eq_none]
    intro scalar mem
    rw [selfLevels_get (scalars scalar mem)]
    exact Bool.false_ne_true
  · show (selfLevels create).content.findNonIntegerMapPl = none
    unfold JsonContent.findNonIntegerMapPl
    rw [map_eq_none_iff, find?_eq_none]
    intro map mem
    rw [selfLevels_get (maps map mem)]
    exact Bool.false_ne_true
  · obtain ⟨val, held, inner⟩ := bind_eq_some_iff.mp (@selfLevels_users _ _ create)
    have integer : (Value.number (Number.ofInt 100)).asI64 = some 100 := by decide
    show (selfLevels create).content.hasNonIntegerUsersPl strict = false
    unfold JsonContent.hasNonIntegerUsersPl
    rw [held]
    simp [inner, isInteger, Value.isI64, coerceJsonToI64, integer]

section

theorem young_create : young create mRoomCreate "" = some create := rfl

theorem young_levels : young create mRoomPowerLevels "" = none := rfl

theorem young_entered : membershipOf (young create) create.sender = some memJoin := by
  have held : young create mRoomMember create.sender = some { selfLevels create with
      eventType := mRoomMember, stateKey := some create.sender, content := text fieldMembership memJoin } := by
    unfold young
    rw [if_neg fun same => absurd same.1 (by decide), if_pos ⟨rfl, rfl⟩]
  unfold membershipOf
  rw [held]
  rfl

theorem young_unflagged (hosts : Hosts create) (eventType stateKey : String) :
    rejectIfFlaggedAuthState (young create) eventType stateKey = .ok () := by
  apply rejectIfFlagged_ok
  intro _ held
  unfold young at held
  split at held
  · exact Option.some.inj held ▸ hosts.unflagged
  · split at held
    · exact Option.some.inj held ▸ rfl
    · cases held

theorem selfLevels_rules (hosts : Hosts create) (unnamed : ¬NamesSender create) (version : StateResVersion) :
    checkPowerLevelsEvent (selfLevels create) (young create) version = .ok () := by
  obtain ⟨number, numbered⟩ := (validated_of_recognised young_create hosts.recognised).2
  obtain ⟨scalars, maps, users⟩ := @selfLevels_integers _ _ create (decide (10 ≤ number))
  have creators : (checkNoCreators (selfLevels create).content create.content : Check Id Unit) = .ok () := by
    have others : (visitUserKeys (selfLevels create).content).filter (hasAdditionalCreator create.content) = [] := by
      rw [selfLevels_keys, filter_singleton, Bool.eq_false_iff.mpr fun added => unnamed (.inr added)]
      rfl
    unfold checkNoCreators
    rw [others]
    cases named : getCreator create.content with
    | none => rfl
    | some creator =>
      have other : ¬hasUserInUsers (selfLevels create).content creator = true := by
        rw [selfLevels_hasUser]
        rintro rfl
        exact unnamed (.inl named)
      dsimp only [Option.forM]
      rw [rejectIf, if_neg other]
      rfl
  have keys : (visitUserKeys (selfLevels create).content).filter
      (fun user => user.toList.head? ≠ some '@' || !user.toList.contains ':') = [] := by
    obtain ⟨leading, separated⟩ := hosts.keyed
    rw [selfLevels_keys]
    simp [leading, contains_iff_mem.mp separated]
  unfold checkPowerLevelsEvent
  dsimp only
  rw [numbered, young_create, young_levels, keys]
  simp only [when, bind, Except.bind, ge_iff_le, scalars, maps, users, creators, rejectIf, Option.forM, Bool.false_eq_true,
    if_false, getLast?_nil, pure, Except.pure, ite_self]

theorem selfLevels_accepted [DecidableEq Id] [ToString Id] (hosts : Hosts create) (unnamed : ¬NamesSender create)
    (version : StateResVersion) : checkAuth (selfLevels create) (young create) version none = .ok () := by
  have syntactic : checkSyntax (selfLevels create) version = .ok () := by cases version <;> rfl
  have flagged : rejectFlaggedAuthState (selfLevels create) (young create) = .ok () := by
    rw [rejectFlaggedAuthState, young_unflagged hosts, young_unflagged hosts, young_unflagged hosts]
    rfl
  obtain ⟨label, validated⟩ := (validated_of_recognised young_create hosts.recognised).1
  have federation : checkFederation (selfLevels create) (young create) = .ok () := by
    rw [checkFederation, young_create]
    dsimp only [Option.forM]
    rw [rejectIf, if_neg]
    rintro ⟨closed, cross⟩
    have near : domainMatches (selfLevels create).sender create.sender = true := hosts.federates closed
    rw [near] at cross
    cases cross
  have sender : checkSenderMembership (selfLevels create) (young create) = .ok () := by
    have entered : membershipOf (young create) (selfLevels create).sender = some memJoin := young_entered
    rw [checkSenderMembership, entered]
    simp only [rejectIf, Option.getD_some, memJoin_ne_memBan, if_false, ne_eq, not_true_eq_false, false_and, bind,
      Except.bind]
  have level : checkRequiredLevel (selfLevels create) (young create) version = .ok () := by
    have outside : ¬((selfLevels create).eventType ≠ mRoomMember ∧
        ¬((young create mRoomPowerLevels "").isNone = true ∧ (selfLevels create).eventType = mRoomPowerLevels) ∧
        getSenderPowerLevel (selfLevels create).sender (young create) version <
          getRequiredPowerLevel (selfLevels create).eventType (selfLevels create).stateKey (young create)) := by
      rintro ⟨-, later, -⟩
      exact later ⟨rfl, rfl⟩
    unfold checkRequiredLevel rejectIf
    exact if_neg outside
  have stateKey : checkOwnStateKey (selfLevels create) = .ok () := rfl
  have kinds (eventType : String) (other : eventType ≠ mRoomPowerLevels) (check : Check Id Unit) :
      when ((selfLevels create).eventType = eventType) check = .ok () := if_neg fun same => other same.symm
  have ordinary : checkOrdinary (selfLevels create) (young create) version none none = .ok () := by
    rw [checkOrdinary, validated, federation, checkAliases, kinds mRoomAliases (by decide), checkRedaction,
      kinds mRoomRedaction (by decide), sender, level, stateKey, selfLevels_rules hosts unnamed,
      kinds mRoomMember (by decide), when, when]
    simp only [Option.forM, pure, Except.pure, bind, Except.bind, ite_self]
  have created : (selfLevels create).eventType ≠ mRoomCreate := by
    show mRoomPowerLevels ≠ mRoomCreate
    decide
  rw [checkAuth, checkAuthWithContext, syntactic, flagged, if_neg created]
  exact ordinary

end

theorem creators_out_iff [DecidableEq Id] [ToString Id] (late : isV12Plus version = true) :
    CreatorsOut version create ↔ NamesSender create ∨ ¬Hosts create := by
  constructor
  · intro out
    by_contra neither
    obtain ⟨unnamed, hosts⟩ := not_or.mp neither
    have listed := out (young create) (selfLevels create) none rfl rfl
      (selfLevels_accepted (not_not.mp hosts) unnamed version) create.sender (by simp [isCreator])
    rw [Bool.eq_false_iff, Ne, selfLevels_hasUser] at listed
    exact listed rfl
  · intro excluded state event verifier created levels accepted user creator
    have checked := (checkPowerLevelsEvent_isOk (checkAuth_powerLevels (congrArg isOk accepted) levels)).1 create
      late created
    obtain ⟨named, additional⟩ := checkNoCreators_isOk checked
    unfold isCreator at creator
    rw [Bool.or_eq_true, decide_eq_true_iff] at creator
    rcases creator with rfl | added
    · rcases excluded with (names | names) | barren
      · exact named _ names
      · exact additional _ names
      · rw [Bool.eq_false_iff]
        exact fun listed => barren (hosts_of_accepted accepted created levels listed)
    · exact additional user added

end

namespace Creators.Sample

def founded : LeanEvent Nat (JsonContent fun _ => none) := JsonContent.Sample.create "12"

def named : LeanEvent Nat (JsonContent fun _ => none) :=
  JsonContent.Sample.stateEvent 1 mRoomCreate "" "@a:x" (JsonContent.Sample.text fieldCreator "@a:x")

end Creators.Sample

open Creators.Sample in
/-- The creator of a room lists himself, and the event is accepted. -/
theorem founder_listed : young founded mRoomCreate "" = some founded ∧
    checkAuth (selfLevels founded) (young founded) .v2_1 none = .ok () ∧ isCreator founded founded.sender = true ∧
    EventContent.hasUserInUsers (selfLevels founded).content founded.sender = true :=
  ⟨rfl, by decide, by decide, by decide⟩

open Creators.Sample in
theorem creators_out_named : CreatorsOut .v2_1 named := (creators_out_iff rfl).mpr (.inl (.inl (by decide)))

end Rezzy.Auth
