import Rezzy.Auth.Chain
import Rezzy.Resolve.V3

namespace Rezzy.Resolve

open Basespec Auth Std.ExtTreeMap
open EventContent (getCreator getMembership getUserPowerLevel)

inductive PromotionScope where
  | creatorOnly
  | anyAuthorizedSender
deriving DecidableEq, Repr

section

variable {Id C : Type} [DecidableEq Id] [ToString Id] [EventContent C]

/-- A canonical snapshot: every event stands under its own key, and its id names no other event. -/
structure BranchAuth (Id C : Type) [ToString Id] where
  state : RoomState Id C
  keyed : ∀ (key : Key) (event : LeanEvent Id C), state[key]? = some event →
    key.1 = ⟨event.eventType⟩ ∧ some key.2 = event.stateKey
  named : ∀ (key other : Key) (event event' : LeanEvent Id C), state[key]? = some event →
    state[other]? = some event' → toString event.eventId = toString event'.eventId → event = event'

def BranchAuth.provider (branch : BranchAuth Id C) : StateProvider Id C := branch.state.provider

def isSenderCreator (state : StateProvider Id C) (user : String) : Bool := (state mRoomCreate "").any (isCreator · user)

def listedLevel (plEvent : LeanEvent Id C) (user : String) : Int :=
  (getUserPowerLevel plEvent.content user).getD ((EventContent.getUsersDefault plEvent.content).getD 0)

def priorPowerLevel (state : StateProvider Id C) (user : String) : Int :=
  (state mRoomPowerLevels "").elim 0 (listedLevel · user)

/-- The event that the grant signs as its witness and the user it is about, if it is the user's current join. -/
def signedJoin (getCdoActiveMember : C → Option String) (grant : LeanEvent Id C) (branch : BranchAuth Id C) :
    Option (LeanEvent Id C × String) := do
  let signedWitness ← getCdoActiveMember grant.content
  let entry ← branch.state.toList.find? fun entry => toString entry.2.eventId = signedWitness
  let witness := entry.2
  if witness.eventType ≠ mRoomMember ∨ getMembership witness.content ≠ some memJoin then none
  else do
    let target ← witness.stateKey
    let canonicalMember ← branch.provider mRoomMember target
    if canonicalMember.eventId ≠ witness.eventId then none else some (witness, target)

def certifyPromotionGrant (getCdoActiveMember : C → Option String) (grant : LeanEvent Id C) (branch : BranchAuth Id C)
    (promotionScope : PromotionScope) : Option (CertifiedPromotionGrant Id) :=
  if grant.eventType ≠ mRoomPowerLevels then none
  else if promotionScope = .creatorOnly ∧ ¬isSenderCreator branch.provider grant.sender then none
  else do
    let (witness, target) ← signedJoin getCdoActiveMember grant branch
    let targetPowerLevel := listedLevel grant target
    let senderPowerLevel := getSenderPowerLevel grant.sender branch.provider .v3
    if senderPowerLevel < targetPowerLevel then none
    else if priorPowerLevel branch.provider target < targetPowerLevel then
      some ⟨grant.eventId, target, targetPowerLevel, witness.eventId⟩
    else none

def granted (state : StateProvider Id C) (grant : LeanEvent Id C) : StateProvider Id C := fun eventType stateKey =>
  if eventType = mRoomPowerLevels ∧ stateKey = "" then some grant else state eventType stateKey

/-- The grant may be issued under its scope, and its witness is the join that `target` has in the branch. -/
structure Witnessed (getCdoActiveMember : C → Option String) (grant : LeanEvent Id C) (branch : BranchAuth Id C)
    (scope : PromotionScope) (target : String) : Prop where
  powerLevels : grant.eventType = mRoomPowerLevels
  inScope : scope = .creatorOnly → isSenderCreator branch.provider grant.sender = true
  joined : ∃ witness : LeanEvent Id C, branch.provider mRoomMember target = some witness ∧
    getMembership witness.content = some memJoin ∧
    getCdoActiveMember grant.content = some (toString witness.eventId)

/-- The formal rule, with one notion of level. -/
def GrantAdmin (getCdoActiveMember : C → Option String) (grant : LeanEvent Id C) (branch : BranchAuth Id C)
    (scope : PromotionScope) : Prop :=
  ∃ target, Witnessed getCdoActiveMember grant branch scope target ∧
    getSenderPowerLevel target (granted branch.provider grant) .v3 ≤
      getSenderPowerLevel grant.sender branch.provider .v3 ∧
    getSenderPowerLevel target branch.provider .v3 < getSenderPowerLevel target (granted branch.provider grant) .v3

/-- The user whom the create event names as the creator. -/
def creatorOfRecord (state : StateProvider Id C) : Option String :=
  (state mRoomCreate "").map fun create => (getCreator create.content).getD create.sender

/-- The target has a level in the branch that no power levels event gives: it is a creator, or the creator of record
    while there is no power levels event. -/
def Misjudged (state : StateProvider Id C) (grant : LeanEvent Id C) (target : String) : Prop :=
  priorPowerLevel state target < listedLevel grant target ∧
    (isSenderCreator state target = true ∨
      state mRoomPowerLevels "" = none ∧ creatorOfRecord state = some target ∧ listedLevel grant target ≤ 100)

end

variable {Id C : Type} [DecidableEq Id] [ToString Id] [EventContent C] {getCdoActiveMember : C → Option String}
  {grant : LeanEvent Id C} {branch : BranchAuth Id C} {scope : PromotionScope} {target : String}

omit [DecidableEq Id] [EventContent C] in
theorem BranchAuth.key_of_provider (found : branch.provider eventType stateKey = some event) :
    event.eventType = eventType ∧ event.stateKey = some stateKey := by
  obtain ⟨own, key⟩ := branch.keyed _ _ found
  exact ⟨(congrArg EventType.asStr own).symm, key.symm⟩

omit [DecidableEq Id] [EventContent C] in
theorem BranchAuth.find_named (found : branch.state[key]? = some witness) :
    (branch.state.toList.find? fun entry => toString entry.2.eventId = toString witness.eventId) =
      some (key, witness) := by
  have listed := mem_toList_iff_getElem?_eq_some.mpr found
  cases first : branch.state.toList.find? fun entry => toString entry.2.eventId = toString witness.eventId with
  | none => exact absurd (List.find?_eq_none.mp first _ listed) (by simp)
  | some entry =>
    obtain ⟨other, event⟩ := entry
    have known := mem_toList_iff_getElem?_eq_some.mp (List.mem_of_find?_eq_some first)
    have same : event = witness := branch.named other key event witness known found
      (by simpa using List.find?_some first)
    have here := branch.keyed other event known
    have there := branch.keyed key witness found
    subst same
    have keys : other = key := Prod.ext (here.1.trans there.1.symm) (Option.some.inj (here.2.trans there.2.symm))
    rw [keys]

omit [DecidableEq Id] in
theorem Witnessed.unique (left : Witnessed getCdoActiveMember grant branch scope target)
    (right : Witnessed getCdoActiveMember grant branch scope other) : target = other := by
  obtain ⟨witness, found, _, signed⟩ := left.joined
  obtain ⟨witness', found', _, signed'⟩ := right.joined
  have ids := Option.some.inj (signed.symm.trans signed')
  have same := branch.named _ _ _ _ found found' ids
  have key := (BranchAuth.key_of_provider found).2
  rw [same, (BranchAuth.key_of_provider found').2] at key
  exact (Option.some.inj key).symm

theorem signedJoin_iff : signedJoin getCdoActiveMember grant branch = some (witness, target) ↔
    branch.provider mRoomMember target = some witness ∧ getMembership witness.content = some memJoin ∧
      getCdoActiveMember grant.content = some (toString witness.eventId) := by
  constructor
  · intro taken
    obtain ⟨signed, read, onward⟩ := Option.bind_eq_some_iff.mp taken
    obtain ⟨⟨key, event⟩, first, onward⟩ := Option.bind_eq_some_iff.mp onward
    dsimp only at onward
    split at onward
    · cases onward
    · rename_i accepted
      obtain ⟨user, own, onward⟩ := Option.bind_eq_some_iff.mp onward
      obtain ⟨canonical, found, onward⟩ := Option.bind_eq_some_iff.mp onward
      split at onward
      · cases onward
      · rename_i same
        cases onward
        have known := mem_toList_iff_getElem?_eq_some.mp (List.mem_of_find?_eq_some first)
        have equal := branch.named _ _ _ _ found known (congrArg toString (not_not.mp same))
        rw [not_or, not_not, not_not] at accepted
        refine ⟨equal ▸ found, accepted.2, ?_⟩
        have names : toString witness.eventId = signed := by simpa using List.find?_some first
        rw [read, names]
  · rintro ⟨found, joined, signed⟩
    obtain ⟨mem, own⟩ := BranchAuth.key_of_provider found
    have first := BranchAuth.find_named found
    unfold signedJoin
    simp only [signed, Option.bind_eq_bind, Option.bind_some, first, mem, joined, own, found, ne_eq,
      not_true_eq_false, or_self, if_false]

theorem certifyPromotionGrant_isSome : (certifyPromotionGrant getCdoActiveMember grant branch scope).isSome ↔
    ∃ target, Witnessed getCdoActiveMember grant branch scope target ∧
      listedLevel grant target ≤ getSenderPowerLevel grant.sender branch.provider .v3 ∧
      priorPowerLevel branch.provider target < listedLevel grant target := by
  unfold certifyPromotionGrant
  split
  · rename_i other
    exact ⟨nofun, fun ⟨_, witnessed, _⟩ => absurd witnessed.powerLevels other⟩
  · rename_i powerLevels
    split
    · rename_i refused
      exact ⟨nofun, fun ⟨_, witnessed, _⟩ => absurd (witnessed.inScope refused.1) refused.2⟩
    · rename_i inScope
      have inScope : scope = .creatorOnly → isSenderCreator branch.provider grant.sender = true :=
        fun only => by_contra fun other => inScope ⟨only, other⟩
      constructor
      · intro certified
        obtain ⟨certificate, granted⟩ := Option.isSome_iff_exists.mp certified
        obtain ⟨⟨witness, target⟩, taken, onward⟩ := Option.bind_eq_some_iff.mp granted
        dsimp only at onward
        split at onward
        · cases onward
        · rename_i dominates
          split at onward
          · rename_i raises
            exact ⟨target, ⟨not_not.mp powerLevels, inScope, witness, signedJoin_iff.mp taken⟩,
              Int.not_lt.mp dominates, raises⟩
          · cases onward
      · rintro ⟨target, witnessed, dominates, raises⟩
        obtain ⟨witness, joined⟩ := witnessed.joined
        rw [signedJoin_iff.mpr joined]
        dsimp only [bind, Option.bind]
        rw [if_neg (Int.not_lt.mpr dominates), if_pos raises]
        rfl

omit [DecidableEq Id] [ToString Id] in
theorem getSenderPowerLevel_v3 (state : StateProvider Id C) (user : String) : getSenderPowerLevel user state .v3 =
    if isSenderCreator state user then maxPowerLevelRust
    else (state mRoomPowerLevels "").elim (if creatorOfRecord state = some user then 100 else 0)
      (listedLevel · user) := by
  unfold getSenderPowerLevel isSenderCreator creatorOfRecord listedLevel
  rw [show isV12Plus .v3 = true from rfl, Bool.true_and]
  split
  · rfl
  · cases state mRoomPowerLevels "" with
    | some plEvent =>
      simp only [Option.elim_some]
      cases getUserPowerLevel plEvent.content user <;> rfl
    | none =>
      cases state mRoomCreate "" with
      | some create => simp [defaultPlUser]
      | none => rfl

omit [DecidableEq Id] [ToString Id] in
theorem getSenderPowerLevel_granted (state : StateProvider Id C) (user : String) :
    getSenderPowerLevel user (granted state grant) .v3 =
      if isSenderCreator state user then maxPowerLevelRust else listedLevel grant user := by
  have create : granted state grant mRoomCreate "" = state mRoomCreate "" := if_neg (by decide)
  have levels : granted state grant mRoomPowerLevels "" = some grant := if_pos ⟨rfl, rfl⟩
  rw [getSenderPowerLevel_v3, isSenderCreator, isSenderCreator, create, levels]
  rfl

omit [DecidableEq Id] in
theorem Witnessed.exists_iff (witnessed : Witnessed getCdoActiveMember grant branch scope target)
    (holds : String → Prop) :
    (∃ other, Witnessed getCdoActiveMember grant branch scope other ∧ holds other) ↔ holds target := by
  constructor
  · rintro ⟨other, also, holds⟩
    exact witnessed.unique also ▸ holds
  · exact fun holds => ⟨target, witnessed, holds⟩

/-- The function follows the rule unless the level of the target in the branch is not one that a power levels event
    lists. -/
theorem certifyPromotionGrant_rule_iff (getCdoActiveMember : C → Option String) (grant : LeanEvent Id C)
    (branch : BranchAuth Id C) (scope : PromotionScope) :
    ((certifyPromotionGrant getCdoActiveMember grant branch scope).isSome ↔
      GrantAdmin getCdoActiveMember grant branch scope) ↔
    ¬∃ target, Witnessed getCdoActiveMember grant branch scope target ∧
      listedLevel grant target ≤ getSenderPowerLevel grant.sender branch.provider .v3 ∧
      Misjudged branch.provider grant target := by
  rw [certifyPromotionGrant_isSome, GrantAdmin]
  by_cases any : ∃ target, Witnessed getCdoActiveMember grant branch scope target
  · obtain ⟨target, witnessed⟩ := any
    rw [witnessed.exists_iff, witnessed.exists_iff, witnessed.exists_iff, getSenderPowerLevel_granted,
      getSenderPowerLevel_v3 branch.provider target]
    unfold Misjudged priorPowerLevel
    generalize getSenderPowerLevel grant.sender branch.provider .v3 = level
    cases isSenderCreator branch.provider target with
    | true =>
      simp only [if_true, lt_irrefl, and_false, iff_false, true_or, and_true]
    | false =>
      simp only [Bool.false_eq_true, if_false, false_or]
      cases branch.provider mRoomPowerLevels "" with
      | some plEvent => simp
      | none =>
        simp only [Option.elim_none, true_and]
        by_cases record : creatorOfRecord branch.provider = some target
        · simp only [record, if_true, true_and]
          omega
        · simp [record]
  · have nobody : ∀ holds : String → Prop,
        ¬∃ target, Witnessed getCdoActiveMember grant branch scope target ∧ holds target :=
      fun holds ⟨target, witnessed, _⟩ => any ⟨target, witnessed⟩
    simp only [nobody, not_false_iff, iff_self]

namespace Sample

open Basespec.Sample

def founders : RoomState Nat Content :=
  (Std.ExtTreeMap.empty.insert (⟨mRoomCreate⟩, "") (create "12")).insert (⟨mRoomMember⟩, "@a:x") (joinA [])

theorem founders_get {key : Key} (found : founders[key]? = some event) :
    key = (⟨mRoomMember⟩, "@a:x") ∧ event = joinA [] ∨ key = (⟨mRoomCreate⟩, "") ∧ event = create "12" := by
  unfold founders at found
  rw [getElem?_insert_key, getElem?_insert_key] at found
  split at found
  · rename_i same
    exact .inl ⟨same, (Option.some.inj found).symm⟩
  · split at found
    · rename_i same
      exact .inr ⟨same, (Option.some.inj found).symm⟩
    · cases found

def founding : BranchAuth Nat Content where
  state := founders
  keyed key event found := by
    rcases founders_get found with ⟨rfl, rfl⟩ | ⟨rfl, rfl⟩ <;> exact ⟨rfl, rfl⟩
  named key other event event' found found' same := by
    rcases founders_get found with ⟨_, rfl⟩ | ⟨_, rfl⟩ <;> rcases founders_get found' with ⟨_, rfl⟩ | ⟨_, rfl⟩
    · rfl
    · exact absurd same (by decide)
    · exact absurd same (by decide)
    · rfl

def raiseDefault : LeanEvent Nat Content := powerLevels 3 { usersDefault := some 50 } [1, 2]

end Sample

open Sample Basespec.Sample

/-- A creator, which has the greatest level there is, certifies its own promotion to 50. -/
theorem creator_promoted :
    ¬((certifyPromotionGrant (fun _ => some "2") raiseDefault founding .anyAuthorizedSender).isSome ↔
      GrantAdmin (fun _ => some "2") raiseDefault founding .anyAuthorizedSender) := by
  have member : founding.provider mRoomMember "@a:x" = some (joinA []) := by
    show founders[_]? = _
    unfold founders
    rw [getElem?_insert_key, if_pos rfl]
  have created : founding.provider mRoomCreate "" = some (create "12") := by
    show founders[_]? = _
    unfold founders
    rw [getElem?_insert_key, if_neg (by decide), getElem?_insert_key, if_pos rfl]
  have levels : founding.provider mRoomPowerLevels "" = none := by
    show founders[_]? = _
    unfold founders
    rw [getElem?_insert_key, if_neg (by decide), getElem?_insert_key, if_neg (by decide)]
    rfl
  have witnessed : Witnessed (fun _ => some "2") raiseDefault founding .anyAuthorizedSender "@a:x" :=
    ⟨rfl, nofun, joinA [], member, rfl, by decide⟩
  have creator : isSenderCreator founding.provider "@a:x" = true := by
    rw [isSenderCreator, created]
    decide
  have greatest : getSenderPowerLevel "@a:x" founding.provider .v3 = maxPowerLevelRust := by
    rw [getSenderPowerLevel_v3, if_pos creator]
  have certified := certifyPromotionGrant_isSome.mpr ⟨"@a:x", witnessed, by
    rw [show raiseDefault.sender = "@a:x" from rfl, greatest]
    decide, by
    rw [priorPowerLevel, levels]
    decide⟩
  intro agree
  have raised := ((witnessed.exists_iff _).mp (agree.mp certified)).2
  rw [getSenderPowerLevel_granted, if_pos creator, greatest] at raised
  exact lt_irrefl _ raised

end Rezzy.Resolve
