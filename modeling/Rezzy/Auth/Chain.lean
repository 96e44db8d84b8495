import Rezzy.Auth.Bans
import Rezzy.Auth.Congr

namespace Rezzy.Auth

section

open Basespec

variable {Id C : Type}

abbrev RoomState (Id C : Type) := SharedState (LeanEvent Id C)

def RoomState.provider (state : RoomState Id C) : StateProvider Id C :=
  fun eventType stateKey => state[((⟨eventType⟩, stateKey) : Key)]?

def checkCreateRoomId (event : LeanEvent Id C) (isV12Plus : Bool) : Check Id Unit :=
  if event.eventType ≠ mRoomCreate then .ok ()
  else if isV12Plus then
    rejectIf event.roomId.isSome (.invalidSyntax ("m.room.create must not declare room_id -- the room's ID is " ++
      "derived from this event's own hash and isn't knowable until this event exists"))
  else
    event.roomId.forM fun declared =>
      rejectIf (!domainMatches declared event.sender) (.invalidSyntax ("m.room.create room_id " ++ declared ++
        " domain does not match sender " ++ event.sender ++ " domain"))

def isRoomIdOf (declared createId : String) : Bool :=
  match createId.toList with
  | '$' :: hashPart => declared.toList = '!' :: hashPart
  | _ => false

def checkForeignRoomCitation (event : LeanEvent Id C) (eventMap : EventProvider Id C) : Check Id Unit :=
  event.roomId.forM fun expected =>
    let foreign := event.authEvents.findSome? fun authId =>
      (eventMap authId).bind fun authEvent =>
        if authEvent.roomId = some expected then none else some (authId, authEvent.roomId)
    foreign.forM fun (authEventId, actual) =>
      .error (.foreignRoomEvent event.eventId authEventId expected actual)

structure ChainRun (Id C : Type) where
  state : RoomState Id C
  accepted : List Id
  rejected : List (Id × AuthError Id)
  rejectedIds : List Id

namespace ChainRun

def start (initialState : RoomState Id C) : ChainRun Id C := ⟨initialState, [], [], []⟩

def reject (run : ChainRun Id C) (event : LeanEvent Id C) (error : AuthError Id) : ChainRun Id C :=
  { run with
    rejected := run.rejected ++ [(event.eventId, error)]
    rejectedIds := event.eventId :: run.rejectedIds }

def applied (state : RoomState Id C) (event : LeanEvent Id C) : RoomState Id C :=
  match event.stateKey with
  | some stateKey => state.insert (⟨event.eventType⟩, stateKey) event
  | none => if event.eventType = mRoomCreate then state.insert (⟨event.eventType⟩, "") event else state

def accept (run : ChainRun Id C) (event : LeanEvent Id C) : ChainRun Id C :=
  { run with
    state := applied run.state event
    accepted := run.accepted ++ [event.eventId] }

theorem accept_ne_reject (run : ChainRun Id C) (event : LeanEvent Id C) (error : AuthError Id) :
    run.accept event ≠ run.reject event error := by
  intro same
  have kept := congrArg (fun next => next.accepted.length) same
  simp [accept, reject] at kept

theorem provider_applied (state : RoomState Id C) (event : LeanEvent Id C) (eventType stateKey : String) :
    RoomState.provider (applied state event) eventType stateKey = if event.eventType = eventType ∧
        (event.stateKey = some stateKey ∨ event.stateKey = none ∧ eventType = mRoomCreate ∧ stateKey = "") then
        some event else state.provider eventType stateKey := by
  have inserted : ∀ key : String, RoomState.provider (state.insert (⟨event.eventType⟩, key) event) eventType stateKey =
      if event.eventType = eventType ∧ key = stateKey then some event else state.provider eventType stateKey := by
    intro key
    unfold RoomState.provider
    rw [getElem?_insert_key]
    by_cases same : event.eventType = eventType ∧ key = stateKey
    · obtain ⟨rfl, rfl⟩ := same
      simp
    · rw [if_neg same, if_neg]
      intro equal
      rw [Prod.mk.injEq, EventType.mk.injEq] at equal
      exact same ⟨equal.1.symm, equal.2.symm⟩
  unfold applied
  cases keyed : event.stateKey with
  | some key =>
    rw [inserted]
    simp
  | none =>
    by_cases founds : event.eventType = mRoomCreate
    · rw [if_pos founds, inserted]
      by_cases own : event.eventType = eventType
      · simp [own, ← own.symm.trans founds, eq_comm]
      · simp [own]
    · rw [if_neg founds, if_neg]
      rintro ⟨own, keys | ⟨-, create, -⟩⟩
      · cases keys
      · exact founds (own.trans create)

end ChainRun

variable [DecidableEq Id]

def checkNotCitingRejectedAuthEvent (event : LeanEvent Id C) (rejectedIds : List Id) : Check Id Unit :=
  (event.authEvents.find? (· ∈ rejectedIds)).forM fun authEventId =>
    .error (.rejectedAuthEvent event.eventId authEventId)

def chainEventMap (sortedEvents : List (LeanEvent Id C)) (initialState : RoomState Id C) : EventProvider Id C :=
  fun id => (sortedEvents.reverse.find? (·.eventId = id)).or
    (initialState.values.find? (·.eventId = id))

variable [ToString Id]

def checkRoomIdMatchesAcceptedCreate (event : LeanEvent Id C) (isV12Plus : Bool) (state : RoomState Id C)
    (rejectedIds : List Id) : Check Id Unit :=
  if !isV12Plus || event.eventType = mRoomCreate then .ok ()
  else
    event.roomId.forM fun declared =>
      let acceptedCreate := (state.provider mRoomCreate "").filter fun createEv => createEv.eventId ∉ rejectedIds
      rejectIf (!acceptedCreate.any fun createEv => isRoomIdOf declared (toString createEv.eventId))
        (.invalidSyntax ("room_id " ++ declared ++ " is not the event ID of an accepted m.room.create event"))

variable [EventContent C]

namespace ChainRun

def preCheck (version : StateResVersion) (eventMap : EventProvider Id C) (run : ChainRun Id C)
    (event : LeanEvent Id C) : Check Id Unit := do
  checkCreateRoomId event (isV12Plus version)
  checkRoomIdMatchesAcceptedCreate event (isV12Plus version) run.state run.rejectedIds
  checkNotCitingRejectedAuthEvent event run.rejectedIds
  checkForeignRoomCitation event eventMap

def step (version : StateResVersion) (eventMap : EventProvider Id C) (run : ChainRun Id C)
    (event : LeanEvent Id C) : ChainRun Id C :=
  match preCheck version eventMap run event with
  | .error error => run.reject event error
  | .ok () =>
    match checkAuthWithContext event run.state.provider version none (some eventMap) with
    | .ok () => run.accept event
    | .error error => run.reject event error

end ChainRun

/-- The run over the whole list; `check_auth_chain` returns its accepted and rejected events. -/
def runAuthChain (sortedEvents : List (LeanEvent Id C)) (initialState : RoomState Id C)
    (version : StateResVersion) : ChainRun Id C :=
  sortedEvents.foldl (ChainRun.step version (chainEventMap sortedEvents initialState)) (.start initialState)

def checkAuthChain (sortedEvents : List (LeanEvent Id C)) (initialState : RoomState Id C)
    (version : StateResVersion) : List Id × List (Id × AuthError Id) :=
  let run := runAuthChain sortedEvents initialState version
  (run.accepted, run.rejected)

end

open Basespec Outcome

variable {Id C : Type} [DecidableEq Id] [ToString Id] [EventContent C]

section

variable (sortedEvents : List (LeanEvent Id C)) (initialState : RoomState Id C) (version : StateResVersion)

/-- The run when the event at position `n` has its turn. -/
def chainAt (n : Nat) : ChainRun Id C :=
  Trace.stateAt (ChainRun.step version (chainEventMap sortedEvents initialState)) (.start initialState) sortedEvents n

def chainState (n : Nat) : StateProvider Id C := (chainAt sortedEvents initialState version n).state.provider

def AcceptedAt (n : Nat) (event : LeanEvent Id C) : Prop :=
  sortedEvents[n]? = some event ∧
    chainAt sortedEvents initialState version (n + 1) = (chainAt sortedEvents initialState version n).accept event

end

namespace ChainRun

variable {version : StateResVersion} {eventMap : EventProvider Id C} {run : ChainRun Id C} {event : LeanEvent Id C}

def Accepts (version : StateResVersion) (eventMap : EventProvider Id C) (run : ChainRun Id C)
    (event : LeanEvent Id C) : Prop :=
  preCheck version eventMap run event = .ok () ∧
    checkAuthWithContext event run.state.provider version none (some eventMap) = .ok ()

theorem step_cases (version : StateResVersion) (eventMap : EventProvider Id C) (run : ChainRun Id C)
    (event : LeanEvent Id C) :
    Accepts version eventMap run event ∧ step version eventMap run event = run.accept event ∨
      ¬Accepts version eventMap run event ∧ ∃ error, step version eventMap run event = run.reject event error := by
  unfold step Accepts
  cases pre : preCheck version eventMap run event with
  | error reason => exact .inr ⟨by simp, reason, rfl⟩
  | ok _ =>
    cases verdict : checkAuthWithContext event run.state.provider version none (some eventMap) with
    | error reason => exact .inr ⟨by simp, reason, rfl⟩
    | ok _ => exact .inl ⟨⟨rfl, rfl⟩, rfl⟩

theorem step_eq_accept : step version eventMap run event = run.accept event ↔ Accepts version eventMap run event := by
  rcases step_cases version eventMap run event with ⟨accepts, stepped⟩ | ⟨refuses, error, stepped⟩
  · exact ⟨fun _ => accepts, fun _ => stepped⟩
  · exact ⟨fun same => absurd (same.symm.trans stepped) (accept_ne_reject run event error), fun accepts => absurd accepts refuses⟩

theorem Accepts.isOk (accepts : Accepts version eventMap run event) :
    (checkAuthWithContext event run.state.provider version none (some eventMap)).isOk = true := by
  rw [accepts.2]
  rfl

end ChainRun

section

variable {sortedEvents : List (LeanEvent Id C)} {initialState : RoomState Id C} {version : StateResVersion}

theorem chainAt_succ (next : sortedEvents[n]? = some event) : chainAt sortedEvents initialState version (n + 1) =
      ChainRun.step version (chainEventMap sortedEvents initialState)
        (chainAt sortedEvents initialState version n) event := Trace.stateAt_succ next

theorem acceptedAt_iff : AcceptedAt sortedEvents initialState version n event ↔ sortedEvents[n]? = some event ∧
      ChainRun.Accepts version (chainEventMap sortedEvents initialState)
        (chainAt sortedEvents initialState version n) event := by
  refine and_congr_right fun next => ?_
  rw [chainAt_succ next]
  exact ChainRun.step_eq_accept

variable (sortedEvents initialState version) in
theorem chainState_succ (n : Nat) (eventType stateKey : String) :
    chainState sortedEvents initialState version (n + 1) eventType stateKey =
        chainState sortedEvents initialState version n eventType stateKey ∨
      ∃ event, AcceptedAt sortedEvents initialState version n event ∧ event.eventType = eventType ∧
        (event.stateKey = some stateKey ∨ event.stateKey = none ∧ eventType = mRoomCreate ∧ stateKey = "") ∧
        chainState sortedEvents initialState version (n + 1) eventType stateKey = some event := by
  cases next : sortedEvents[n]? with
  | none =>
    left
    rw [chainState, chainAt, Trace.stateAt_past next]
    rfl
  | some event =>
    rcases ChainRun.step_cases version (chainEventMap sortedEvents initialState)
      (chainAt sortedEvents initialState version n) event with ⟨_, stepped⟩ | ⟨_, error, stepped⟩
    · have moved := (chainAt_succ next).trans stepped
      have entry := ChainRun.provider_applied (chainAt sortedEvents initialState version n).state event
        eventType stateKey
      have applied : chainState sortedEvents initialState version (n + 1) = RoomState.provider
          (ChainRun.applied (chainAt sortedEvents initialState version n).state event) := by
        rw [chainState, moved]
        rfl
      rw [← applied] at entry
      by_cases own : event.eventType = eventType ∧
          (event.stateKey = some stateKey ∨ event.stateKey = none ∧ eventType = mRoomCreate ∧ stateKey = "")
      · rw [if_pos own] at entry
        exact .inr ⟨event, ⟨next, moved⟩, own.1, own.2, entry⟩
      · rw [if_neg own] at entry
        exact .inl entry
    · left
      rw [chainState, (chainAt_succ next).trans stepped]
      rfl

structure Unbans (version : StateResVersion) (state : StateProvider Id C) (user : String)
    (event : LeanEvent Id C) : Prop where
  member : event.eventType = mRoomMember
  keyed : event.stateKey = some user
  leaves : event.getMembership = some memLeave
  other : event.sender ≠ user
  joined : membershipOf state event.sender = some memJoin
  mayBan : getBanPowerLevel state ≤ getSenderPowerLevel event.sender state version
  outranks : getSenderPowerLevel user state version < getSenderPowerLevel event.sender state version

theorem AcceptedAt.banned_target (accepted : AcceptedAt sortedEvents initialState version n event)
    (mem : event.eventType = mRoomMember) (keyed : event.stateKey = some user)
    (banned : membershipOf (chainState sortedEvents initialState version n) user = some memBan) :
    event.getMembership = some memBan ∨ Unbans version (chainState sortedEvents initialState version n) user event := by
  have ordinary : event.eventType ≠ mRoomCreate := by
    rw [mem]
    decide
  have ok := (acceptedAt_iff.mp accepted).2.isOk
  rcases checkMemberEvent_banned ((checkAuth_late ok ordinary).2 mem) keyed banned with
    bans | ⟨leaves, other, mayBan, outranks⟩
  · exact .inl bans
  · right
    have joined := checkAuth_sender_joined ok ordinary fun own => other (Option.some.inj (keyed.symm.trans own)).symm
    exact ⟨mem, keyed, leaves, other, joined, mayBan, outranks⟩

theorem membershipOf_succ_banned
    (banned : membershipOf (chainState sortedEvents initialState version n) user = some memBan)
    (kept : ∀ event, AcceptedAt sortedEvents initialState version n event →
      ¬Unbans version (chainState sortedEvents initialState version n) user event) :
    membershipOf (chainState sortedEvents initialState version (n + 1)) user = some memBan := by
  rcases chainState_succ sortedEvents initialState version n mRoomMember user with same | ⟨event, accepted, mem, keyed, entry⟩
  · rwa [membershipOf_congr same]
  · rcases keyed with keyed | ⟨-, create, -⟩
    · rcases accepted.banned_target mem keyed banned with bans | unbans
      · rw [membershipOf, entry]
        exact bans
      · exact absurd unbans (kept event accepted)
    · exact absurd create (by decide)

/-- A banned user stays banned and sends nothing but create events, until somebody lifts the ban. -/
theorem checkAuthChain_bans_persist (sortedEvents : List (LeanEvent Id C)) (initialState : RoomState Id C)
    (version : StateResVersion) (user : String) {i j : Nat} (later : i ≤ j)
    (banned : membershipOf (chainState sortedEvents initialState version i) user = some memBan) :
    (membershipOf (chainState sortedEvents initialState version j) user = some memBan ∧
        ∀ event, AcceptedAt sortedEvents initialState version j event → event.sender = user →
          event.eventType = mRoomCreate) ∨
      ∃ k, i ≤ k ∧ k < j ∧ ∃ event, AcceptedAt sortedEvents initialState version k event ∧
        Unbans version (chainState sortedEvents initialState version k) user event := by
  by_cases lifted : ∃ k, i ≤ k ∧ k < j ∧ ∃ event, AcceptedAt sortedEvents initialState version k event ∧
      Unbans version (chainState sortedEvents initialState version k) user event
  · exact .inr lifted
  · left
    have still : membershipOf (chainState sortedEvents initialState version j) user = some memBan := by
      apply Trace.stateAt_until (fun run : ChainRun Id C => membershipOf run.state.provider user = some memBan)
        (fun k => ∃ event, AcceptedAt sortedEvents initialState version k event ∧
          Unbans version (chainState sortedEvents initialState version k) user event) _ later banned
      · intro k from_i to_j stops
        exact lifted ⟨k, from_i, to_j, stops⟩
      · intro n event next before goes
        have kept := membershipOf_succ_banned before fun event accepted unbans =>
          goes ⟨event, accepted, unbans⟩
        rwa [chainState, chainAt_succ next] at kept
    refine ⟨still, fun event accepted own => ?_⟩
    by_contra ordinary
    exact checkAuth_sender_free (acceptedAt_iff.mp accepted).2.isOk ordinary (own ▸ still)

structure Refounds (version : StateResVersion) (eventMap : EventProvider Id C) (run : ChainRun Id C)
    (event : LeanEvent Id C) : Prop where
  create : event.eventType = mRoomCreate
  keyed : event.stateKey = none ∨ event.stateKey = some ""
  wellFormed : checkSyntax event version = .ok ()
  founds : checkCreateEvent event = .ok ()
  unnamed : checkCreateRoomId event (isV12Plus version) = .ok ()
  atHome : checkForeignRoomCitation event eventMap = .ok ()
  clean : checkNotCitingRejectedAuthEvent event run.rejectedIds = .ok ()
  unflagged : rejectFlaggedAuthState event run.state.provider = .ok ()

theorem ChainRun.accepts_create {run : ChainRun Id C} (create : event.eventType = mRoomCreate)
    (keyed : event.stateKey = none ∨ event.stateKey = some "") :
    ChainRun.Accepts version eventMap run event ↔ Refounds version eventMap run event := by
  have named : checkRoomIdMatchesAcceptedCreate event (isV12Plus version) run.state run.rejectedIds = .ok () := by
    rw [checkRoomIdMatchesAcceptedCreate, if_pos]
    simp [create]
  constructor
  · rintro ⟨pre, auth⟩
    obtain ⟨_, unnamed, pre⟩ := bind_eq_ok.mp pre
    obtain ⟨_, _, pre⟩ := bind_eq_ok.mp pre
    obtain ⟨_, clean, atHome⟩ := bind_eq_ok.mp pre
    obtain ⟨_, wellFormed, auth⟩ := bind_eq_ok.mp auth
    obtain ⟨_, unflagged, auth⟩ := bind_eq_ok.mp auth
    obtain ⟨_, _, auth⟩ := bind_eq_ok.mp auth
    rw [if_pos create] at auth
    exact ⟨create, keyed, wellFormed, auth, unnamed, atHome, clean, unflagged⟩
  · intro refounds
    constructor
    · rw [ChainRun.preCheck, refounds.unnamed, named, refounds.clean, refounds.atHome]
      rfl
    · rw [checkAuthWithContext, refounds.wellFormed, refounds.unflagged, if_pos create, refounds.founds]
      rfl

theorem create_succ {n : Nat}
    (created : chainState sortedEvents initialState version n mRoomCreate "" = some createEv) :
    chainState sortedEvents initialState version (n + 1) mRoomCreate "" = some createEv ↔
      ∀ event, sortedEvents[n]? = some event → Refounds version (chainEventMap sortedEvents initialState)
          (chainAt sortedEvents initialState version n) event → event = createEv := by
  constructor
  · intro kept event next refounds
    have accepted : AcceptedAt sortedEvents initialState version n event :=
      acceptedAt_iff.mpr ⟨next, (ChainRun.accepts_create refounds.create refounds.keyed).mpr refounds⟩
    have entry := ChainRun.provider_applied (chainAt sortedEvents initialState version n).state event mRoomCreate ""
    rw [if_pos ⟨refounds.create, refounds.keyed.symm.imp id fun none => ⟨none, rfl, rfl⟩⟩] at entry
    rw [chainState, accepted.2] at kept
    exact Option.some.inj (entry.symm.trans kept)
  · intro alone
    rcases chainState_succ sortedEvents initialState version n mRoomCreate "" with
      same | ⟨event, accepted, create, keyed, entry⟩
    · rw [same, created]
    · have keyed : event.stateKey = none ∨ event.stateKey = some "" := keyed.symm.imp_left And.left
      have accepts := (acceptedAt_iff.mp accepted).2
      rw [entry, alone event accepted.1 ((ChainRun.accepts_create create keyed).mp accepts)]

/-- The create event of a run stays exactly as long as no event founds the room anew. -/
theorem checkAuthChain_create_stays (sortedEvents : List (LeanEvent Id C)) (initialState : RoomState Id C)
    (version : StateResVersion) {createEv : LeanEvent Id C} {i j : Nat}
    (created : chainState sortedEvents initialState version i mRoomCreate "" = some createEv) :
    (∀ k, i ≤ k → k ≤ j → chainState sortedEvents initialState version k mRoomCreate "" = some createEv) ↔
      ∀ k, i ≤ k → k < j → ∀ event, sortedEvents[k]? = some event →
        Refounds version (chainEventMap sortedEvents initialState)
          (chainAt sortedEvents initialState version k) event → event = createEv := by
  constructor
  · intro stays k from_i to_j
    exact (create_succ (stays k from_i (Nat.le_of_lt to_j))).mp (stays (k + 1) (Nat.le_succ_of_le from_i) to_j)
  · intro alone k from_i to_j
    induction from_i with
    | refl => exact created
    | @step k from_i ih =>
      exact (create_succ (ih (Nat.le_of_succ_le to_j))).mpr (alone k from_i to_j)

end

namespace Sample

open Basespec.Sample

def banB : LeanEvent Nat Content := memberEvent 3 "@a:x" "@b:x" memBan [1, 2] 3

def unbanB : LeanEvent Nat Content := memberEvent 5 "@a:x" "@b:x" memLeave [1, 2, 3] 5

def banRun : List (LeanEvent Nat Content) := [create "10", joinA [1], banB, topic 4 "@b:x" [1, 3], unbanB]

def secondCreate : LeanEvent Nat Content := stateEvent 4 mRoomCreate "" "@b:y" { roomVersion := some "1" } [] 4

def refoundedRun : List (LeanEvent Nat Content) := [create "10", joinA [1], secondCreate]

end Sample

open Sample in
theorem checkAuthChain_bans_persist_topic :
    (membershipOf (chainState banRun ∅ .v2 4) "@b:x" = some memBan ∧
        ∀ event, AcceptedAt banRun ∅ .v2 4 event → event.sender = "@b:x" → event.eventType = mRoomCreate) ∨
      ∃ k, 3 ≤ k ∧ k < 4 ∧ ∃ event, AcceptedAt banRun ∅ .v2 k event ∧
        Unbans .v2 (chainState banRun ∅ .v2 k) "@b:x" event :=
  checkAuthChain_bans_persist banRun ∅ .v2 "@b:x" (by decide : 3 ≤ 4) (by decide)

open Sample in
/-- The second create event of a run takes the place of the first. -/
theorem second_create_replaces_first :
    (chainState refoundedRun ∅ .v2 2 mRoomCreate "").map LeanEvent.eventId = some 1 ∧
      AcceptedAt refoundedRun ∅ .v2 2 secondCreate ∧
      (chainState refoundedRun ∅ .v2 3 mRoomCreate "").map LeanEvent.eventId = some 4 :=
  ⟨by decide, acceptedAt_iff.mpr ⟨rfl, by decide, by decide⟩, by decide⟩

open Sample in
theorem checkAuthChain_create_stays_join :
    (∀ k, 1 ≤ k → k ≤ 2 → chainState refoundedRun ∅ .v2 k mRoomCreate "" =
        some (Basespec.Sample.create "10")) ↔
      ∀ k, 1 ≤ k → k < 2 → ∀ event, refoundedRun[k]? = some event →
        Refounds .v2 (chainEventMap refoundedRun ∅) (chainAt refoundedRun ∅ .v2 k) event →
          event = Basespec.Sample.create "10" :=
  checkAuthChain_create_stays refoundedRun ∅ .v2 rfl

end Rezzy.Auth
