import Rezzy.Auth.Bans
import Rezzy.Resolve.RoomCaches

namespace Rezzy.Resolve

open Basespec Auth State Permuted IterativeInputs
open Resolution (state)

variable {Id C : Type} [LinearOrder Id] [EventContent C]

variable {inputs : IterativeInputs Id C}

theorem StaysNonPower.not_power (stays : StaysNonPower inputs event) : event.isPowerEvent inputs.version = false := by
  by_contra power
  refine stays.2 (.seed (EventMap.mem_keys.mpr ⟨event, ?_⟩))
  rw [EventMap.get_filter, EventMap.get_of_mem stays.1]
  simp [Option.filter, power]

theorem StaysNonPower.not_create (stays : StaysNonPower inputs event) : event.eventType ≠ mRoomCreate := by
  intro create
  have := stays.not_power
  simp [LeanEvent.isPowerEvent, create] at this

theorem StaysNonPower.mild (stays : StaysNonPower inputs event) (mem : event.eventType = mRoomMember) :
    event.isBanOrKick = false := by
  have := stays.not_power
  simp only [LeanEvent.isPowerEvent, mem, decide_true, Bool.true_and, Bool.or_eq_false_iff] at this
  exact this.2.2

section

def IterativeInputs.screens (inputs : IterativeInputs Id C) (resolved : SharedState Id) (user : String) :
    Bool :=
  match resolved[((⟨mRoomMember⟩, user) : Key)]?.or
      inputs.unconflictedState[((⟨mRoomMember⟩, user) : Key)]? with
  | some id => (inputs.sortContext id).any fun m => m.getMembership = some memBan
  | none => false

/-- The sender is not screened by the agreed state alone: the resolved state has an entry of its own. -/
def IterativeInputs.Held (inputs : IterativeInputs Id C) (resolved : SharedState Id) (user : String) : Prop :=
  inputs.screens resolved user = true → resolved[((⟨mRoomMember⟩, user) : Key)]?.isSome

theorem isSenderBanned_eq (ev : LeanEvent Id C) (resolved : SharedState Id) :
    isSenderBanned ev resolved inputs.unconflictedState inputs.sortContext = inputs.screens resolved ev.sender := rfl

theorem screens_of_found {id : Id} (found : resolved[((⟨mRoomMember⟩, user) : Key)]? = some id) :
    inputs.screens resolved user = (inputs.sortContext id).any fun m => m.getMembership = some memBan := by
  unfold screens
  rw [found]
  rfl

theorem membershipOf_overlay {id : Id} (found : resolved[((⟨mRoomMember⟩, user) : Key)]? = some id)
    (known : inputs.authLookup id = some member) (localAuth : LocalAuthCacheMap Id C)
    (createEv : Option (LeanEvent Id C)) (isPower : Bool) (eventType : String) :
    membershipOf (OverlayState.getEvent ⟨resolved, inputs.authContext, inputs.conflictedEvents, localAuth,
      createEv, inputs.version, isPower, eventType⟩) user = member.getMembership := by
  have unfolded : lookupAuth inputs.authContext inputs.conflictedEvents id = some member := known
  simp [membershipOf, OverlayState.getEvent, found, unfolded]

variable [ToString Id]

theorem eventAuthOk_checkAuth (passed : (eventAuthOk inputs createEv isPower w event).1 = true) :
    ∃ localAuth, (checkAuth event (OverlayState.getEvent ⟨w.resolved, inputs.authContext,
      inputs.conflictedEvents, localAuth, createEv, inputs.version, isPower, event.eventType⟩)
        inputs.version none).isOk = true := by
  unfold eventAuthOk iterativeAuthOk at passed
  split at passed
  · simp at passed
  · exact ⟨_, passed⟩

theorem checkEvent_kept {key : Key} (inputs : IterativeInputs Id C) (createEv : Option (LeanEvent Id C)) (conflictedKeys : KeySet)
    (isPower : Bool) (event : LeanEvent Id C) (held : w.resolved[key]?.isSome) :
    (checkEvent inputs createEv conflictedKeys isPower w event).resolved[key]?.isSome := by
  unfold checkEvent
  dsimp only
  split
  · unfold applyAccepted
    split
    · split
      · rw [getElem?_insert_key]
        split
        · rfl
        · exact held
      · exact held
    · exact held
  · exact held

theorem screens_checkEvent (shared : inputs.SharedIds) (stays : StaysNonPower inputs event) (conflictedKeys : KeySet)
    (held : event.key? = some (⟨mRoomMember⟩, user) → inputs.Held w.resolved user) :
    inputs.screens (checkEvent inputs createEv conflictedKeys false w event).resolved user =
      inputs.screens w.resolved user := by
  unfold checkEvent
  dsimp only
  split
  · rename_i passed
    unfold applyAccepted
    split
    · rename_i own keyed
      split
      · by_cases same : own = (⟨mRoomMember⟩, user)
        · subst same
          have stored : (w.resolved.insert ((⟨mRoomMember⟩, user) : Key)
              event.eventId)[((⟨mRoomMember⟩, user) : Key)]? = some event.eventId := by
            simp
          have typed : event.eventType = mRoomMember ∧ event.stateKey = some user := by
            simpa [LeanEvent.key?, and_comm] using keyed
          obtain ⟨localAuth, ok⟩ := eventAuthOk_checkAuth passed
          have free := checkMemberEvent_free ((checkAuth_late ok stays.not_create).2 typed.1) typed.1 typed.2
            (stays.mild typed.1)
          have sorted : inputs.sortContext event.eventId = some event := by
            rw [shared.sortContext]
            exact shared.authLookup_conflicted stays.1
          have after : inputs.screens (w.resolved.insert ((⟨mRoomMember⟩, user) : Key) event.eventId) user = false := by
            rw [screens_of_found stored, sorted]
            simpa using free.2
          rw [after, eq_comm, Bool.eq_false_iff]
          intro banned
          obtain ⟨id, found⟩ := Option.isSome_iff_exists.mp (held keyed banned)
          rw [screens_of_found found, shared.sortContext] at banned
          cases known : inputs.authLookup id with
          | none => simp [known] at banned
          | some mem =>
            rw [membershipOf_overlay found known] at free
            exact free.1 (by simpa [known] using banned)
        · have kept : (w.resolved.insert own event.eventId)[((⟨mRoomMember⟩, user) : Key)]? =
              w.resolved[((⟨mRoomMember⟩, user) : Key)]? := by
            rw [getElem?_insert_key, if_neg (Ne.symm same)]
          unfold screens
          rw [kept]
      · rfl
    · rfl
  · rfl

theorem eventAuthOk_of_screened (shared : inputs.SharedIds) (stays : StaysNonPower inputs event)
    (held : inputs.Held w.resolved event.sender) (banned : inputs.screens w.resolved event.sender = true) :
    (eventAuthOk inputs createEv false w event).1 = false := by
  by_contra accepted
  simp only [Bool.not_eq_false] at accepted
  obtain ⟨localAuth, ok⟩ := eventAuthOk_checkAuth accepted
  obtain ⟨id, found⟩ := Option.isSome_iff_exists.mp (held banned)
  rw [screens_of_found found, shared.sortContext] at banned
  cases known : inputs.authLookup id with
  | none => simp [known] at banned
  | some mem =>
    refine checkAuth_sender_free ok stays.not_create
      ((membershipOf_overlay found known localAuth createEv false event.eventType).trans ?_)
    simpa [known] using banned

end

section

theorem sortedNonPower_screened (order : Order) (resolved : SharedState Id) (mainline : List Id) :
    sortedNonPower (screenBannedSenders inputs) order inputs resolved mainline =
      (sortedNonPower (fun _ events => events) order inputs resolved mainline).filter fun ev =>
        !(inputs.version.hasBanEvasionHardening && inputs.screens resolved ev.sender) := by
  have distinct : ∀ a ∈ order.iter .nonPowerEvents (inputs.powerPhase order).nonPowerEvents.values,
      ∀ b ∈ order.iter .nonPowerEvents (inputs.powerPhase order).nonPowerEvents.values,
        a.eventId = b.eventId → a = b := fun a ha b hb =>
    EventMap.mem_unique ((order.perm _ _).mem_iff.mp ha) ((order.perm _ _).mem_iff.mp hb)
  unfold sortedNonPower screenBannedSenders
  split
  · rename_i hardened
    simp only [hardened, Bool.true_and, isSenderBanned_eq]
    exact mainlineSort_filter (lists_sortNodes inputs) distinct _ mainline inputs.version
  · rename_i soft
    simp [soft]

theorem mem_sortedNonPower_unscreened
    (mem : ev ∈ sortedNonPower (fun _ events => events) order inputs resolved mainline) :
    StaysNonPower inputs ev := (mem_nonPowerEvents order inputs ev).mp (mem_sortedNonPower (fun _ _ _ kept => kept) mem)

def Dropped (inputs : IterativeInputs Id C) (resolved : SharedState Id) (id : Id) : Prop :=
  ∃ ev, StaysNonPower inputs ev ∧ ev.eventId = id ∧ inputs.screens resolved ev.sender = true

/-- When screening drops nothing that the check would accept: every sender that it screens has an entry in the state
    it is given, and no local auth map is moved by what it leaves out. -/
structure ScreeningSound (inputs : IterativeInputs Id C) (cache : LocalAuthCache Id C) (resolved : SharedState Id) :
    Prop where
  shared : ∀ id, Dropped inputs resolved id → inputs.SharedIds
  held : ∀ ev, StaysNonPower inputs ev → inputs.Held resolved ev.sender
  settled : ∀ ev, StaysNonPower inputs ev → inputs.Settled cache (Dropped inputs resolved) ev

variable [ToString Id] {order : Order} {caches : ResolveCaches Id C}

structure Screened (inputs : IterativeInputs Id C) (cache : LocalAuthCache Id C) (resolved : SharedState Id)
    (left right : Working Id C) : Prop where
  apart : Apart inputs cache (Dropped inputs resolved) left right
  verdicts : ∀ ev, StaysNonPower inputs ev →
    inputs.screens left.resolved ev.sender = inputs.screens resolved ev.sender
  kept : ∀ key : Key, resolved[key]?.isSome → left.resolved[key]?.isSome

variable {cache : LocalAuthCache Id C} {resolved : SharedState Id} {left right : Working Id C}

section

variable (shared : inputs.SharedIds) (screened : Screened inputs cache resolved left right)
  (sound : ScreeningSound inputs cache resolved)
include screened sound

omit [ToString Id] in
theorem Screened.held (stays : StaysNonPower inputs ev) : inputs.Held left.resolved ev.sender :=
  fun banned => screened.kept _ (sound.held ev stays (screened.verdicts ev stays ▸ banned))

include shared

theorem Screened.rejects (createEv : Option (LeanEvent Id C)) (stays : StaysNonPower inputs ev)
    (banned : inputs.screens resolved ev.sender = true) : (eventAuthOk inputs createEv false left ev).1 = false :=
  eventAuthOk_of_screened shared stays (screened.held sound stays) (screened.verdicts ev stays ▸ banned)

theorem Screened.turn (createEv : Option (LeanEvent Id C)) (conflictedKeys : KeySet) {ev : LeanEvent Id C}
    (stays : StaysNonPower inputs ev) :
    Screened inputs cache resolved (checkEvent inputs createEv conflictedKeys false left ev)
      (if inputs.screens resolved ev.sender then right
        else checkEvent inputs createEv conflictedKeys false right ev) := by
  have known : gathersTransitively inputs.version = true → inputs.authLookup ev.eventId = some ev :=
    fun _ => shared.authLookup_conflicted stays.1
  constructor
  · split
    · rename_i banned
      have rejected := screened.rejects shared sound createEv stays banned
      exact screened.apart.checkSkipped known ⟨ev, stays, rfl, banned⟩ createEv conflictedKeys false
        (checkEvent_rejected rejected conflictedKeys)
    · rename_i free
      refine screened.apart.checkEvent known ?_ (sound.settled ev stays) createEv conflictedKeys false
      rintro ⟨other, staysOther, same, banned⟩
      obtain rfl := EventMap.mem_unique staysOther.1 stays.1 same
      exact free banned
  · intro other staysOther
    rw [← screened.verdicts other staysOther]
    exact screens_checkEvent shared stays conflictedKeys fun _ => screened.held sound staysOther
  · intro key held
    exact checkEvent_kept inputs createEv conflictedKeys false ev (screened.kept key held)

end

def resolveIterativeSortUnscreened (order : Order) (inputs : IterativeInputs Id C)
    (externalAuthCache : Option (LocalAuthCache Id C)) (conflictedKeysOverride : Option KeySet) :
    Except (Panic Id) (Resolution Id C) := do
  requireLegacyIterativeVersion inputs.version
  return resolveScreened (fun _ events => events) order inputs
    ⟨externalAuthCache, [], conflictedKeysOf inputs conflictedKeysOverride⟩

def unscreenedTurns (order : Order) (inputs : IterativeInputs Id C) (caches : ResolveCaches Id C) :
    List (LeanEvent Id C) :=
  sortedNonPower (fun _ events => events) order inputs (workingAfterPower order inputs caches).resolved
    (mainlineAfterPower order inputs caches).1

theorem screened_turns (order : Order) (caches : ResolveCaches Id C)
    (hardened : inputs.version.hasBanEvasionHardening = true) (shared : inputs.SharedIds)
    (sound : ScreeningSound inputs (selectLocalAuthCache caches.externalAuthCache inputs.version)
      (workingAfterPower order inputs caches).resolved) (turns : List (LeanEvent Id C)) (stays : ∀ ev ∈ turns, StaysNonPower inputs ev) :
    Screened inputs (selectLocalAuthCache caches.externalAuthCache inputs.version)
      (workingAfterPower order inputs caches).resolved
      (turns.foldl (checkEvent inputs (inputs.powerPhase order).createEv caches.conflictedKeys false)
        (workingAfterPower order inputs caches))
      ((turns.filter fun ev => !(inputs.version.hasBanEvasionHardening &&
          inputs.screens (workingAfterPower order inputs caches).resolved ev.sender)).foldl
        (checkEvent inputs (inputs.powerPhase order).createEv caches.conflictedKeys false)
        (workingAfterPower order inputs caches)) := by
  rw [List.foldl_filter]
  refine List.foldl_rel ⟨.refl (workingAfterPower_valid shared order caches), fun _ _ => rfl, fun _ held => held⟩ ?_
  intro ev mem _ _ screened
  have turn := screened.turn shared sound (inputs.powerPhase order).createEv caches.conflictedKeys (stays ev mem)
  cases banned : inputs.screens (workingAfterPower order inputs caches).resolved ev.sender <;>
    simpa [hardened, banned] using turn

end

namespace Sample

open Basespec.Sample

def banB : LeanEvent Nat Content := memberEvent 4 "@a:x" "@b:x" memBan [2, 3] 4

def publicRoom : LeanEvent Nat Content :=
  stateEvent 5 mRoomJoinRules "" "@a:x" { joinRule := some rulePublic } [2, 3] 5

def inviteB : LeanEvent Nat Content := memberEvent 6 "@a:x" "@b:x" memInvite [2, 3, 5] 6

def joinB : LeanEvent Nat Content := memberEvent 7 "@b:x" "@b:x" memJoin [2, 3, 5] 7

def topicB : LeanEvent Nat Content := topic 8 "@b:x" [2, 3, 7]

def banContext : EventMap Nat Content :=
  ⟨[create "12.1", joinA [], openLevels, banB, publicRoom, inviteB, joinB, topicB], by decide⟩

def banInputs (agreed conflicted : List (LeanEvent Nat Content))
    (distinct : (conflicted.map LeanEvent.eventId).Nodup) : IterativeInputs Nat Content :=
  ⟨stateOf agreed, ⟨conflicted, distinct⟩, banContext, .v2_1_1, ""⟩

def agreedBan : IterativeInputs Nat Content :=
  banInputs [create "12.1", joinA [], openLevels, publicRoom, banB] [topicB] (by decide)

def conflictedBan : IterativeInputs Nat Content :=
  banInputs [create "12.1", joinA [], openLevels, publicRoom] [banB, topicB] (by decide)

end Sample

open Sample

theorem conflictedBan_sound : ScreeningSound conflictedBan (.new .v2_1_1)
    (workingAfterPower .asListed conflictedBan ⟨none, [], conflictedKeysOf conflictedBan none⟩).resolved where
  shared _ _ := sharedIds_of_subset (by simp [conflictedBan, banInputs, banContext])
  held ev stays := by
    have held : ∀ ev ∈ conflictedBan.conflictedEvents.values, (workingAfterPower .asListed conflictedBan
        ⟨none, [], conflictedKeysOf conflictedBan none⟩).resolved[((⟨mRoomMember⟩, ev.sender) : Key)]?.isSome ∨
          conflictedBan.screens (workingAfterPower .asListed conflictedBan
            ⟨none, [], conflictedKeysOf conflictedBan none⟩).resolved ev.sender = false := by
      decide +kernel
    intro banned
    rcases held ev stays.1 with own | free
    · exact own
    · rw [free] at banned
      cases banned
  settled ev stays := by
    have uncited : ∀ event ∈ conflictedBan.authContext.values ++ conflictedBan.conflictedEvents.values,
        ∀ aid ∈ event.authEvents, aid ∉ conflictedBan.conflictedEvents.keys := by decide
    refine settled_of_uncited (fun event mem aid cites => ?_) (List.mem_append_right _ stays.1) _
    rintro ⟨dropped, staysToo, same, _⟩
    exact uncited event mem aid cites (List.mem_map.mpr ⟨dropped, staysToo.1, same⟩)

end Rezzy.Resolve
