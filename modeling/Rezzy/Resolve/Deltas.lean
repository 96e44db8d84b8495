import Rezzy.Resolve.Screening

namespace Rezzy.Resolve

open Basespec Auth State Permuted
open IterativeInputs (sortContext)

variable {Id C : Type} [LinearOrder Id] [EventContent C]

def MayBeChecked (inputs : IterativeInputs Id C) (event : LeanEvent Id C) : Prop :=
  event ∈ inputs.conflictedEvents.values ∨
    event ∈ inputs.authContext.values ∧ isAncestralPower inputs.version event = true

def KeylessId (inputs : IterativeInputs Id C) (id : Id) : Prop :=
  ∃ event, inputs.sortContext id = some event ∧ MayBeChecked inputs event ∧ event.key? = none

/-- When the deltas follow the plain resolver in a hardened version: no event without a key unsettles another one, and
    no membership event can lift an agreed ban. -/
structure DeltasFollow (inputs : IterativeInputs Id C) : Prop where
  shared : inputs.SharedIds
  settled : ∀ event, MayBeChecked inputs event → event.key? ≠ none →
    inputs.Settled (.new inputs.version) (KeylessId inputs) event
  screened : ∀ ev, StaysNonPower inputs ev → inputs.screens ∅ ev.sender = true →
    ∀ other, StaysNonPower inputs other → other.key? ≠ some (⟨mRoomMember⟩, ev.sender)

theorem hardened_of_gathers (gathers : gathersTransitively version = true) : version.hasBanEvasionHardening = true := by
  cases version <;> first | rfl | cases gathers

theorem DeltasFollow.known (follow : inputs.version.hasBanEvasionHardening = true → DeltasFollow inputs)
    {event : LeanEvent Id C} (found : inputs.sortContext event.eventId = some event) :
    gathersTransitively inputs.version = true → inputs.authLookup event.eventId = some event := by
  intro gathers
  rw [← (follow (hardened_of_gathers gathers)).shared.sortContext]
  exact found

section

variable [ToString Id] {inputs : IterativeInputs Id C} {left right : Working Id C}

theorem checkWithDelta_working (keyed : event.key? = some key) (phase : ResolvePhase) :
    (checkWithDelta inputs createEv conflictedKeys phase left event key).1 =
      checkEvent inputs createEv conflictedKeys (phase = .power) left event := by
  unfold checkWithDelta checkEvent applyAccepted
  rw [keyed]
  by_cases passed : (eventAuthOk inputs createEv (decide (phase = .power)) left event).1 = true
  · by_cases decides : decidesKey inputs.version conflictedKeys key = true
    · simp [passed, decides]
    · simp [passed, decides]
  · simp [passed]

theorem checkEvent_keyless (keyless : event.key? = none) (isPower : Bool) :
    (checkEvent inputs createEv conflictedKeys isPower left event).resolved = left.resolved := by
  unfold checkEvent applyAccepted
  simp [keyless]

variable (follow : inputs.version.hasBanEvasionHardening = true → DeltasFollow inputs)

include follow

theorem DeltasFollow.check (apart : Apart inputs (.new inputs.version) (KeylessId inputs) left right)
    (found : inputs.sortContext event.eventId = some event) (checked : MayBeChecked inputs event)
    (createEv : Option (LeanEvent Id C)) (conflictedKeys : KeySet) (phase : ResolvePhase) :
    Apart inputs (.new inputs.version) (KeylessId inputs)
      (checkEvent inputs createEv conflictedKeys (phase = .power) left event)
      (match event.key? with
        | none => right
        | some key => (checkWithDelta inputs createEv conflictedKeys phase right event key).1) := by
  have known := DeltasFollow.known follow found
  cases keyed : event.key? with
  | none =>
    exact apart.checkSkipped known ⟨event, found, checked, keyed⟩ createEv conflictedKeys _ (checkEvent_keyless keyed _)
  | some key =>
    dsimp only
    rw [checkWithDelta_working keyed phase]
    refine apart.checkEvent known ?_ ?_ createEv conflictedKeys _
    · rintro ⟨other, foundOther, _, keyless⟩
      obtain rfl := Option.some.inj (found.symm.trans foundOther)
      rw [keyed] at keyless
      cases keyless
    · intro gathers
      exact (follow (hardened_of_gathers gathers)).settled event checked (by simp [keyed]) gathers

theorem DeltasFollow.powerTurn (apart : Apart inputs (.new inputs.version) (KeylessId inputs) left working.toWorking)
    {id : Id} (checked : ∀ event, inputs.sortContext id = some event → MayBeChecked inputs event)
    (originals : List Id) :
    Apart inputs (.new inputs.version) (KeylessId inputs) (powerTurn inputs createEv conflictedKeys left id)
      (powerDeltaTurn inputs createEv conflictedKeys originals working id).toWorking := by
  unfold Resolve.powerTurn powerDeltaTurn
  cases found : inputs.sortContext id with
  | none => exact apart
  | some event =>
    have named := sortContext_id found
    have both := DeltasFollow.check follow apart (named.symm ▸ found) (checked event found) createEv
      conflictedKeys .power
    cases keyed : event.key? <;> simpa [keyed] using both

theorem DeltasFollow.afterPower (order : Order) (conflictedKeys : KeySet) :
    Apart inputs (.new inputs.version) (KeylessId inputs) (workingAfterPower order inputs ⟨none, [], conflictedKeys⟩)
      (deltasAfterPower order inputs none conflictedKeys).toWorking := by
  have run : Apart inputs (.new inputs.version) (KeylessId inputs)
      ((sortedPowerIds order inputs (inputs.powerPhase order)).foldl
        (Resolve.powerTurn inputs (inputs.powerPhase order).createEv conflictedKeys)
        (initialWorking inputs none))
      ((sortedPowerIds order inputs (inputs.powerPhase order)).foldl
        (powerDeltaTurn inputs (inputs.powerPhase order).createEv conflictedKeys
          (prepareConflictedAndKeys inputs.conflictedEvents))
        ⟨initialWorking inputs none, []⟩).toWorking := by
    refine List.foldl_rel (r := fun (left : Working Id C) (right : DeltaWorking Id C) =>
      Apart inputs (.new inputs.version) (KeylessId inputs) left right.toWorking) (.refl fun valid => valid) ?_
    intro id mem left right apart
    refine DeltasFollow.powerTurn follow apart (fun event found => ?_) _
    rw [mem_sortedPowerIds, EventMap.mem_keys] at mem
    obtain ⟨power, known⟩ := mem
    rcases executePowerPhase_power_source known with own | ⟨fresh, own, _, ancestral⟩
    · rw [sortContext, own] at found
      obtain rfl := Option.some.inj found
      exact .inl (EventMap.get_mem own)
    · rw [sortContext, EventMap.get_eq_none.mpr fresh, own] at found
      obtain rfl := Option.some.inj found
      exact .inr ⟨EventMap.get_mem own, ancestral⟩
  unfold workingAfterPower deltasAfterPower runPowerPhaseIterativeChecks
  exact ⟨by dsimp only; rw [run.resolved], run.validLeft, run.validRight, run.cached⟩

structure DeltaScreened (inputs : IterativeInputs Id C) (resolved : SharedState Id) (left right : Working Id C) :
    Prop where
  apart : Apart inputs (.new inputs.version) (KeylessId inputs) left right
  verdicts : inputs.version.hasBanEvasionHardening = true → ∀ ev, StaysNonPower inputs ev →
    inputs.screens left.resolved ev.sender = inputs.screens resolved ev.sender

theorem DeltasFollow.nonPowerTurn (screened : DeltaScreened inputs resolved left working.toWorking)
    (stays : StaysNonPower inputs event) (createEv : Option (LeanEvent Id C)) (conflictedKeys : KeySet) :
    DeltaScreened inputs resolved
      (if inputs.version.hasBanEvasionHardening && inputs.screens resolved event.sender then left
        else checkEvent inputs createEv conflictedKeys false left event)
      (nonPowerDeltaTurn inputs createEv conflictedKeys working event).toWorking := by
  have found : inputs.sortContext event.eventId = some event := by
    rw [sortContext, EventMap.get_of_mem stays.1]
    rfl
  have both := DeltasFollow.check follow screened.apart found (.inl stays.1) createEv conflictedKeys .nonPower
  have verdict : (inputs.version.hasBanEvasionHardening &&
        isSenderBanned event working.resolved inputs.unconflictedState inputs.sortContext) =
      (inputs.version.hasBanEvasionHardening && inputs.screens resolved event.sender) := by
    cases hardened : inputs.version.hasBanEvasionHardening with
    | false => rfl
    | true => rw [isSenderBanned_eq, ← screened.apart.resolved, screened.verdicts hardened event stays]
  have later : inputs.version.hasBanEvasionHardening = true → ∀ ev, StaysNonPower inputs ev →
      inputs.screens (checkEvent inputs createEv conflictedKeys false left event).resolved ev.sender =
        inputs.screens resolved ev.sender := by
    intro hardened ev staysToo
    rw [← screened.verdicts hardened ev staysToo]
    refine screens_checkEvent (follow hardened).shared stays conflictedKeys fun keyed banned => ?_
    rw [Option.isSome_iff_ne_none]
    intro missing
    rw [IterativeInputs.screens, missing] at banned
    exact (follow hardened).screened ev staysToo (by rwa [IterativeInputs.screens, Std.ExtTreeMap.getElem?_empty])
      event stays keyed
  unfold nonPowerDeltaTurn
  cases keyed : event.key? with
  | none =>
    rw [keyed] at both
    split
    · exact screened
    · exact ⟨both, later⟩
  | some key =>
    rw [keyed] at both
    rw [verdict]
    split
    · exact screened
    · exact ⟨both, later⟩

theorem DeltasFollow.nonPowerTurns
    (apart : Apart inputs (.new inputs.version) (KeylessId inputs) left working.toWorking)
    (turns : List (LeanEvent Id C)) (stays : ∀ ev ∈ turns, StaysNonPower inputs ev)
    (createEv : Option (LeanEvent Id C)) (conflictedKeys : KeySet) : DeltaScreened inputs left.resolved
      ((turns.filter fun ev => !(inputs.version.hasBanEvasionHardening && inputs.screens left.resolved ev.sender)).foldl
        (checkEvent inputs createEv conflictedKeys false) left)
      (turns.foldl (nonPowerDeltaTurn inputs createEv conflictedKeys) working).toWorking := by
  rw [List.foldl_filter]
  refine List.foldl_rel (r := fun (w : Working Id C) (d : DeltaWorking Id C) =>
    DeltaScreened inputs left.resolved w d.toWorking) ⟨apart, fun _ _ _ => rfl⟩ ?_
  intro ev mem w d screened
  have turn := DeltasFollow.nonPowerTurn follow screened (stays ev mem) createEv conflictedKeys
  cases banned : inputs.version.hasBanEvasionHardening && inputs.screens left.resolved ev.sender with
  | false =>
    rw [banned] at turn
    exact turn
  | true =>
    rw [banned] at turn
    exact turn

end

namespace Sample

open Basespec.Sample

def liftedBan : IterativeInputs Nat Content :=
  banInputs [create "12.1", joinA [], openLevels, publicRoom, banB] [inviteB, joinB, topicB] (by decide)

end Sample

open Sample

theorem conflictedBan_deltasFollow : DeltasFollow conflictedBan where
  shared := IterativeInputs.sharedIds_of_subset (by simp [conflictedBan, banInputs, banContext])
  settled event checked _ := by
    have keyed : ∀ event ∈ conflictedBan.authContext.values ++ conflictedBan.conflictedEvents.values,
        event.key? ≠ none := by decide
    have known : ∀ {event}, MayBeChecked conflictedBan event →
        event ∈ conflictedBan.authContext.values ++ conflictedBan.conflictedEvents.values := fun checked =>
      List.mem_append.mpr (checked.elim .inr fun ancestral => .inl ancestral.1)
    refine IterativeInputs.settled_of_uncited (fun _ _ aid _ => ?_) (known checked) _
    rintro ⟨keyless, _, checked, none⟩
    exact keyed keyless (known checked) none
  screened ev stays banned := by
    have free : ∀ ev ∈ conflictedBan.conflictedEvents.values, conflictedBan.screens ∅ ev.sender = false := by
      decide +kernel
    rw [free ev stays.1] at banned
    cases banned

end Rezzy.Resolve
