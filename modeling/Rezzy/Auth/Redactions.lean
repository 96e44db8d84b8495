import Rezzy.Auth.PowerLevel
import Rezzy.Basespec.CanonicalNumbers
import Rezzy.Basespec.JsonContent
import Rezzy.Lib.Peel

namespace Rezzy.Basespec

open Json

theorem formed_succ {content : Value} (formed : ∃ depth, content.Formed depth) : ∃ depth, content.Formed (depth + 1) := by
  obtain ⟨depth, formed⟩ := formed
  cases formed with
  | null => exact ⟨0, .null⟩
  | bool v => exact ⟨0, .bool v⟩
  | number k => exact ⟨0, .number k⟩
  | string s => exact ⟨0, .string s⟩
  | array inner => exact ⟨_, .array inner⟩
  | object sorted inner => exact ⟨_, .object sorted inner⟩

variable {Id : Type} {floatToI64 : Number → Option Int}

namespace JsonContent

def redact (content : JsonContent floatToI64) (rule : RedactionRule) : JsonContent floatToI64 :=
  ⟨redactContent content.value rule,
    (formed_succ content.formed).elim fun depth formed => ⟨depth + 1, redactContent_formed formed rule⟩⟩

theorem redact_again (content : JsonContent floatToI64) (rule : RedactionRule) :
    (content.redact rule).redact rule = content.redact rule := by
  obtain ⟨-, -, formed⟩ := content
  have same := redactContent_again (Formed.ordered formed) rule
  simp only [redact, same]

end JsonContent

structure FlaggedEvent (Id C : Type) extends LeanEvent Id C where
  softFail : Bool

namespace FlaggedEvent

def redacted (event : FlaggedEvent Id (JsonContent floatToI64)) (roomVersion : String) :
    FlaggedEvent Id (JsonContent floatToI64) :=
  { event with content := event.content.redact (redactionPreservedKeys event.eventType roomVersion) }

variable (event : FlaggedEvent Id (JsonContent floatToI64)) (roomVersion : String)

@[simp] theorem redacted_again : (event.redacted roomVersion).redacted roomVersion = event.redacted roomVersion := by
  unfold redacted
  rw [JsonContent.redact_again]

def getRedacts (event : FlaggedEvent Id (JsonContent floatToI64)) : Option String := EventContent.getRedacts event.content

end FlaggedEvent

def applyRedaction [ToString Id] (target redaction : FlaggedEvent Id (JsonContent floatToI64)) (roomVersion : String) :
    Option (FlaggedEvent Id (JsonContent floatToI64)) :=
  if redaction.getRedacts = some (toString target.eventId) then some (target.redacted roomVersion) else none

end Rezzy.Basespec

namespace Rezzy.Auth

open List

section

open Basespec Json

/-- The sender may redact, so may one whose level is high enough, and in the first two room versions one whose
    redaction shares its domain with the target. -/
def redactionIsAuthorized {Id C : Type} [EventContent C] [ToString Id] (redaction target : LeanEvent Id C)
    (state : StateProvider Id C) (version : StateResVersion) (roomVersion : String) : Bool :=
  if redaction.sender = target.sender then true
  else if getRedactPowerLevel state ≤ getSenderPowerLevel redaction.sender state version then true
  else if roomVersion ∈ ["1", "2"] then
    (EventContent.getRedacts redaction.content).any fun target => domainMatches target (toString redaction.eventId)
  else false

structure RedactionReport (Id : Type) where
  applied : List (Id × Id) := []
  skippedUnauthorized : List (Id × Id) := []
  targetNotInBatch : List (Id × String) := []
  failedToApply : List (Id × Id) := []
deriving DecidableEq

section

def blockedBy (pairs : List (Nat × Nat)) (tp : Nat) : Option Nat := pairs.findIdx? fun pair => pair.1 = tp

def blockers (pairs : List (Nat × Nat)) (i : Nat) : List Nat :=
  (pairs[i]?.bind fun pair => blockedBy pairs pair.2).toList

def orderPairs (pairs : List (Nat × Nat)) : List (Nat × Nat) :=
  let indices := List.range pairs.length
  let children := Peel.citers indices (blockers pairs)
  let inDegree := fun i => (blockers pairs i).length
  let order := (Peel.peel children inDegree (indices.filter fun i => inDegree i = 0) indices.length).done
  (order ++ indices.filter fun i => i ∉ order).filterMap fun i => pairs[i]?

end

variable {Id : Type} [ToString Id] {floatToI64 : Number → Option Int}

abbrev Batch (Id : Type) (floatToI64 : Number → Option Int) := List (FlaggedEvent Id (JsonContent floatToI64))

def isActiveRedaction (event : FlaggedEvent Id (JsonContent floatToI64)) : Bool :=
  event.eventType = mRoomRedaction && !event.rejected && !event.softFail

def redactionPositions (events : Batch Id floatToI64) : List Nat :=
  (events.zipIdx.filter fun entry => isActiveRedaction entry.1).map Prod.snd

def posById (events : Batch Id floatToI64) (targetId : String) : Option Nat :=
  (events.zipIdx.reverse.find? fun entry => toString entry.1.eventId = targetId).map Prod.snd

def pairRedaction (events : Batch Id floatToI64) (found : List (Nat × Nat) × List (Nat × String)) (rp : Nat) :
    List (Nat × Nat) × List (Nat × String) :=
  match events[rp]?.bind FlaggedEvent.getRedacts with
  | none => found
  | some targetId =>
    match posById events targetId with
    | some tp => if tp ≠ rp then (found.1 ++ [(rp, tp)], found.2) else found
    | none => (found.1, found.2 ++ [(rp, targetId)])

variable (stateAt : Id → Option (StateProvider Id (JsonContent floatToI64))) (version : StateResVersion)
  (roomVersion : String)

def isAuthorizedAt (redaction target : FlaggedEvent Id (JsonContent floatToI64)) : Bool :=
  match stateAt redaction.eventId with
  | some stateAtRedaction =>
    redactionIsAuthorized redaction.toLeanEvent target.toLeanEvent stateAtRedaction version roomVersion
  | none => false

def applyPair (s : Batch Id floatToI64 × RedactionReport Id) (pair : Nat × Nat) :
    Batch Id floatToI64 × RedactionReport Id :=
  match s.1[pair.1]?, s.1[pair.2]? with
  | some redaction, some target =>
    if isAuthorizedAt stateAt version roomVersion redaction target then
      match applyRedaction target redaction roomVersion with
      | some redacted =>
        (s.1.set pair.2 redacted, { s.2 with applied := s.2.applied ++ [(redaction.eventId, target.eventId)] })
      | none => (s.1, { s.2 with failedToApply := s.2.failedToApply ++ [(redaction.eventId, target.eventId)] })
    else
      (s.1, { s.2 with
        skippedUnauthorized := s.2.skippedUnauthorized ++ [(redaction.eventId, target.eventId)] })
  | _, _ => s

def deferRedaction (events : Batch Id floatToI64) (report : RedactionReport Id) (deferral : Nat × String) :
    RedactionReport Id :=
  match events[deferral.1]? with
  | some redaction =>
    { report with targetNotInBatch := report.targetNotInBatch ++ [(redaction.eventId, deferral.2)] }
  | none => report

def applyAuthorizedRedactionsWithStateAt (events : Batch Id floatToI64) : Batch Id floatToI64 × RedactionReport Id :=
  if (redactionPositions events).isEmpty then (events, {})
  else
    let found := (redactionPositions events).foldl (pairRedaction events) ([], [])
    let spent := (orderPairs found.1).foldl (applyPair stateAt version roomVersion) (events, {})
    (spent.1, found.2.foldl (deferRedaction spent.1) spent.2)

end

variable {pairs : List (Nat × Nat)}

def DistinctRedactors (pairs : List (Nat × Nat)) : Prop := (pairs.map Prod.fst).Nodup

def Replaces (pairs : List (Nat × Nat)) (first second : Nat × Nat) : Prop :=
  first ∈ pairs ∧ second ∈ pairs ∧ second.2 = first.1

theorem blockedBy_eq_some (distinct : DistinctRedactors pairs) :
    blockedBy pairs tp = some i ↔ ∃ pair, pairs[i]? = some pair ∧ pair.1 = tp := by
  unfold blockedBy
  rw [findIdx?_eq_some_iff_getElem]
  constructor
  · rintro ⟨bound, same, _⟩
    exact ⟨pairs[i], getElem?_eq_getElem bound, of_decide_eq_true same⟩
  · rintro ⟨pair, here, same⟩
    obtain ⟨bound, rfl⟩ := List.getElem?_eq_some_iff.mp here
    refine ⟨bound, decide_eq_true same, fun j less other => ?_⟩
    have twice : (pairs.map Prod.fst)[j]? = (pairs.map Prod.fst)[i]? := by
      rw [getElem?_map, getElem?_map, getElem?_eq_getElem (Nat.lt_trans less bound), here]
      exact congrArg some ((of_decide_eq_true other).trans same.symm)
    have bound' : j < (pairs.map Prod.fst).length := by
      rw [length_map]
      exact Nat.lt_trans less bound
    exact absurd ((getElem?_inj bound' distinct).mp twice) (Nat.ne_of_lt less)

theorem mem_blockers (distinct : DistinctRedactors pairs) :
    j ∈ blockers pairs i ↔ ∃ first second, pairs[j]? = some first ∧ pairs[i]? = some second ∧ second.2 = first.1 := by
  unfold blockers
  rw [Option.mem_toList, Option.bind_eq_some_iff]
  constructor
  · rintro ⟨second, here, blocked⟩
    obtain ⟨first, there, same⟩ := (blockedBy_eq_some distinct).mp blocked
    exact ⟨first, second, there, here, same.symm⟩
  · rintro ⟨first, second, there, here, same⟩
    exact ⟨second, here, (blockedBy_eq_some distinct).mpr ⟨first, there, same.symm⟩⟩

theorem blockers_graph (distinct : DistinctRedactors pairs) : Peel.Graph (range pairs.length) (blockers pairs)
    (Peel.citers (range pairs.length) (blockers pairs)) where
  nodup := nodup_range
  within i _ j blocks := by
    obtain ⟨first, _, there, _⟩ := (mem_blockers distinct).mp blocks
    exact mem_range.mpr (List.getElem?_eq_some_iff.mp there).1
  turned _ := .refl _

theorem filterMap_range (pairs : List (Nat × Nat)) : (range pairs.length).filterMap (fun i => pairs[i]?) = pairs := by
  induction pairs using reverseRecOn with
  | nil => rfl
  | append_singleton pairs pair ih =>
    have before : (range pairs.length).filterMap (fun i => (pairs ++ [pair])[i]?) = pairs := by
      refine (filterMap_congr fun i mem => ?_).trans ih
      exact getElem?_append_left (mem_range.mp mem)
    rw [length_append, length_singleton, range_succ, filterMap_append, before]
    simp

variable (distinct : DistinctRedactors pairs)
include distinct

theorem orderPairs_peeled : ∃ order : List Nat, order.Nodup ∧
    (∀ i ∈ order, i ∈ range pairs.length) ∧ Peel.ParentsFirst (blockers pairs) order ∧
    (order.length = (range pairs.length).length ↔
      ∀ i ∈ range pairs.length, ¬Relation.TransGen (Peel.Cites (blockers pairs)) i i) ∧
    orderPairs pairs = (order ++ (range pairs.length).filter fun i => i ∉ order).filterMap fun i => pairs[i]? := by
  obtain ⟨nodup, inside, first, all⟩ := Peel.peel_order (blockers_graph distinct)
    (List.Perm.refl ((range pairs.length).filter fun i => (blockers pairs i).length = 0))
  exact ⟨_, nodup, inside, first, all, rfl⟩

theorem orderPairs_perm : (orderPairs pairs).Perm pairs := by
  obtain ⟨order, nodup, inside, _, _, shape⟩ := orderPairs_peeled distinct
  have perm : (order ++ (range pairs.length).filter fun i => i ∉ order).Perm (range pairs.length) := by
    apply (perm_ext_iff_of_nodup ?_ nodup_range).mpr
    · intro i
      rw [mem_append, mem_filter]
      constructor
      · rintro (taken | ⟨mem, _⟩)
        · exact inside i taken
        · exact mem
      · intro mem
        by_cases taken : i ∈ order
        · exact .inl taken
        · exact .inr ⟨mem, decide_eq_true taken⟩
    · refine nodup_append.mpr ⟨nodup, nodup_range.filter _, fun i taken j left same => ?_⟩
      rw [← same] at left
      exact of_decide_eq_true (mem_filter.mp left).2 taken
  rw [shape]
  exact (perm.filterMap _).trans (.of_eq (filterMap_range pairs))

theorem cites_replaces (path : Relation.TransGen (Peel.Cites (blockers pairs)) j i) :
    ∃ first second, pairs[j]? = some first ∧ pairs[i]? = some second ∧
      Relation.TransGen (Replaces pairs) first second := by
  induction path with
  | single edge =>
    obtain ⟨first, second, there, here, same⟩ := (mem_blockers distinct).mp edge
    exact ⟨first, second, there, here, .single ⟨mem_of_getElem? there, mem_of_getElem? here, same⟩⟩
  | tail _ edge ih =>
    obtain ⟨first, middle, there, between, path⟩ := ih
    obtain ⟨middle', second, between', here, same⟩ := (mem_blockers distinct).mp edge
    obtain rfl : middle = middle' := Option.some.inj (between.symm.trans between')
    exact ⟨first, second, there, here, path.tail ⟨mem_of_getElem? between, mem_of_getElem? here, same⟩⟩

theorem orderPairs_spends (acyclic : ∀ pair, ¬Relation.TransGen (Replaces pairs) pair pair) :
    (orderPairs pairs).Pairwise fun earlier later => earlier.2 ≠ later.1 := by
  obtain ⟨order, nodup, inside, first, all, shape⟩ := orderPairs_peeled distinct
  have none : ∀ i ∈ range pairs.length, ¬Relation.TransGen (Peel.Cites (blockers pairs)) i i := by
    intro i _ path
    obtain ⟨pair, pair', here, here', cycle⟩ := cites_replaces distinct path
    obtain rfl : pair = pair' := Option.some.inj (here.symm.trans here')
    exact acyclic pair cycle
  have covered : (range pairs.length).filter (fun i => i ∉ order) = [] := by
    have perm := (subperm_of_subset nodup inside).perm_of_length_le (le_of_eq (all.mpr none).symm)
    rw [filter_eq_nil_iff]
    intro i mem
    simpa using perm.mem_iff.mpr mem
  rw [shape, covered, append_nil, pairwise_filterMap]
  rw [pairwise_iff_getElem]
  intro i j boundI _ _ earlier here later there same
  have blocks : order[j] ∈ blockers pairs order[i] := (mem_blockers distinct).mpr ⟨later, earlier, there, here, same⟩
  have placed := first.idxOf_lt nodup (getElem_mem boundI) blocks
  rw [nodup.idxOf_getElem, nodup.idxOf_getElem] at placed
  omega

end Rezzy.Auth
