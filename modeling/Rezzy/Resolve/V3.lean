import Mathlib.Data.Prod.Lex
import Rezzy.Resolve.Sorting

namespace Rezzy.Resolve

open Basespec Permuted

section

structure V3Rank where
  authority : Int
  safety : Int
  specificity : Nat
  seniority : Int
deriving DecidableEq, Repr

def V3Rank.fields (rank : V3Rank) : Int ×ₗ Int ×ₗ Nat ×ₗ Int :=
  toLex (rank.authority, toLex (rank.safety, toLex (rank.specificity, rank.seniority)))

theorem V3Rank.fields_injective : Function.Injective V3Rank.fields := by
  rintro ⟨_, _, _, _⟩ ⟨_, _, _, _⟩ same
  simpa [V3Rank.fields] using same

instance : LinearOrder V3Rank := LinearOrder.lift' V3Rank.fields V3Rank.fields_injective

end

structure CertifiedPromotionGrant (Id : Type) where
  grantId : Id
  target : String
  targetPowerLevel : Int
  activeMember : Id

structure V3Admission (Id : Type) where
  rank : V3Rank
  branchAuth : SharedState Id
  promotionGrant : Option (CertifiedPromotionGrant Id)

inductive V3ResolveError (Id : Type) where
  | missingVerifiedAdmission (eventId : Id)
  | incompleteAuthContext (missingEventIds : List Id)
deriving DecidableEq, Repr

/-- An error, or an expectation of the resolver that does not hold. -/
inductive V3Failure (Id : Type) where
  | error (reason : V3ResolveError Id)
  | lostCertificate
  | selectedEventMissing
deriving DecidableEq, Repr

structure V3AdmissionProvider (Id C : Type) where
  admission : Id → Option (V3Admission Id)
  causallyPrecedes : Id → Id → Except (V3ResolveError Id) Bool
  jointlyAuthorized : LeanEvent Id C → SharedState Id → Except (V3ResolveError Id) Bool

structure RoundSelection (Id : Type) where
  key : Key
  eventId : Id

structure RepairRound (Id : Type) where
  selections : List (RoundSelection Id)
  rejected : List Id

structure ConflictedEvents (Id C : Type) where
  entries : List (Id × LeanEvent Id C)
  distinct : (entries.map Prod.fst).Nodup

inductive V3Site where
  | conflictedEvents

structure AdmittedWriterIndex (Id : Type) where
  writers : Std.ExtTreeMap Key (List Id) keyCmp

abbrev CausalRelationCache (Id : Type) := List ((Id × Id) × Bool)

variable {Id C : Type} [LinearOrder Id]

def ConflictedEvents.get (events : ConflictedEvents Id C) (id : Id) : Option (LeanEvent Id C) :=
  events.entries.lookup id

namespace AdmittedWriterIndex

def add (conflictedEvents : ConflictedEvents Id C) (index : AdmittedWriterIndex Id) (id : Id) :
    Except (V3Failure Id) (AdmittedWriterIndex Id) :=
  match conflictedEvents.get id with
  | none => .error (.error (.incompleteAuthContext [id]))
  | some event =>
    match event.key? with
    | none => .ok index
    | some key => .ok ⟨index.writers.insert key (index.writers[key]?.getD [] ++ [id])⟩

def build (admitted : List Id) (conflictedEvents : ConflictedEvents Id C) :
    Except (V3Failure Id) (AdmittedWriterIndex Id) :=
  admitted.foldlM (add conflictedEvents) ⟨∅⟩

def removeAll (index : AdmittedWriterIndex Id) (rejected : List Id) : AdmittedWriterIndex Id :=
  ⟨(index.writers.map fun _ writers => writers.filter (· ∉ rejected)).filter fun _ writers => writers ≠ []⟩

end AdmittedWriterIndex

section

variable (admission : V3AdmissionProvider Id C)

def CausalRelationCache.precedes (cache : CausalRelationCache Id) (ancestor descendant : Id) :
    Except (V3Failure Id) (Bool × CausalRelationCache Id) :=
  match cache.lookup (ancestor, descendant) with
  | some result => .ok (result, cache)
  | none =>
    match admission.causallyPrecedes ancestor descendant with
    | .error reason => .error (.error reason)
    | .ok result => .ok (result, ((ancestor, descendant), result) :: cache)

def isMaximal (candidate : Id) : List Id → CausalRelationCache Id →
    Except (V3Failure Id) (Bool × CausalRelationCache Id)
  | [], cache => .ok (true, cache)
  | other :: others, cache =>
    if candidate = other then isMaximal candidate others cache
    else
      match CausalRelationCache.precedes admission cache candidate other with
      | .error failure => .error failure
      | .ok (true, cache) => .ok (false, cache)
      | .ok (false, cache) => isMaximal candidate others cache

def maximalWriters (writers : List Id) : List Id → CausalRelationCache Id →
    Except (V3Failure Id) (List Id × CausalRelationCache Id)
  | [], cache => .ok ([], cache)
  | candidate :: candidates, cache => do
    let (isMaximal, cache) ← isMaximal admission candidate writers cache
    let (maximal, cache) ← maximalWriters writers candidates cache
    return (if isMaximal then candidate :: maximal else maximal, cache)

def certifiedRank (id : Id) : Except (V3Failure Id) V3Rank :=
  match admission.admission id with
  | some certificate => .ok certificate.rank
  | none => .error .lostCertificate

def keepGreater (left right : Id) : Except (V3Failure Id) Id := do
  let leftRank ← certifiedRank admission left
  let rightRank ← certifiedRank admission right
  return if (compare leftRank rightRank).then (compare left right) = .gt then left else right

def selectWriter (writers : List Id) (cache : CausalRelationCache Id) :
    Except (V3Failure Id) (Id × CausalRelationCache Id) := do
  let (maximal, cache) ← maximalWriters admission writers writers cache
  match maximal with
  | [] => .error (.error (.incompleteAuthContext writers))
  | first :: rest => do
    let winner ← rest.foldlM (keepGreater admission) first
    return (winner, cache)

def selectRound : List (Key × List Id) → CausalRelationCache Id →
    Except (V3Failure Id) (List (RoundSelection Id) × CausalRelationCache Id)
  | [], cache => .ok ([], cache)
  | (key, writers) :: entries, cache => do
    let (winner, cache) ← selectWriter admission writers cache
    let (selections, cache) ← selectRound entries cache
    return (⟨key, winner⟩ :: selections, cache)

end

def stateForRound (unconflictedState : SharedState Id) (selections : List (RoundSelection Id)) : SharedState Id :=
  selections.foldl (fun state selection => state.insert selection.key selection.eventId) unconflictedState

variable (unconflictedState : SharedState Id) (conflictedEvents : ConflictedEvents Id C)
  (admission : V3AdmissionProvider Id C)

def rejectSelection (selectedState : SharedState Id) (rejected : List Id) (selection : RoundSelection Id) :
    Except (V3Failure Id) (List Id) :=
  match conflictedEvents.get selection.eventId with
  | none => .error .selectedEventMissing
  | some event =>
    match admission.jointlyAuthorized event selectedState with
    | .error reason => .error (.error reason)
    | .ok authorized => .ok (if authorized then rejected else rejected ++ [selection.eventId])

def evaluateRound (selections : List (RoundSelection Id)) (selectedState : SharedState Id) :
    Except (V3Failure Id) (RepairRound Id) := do
  let rejected ← selections.foldlM (rejectSelection conflictedEvents admission selectedState) []
  return ⟨selections, (rejected.insertionSort (· ≤ ·)).dedup⟩

def repairRound (index : AdmittedWriterIndex Id) (cache : CausalRelationCache Id) :
    Except (V3Failure Id) (RepairRound Id × CausalRelationCache Id) := do
  let (selections, cache) ← selectRound admission index.writers.toList cache
  let round ← evaluateRound conflictedEvents admission selections (stateForRound unconflictedState selections)
  return (round, cache)

def repair : Nat → AdmittedWriterIndex Id → CausalRelationCache Id →
    Option (Except (V3Failure Id) (SharedState Id))
  | 0, _, _ => none
  | rounds + 1, index, cache =>
    match repairRound unconflictedState conflictedEvents admission index cache with
    | .error failure => some (.error failure)
    | .ok (round, cache) =>
      if round.rejected = [] then some (.ok (stateForRound unconflictedState round.selections))
      else repair rounds (index.removeAll round.rejected) cache

def admitWriter (admitted : List Id) (event : LeanEvent Id C) : Except (V3Failure Id) (List Id) :=
  if event.stateKey.isNone then .ok admitted
  else if (admission.admission event.eventId).isNone then
    .error (.error (.missingVerifiedAdmission event.eventId))
  else .ok (admitted ++ [event.eventId])

def admittedIndex (order : HashOrder V3Site) : Except (V3Failure Id) (List Id × AdmittedWriterIndex Id) := do
  let values := (order.iter .conflictedEvents conflictedEvents.entries).map Prod.snd
  let admitted ← values.foldlM (admitWriter admission) []
  let sorted := admitted.insertionSort (· ≤ ·)
  let index ← AdmittedWriterIndex.build sorted conflictedEvents
  return (sorted, index)

def resolveV3 (order : HashOrder V3Site) : Option (Except (V3Failure Id) (SharedState Id)) :=
  match admittedIndex conflictedEvents admission order with
  | .error failure => some (.error failure)
  | .ok (admitted, index) =>
    repair unconflictedState conflictedEvents admission (admitted.length + 1) index []

end Rezzy.Resolve
