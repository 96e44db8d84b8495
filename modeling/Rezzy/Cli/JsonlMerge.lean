import Mathlib.Data.Finset.Basic
import Rezzy.Basespec.CanonicalJson
import Rezzy.Basespec.JsonContent
import Rezzy.Lib.Firsts
import Rezzy.Lib.Linked
import Rezzy.Lib.Worklist
import Std.Data.ExtHashMap

namespace Rezzy.Cli

open Basespec Json
open Value (asArray asStr)

inductive ErrorCode where
  | malformedJson
  | disjointDags
  | aggregateConflict
deriving DecidableEq, Repr

structure AppError where
  code : ErrorCode
  message : String

section

structure FileRefs where
  eventIds : Finset String
  authRefs : Finset String
  prevRefs : Finset String
  relatesTo : Finset String
  redacts : Finset String
  stateKeys : Finset (String × String)

def FileRefs.empty : FileRefs := ⟨∅, ∅, ∅, ∅, ∅, ∅⟩

def FileRefs.allIds (refs : FileRefs) : Finset String :=
  refs.eventIds ∪ refs.authRefs ∪ refs.prevRefs ∪ refs.relatesTo ∪ refs.redacts

def refEventId (value : Value) : Option String :=
  value.asStr.or ((value.asArray.bind List.head?).bind asStr)

def insertId (ids : Finset String) : Option String → Finset String
  | some id => insert id ids
  | none => ids

def insertRefs (ids : Finset String) : Option (List Value) → Finset String
  | some entries => entries.foldl (fun ids entry => insertId ids (refEventId entry)) ids
  | none => ids

def collectRefs (val : Value) (refs : FileRefs) (eventId : String) : FileRefs :=
  let content := val.get fieldContent
  let rel := content.bind (Value.get · "m.relates_to")
  let isRedaction : Bool := (val.get fieldType).bind asStr = some mRoomRedaction
  { authRefs := insertRefs refs.authRefs ((val.get fieldAuthEvents).bind asArray)
    prevRefs := insertRefs refs.prevRefs ((val.get fieldPrevEvents).bind asArray)
    relatesTo := insertId (insertId refs.relatesTo ((rel.bind (Value.get · "event_id")).bind asStr))
      ((rel.bind (Value.get · "relates_to")).bind asStr)
    redacts :=
      if isRedaction then
        insertId (insertId refs.redacts ((val.get "redacts").bind asStr))
          ((content.bind (Value.get · "redacts")).bind asStr)
      else refs.redacts
    stateKeys :=
      match (val.get fieldStateKey).bind asStr, (val.get fieldType).bind asStr with
      | some sk, some ty => insert (ty, sk) refs.stateKeys
      | _, _ => refs.stateKeys
    eventIds := insert eventId refs.eventIds }

variable (perFileRefs : List FileRefs)

def popBack (queue : List Nat) : Option (Nat × List Nat) := queue.getLast?.map fun current => (current, queue.dropLast)

def sharesHistory (current next : FileRefs) : Bool :=
  (current.eventIds ∩ next.allIds).Nonempty ∨ (next.eventIds ∩ current.allIds).Nonempty

def linkedFiles (current : Nat) : List Nat :=
  (List.range perFileRefs.length).filter fun next =>
    sharesHistory (perFileRefs.getD current .empty) (perFileRefs.getD next .empty)

def disjointDag (idx : Nat) : AppError :=
  ⟨.disjointDags, "Disjoint DAGs: input file at index " ++ toString idx ++
    " shares no history with the connected component. " ++
    "Cannot compute meaningful merge — all inputs must share history."⟩

def performConnectivityCheck : Except AppError Unit :=
  let numFiles := perFileRefs.length
  if numFiles < 2 then .ok ()
  else
    let visited := Worklist.flood popBack (· < numFiles) (linkedFiles perFileRefs) (List.range numFiles) [0]
    match (List.range numFiles).find? (· ∉ visited) with
    | some idx => .error (disjointDag idx)
    | none => .ok ()

end

structure MergeResult where
  events : List Value
  duplicateCopies : Nat

def usizeMax : Nat := 2 ^ 64 - 1

def saturatingAdd (a b : Nat) : Nat := min (a + b) usizeMax

def cannotCanonicalize (error : String) : AppError := ⟨.malformedJson, "cannot canonicalize event: " ++ error⟩

def comparisonKey (value : Value) : Option String → Except AppError Bytes
  | none => .ok (writeStringValue value)
  | some roomVersion => (tryCanonicalRedactedJson value roomVersion).mapError cannotCanonicalize

structure Merging where
  seenIds : Std.ExtHashMap String Nat
  merged : List Value
  mergedKeys : List Bytes
  duplicateCopies : Nat

def Merging.start : Merging := ⟨∅, [], [], 0⟩

def eventIdOf (val : Value) : String := ((val.get fieldEventId).bind asStr).getD ""

def conflict (eventId label : String) : AppError :=
  ⟨.aggregateConflict, "event_id " ++ eventId ++ " has different payloads in input file " ++ label⟩

def mergeEvent (roomVersion : Option String) (label : String) (state : Merging) (val : Value) :
    Except AppError Merging := do
  let eventId := eventIdOf val
  let key ← comparisonKey val roomVersion
  match state.seenIds[eventId]? with
  | some firstIndex =>
    if state.mergedKeys[firstIndex]? ≠ some key then .error (conflict eventId label)
    else .ok { state with duplicateCopies := saturatingAdd state.duplicateCopies 1 }
  | none =>
    .ok { state with
      seenIds := state.seenIds.insert eventId state.merged.length
      merged := state.merged ++ [val]
      mergedKeys := state.mergedKeys ++ [key] }

def eventTurn (roomVersion : Option String) (label : String) (state : Merging × FileRefs) (val : Value) :
    Except AppError (Merging × FileRefs) :=
  if eventIdOf val = "" then .ok state
  else do
    let refs := collectRefs val state.2 (eventIdOf val)
    let merging ← mergeEvent roomVersion label state.1 val
    .ok (merging, refs)

def fileTurn (roomVersion : Option String) (state : Merging × List FileRefs) (file : String × List Value) :
    Except AppError (Merging × List FileRefs) := do
  let (merging, refs) ← file.2.foldlM (eventTurn roomVersion file.1) (state.1, .empty)
  .ok (merging, state.2 ++ [refs])

def mergeEventSlices (fileSets : List (String × List Value)) (roomVersion : Option String) :
    Except AppError MergeResult := do
  let (merging, perFileRefs) ← fileSets.foldlM (fileTurn roomVersion) (.start, [])
  if 2 ≤ fileSets.length then
    performConnectivityCheck perFileRefs
    .ok ⟨merging.merged, merging.duplicateCopies⟩
  else .ok ⟨merging.merged, merging.duplicateCopies⟩

end Rezzy.Cli
