import Rezzy.Lib.MapTotal
import Rezzy.Lib.Worklist
import Rezzy.State.Diff

namespace Rezzy.State

open List hiding after ext_getElem? getElem?_insert next tail
open Option Worklist Std.ExtTreeMap

section

open Basespec

variable {Id H : Type}

structure StateDelta (Id : Type) where
  eventType : String
  stateKey : String
  eventId : Option Id

def StateDelta.key (delta : StateDelta Id) : Key := (⟨delta.eventType⟩, delta.stateKey)

def computeStateDelta [DecidableEq Id] (parent current : SharedState Id) : List (StateDelta Id) :=
  (current.toList.filterMap fun entry =>
    if parent[entry.1]? = some entry.2 then none else some ⟨entry.1.1.asStr, entry.1.2, some entry.2⟩) ++
  parent.keys.filterMap fun key => if key ∈ current then none else some ⟨key.1.asStr, key.2, none⟩

def applyDeltaToState (state : SharedState Id) (delta : StateDelta Id) : SharedState Id :=
  match delta.eventId with
  | some eventId => state.insert delta.key eventId
  | none => state.erase delta.key

def applyStateDelta (base : SharedState Id) (deltas : List (StateDelta Id)) : SharedState Id :=
  deltas.foldl applyDeltaToState base

def maxDeltaChainHops : UInt64 := 100

structure CompactedCheckpoint (Id H : Type) where
  stateHash : H
  parentHash : Option H
  eventId : Id
  deltas : List (StateDelta Id)
  snapshot : Option (SharedState Id)

structure ChainTail (Id H : Type) where
  prevState : Option (SharedState Id)
  prevHash : Option H
  hopsSinceSnapshot : Nat

namespace ChainTail

def start : ChainTail Id H := ⟨none, none, 0⟩

def currentHops (tail : ChainTail Id H) : Nat := min (tail.hopsSinceSnapshot + 1) (2 ^ 64 - 1)

variable [DecidableEq Id]

def record (maxHops : UInt64) (tail : ChainTail Id H) (state : SharedState Id) :
    List (StateDelta Id) × Option (SharedState Id) × Nat :=
  match tail.prevState with
  | some base =>
    if tail.currentHops < maxHops.toNat then (computeStateDelta base state, none, tail.currentHops)
    else ([], some state, 0)
  | none => ([], some state, 0)

def chain (stateHash : SharedState Id → H) (maxHops : UInt64) :
    ChainTail Id H → List (Id × SharedState Id) → List (CompactedCheckpoint Id H)
  | _, [] => []
  | tail, (eventId, state) :: rest =>
    let (deltas, snapshot, recordedHops) := tail.record maxHops state
    ⟨stateHash state, tail.prevHash, eventId, deltas, snapshot⟩ ::
      chain stateHash maxHops ⟨some state, some (stateHash state), recordedHops⟩ rest

end ChainTail

def computeCompactedDeltaChainFromResolved [DecidableEq Id] (stateHash : SharedState Id → H)
    (resolvedStates : List (Id × SharedState Id)) (maxHops : Option UInt64) : List (CompactedCheckpoint Id H) :=
  ChainTail.start.chain stateHash (maxHops.getD maxDeltaChainHops) resolvedStates

def rposition {α : Type} (test : α → Bool) (items : List α) : Option Nat :=
  (items.reverse.findIdx? test).map fun k => items.length - 1 - k

theorem rposition_lt {α : Type} {test : α → Bool} {items : List α} {idx : Nat} (found : rposition test items = some idx) :
    idx < items.length := by
  obtain ⟨k, last, rfl⟩ := map_eq_some_iff.mp found
  have inside := (findIdx?_eq_some_iff_findIdx_eq.mp last).1
  rw [length_reverse] at inside
  omega

variable [DecidableEq H]

def findParentIdx (checkpoints : List (CompactedCheckpoint Id H)) (idx : Nat) (parentHash : H) : Option Nat :=
  let previous := if idx = 0 then none else some (idx - 1)
  (previous.filter fun prev => (checkpoints[prev]?.map CompactedCheckpoint.stateHash) = some parentHash).or
    (rposition (fun checkpoint => checkpoint.stateHash = parentHash) (checkpoints.take idx))

theorem findParentIdx_lt {checkpoints : List (CompactedCheckpoint Id H)} {idx parent : Nat} {parentHash : H}
    (found : findParentIdx checkpoints idx parentHash = some parent) : parent < idx := by
  rcases or_eq_some_iff.mp found with previous | ⟨_, earlier⟩
  · obtain ⟨held, _⟩ := filter_eq_some_iff.mp previous
    split at held
    · cases held
    · cases held
      omega
  · have inside := rposition_lt earlier
    rw [length_take] at inside
    omega

def walkBack (checkpoints : List (CompactedCheckpoint Id H)) (deltaStack : List (List (StateDelta Id))) (idx : Nat) :
    Option (SharedState Id × List (List (StateDelta Id))) :=
  match checkpoints[idx]? with
  | none => none
  | some checkpoint =>
    match checkpoint.snapshot with
    | some snapshot => some (snapshot, deltaStack)
    | none =>
      match checkpoint.parentHash with
      | none => none
      | some parentHash =>
        match _found : findParentIdx checkpoints idx parentHash with
        | none => none
        | some parent => walkBack checkpoints (checkpoint.deltas :: deltaStack) parent
termination_by idx
decreasing_by exact findParentIdx_lt _found

def reconstructStateAt (checkpoints : List (CompactedCheckpoint Id H)) (targetIndex : Nat) :
    Option (SharedState Id) :=
  if checkpoints.length ≤ targetIndex then none
  else (walkBack checkpoints [] targetIndex).map fun base => base.2.foldl applyStateDelta base.1

def deltaHops (checkpoints : List (CompactedCheckpoint Id H)) (targetIndex : Nat) : Option Nat :=
  (walkBack checkpoints [] targetIndex).map fun base => base.2.length

def requiredParent (checkpoints : List (CompactedCheckpoint Id H)) (idx : Nat) : Option Nat :=
  match checkpoints[idx]? with
  | none => none
  | some checkpoint =>
    if checkpoint.snapshot.isNone then checkpoint.parentHash.bind (findParentIdx checkpoints idx) else none

def require (checkpoints : List (CompactedCheckpoint Id H)) (s : Worklist.Visit Nat) : Option (Worklist.Visit Nat) :=
  match s.queue with
  | [] => none
  | idx :: rest =>
    some (if idx ∈ s.visited then ⟨s.visited, rest⟩
      else ⟨s.visited ++ [idx], (requiredParent checkpoints idx).toList ++ rest⟩)

def requireAll (checkpoints : List (CompactedCheckpoint Id H)) (sortedTargets : List Nat) : Worklist.Visit Nat :=
  Loop.run (require checkpoints) (sortedTargets.length + checkpoints.length) ⟨[], sortedTargets.reverse⟩

structure Rebuilt (Id : Type) where
  knownStates : Nat → Option (SharedState Id)
  results : Std.ExtTreeMap Nat (SharedState Id) compare

def rebuildState (checkpoints : List (CompactedCheckpoint Id H)) (knownStates : Nat → Option (SharedState Id))
    (idx : Nat) : Option (SharedState Id) := do
  let checkpoint ← checkpoints[idx]?
  match checkpoint.snapshot with
  | some snapshot => return snapshot
  | none =>
    let parentHash ← checkpoint.parentHash
    let parent ← findParentIdx checkpoints idx parentHash
    let parentState ← knownStates parent
    return applyStateDelta parentState checkpoint.deltas

def rebuild (checkpoints : List (CompactedCheckpoint Id H)) (sortedTargets : List Nat) (s : Rebuilt Id) (idx : Nat) :
    Rebuilt Id :=
  match rebuildState checkpoints s.knownStates idx with
  | none => s
  | some state =>
    ⟨Function.update s.knownStates idx (some state),
      if idx ∈ sortedTargets then s.results.insert idx state else s.results⟩

def sortTargets (checkpoints : List (CompactedCheckpoint Id H)) (targetIndices : List Nat) : List Nat :=
  ((targetIndices.filter (· < checkpoints.length)).mergeSort (· ≤ ·)).dedup

def reconstructStateBatch (checkpoints : List (CompactedCheckpoint Id H)) (targetIndices : List Nat) :
    Std.ExtTreeMap Nat (SharedState Id) compare :=
  let sortedTargets := sortTargets checkpoints targetIndices
  if sortedTargets.isEmpty then ∅
  else
    let requiredIndices := (requireAll checkpoints sortedTargets).visited.mergeSort (· ≤ ·)
    (requiredIndices.foldl (rebuild checkpoints sortedTargets) ⟨fun _ => none, ∅⟩).results

end

open Basespec

variable {Id H : Type}

section

theorem getElem?_applyDeltaToState (state : SharedState Id) (delta : StateDelta Id) (key : Key) :
    (applyDeltaToState state delta)[key]? = if key = delta.key then delta.eventId else state[key]? := by
  unfold applyDeltaToState
  cases set : delta.eventId with
  | some eventId => exact getElem?_insert_key ..
  | none => exact MapTotal.getElem?_erase_of_eq ..

theorem getElem?_applyStateDelta {base target : SharedState Id}
    (agree : ∀ delta ∈ deltas, delta.eventId = target[delta.key]?)
    (covered : base[key]? = target[key]? ∨ ∃ delta ∈ deltas, delta.key = key) :
    (applyStateDelta base deltas)[key]? = target[key]? := by
  induction deltas generalizing base with
  | nil => exact covered.resolve_right fun ⟨_, mem, _⟩ => (by cases mem)
  | cons delta rest ih =>
    apply ih (fun other mem => agree other (mem_cons_of_mem _ mem))
    rw [getElem?_applyDeltaToState]
    by_cases same : key = delta.key
    · left
      rw [if_pos same, agree delta (mem_cons_self ..), same]
    · rw [if_neg same]
      rcases covered with equal | ⟨other, mem, named⟩
      · exact .inl equal
      · rcases mem_cons.mp mem with rfl | later
        · exact absurd named.symm same
        · exact .inr ⟨other, later, named⟩

variable [DecidableEq Id]

theorem mem_computeStateDelta {delta : StateDelta Id} : delta ∈ computeStateDelta parent current ↔
      delta.eventId = current[delta.key]? ∧ parent[delta.key]? ≠ current[delta.key]? := by
  unfold computeStateDelta
  rw [mem_append, mem_filterMap, mem_filterMap]
  constructor
  · rintro (⟨entry, mem, made⟩ | ⟨key, mem, made⟩)
    · have held := mem_toList_iff_getElem?_eq_some.mp mem
      split at made
      · cases made
      · rename_i differs
        cases made
        exact ⟨held.symm, fun same => differs (same.trans held)⟩
    · split at made
      · cases made
      · rename_i gone
        cases made
        have missing : current[key]? = none := getElem?_eq_none gone
        have held := mem_iff_isSome_getElem?.mp (mem_keys.mp mem)
        refine ⟨missing.symm, fun same => ?_⟩
        have none : parent[key]? = none := same.trans missing
        rw [none] at held
        cases held
  · rintro ⟨agrees, differs⟩
    cases held : current[delta.key]? with
    | some eventId =>
      rw [held] at agrees differs
      refine .inl ⟨(delta.key, eventId), mem_toList_iff_getElem?_eq_some.mpr held, ?_⟩
      rw [if_neg differs, ← agrees]
      rfl
    | none =>
      rw [held] at agrees differs
      refine .inr ⟨delta.key, mem_keys.mpr (mem_iff_isSome_getElem?.mpr (isSome_iff_ne_none.mpr differs)), ?_⟩
      rw [if_neg fun there => ?_, ← agrees]
      · rfl
      · have found := mem_iff_isSome_getElem?.mp there
        rw [held] at found
        cases found

theorem applyStateDelta_computeStateDelta (parent current : SharedState Id) :
    applyStateDelta parent (computeStateDelta parent current) = current := by
  apply ext_getElem?
  intro key
  apply getElem?_applyStateDelta fun delta mem => (mem_computeStateDelta.mp mem).1
  by_cases same : parent[key]? = current[key]?
  · exact .inl same
  · exact .inr ⟨⟨key.1.asStr, key.2, current[key]?⟩, mem_computeStateDelta.mpr ⟨rfl, same⟩, rfl⟩

end

section

variable [DecidableEq H]

section

variable {checkpoints : List (CompactedCheckpoint Id H)}

theorem walkBack_snapshot (found : checkpoints[idx]? = some checkpoint) (whole : checkpoint.snapshot = some snapshot)
    (deltaStack : List (List (StateDelta Id))) :
    walkBack checkpoints deltaStack idx = some (snapshot, deltaStack) := by
  rw [walkBack, found]
  dsimp only
  rw [whole]

theorem walkBack_parent (found : checkpoints[idx]? = some checkpoint) (part : checkpoint.snapshot = none)
    (linked : checkpoint.parentHash = some parentHash)
    (before : findParentIdx checkpoints idx parentHash = some parent) (deltaStack : List (List (StateDelta Id))) :
    walkBack checkpoints deltaStack idx = walkBack checkpoints (checkpoint.deltas :: deltaStack) parent := by
  rw [walkBack, found]
  dsimp only
  rw [part]
  rw [linked]
  dsimp only
  split
  · rename_i missing
    rw [missing] at before
    cases before
  · rename_i other held
    rw [held] at before
    cases before
    rfl

theorem walkBack_broken (found : checkpoints[idx]? = some checkpoint) (part : checkpoint.snapshot = none)
    (broken : checkpoint.parentHash.bind (findParentIdx checkpoints idx) = none)
    (deltaStack : List (List (StateDelta Id))) : walkBack checkpoints deltaStack idx = none := by
  rw [walkBack, found]
  dsimp only
  rw [part]
  cases linked : checkpoint.parentHash with
  | none => rfl
  | some parentHash =>
    rw [linked, bind_some] at broken
    dsimp only
    split
    · rfl
    · rename_i parent held
      rw [held] at broken
      cases broken

theorem findParentIdx_previous (held : checkpoints[idx]? = some previous) :
    findParentIdx checkpoints (idx + 1) previous.stateHash = some idx := by
  have kept : (some idx).filter (fun prev =>
      (checkpoints[prev]?.map CompactedCheckpoint.stateHash) = some previous.stateHash) = some idx := by
    rw [filter_eq_some_iff]
    exact ⟨rfl, decide_eq_true (by rw [held, map_some])⟩
  unfold findParentIdx
  dsimp only
  rw [if_neg (Nat.succ_ne_zero idx), Nat.add_sub_cancel, kept, some_or]

end

/-- However the checkpoints go on, the state at an index is reached from a snapshot over this many deltas. -/
def Rebuilds (built : List (CompactedCheckpoint Id H)) (idx : Nat) (state : SharedState Id) (hops : Nat) : Prop :=
  ∀ later deltaStack, ∃ base deltas, walkBack (built ++ later) deltaStack idx = some (base, deltas ++ deltaStack) ∧
    deltas.length = hops ∧ deltas.foldl applyStateDelta base = state

theorem Rebuilds.append (rebuilds : Rebuilds built idx state hops) (next : CompactedCheckpoint Id H) :
    Rebuilds (built ++ [next]) idx state hops := by
  intro later deltaStack
  rw [append_assoc]
  exact rebuilds ([next] ++ later) deltaStack

theorem rebuilds_snapshot (built : List (CompactedCheckpoint Id H)) (whole : next.snapshot = some state) :
    Rebuilds (built ++ [next]) built.length state 0 := by
  intro later deltaStack
  have found : (built ++ [next] ++ later)[built.length]? = some next := by simp
  exact ⟨state, [], walkBack_snapshot found whole deltaStack, rfl, rfl⟩

theorem rebuilds_delta [DecidableEq Id] {built : List (CompactedCheckpoint Id H)} (last : built.length = idx + 1)
    (held : built[idx]? = some previous) (part : next.snapshot = none)
    (linked : next.parentHash = some previous.stateHash) (deltas : next.deltas = computeStateDelta base state)
    (rebuilds : Rebuilds built idx base hops) : Rebuilds (built ++ [next]) built.length state (hops + 1) := by
  intro later deltaStack
  have found : (built ++ [next] ++ later)[built.length]? = some next := by simp
  have inside : idx < built.length := by omega
  have before : (built ++ [next] ++ later)[idx]? = some previous := by
    rw [append_assoc, getElem?_append_left inside]
    exact held
  obtain ⟨whole, earlier, walked, length, applied⟩ := rebuilds ([next] ++ later) (next.deltas :: deltaStack)
  rw [← append_assoc] at walked
  have parent : findParentIdx (built ++ [next] ++ later) built.length previous.stateHash = some idx := by
    rw [last]
    exact findParentIdx_previous before
  refine ⟨whole, earlier ++ [next.deltas], ?_, ?_, ?_⟩
  · rw [walkBack_parent found part linked parent, walked]
    simp
  · rw [length_append, length, length_singleton]
  · rw [foldl_append, applied, foldl_cons, foldl_nil, deltas]
    exact applyStateDelta_computeStateDelta base state

/-- What has been built rebuilds its states within the allowed hops, and the tail speaks of the last of them. -/
structure Built (stateHash : SharedState Id → H) (maxHops : UInt64) (built : List (CompactedCheckpoint Id H))
    (states : List (SharedState Id)) (tail : ChainTail Id H) : Prop where
  length : built.length = states.length
  each : ∀ idx state, states[idx]? = some state → ∃ hops ≤ maxHops.toNat, Rebuilds built idx state hops
  last : ∀ base, tail.prevState = some base → ∃ idx previous, built.length = idx + 1 ∧ built[idx]? = some previous ∧
    tail.prevHash = some previous.stateHash ∧ Rebuilds built idx base tail.hopsSinceSnapshot

variable [DecidableEq Id] {stateHash : SharedState Id → H} {maxHops : UInt64}

theorem Built.place {built : List (CompactedCheckpoint Id H)} {states : List (SharedState Id)} {tail : ChainTail Id H}
    (builds : Built stateHash maxHops built states tail) (eventId : Id) (state : SharedState Id) :
    Built stateHash maxHops (built ++ [⟨stateHash state, tail.prevHash, eventId, (tail.record maxHops state).1,
        (tail.record maxHops state).2.1⟩])
      (states ++ [state]) ⟨some state, some (stateHash state), (tail.record maxHops state).2.2⟩ := by
  have own : ∃ hops, (tail.record maxHops state).2.2 = hops ∧ hops ≤ maxHops.toNat ∧
      Rebuilds (built ++ [⟨stateHash state, tail.prevHash, eventId, (tail.record maxHops state).1,
        (tail.record maxHops state).2.1⟩]) built.length state hops := by
    have snapshot : tail.record maxHops state = ([], some state, 0) → ∃ hops,
        (tail.record maxHops state).2.2 = hops ∧ hops ≤ maxHops.toNat ∧
        Rebuilds (built ++ [⟨stateHash state, tail.prevHash, eventId, (tail.record maxHops state).1,
          (tail.record maxHops state).2.1⟩]) built.length state hops := by
      intro whole
      rw [whole]
      exact ⟨0, rfl, Nat.zero_le _, rebuilds_snapshot built rfl⟩
    cases prev : tail.prevState with
    | none => exact snapshot (by rw [ChainTail.record, prev])
    | some base =>
      by_cases few : tail.currentHops < maxHops.toNat
      · have recorded : tail.record maxHops state = (computeStateDelta base state, none, tail.currentHops) := by
          rw [ChainTail.record, prev]
          exact if_pos few
        obtain ⟨idx, previous, last, held, linked, rebuilds⟩ := builds.last base prev
        have counted : tail.currentHops = tail.hopsSinceSnapshot + 1 := by
          have bound := maxHops.toNat_lt
          unfold ChainTail.currentHops at few ⊢
          omega
        rw [recorded]
        refine ⟨tail.currentHops, rfl, few.le, ?_⟩
        rw [counted]
        exact rebuilds_delta last held rfl linked rfl rebuilds
      · apply snapshot
        rw [ChainTail.record, prev]
        exact if_neg few
  obtain ⟨hops, recorded, few, rebuilds⟩ := own
  constructor
  · rw [length_append, length_append, builds.length]
    rfl
  · intro idx other found
    rcases Nat.lt_trichotomy idx states.length with earlier | same | later
    · rw [getElem?_append_left earlier] at found
      obtain ⟨hops, few, rebuilds⟩ := builds.each idx other found
      exact ⟨hops, few, rebuilds.append _⟩
    · rw [same, getElem?_concat_length] at found
      cases found
      rw [same, ← builds.length]
      exact ⟨hops, few, rebuilds⟩
    · rw [List.getElem?_eq_none (by simp; omega)] at found
      cases found
  · intro base same
    cases same
    refine ⟨built.length, _, by simp, getElem?_concat_length .., rfl, ?_⟩
    rw [recorded]
    exact rebuilds

theorem Built.chain (builds : Built stateHash maxHops built states tail) (resolvedStates : List (Id × SharedState Id)) :
    ∃ tail', Built stateHash maxHops (built ++ tail.chain stateHash maxHops resolvedStates)
      (states ++ resolvedStates.map Prod.snd) tail' := by
  induction resolvedStates generalizing built states tail with
  | nil => exact ⟨tail, by simpa [ChainTail.chain] using builds⟩
  | cons entry rest ih =>
    obtain ⟨eventId, state⟩ := entry
    obtain ⟨tail', builds⟩ := ih (builds.place eventId state)
    exact ⟨tail', by simpa [ChainTail.chain] using builds⟩

/-- A delta takes any state to any other, and a compacted chain gives each of its states back, over no more
    deltas than it was allowed. -/
theorem deltaChain_roundTrip (stateHash : SharedState Id → H) (resolvedStates : List (Id × SharedState Id))
    (maxHops : Option UInt64) :
    (∀ parent current : SharedState Id, applyStateDelta parent (computeStateDelta parent current) = current) ∧
    (computeCompactedDeltaChainFromResolved stateHash resolvedStates maxHops).length = resolvedStates.length ∧
    ∀ (i : Nat) (eventId : Id) (state : SharedState Id), resolvedStates[i]? = some (eventId, state) →
      reconstructStateAt (computeCompactedDeltaChainFromResolved stateHash resolvedStates maxHops) i = some state ∧
      ∃ hops, deltaHops (computeCompactedDeltaChainFromResolved stateHash resolvedStates maxHops) i = some hops ∧
        hops ≤ (maxHops.getD maxDeltaChainHops).toNat := by
  refine ⟨applyStateDelta_computeStateDelta, ?_⟩
  have start : Built stateHash (maxHops.getD maxDeltaChainHops) [] [] ChainTail.start :=
    ⟨rfl, fun _ _ found => (by cases found), fun _ found => (by cases found)⟩
  obtain ⟨tail, builds⟩ := start.chain resolvedStates
  rw [List.nil_append, List.nil_append] at builds
  have length := builds.length
  rw [List.length_map] at length
  refine ⟨length, fun i eventId state found => ?_⟩
  have listed : (resolvedStates.map Prod.snd)[i]? = some state := by rw [List.getElem?_map, found, Option.map_some]
  obtain ⟨hops, few, rebuilds⟩ := builds.each i state listed
  obtain ⟨base, deltas, walked, counted, applied⟩ := rebuilds [] []
  rw [List.append_nil, List.append_nil] at walked
  have inside : i < (computeCompactedDeltaChainFromResolved stateHash resolvedStates maxHops).length := by
    have bound := (List.getElem?_eq_some_iff.mp found).1
    exact length.symm ▸ bound
  have walked' : walkBack (computeCompactedDeltaChainFromResolved stateHash resolvedStates maxHops) [] i =
      some (base, deltas) := walked
  refine ⟨?_, hops, ?_, few⟩
  · rw [reconstructStateAt, if_neg (not_le.mpr inside), walked', Option.map_some, applied]
  · rw [deltaHops, walked', Option.map_some, counted]

end

variable [DecidableEq H] {checkpoints : List (CompactedCheckpoint Id H)}

theorem walkBack_stack (deltaStack : List (List (StateDelta Id))) (idx : Nat) : walkBack checkpoints deltaStack idx =
      (walkBack checkpoints [] idx).map fun base => (base.1, base.2 ++ deltaStack) := by
  induction idx using Nat.strong_induction_on generalizing deltaStack with
  | _ idx ih =>
    cases found : checkpoints[idx]? with
    | none => rw [walkBack, walkBack, found]; rfl
    | some checkpoint =>
      cases part : checkpoint.snapshot with
      | some snapshot => rw [walkBack_snapshot found part, walkBack_snapshot found part]; rfl
      | none =>
        cases linked : checkpoint.parentHash.bind (findParentIdx checkpoints idx) with
        | none => rw [walkBack_broken found part linked, walkBack_broken found part linked]; rfl
        | some parent =>
          obtain ⟨parentHash, own, before⟩ := bind_eq_some_iff.mp linked
          have earlier := findParentIdx_lt before
          rw [walkBack_parent found part own before, walkBack_parent found part own before,
            ih parent earlier (checkpoint.deltas :: deltaStack), ih parent earlier [checkpoint.deltas]]
          cases walkBack checkpoints [] parent with
          | none => rfl
          | some base => simp

theorem reconstructStateAt_eq (idx : Nat) :
    reconstructStateAt checkpoints idx = rebuildState checkpoints (reconstructStateAt checkpoints) idx := by
  unfold rebuildState
  cases found : checkpoints[idx]? with
  | none =>
    rw [reconstructStateAt, if_pos (List.getElem?_eq_none_iff.mp found)]
    rfl
  | some checkpoint =>
    have inside := (List.getElem?_eq_some_iff.mp found).1
    rw [reconstructStateAt, if_neg (not_le.mpr inside)]
    simp only [bind_eq_bind, bind_some]
    cases part : checkpoint.snapshot with
    | some snapshot => rw [walkBack_snapshot found part]; rfl
    | none =>
      cases own : checkpoint.parentHash with
      | none => rw [walkBack_broken found part (by rw [own]; rfl)]; rfl
      | some parentHash =>
        rw [bind_some]
        cases before : findParentIdx checkpoints idx parentHash with
        | none => rw [walkBack_broken found part (by rw [own]; exact before)]; rfl
        | some parent =>
          have earlier := findParentIdx_lt before
          rw [walkBack_parent found part own before, walkBack_stack, bind_some, reconstructStateAt, if_neg (by omega)]
          cases walkBack checkpoints [] parent with
          | none => rfl
          | some base => simp

theorem rebuildState_congr
    (same : ∀ parent, requiredParent checkpoints idx = some parent → known parent = other parent) :
    rebuildState checkpoints known idx = rebuildState checkpoints other idx := by
  unfold rebuildState
  unfold requiredParent at same
  cases found : checkpoints[idx]? with
  | none => rfl
  | some checkpoint =>
    rw [found] at same
    dsimp only at same
    simp only [bind_eq_bind, bind_some]
    cases part : checkpoint.snapshot with
    | some snapshot => rfl
    | none =>
      rw [part] at same
      cases own : checkpoint.parentHash with
      | none => rfl
      | some parentHash =>
        rw [own] at same
        rw [bind_some, bind_some]
        cases before : findParentIdx checkpoints idx parentHash with
        | none => rfl
        | some parent => rw [bind_some, bind_some, same parent before]

section

theorem requiredParent_lt (required : requiredParent checkpoints idx = some parent) :
    parent < idx ∧ idx < checkpoints.length := by
  unfold requiredParent at required
  cases found : checkpoints[idx]? with
  | none =>
    rw [found] at required
    cases required
  | some checkpoint =>
    rw [found] at required
    dsimp only at required
    split at required
    · obtain ⟨parentHash, _, before⟩ := bind_eq_some_iff.mp required
      exact ⟨findParentIdx_lt before, (List.getElem?_eq_some_iff.mp found).1⟩
    · cases required

def requiredParents (checkpoints : List (CompactedCheckpoint Id H)) (idx : Nat) : List Nat :=
  (requiredParent checkpoints idx).toList

theorem require_turned (turn : require checkpoints s = some t) :
    ∃ idx rest, Worklist.Turned (requiredParents checkpoints) s t idx rest := by
  unfold require at turn
  cases taken : s.queue with
  | nil =>
    rw [taken] at turn
    cases turn
  | cons idx rest =>
    rw [taken] at turn
    have turned := Option.some.inj turn
    refine ⟨idx, rest, taken, fun seen => ?_, fun fresh => ?_, fun fresh => ?_⟩
    · rw [← turned, if_pos seen]
    · rw [← turned, if_neg fresh]
    · rw [← turned, if_neg fresh]
      exact perm_append_comm

theorem edgeCount_le (nodes : List Nat) : edgeCount (requiredParents checkpoints) nodes ≤ nodes.length := by
  induction nodes with
  | nil => exact Nat.le_refl 0
  | cons idx rest ih =>
    have few : (requiredParents checkpoints idx).length ≤ 1 := by
      unfold requiredParents
      cases requiredParent checkpoints idx <;> simp
    unfold edgeCount at ih ⊢
    rw [map_cons, sum_cons, length_cons]
    omega

variable (checkpoints) in
theorem requireAll_spec (sortedTargets : List Nat) : (requireAll checkpoints sortedTargets).queue = [] ∧
      ∀ idx, idx ∈ (requireAll checkpoints sortedTargets).visited ↔
        Worklist.Reached (requiredParents checkpoints) sortedTargets idx := by
  have inv : Worklist.VisitInv (requiredParents checkpoints) sortedTargets (requireAll checkpoints sortedTargets) := by
    apply Loop.run_invariant _ _ (.initial (reverse_perm _))
    intro s t inv turn
    obtain ⟨idx, rest, turned⟩ := require_turned turn
    exact inv.turn turned
  have support : ∀ idx, requiredParents checkpoints idx ≠ [] → idx ∈ range checkpoints.length := by
    intro idx some
    unfold requiredParents at some
    cases required : requiredParent checkpoints idx with
    | none => exact absurd (by rw [required]; rfl) some
    | some parent => exact mem_range.mpr (requiredParent_lt required).2
  have ended : require checkpoints (requireAll checkpoints sortedTargets) = none := by
    apply Loop.run_finished (fun _ => True)
      (unvisitedEdges (requiredParents checkpoints) (range checkpoints.length)) (fun _ _ _ _ => trivial)
      _ _ trivial
    · have edges : edgeCount (requiredParents checkpoints)
          ((range checkpoints.length).filter (· ∉ ([] : List Nat))) ≤ checkpoints.length := by
        apply (edgeCount_le _).trans
        exact (length_filter_le _ _).trans (length_range).le
      unfold unvisitedEdges
      rw [length_reverse]
      exact Nat.add_le_add_left edges _
    · intro s t _ turn
      obtain ⟨idx, rest, turned⟩ := require_turned turn
      exact turned.decreases support
  have empty : (requireAll checkpoints sortedTargets).queue = [] := by
    unfold require at ended
    cases waits : (requireAll checkpoints sortedTargets).queue with
    | nil => rfl
    | cons idx rest =>
      rw [waits] at ended
      cases ended
  exact ⟨empty, inv.mem_visited empty⟩

variable {sortedTargets : List Nat}

structure Forward (checkpoints : List (CompactedCheckpoint Id H)) (sortedTargets behind : List Nat) (s : Rebuilt Id) :
    Prop where
  known : ∀ idx, s.knownStates idx = if idx ∈ behind then reconstructStateAt checkpoints idx else none
  results : ∀ idx, s.results[idx]? =
    if idx ∈ behind ∧ idx ∈ sortedTargets then reconstructStateAt checkpoints idx else none

theorem getElem?_insert_index (results : Std.ExtTreeMap Nat (SharedState Id) compare) (idx other : Nat)
    (state : SharedState Id) : (results.insert idx state)[other]? = if other = idx then some state else results[other]? := by
  rw [getElem?_insert]
  by_cases same : other = idx
  · rw [if_pos same, if_pos (same ▸ Std.ReflCmp.compare_self)]
  · rw [if_neg same, if_neg fun equal => same (Nat.compare_eq_eq.mp equal).symm]

theorem Forward.rebuild (forward : Forward checkpoints sortedTargets behind s)
    (parents : ∀ parent, requiredParent checkpoints idx = some parent → parent ∈ behind) :
    Forward checkpoints sortedTargets (behind ++ [idx]) (rebuild checkpoints sortedTargets s idx) := by
  have same : rebuildState checkpoints s.knownStates idx = reconstructStateAt checkpoints idx := by
    rw [reconstructStateAt_eq]
    exact rebuildState_congr fun parent required => by rw [forward.known, if_pos (parents parent required)]
  have mem : ∀ other, other ∈ behind ++ [idx] ↔ other ∈ behind ∨ other = idx := by simp
  unfold State.rebuild
  rw [same]
  cases own : reconstructStateAt checkpoints idx with
  | none =>
    constructor
    · intro other
      rw [forward.known]
      simp only [mem]
      by_cases here : other = idx
      · rw [here, own, ite_self, ite_self]
      · simp only [here, or_false]
    · intro other
      rw [forward.results]
      simp only [mem]
      by_cases here : other = idx
      · rw [here, own, ite_self, ite_self]
      · simp only [here, or_false]
  | some state =>
    constructor
    · intro other
      simp only [mem]
      by_cases here : other = idx
      · rw [here, Function.update_self, if_pos (.inr rfl), own]
      · rw [Function.update_of_ne here, forward.known]
        simp only [here, or_false]
    · intro other
      simp only [mem]
      by_cases target : idx ∈ sortedTargets
      · rw [if_pos target, getElem?_insert_index]
        by_cases here : other = idx
        · rw [here, if_pos rfl, if_pos ⟨.inr rfl, target⟩, own]
        · rw [if_neg here, forward.results]
          simp only [here, or_false]
      · rw [if_neg target, forward.results]
        by_cases here : other = idx
        · rw [here, if_neg fun both => target both.2, if_neg fun both => target both.2]
        · simp only [here, or_false]

theorem Forward.run {behind later : List Nat} {s : Rebuilt Id} (forward : Forward checkpoints sortedTargets behind s)
    (parents : ∀ before idx after, behind ++ later = before ++ idx :: after →
      ∀ parent, requiredParent checkpoints idx = some parent → parent ∈ before) :
    Forward checkpoints sortedTargets (behind ++ later) (later.foldl (State.rebuild checkpoints sortedTargets) s) := by
  induction later generalizing behind s with
  | nil => simpa using forward
  | cons idx later ih =>
    have split : behind ++ idx :: later = behind ++ [idx] ++ later := append_cons ..
    rw [split] at parents ⊢
    exact ih (forward.rebuild (parents behind idx later split.symm)) parents

end

theorem required_parents_first
    (split : (requireAll checkpoints sortedTargets).visited.mergeSort (· ≤ ·) = before ++ idx :: after)
    (required : requiredParent checkpoints idx = some parent) : parent ∈ before := by
  have members := (requireAll_spec checkpoints sortedTargets).2
  have listed : ∀ other, other ∈ before ++ idx :: after ↔
      Worklist.Reached (requiredParents checkpoints) sortedTargets other := by
    intro other
    rw [← split, mem_mergeSort, members]
  have sorted : (before ++ idx :: after).Pairwise (· ≤ ·) := by
    rw [← split]
    have pairwise : ((requireAll checkpoints sortedTargets).visited.mergeSort (· ≤ ·)).Pairwise
        fun a b => decide (a ≤ b) = true := by
      apply pairwise_mergeSort
      · exact fun a b c first second => decide_eq_true ((of_decide_eq_true first).trans (of_decide_eq_true second))
      · exact fun a b => by simpa using Nat.le_total a b
    exact pairwise.imp fun le => of_decide_eq_true le
  have reached := (listed idx).mp (mem_append_right _ (mem_cons_self ..))
  have edge : parent ∈ requiredParents checkpoints idx := by
    rw [requiredParents, required]
    exact mem_singleton.mpr rfl
  have earlier := (requiredParent_lt required).1
  rcases mem_append.mp ((listed parent).mpr (reached.step edge)) with found | later
  · exact found
  · have least := (pairwise_append.mp sorted).2.1
    rcases mem_cons.mp later with rfl | later
    · exact absurd earlier (lt_irrefl _)
    · exact absurd ((pairwise_cons.mp least).1 parent later) (not_le.mpr earlier)

/-- The batch has for each target what a reconstruction alone gives, and its walk back ends. -/
theorem reconstructStateBatch_exact (checkpoints : List (CompactedCheckpoint Id H)) (targetIndices : List Nat) :
    (requireAll checkpoints (sortTargets checkpoints targetIndices)).queue = [] ∧
    (∀ i ∈ targetIndices, (reconstructStateBatch checkpoints targetIndices)[i]? = reconstructStateAt checkpoints i) ∧
    ∀ i ∉ targetIndices, (reconstructStateBatch checkpoints targetIndices)[i]? = none := by
  obtain ⟨empty, members⟩ := requireAll_spec checkpoints (sortTargets checkpoints targetIndices)
  have targets : ∀ i, i ∈ sortTargets checkpoints targetIndices ↔ i ∈ targetIndices ∧ i < checkpoints.length := by
    intro i
    rw [sortTargets, List.mem_dedup, List.mem_mergeSort, List.mem_filter, decide_eq_true_eq]
  have found : ∀ i, (reconstructStateBatch checkpoints targetIndices)[i]? =
      if i ∈ sortTargets checkpoints targetIndices then reconstructStateAt checkpoints i else none := by
    intro i
    unfold reconstructStateBatch
    dsimp only
    split
    · rename_i none
      rw [List.isEmpty_iff.mp none, if_neg List.not_mem_nil]
      rfl
    · have start : Forward checkpoints (sortTargets checkpoints targetIndices) [] ⟨fun _ => none, ∅⟩ :=
        ⟨fun idx => rfl, fun idx => by simp⟩
      have forward : Forward checkpoints (sortTargets checkpoints targetIndices)
          ([] ++ (requireAll checkpoints (sortTargets checkpoints targetIndices)).visited.mergeSort (· ≤ ·)) _ :=
        start.run fun before idx after split parent required => required_parents_first split required
      rw [forward.results, List.nil_append]
      by_cases target : i ∈ sortTargets checkpoints targetIndices
      · rw [if_pos ⟨List.mem_mergeSort.mpr ((members i).mpr (.seed target)), target⟩, if_pos target]
      · rw [if_neg fun both => target both.2, if_neg target]
  refine ⟨empty, fun i member => ?_, fun i missing => ?_⟩
  · rw [found]
    by_cases inside : i < checkpoints.length
    · rw [if_pos ((targets i).mpr ⟨member, inside⟩)]
    · rw [if_neg fun target => inside ((targets i).mp target).2, reconstructStateAt, if_pos (not_lt.mp inside)]
  · rw [found, if_neg fun target => missing ((targets i).mp target).1]

end Rezzy.State
