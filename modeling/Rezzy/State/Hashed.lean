import Mathlib.Algebra.Group.Pi.Basic
import Mathlib.Data.UInt
import Rezzy.Lib.MapTotal
import Rezzy.State.PipelineTargets

namespace Rezzy.State

open MapTotal List Std.ExtTreeSet PipelineRun

section

open Basespec Resolve Permuted

abbrev LtLattice (lanes : Nat) := Fin lanes → UInt16

abbrev Seed (Id : Type) (lanes : Nat) := Key → Id → LtLattice lanes

variable {Id C : Type} {lanes : Nat}

namespace LtLattice

def insert (seed : Seed Id lanes) (hash : LtLattice lanes) (key : Key) (eventId : Id) : LtLattice lanes :=
  hash + seed key eventId

def remove (seed : Seed Id lanes) (hash : LtLattice lanes) (key : Key) (eventId : Id) : LtLattice lanes :=
  hash - seed key eventId

def fromState (seed : Seed Id lanes) (state : SharedState Id) : LtLattice lanes :=
  MapTotal.total seed state

end LtLattice

structure HashedState (Id : Type) (lanes : Nat) where
  state : SharedState Id
  hash : LtLattice lanes

def HashedState.new : HashedState Id lanes := ⟨∅, 0⟩

def HashedState.insert (seed : Seed Id lanes) (hashed : HashedState Id lanes) (key : Key) (eventId : Id) :
    HashedState Id lanes :=
  let removed := match hashed.state[key]? with
    | some oldId => LtLattice.remove seed hashed.hash key oldId
    | none => hashed.hash
  ⟨hashed.state.insert key eventId, LtLattice.insert seed removed key eventId⟩

/-- What a target hands over: its state, or the parent whose state it keeps. -/
inductive StateUpdate (Id : Type) (lanes : Nat) where
  | new (state : SharedState Id) (hash : LtLattice lanes)
  | unchanged (parentEventId : Id) (hash : LtLattice lanes)

namespace StateUpdate

def intoState (update : StateUpdate Id lanes) (getParentState : Id → Option (SharedState Id)) :
    Option (SharedState Id) :=
  match update with
  | new state _ => some state
  | unchanged parentEventId _ => getParentState parentEventId

def lattice : StateUpdate Id lanes → LtLattice lanes
  | new _ hash | unchanged _ hash => hash

end StateUpdate

variable [LinearOrder Id]

def applyDiffItem (seed : Seed Id lanes) (hash : LtLattice lanes) : StateDiffEntry Id → LtLattice lanes
  | .added key newId => LtLattice.insert seed hash key newId
  | .removed key oldId => LtLattice.remove seed hash key oldId
  | .changed key oldId newId => LtLattice.insert seed (LtLattice.remove seed hash key oldId) key newId

variable [ToString Id] [EventContent C]

def resolveMergeFastPathHashedWithCache (order : Order) (seed : Seed Id lanes) (ctx : MergeContext Id C)
    (caches : ForkResolveCaches Id C) (first : HashedState Id lanes) (rest : List (HashedState Id lanes)) :
    Except (Panic Id) (HashedState Id lanes × ForkResolveCaches Id C) :=
  if rest.all fun other => first.hash = other.hash && first.state = other.state then .ok (first, caches)
  else
    match resolveMergedParentStates order ctx caches ((first :: rest).map HashedState.state) with
    | .error reason => .error reason
    | .ok (resolved, caches) =>
      .ok (⟨resolved, (stateDiff first.state resolved).foldl (applyDiffItem seed) first.hash⟩, caches)

def recordOwnHashed (seed : Seed Id lanes) (hashed : HashedState Id lanes) (event : LeanEvent Id C) :
    HashedState Id lanes :=
  match acceptedStateKey event with
  | some stateKey => hashed.insert seed (⟨event.eventType⟩, stateKey) event.eventId
  | none => hashed

def PipelineRun.recordNew (seed : Seed Id lanes) (run : PipelineRun Id C) (event : LeanEvent Id C)
    (before : HashedState Id lanes) : Visited Id (HashedState Id lanes) (StateUpdate Id lanes) :=
  let hashed := recordOwnHashed seed before event
  ⟨event.eventId, hashed,
    if run.isTarget event.eventId then some (.new hashed.state hashed.hash) else none⟩

def PipelineRun.optimizedVisit (order : Id → Order) (seed : Seed Id lanes) (run : PipelineRun Id C) :
    Visit Id C (HashedState Id lanes) (StateUpdate Id lanes) :=
  fun event prevStates caches =>
    match prevStates with
    | [] => .ok (run.recordNew seed event .new, caches)
    | [parentState] =>
      if event.stateKey.isSome then .ok (run.recordNew seed event parentState, caches)
      else if run.isTarget event.eventId then
        match event.prevEvents.find? (· ∈ run.index) with
        | some parentEventId =>
          .ok (⟨event.eventId, parentState, some (.unchanged parentEventId parentState.hash)⟩, caches)
        | none => .error .singleParentMissing
      else .ok (⟨event.eventId, parentState, none⟩, caches)
    | first :: second :: rest =>
      match resolveMergeFastPathHashedWithCache (order event.eventId) seed run.mergeCtx caches first
          (second :: rest) with
      | .error reason => .error (.merge reason)
      | .ok (before, caches) => .ok (run.recordNew seed event before, caches)

def PipelineRun.runOptimized {σ E : Type} (order : Id → Order) (seed : Seed Id lanes) (run : PipelineRun Id C)
    (onTarget : σ → Id → StateUpdate Id lanes → Except E σ) (s : σ) : Except (PipelineStop Id E) σ :=
  run.traverse (run.optimizedVisit order seed) onTarget s

def StreamingInputs.tryComputeOptimized {σ E : Type} (order : Id → Order) (seed : Seed Id lanes)
    (inputs : StreamingInputs Id C) (onTarget : σ → Id → StateUpdate Id lanes → Except E σ) (s : σ) :
    Except (PipelineStop Id E) σ :=
  inputs.withPipelineRun (fun run => run.runOptimized order seed onTarget s) s

end

open Basespec Resolve Permuted

variable {Id C : Type} {lanes : Nat}

section

def HashedState.Sound (seed : Seed Id lanes) (hashed : HashedState Id lanes) : Prop :=
  hashed.hash = LtLattice.fromState seed hashed.state

theorem HashedState.sound_new (seed : Seed Id lanes) : (HashedState.new : HashedState Id lanes).Sound seed := rfl

theorem HashedState.Sound.insert {hashed : HashedState Id lanes} (sound : hashed.Sound seed) (key : Key)
    (eventId : Id) : (hashed.insert seed key eventId).Sound seed := by
  unfold HashedState.Sound HashedState.insert LtLattice.fromState
  rw [total_insert, share]
  cases hashed.state[key]? with
  | none =>
    rw [sub_zero, sound]
    rfl
  | some oldId =>
    dsimp only
    rw [LtLattice.remove, LtLattice.insert, sound]
    rfl

variable [LinearOrder Id]

omit [LinearOrder Id] in
theorem fromState_applyTo (seed : Seed Id lanes) (state : SharedState Id)
    (honest : state[entry.key]? = entry.oldEventId?) :
    LtLattice.fromState seed (entry.applyTo state) = applyDiffItem seed (LtLattice.fromState seed state) entry := by
  unfold LtLattice.fromState
  cases entry with
  | added key newId =>
    have missing : state[key]? = none := honest
    rw [StateDiffEntry.applyTo, total_insert, share, missing, sub_zero]
    rfl
  | removed key oldId =>
    have held : state[key]? = some oldId := honest
    rw [StateDiffEntry.applyTo, total_erase, share, held]
    rfl
  | changed key oldId newId =>
    have held : state[key]? = some oldId := honest
    rw [StateDiffEntry.applyTo, total_insert, share, held]
    rfl

theorem fromState_applyEntries (seed : Seed Id lanes) (old new : SharedState Id) (keys : List Key)
    (nodup : keys.Nodup) (state : SharedState Id) (untouched : ∀ key ∈ keys, state[key]? = old[key]?) :
    LtLattice.fromState seed
        ((keys.filterMap (diffEntry old new)).foldl (fun state entry => entry.applyTo state) state) =
      (keys.filterMap (diffEntry old new)).foldl (applyDiffItem seed) (LtLattice.fromState seed state) := by
  induction keys generalizing state with
  | nil => rfl
  | cons first keys ih =>
    obtain ⟨fresh, nodup⟩ := nodup_cons.mp nodup
    cases change : diffEntry old new first with
    | none =>
      rw [filterMap_cons_none change]
      exact ih nodup state fun key mem => untouched key (mem_cons_of_mem _ mem)
    | some entry =>
      obtain ⟨own, before, _, _⟩ := diffEntry_some change
      rw [filterMap_cons_some change, foldl_cons, foldl_cons,
        ← fromState_applyTo seed state (by rw [own, before, untouched first (by simp)])]
      refine ih nodup _ fun key mem => ?_
      have differ : key ≠ first := fun same => fresh (same ▸ mem)
      rw [StateDiffEntry.getElem?_applyTo, own, if_neg differ]
      exact untouched key (mem_cons_of_mem _ mem)

theorem stateDiff_applyTo (old new : SharedState Id) :
    (stateDiff old new).foldl (fun state entry => entry.applyTo state) old = new := by
  apply (diffOver_applyTo_eq_iff _ old new).mpr
  intro key outside
  rw [mem_ofList] at outside
  have missing : key ∉ old.keys ++ new.keys := by
    simpa [List.contains_iff_mem] using outside
  rw [mem_append, Std.ExtTreeMap.mem_keys, Std.ExtTreeMap.mem_keys, not_or] at missing
  rw [Std.ExtTreeMap.getElem?_eq_none missing.1, Std.ExtTreeMap.getElem?_eq_none missing.2]

theorem fromState_stateDiff (seed : Seed Id lanes) (old new : SharedState Id) :
    (stateDiff old new).foldl (applyDiffItem seed) (LtLattice.fromState seed old) = LtLattice.fromState seed new := by
  have nodup : (ofList (old.keys ++ new.keys) keyCmp).toList.Nodup := by
    refine distinct_toList.imp fun differ same => differ ?_
    rw [same]
    exact Std.ReflCmp.compare_self
  have steps := fromState_applyEntries seed old new _ nodup old fun _ _ => rfl
  have arrives := stateDiff_applyTo old new
  unfold stateDiff diffOver at arrives ⊢
  rw [← steps, arrives]

variable [ToString Id] [EventContent C] {seed : Seed Id lanes} {ctx : MergeContext Id C}
  {left right : ForkResolveCaches Id C}

omit [ToString Id] [EventContent C] in
theorem all_match_iff (sound : ∀ hashed ∈ first :: rest, hashed.Sound seed) :
    (rest.all fun other => first.hash = other.hash && first.state = other.state) =
      (rest.map HashedState.state).all (first.state = ·) := by
  rw [all_map]
  apply Bool.eq_iff_iff.mpr
  rw [all_eq_true, all_eq_true]
  refine forall₂_congr fun other mem => ?_
  have own := sound first (by simp)
  have others := sound other (mem_cons_of_mem _ mem)
  simp only [Bool.and_eq_true, decide_eq_true_eq, Function.comp_apply, and_iff_right_iff_imp]
  intro same
  rw [own, others, same]

theorem AlikeCaches.resolveMergeFastPath (alike : AlikeCaches ctx left right) (orderLeft orderRight : Order)
    (sound : ∀ hashed ∈ first :: rest, hashed.Sound seed) :
    Stream.Both (fun plain hashed => plain.1 = hashed.1.state ∧ hashed.1.Sound seed ∧ AlikeCaches ctx plain.2 hashed.2)
      (State.resolveMergedParentStates orderLeft ctx left ((first :: rest).map HashedState.state))
      (resolveMergeFastPathHashedWithCache orderRight seed ctx right first rest) := by
  have merged := alike.resolveMergedParentStates orderLeft orderRight ((first :: rest).map HashedState.state)
  unfold resolveMergeFastPathHashedWithCache
  rw [all_match_iff sound]
  split
  · rename_i equal
    rw [map_cons, State.resolveMergedParentStates]
    rw [if_pos equal]
    exact .ok ⟨rfl, sound first (by simp), alike⟩
  · rcases merged.elim with ⟨plain, hashed, plainRun, hashedRun, same, caches⟩ | ⟨reason, plainRun, hashedRun⟩
    · rw [plainRun, hashedRun]
      refine .ok ⟨same, ?_, caches⟩
      rw [sound first (by simp)]
      exact fromState_stateDiff seed first.state hashed.1
    · rw [plainRun, hashedRun]
      exact .error _

end

variable [LinearOrder Id] {seed : Seed Id lanes}

omit [LinearOrder Id] in
theorem HashedState.Sound.record {hashed : HashedState Id lanes} (sound : hashed.Sound seed) (event : LeanEvent Id C) :
    (recordOwnHashed seed hashed event).Sound seed ∧
      (recordOwnHashed seed hashed event).state = recordOwnState hashed.state event := by
  unfold recordOwnHashed recordOwnState
  cases acceptedStateKey event with
  | none => exact ⟨sound, rfl⟩
  | some stateKey => exact ⟨sound.insert _ _, rfl⟩

/-- A visit of the plain pipeline and one of the optimized one that tell the same. A state that is only
    referred to is the one in `states`. -/
structure Agrees (seed : Seed Id lanes) (states : Id → Option (SharedState Id))
    (plain : Visited Id (SharedState Id) (SharedState Id))
    (optimized : Visited Id (HashedState Id lanes) (StateUpdate Id lanes)) : Prop where
  eventId : plain.eventId = optimized.eventId
  after : plain.after = optimized.after.state
  sound : optimized.after.Sound seed
  delivery : Option.Rel (fun state update => update.lattice = LtLattice.fromState seed state ∧
    update.intoState states = some state) plain.delivery optimized.delivery

omit [LinearOrder Id] in
theorem Agrees.mono (agrees : Agrees seed states plain optimized)
    (kept : ∀ id state, states id = some state → later id = some state) : Agrees seed later plain optimized where
  eventId := agrees.eventId
  after := agrees.after
  sound := agrees.sound
  delivery := by
    have told := agrees.delivery
    generalize plain.delivery = state at told ⊢
    generalize optimized.delivery = update at told ⊢
    cases told with
    | none => exact .none
    | @some state update told =>
      refine .some ⟨told.1, ?_⟩
      cases update with
      | new own hash => exact told.2
      | unchanged parentEventId hash => exact kept _ _ told.2

variable {run : PipelineRun Id C} {states : Id → Option (SharedState Id)}

omit [LinearOrder Id] in
theorem agrees_recordNew (sound : before.Sound seed) (event : LeanEvent Id C) :
    Agrees seed states ⟨event.eventId, recordOwnState before.state event,
        if run.isTarget event.eventId then some (recordOwnState before.state event) else none⟩
      (run.recordNew seed event before) := by
  obtain ⟨own, state⟩ := sound.record event
  unfold recordNew
  refine ⟨rfl, state.symm, own, ?_⟩
  split
  · exact .some ⟨own.trans (by rw [state]), by rw [StateUpdate.intoState, state]⟩
  · exact .none

variable [ToString Id] [EventContent C] {left right : ForkResolveCaches Id C}

theorem AlikeCaches.visit (alike : AlikeCaches run.mergeCtx left right) (orderLeft orderRight : Id → Order)
    (event : LeanEvent Id C) (sound : ∀ hashed ∈ parents, hashed.Sound seed)
    (single : ∀ parent, parents = [parent] → ∃ parentEventId,
      event.prevEvents.find? (· ∈ run.index) = some parentEventId ∧ states parentEventId = some parent.state) :
    Stream.Both (fun plain optimized => Agrees seed states plain.1 optimized.1 ∧
        AlikeCaches run.mergeCtx plain.2 optimized.2)
      (run.plainVisit orderLeft event (parents.map HashedState.state) left)
      (run.optimizedVisit orderRight seed event parents right) := by
  unfold plainVisit optimizedVisit
  match parents with
  | [] => exact .ok ⟨agrees_recordNew (HashedState.sound_new seed) event, alike⟩
  | [parent] =>
    have own := sound parent (by simp)
    have plain : State.resolveMergedParentStates (orderLeft event.eventId) run.mergeCtx left
        ([parent].map HashedState.state) = .ok (parent.state, left) := by
      rfl
    rw [plain]
    dsimp only
    by_cases isState : event.stateKey.isSome
    · rw [if_pos isState]
      exact .ok ⟨agrees_recordNew own event, alike⟩
    · have keeps : recordOwnState parent.state event = parent.state := by
        have keyless : acceptedStateKey event = none := by
          unfold acceptedStateKey
          rw [Option.not_isSome_iff_eq_none.mp isState]
          rfl
        rw [recordOwnState, keyless]
      rw [if_neg isState, keeps]
      obtain ⟨parentEventId, found, known⟩ := single parent rfl
      split
      · rw [found]
        exact .ok ⟨⟨rfl, rfl, own, .some ⟨own, known⟩⟩, alike⟩
      · exact .ok ⟨⟨rfl, rfl, own, .none⟩, alike⟩
  | first :: second :: rest =>
    rcases (alike.resolveMergeFastPath (orderLeft event.eventId) (orderRight event.eventId) sound).elim with
      ⟨plain, hashed, plainRun, hashedRun, same, hashedSound, caches⟩ | ⟨reason, plainRun, hashedRun⟩
    · dsimp only
      rw [plainRun, hashedRun]
      dsimp only
      rw [same]
      exact .ok ⟨agrees_recordNew hashedSound event, caches⟩
    · dsimp only
      rw [plainRun, hashedRun]
      exact .error _

end Rezzy.State
