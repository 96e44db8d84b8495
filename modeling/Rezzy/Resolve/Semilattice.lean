import Mathlib.Data.Prod.Lex
import Rezzy.Resolve.PowerPhaseOrder

namespace Rezzy.Resolve

open Basespec Auth State Permuted List LeanEvent

variable {Id C : Type}

abbrev Winners (Id C : Type) := Std.ExtTreeMap Key (LeanEvent Id C) keyCmp

structure LatticeFoldCtx (Id C : Type) where
  mainlineDistances : Id → Option Nat
  mainlineLen : Nat
  terminalPowerState : SharedState Id
  authContext : EventMap Id C
  sortSet : EventMap Id C
  version : StateResVersion
  createEv : Option (LeanEvent Id C)
  conflictedKeys : KeySet

section

variable [LinearOrder Id]

def isSemilatticeWinnerBetter (ev currentWinner : LeanEvent Id C) (mainlineDistances : Id → Option Nat)
    (mainlineLen : Nat) : Bool :=
  let evPos := (mainlineDistances ev.eventId).getD mainlineLen
  let winnerPos := (mainlineDistances currentWinner.eventId).getD mainlineLen
  if evPos < winnerPos then true
  else if evPos > winnerPos then false
  else if ev.originServerTs > currentWinner.originServerTs then true
  else if ev.originServerTs < currentWinner.originServerTs then false
  else ev.eventId > currentWinner.eventId

def updateWinnerIfBetter (mainlineDistances : Id → Option Nat) (mainlineLen : Nat) (winners : Winners Id C)
    (key : Key) (ev : LeanEvent Id C) : Winners Id C :=
  let isBetter := match winners[key]? with
    | some currentWinner => isSemilatticeWinnerBetter ev currentWinner mainlineDistances mainlineLen
    | none => true
  if isBetter then winners.insert key ev else winners

end

structure LatticeWorker (Id C : Type) where
  localAuthCache : LocalAuthCache Id C
  winners : Winners Id C

section

variable [LinearOrder Id] [ToString Id] [EventContent C]

def processLatticeEvent (ctx : LatticeFoldCtx Id C) (worker : LatticeWorker Id C) (ev : LeanEvent Id C) :
    LatticeWorker Id C :=
  let computed := computeLocalAuth ev ctx.authContext ctx.sortSet worker.localAuthCache ctx.version
  if iterativeAuthOk ev ctx.terminalPowerState ctx.authContext ctx.sortSet computed.1 ctx.createEv
      ctx.version false then
    match ev.key? with
    | none => ⟨computed.2, worker.winners⟩
    | some key =>
      if decidesKey ctx.version ctx.conflictedKeys key then
        ⟨computed.2, updateWinnerIfBetter ctx.mainlineDistances ctx.mainlineLen worker.winners key ev⟩
      else ⟨computed.2, worker.winners⟩
  else ⟨computed.2, worker.winners⟩

def foldLatticeChunk (ctx : LatticeFoldCtx Id C) (chunk : List (LeanEvent Id C)) : Winners Id C :=
  (chunk.foldl (processLatticeEvent ctx) ⟨.new ctx.version, ∅⟩).winners

/-- A run of the worker threads: the events that each takes, in its own order, by the order in which the threads take
    the lock to merge. -/
structure Schedule (events : EventMap Id C) where
  workers : List (List (LeanEvent Id C))
  assigned : workers.flatten.Perm events.values

def mergeWinners (order : Order) (ctx : LatticeFoldCtx Id C) (winners : Winners Id C)
    (worker : Winners Id C × Nat) : Winners Id C :=
  (order.iter (.workerMaps worker.2) worker.1.toList).foldl (fun winners entry =>
    updateWinnerIfBetter ctx.mainlineDistances ctx.mainlineLen winners entry.1 entry.2) winners

def computeLatticeCoordinatizedWinners (order : Order) (ctx : LatticeFoldCtx Id C)
    {events : EventMap Id C} (schedule : Schedule events) : Winners Id C :=
  (schedule.workers.map (foldLatticeChunk ctx)).zipIdx.foldl (mergeWinners order ctx) ∅

def mainlineDistancesOf (marks : Id → Option Chase.Mark) (id : Id) : Option Nat :=
  match marks id with
  | some (.done position) => some position
  | _ => none

def latticeContext (order : Order) (inputs : IterativeInputs Id C) (conflictedKeys : KeySet) :
    LatticeFoldCtx Id C :=
  let phase := inputs.powerPhase order
  let resolved := (runPowerPhaseIterativeChecks order inputs phase conflictedKeys
    (initialWorking inputs none)).resolved
  let mainline := buildMainline resolved inputs.sortContext inputs.sortNodes inputs.emptyKey inputs.version
  let targetEvents := order.iter .nonPowerEvents phase.nonPowerEvents.values
  { mainlineDistances := mainlineDistancesOf (computeClosestMainlinePositions targetEvents mainline
      inputs.sortContext inputs.sortNodes inputs.version)
    mainlineLen := mainline.length
    terminalPowerState := resolved
    authContext := inputs.authContext
    sortSet := inputs.conflictedEvents
    version := inputs.version
    createEv := phase.createEv
    conflictedKeys := conflictedKeys }

def insertEntries (state : SharedState Id) (entries : List (Key × Id)) : SharedState Id :=
  entries.foldl (fun state entry => state.insert entry.1 entry.2) state

def resolveSemilatticeFoldWithConflictedKeys (order : Order)
    (winnersOf : LatticeFoldCtx Id C → Winners Id C) (inputs : IterativeInputs Id C)
    (conflictedKeys : KeySet) : Except (Panic Id) (SharedState Id) :=
  if inputs.version.isV2_1Plus then
    (resolveIterativeSortWithCache order inputs none (some conflictedKeys)).map Resolution.state
  else
    let ctx := latticeContext order inputs conflictedKeys
    let keyWinners := order.iter (.workerMaps 0) (winnersOf ctx).toList
    let withPower := insertEntries inputs.unconflictedState ctx.terminalPowerState.toList
    let withWinners := insertEntries withPower (keyWinners.map fun entry => (entry.1, entry.2.eventId))
    .ok (insertEntries withWinners inputs.unconflictedState.toList)

end

section

def latticeRank (mainlineDistances : Id → Option Nat) (mainlineLen : Nat) (ev : LeanEvent Id C) :
    Lex (Natᵒᵈ × Lex (Nat × Id)) :=
  toLex (OrderDual.toDual ((mainlineDistances ev.eventId).getD mainlineLen),
    toLex (ev.originServerTs, ev.eventId))

theorem latticeRank_tells
    (same : latticeRank mainlineDistances mainlineLen a = latticeRank mainlineDistances mainlineLen b) :
    a.eventId = b.eventId := by
  have pairs := congrArg (fun rank => (ofLex (ofLex rank).2).2) same
  exact pairs

variable [LinearOrder Id]

variable (mainlineDistances : Id → Option Nat) (mainlineLen : Nat)

theorem isSemilatticeWinnerBetter_iff (ev winner : LeanEvent Id C) :
    isSemilatticeWinnerBetter ev winner mainlineDistances mainlineLen = true ↔
      latticeRank mainlineDistances mainlineLen winner < latticeRank mainlineDistances mainlineLen ev := by
  unfold isSemilatticeWinnerBetter latticeRank
  rw [Prod.Lex.toLex_lt_toLex, Prod.Lex.toLex_lt_toLex, OrderDual.toDual_lt_toDual, OrderDual.toDual_inj]
  dsimp only
  split
  · rename_i closer
    simp [closer]
  · rename_i notCloser
    split
    · rename_i farther
      simp [notCloser, Nat.ne_of_lt farther]
    · rename_i notFarther
      have level : (mainlineDistances winner.eventId).getD mainlineLen =
          (mainlineDistances ev.eventId).getD mainlineLen := by omega
      split
      · rename_i later
        simp [level, later]
      · rename_i notLater
        split
        · rename_i earlier
          simp [level, notLater, Nat.ne_of_gt earlier]
        · rename_i notEarlier
          have together : winner.originServerTs = ev.originServerTs := by omega
          simp [level, together]

theorem getElem?_updateWinnerIfBetter (winners : Winners Id C) (own : Key) (ev : LeanEvent Id C) (key : Key) :
    (updateWinnerIfBetter mainlineDistances mainlineLen winners own ev)[key]? = if key = own then
        winners[own]?.elim (some ev) fun current =>
          if latticeRank mainlineDistances mainlineLen current < latticeRank mainlineDistances mainlineLen ev
          then some ev else some current
      else winners[key]? := by
  unfold updateWinnerIfBetter
  by_cases same : key = own
  · subst same
    rw [if_pos rfl]
    cases found : winners[key]? with
    | none => simp
    | some current =>
      by_cases better : isSemilatticeWinnerBetter ev current mainlineDistances mainlineLen = true
      · simp [better, (isSemilatticeWinnerBetter_iff _ _ _ _).mp better]
      · have worse := fun lt => better ((isSemilatticeWinnerBetter_iff _ _ _ _).mpr lt)
        rw [Option.elim_some, if_neg worse, if_neg better, found]
  · have kept : ∀ better : Bool, (if better then winners.insert own ev else winners)[key]? = winners[key]? := by
      intro better
      split
      · rw [getElem?_insert_key, if_neg same]
      · rfl
    rw [if_neg same]
    exact kept _

end

section

variable [LinearOrder Id] [ToString Id] [EventContent C] (ctx : LatticeFoldCtx Id C)

def LatticeFoldCtx.admits (ev : LeanEvent Id C) : Bool :=
  iterativeAuthOk ev ctx.terminalPowerState ctx.authContext ctx.sortSet
    (computeLocalAuth ev ctx.authContext ctx.sortSet (.new ctx.version) ctx.version).1 ctx.createEv
    ctx.version false

def LatticeFoldCtx.competes (key : Key) (ev : LeanEvent Id C) : Bool :=
  ctx.admits ev && decide (ev.key? = some key) && decidesKey ctx.version ctx.conflictedKeys key

def LatticeFoldCtx.rank (ev : LeanEvent Id C) : Lex (Natᵒᵈ × Lex (Nat × Id)) :=
  latticeRank ctx.mainlineDistances ctx.mainlineLen ev

/-- The memo cache cannot change a local auth map. In the versions that reach the fold this always holds. -/
def LatticeFoldCtx.Steady (events : List (LeanEvent Id C)) : Prop :=
  gathersTransitively ctx.version = true → ∀ ev ∈ events,
    lookupAuth ctx.authContext ctx.sortSet ev.eventId = some ev ∧
      TieFree (lookupAuth ctx.authContext ctx.sortSet) ev.authEvents

/-- A worker after the events of a list: its cache knows no others, and its winners are the greatest
    competitors. -/
structure LatticeFoldCtx.Folded (events : List (LeanEvent Id C)) (worker : LatticeWorker Id C) : Prop where
  fresh : ∀ id, id ∉ events.map LeanEvent.eventId → worker.localAuthCache.map id = none
  valid : worker.localAuthCache.Valid (lookupAuth ctx.authContext ctx.sortSet) ctx.version
  winners : ∀ key, worker.winners[key]? = (events.filter (ctx.competes key)).argmax ctx.rank

variable {ctx} {events : List (LeanEvent Id C)} {worker : LatticeWorker Id C} {ev : LeanEvent Id C}

theorem LatticeFoldCtx.Folded.localAuth (folded : ctx.Folded events worker)
    (unseen : ev.eventId ∉ events.map eventId) (steady : ctx.Steady [ev]) :
    (computeLocalAuth ev ctx.authContext ctx.sortSet worker.localAuthCache ctx.version).1 =
      (computeLocalAuth ev ctx.authContext ctx.sortSet (.new ctx.version) ctx.version).1 := by
  by_cases gathers : gathersTransitively ctx.version = true
  · obtain ⟨known, tieFree⟩ := steady gathers ev (by simp)
    have empty : (LocalAuthCache.new ctx.version : LocalAuthCache Id C).Valid
        (lookupAuth ctx.authContext ctx.sortSet) ctx.version := by
      intro _ _ _ found
      cases found
    exact ((computeLocalAuth_valid folded.valid fun _ => known).1 gathers).unique tieFree
      ((computeLocalAuth_valid empty fun _ => known).1 gathers)
  · exact computeLocalAuth_congr ctx.version (folded.fresh _ unseen) fun aid _ =>
      ⟨rfl, fun transitive => absurd transitive gathers⟩

theorem LatticeFoldCtx.Folded.step (folded : ctx.Folded events worker)
    (unseen : ev.eventId ∉ events.map eventId) (steady : ctx.Steady [ev]) :
    ctx.Folded (events ++ [ev]) (processLatticeEvent ctx worker ev) := by
  have localAuth := folded.localAuth unseen steady
  have cache : (processLatticeEvent ctx worker ev).localAuthCache =
      (computeLocalAuth ev ctx.authContext ctx.sortSet worker.localAuthCache ctx.version).2 := by
    unfold processLatticeEvent
    dsimp only
    split
    · split
      · rfl
      · split <;> rfl
    · rfl
  refine ⟨fun id outside => ?_, ?_, fun key => ?_⟩
  · rw [cache, computeLocalAuth_map, if_neg fun same => outside (by simp [same])]
    exact folded.fresh id fun mem => outside (by simp_all)
  · rw [cache]
    exact (computeLocalAuth_valid folded.valid fun gathers => (steady gathers ev (by simp)).1).2
  · have admits : iterativeAuthOk ev ctx.terminalPowerState ctx.authContext ctx.sortSet
        (computeLocalAuth ev ctx.authContext ctx.sortSet worker.localAuthCache ctx.version).1 ctx.createEv
        ctx.version false = ctx.admits ev := by
      rw [localAuth]
      rfl
    have step : (processLatticeEvent ctx worker ev).winners[key]? = if ctx.competes key ev then
          worker.winners[key]?.elim (some ev) fun current =>
            if ctx.rank current < ctx.rank ev then some ev else some current
        else worker.winners[key]? := by
      unfold processLatticeEvent LatticeFoldCtx.competes
      dsimp only
      rw [admits]
      cases ctx.admits ev with
      | false => simp
      | true =>
        cases keyed : ev.key? with
        | none => simp
        | some own =>
          by_cases same : key = own
          · subst same
            cases decides : decidesKey ctx.version ctx.conflictedKeys key with
            | false => simp [decides]
            | true =>
              simp only [if_true, decide_true, Bool.and_self, decides]
              rw [getElem?_updateWinnerIfBetter, if_pos rfl]
              rfl
          · have differ : ¬some own = some key := fun equal => same (Option.some.inj equal).symm
            cases decides : decidesKey ctx.version ctx.conflictedKeys own with
            | false => simp [differ, decides]
            | true =>
              simp only [if_true, decides, differ, decide_false, Bool.and_false, Bool.false_and, Bool.false_eq_true,
                if_false]
              rw [getElem?_updateWinnerIfBetter, if_neg same]
    rw [step, folded.winners key, filter_append]
    by_cases competes : ctx.competes key ev = true
    · rw [if_pos competes, filter_cons_of_pos competes, filter_nil, argmax_concat]
      cases (events.filter (ctx.competes key)).argmax ctx.rank <;> rfl
    · rw [if_neg competes, filter_cons_of_neg competes, filter_nil, append_nil]

theorem getElem?_foldLatticeChunk (distinct : (chunk.map eventId).Nodup) (steady : ctx.Steady chunk)
    (key : Key) : (foldLatticeChunk ctx chunk)[key]? = (chunk.filter (ctx.competes key)).argmax ctx.rank := by
  have folded : ∀ before after, chunk = before ++ after →
      ctx.Folded before (before.foldl (processLatticeEvent ctx) ⟨.new ctx.version, ∅⟩) := by
    intro before
    induction before using reverseRecOn with
    | nil =>
      intro _ _
      refine ⟨fun _ _ => rfl, fun _ id localAuth found => ?_, fun key => ?_⟩
      · cases found
      · simp
    | append_singleton before ev ih =>
      intro after split
      rw [foldl_append, foldl_cons, foldl_nil]
      refine (ih ([ev] ++ after) (by simp [split])).step ?_ ?_
      · rw [split, map_append, map_append, append_assoc] at distinct
        intro mem
        exact (nodup_append.mp distinct).2.2 _ mem ev.eventId (by simp) rfl
      · intro gathers other mem
        obtain rfl := mem_singleton.mp mem
        exact steady gathers other (by simp [split])
  exact (folded chunk [] (by simp)).winners key

end

section

variable [LinearOrder Id]

def LatticeFoldCtx.join (ctx : LatticeFoldCtx Id C) (current : Option (LeanEvent Id C))
    (ev : LeanEvent Id C) : Option (LeanEvent Id C) :=
  current.elim (some ev) fun current => if ctx.rank current < ctx.rank ev then some ev else some current

theorem getElem?_updateWinners (ctx : LatticeFoldCtx Id C) (entries : List (Key × LeanEvent Id C))
    (nodup : (entries.map Prod.fst).Nodup) (winners : Winners Id C) (key : Key) :
    (entries.foldl (fun winners entry =>
        updateWinnerIfBetter ctx.mainlineDistances ctx.mainlineLen winners entry.1 entry.2) winners)[key]? =
      (entries.lookup key).elim winners[key]? (ctx.join winners[key]?) := by
  induction entries generalizing winners with
  | nil => rfl
  | cons entry entries ih =>
    obtain ⟨fresh, nodup⟩ := nodup_cons.mp nodup
    rw [foldl_cons, ih nodup, lookup_cons, getElem?_updateWinnerIfBetter]
    by_cases same : key = entry.1
    · subst same
      have missing : entries.lookup entry.1 = none := by
        rw [lookup_eq_none_iff]
        intro other mem
        rw [bne_iff_ne]
        intro equal
        exact fresh (mem_map.mpr ⟨other, mem, equal.symm⟩)
      rw [missing, if_pos rfl, beq_self_eq_true]
      rfl
    · rw [if_neg same, beq_eq_false_iff_ne.mpr same]

theorem getElem?_mergeWinners (order : Order) (ctx : LatticeFoldCtx Id C) (winners : Winners Id C)
    (worker : Winners Id C × Nat) (key : Key) :
    (mergeWinners order ctx winners worker)[key]? = worker.1[key]?.elim winners[key]? (ctx.join winners[key]?) := by
  have listed := order.perm (.workerMaps worker.2) worker.1.toList
  unfold mergeWinners
  rw [getElem?_updateWinners ctx _ ((listed.map _).nodup_iff.mpr (nodup_keys_toList worker.1)),
    lookup_perm_toList listed]

theorem getElem?_mergeAll (order : Order) (ctx : LatticeFoldCtx Id C) (workers : List (Winners Id C × Nat))
    (key : Key) :
    (workers.foldl (mergeWinners order ctx) ∅)[key]? =
      (workers.filterMap fun worker => worker.1[key]?).argmax ctx.rank := by
  induction workers using reverseRecOn with
  | nil => simp
  | append_singleton workers worker ih =>
    rw [foldl_append, foldl_cons, foldl_nil, getElem?_mergeWinners, ih, filterMap_append]
    cases found : worker.1[key]? with
    | none => simp [found]
    | some ev =>
      have last : [worker].filterMap (fun worker => worker.1[key]?) = [ev] := by simp [found]
      rw [last, argmax_concat]
      cases (workers.filterMap fun worker => worker.1[key]?).argmax ctx.rank <;> rfl

end

theorem steady_of_early [LinearOrder Id] {ctx : LatticeFoldCtx Id C} (early : ctx.version.isV2_1Plus = false) (chunk : List (LeanEvent Id C)) :
    ctx.Steady chunk := by
  intro _
  cases version : ctx.version <;> simp_all [gathersTransitively, StateResVersion.isV2_1Plus]

section

variable {events : EventMap Id C}

section

variable {schedule : Schedule events} {worker : List (LeanEvent Id C)} (inside : worker ∈ schedule.workers)
include inside

theorem Schedule.member {ev : LeanEvent Id C} (taken : ev ∈ worker) : ev ∈ events.values :=
  schedule.assigned.mem_iff.mp (mem_flatten.mpr ⟨worker, inside, taken⟩)

theorem Schedule.distinct : (worker.map eventId).Nodup := by
  have all : (schedule.workers.flatten.map eventId).Nodup := (schedule.assigned.map _).nodup_iff.mpr events.distinct
  exact ((sublist_flatten_of_mem inside).map _).nodup all

end

variable [LinearOrder Id] [ToString Id] [EventContent C] {ctx : LatticeFoldCtx Id C}

theorem computeLatticeCoordinatizedWinners_steady (order : Order) (schedule : Schedule events)
    (steady : ctx.Steady events.values) {whole : List (LeanEvent Id C)} (listed : whole.Perm events.values) :
    computeLatticeCoordinatizedWinners order ctx schedule = foldLatticeChunk ctx whole := by
  apply Std.ExtTreeMap.ext_getElem?
  intro key
  have wholeSteady : ctx.Steady whole := fun gathers ev mem =>
    steady gathers ev (listed.mem_iff.mp mem)
  rw [getElem?_foldLatticeChunk ((listed.map _).nodup_iff.mpr events.distinct) wholeSteady]
  unfold computeLatticeCoordinatizedWinners
  rw [getElem?_mergeAll]
  have chunk : ∀ worker ∈ schedule.workers, (foldLatticeChunk ctx worker)[key]? =
      (worker.filter (ctx.competes key)).argmax ctx.rank := fun worker inside =>
    getElem?_foldLatticeChunk (Schedule.distinct inside)
      (fun gathers ev taken => steady gathers ev (Schedule.member inside taken)) key
  have locals : ((schedule.workers.map (foldLatticeChunk ctx)).zipIdx.filterMap fun worker =>
      worker.1[key]?) =
      schedule.workers.filterMap fun worker => (worker.filter (ctx.competes key)).argmax ctx.rank := by
    have firsts : (fun worker : Winners Id C × Nat => worker.1[key]?) =
        (fun winners : Winners Id C => winners[key]?) ∘ Prod.fst := rfl
    rw [firsts, ← filterMap_map, zipIdx_map_fst, filterMap_map]
    exact filterMap_congr chunk
  rw [locals]
  have competitor : ∀ {worker : List (LeanEvent Id C)} {ev}, (worker.filter (ctx.competes key)).argmax ctx.rank = some ev →
      ev ∈ worker ∧ ctx.competes key ev = true := fun greatest =>
    mem_filter.mp (argmax_mem greatest)
  refine argmax_eq_of_dominated ?_ ?_ ?_
  · intro x inLocals y inWhole same
    obtain ⟨worker, inside, greatest⟩ := mem_filterMap.mp inLocals
    exact EventMap.mem_unique (Schedule.member inside (competitor greatest).1)
      (listed.mem_iff.mp (mem_of_mem_filter inWhole)) (latticeRank_tells same)
  · intro x inLocals
    obtain ⟨worker, inside, greatest⟩ := mem_filterMap.mp inLocals
    obtain ⟨taken, competes⟩ := competitor greatest
    exact ⟨x, mem_filter.mpr ⟨listed.mem_iff.mpr (Schedule.member inside taken), competes⟩, le_refl _⟩
  · intro y inWhole
    obtain ⟨mem, competes⟩ := mem_filter.mp inWhole
    obtain ⟨worker, inside, taken⟩ := mem_flatten.mp (schedule.assigned.mem_iff.mpr (listed.mem_iff.mp mem))
    have candidate := mem_filter.mpr ⟨taken, competes⟩
    cases greatest : (worker.filter (ctx.competes key)).argmax ctx.rank with
    | none => simp [argmax_eq_none.mp greatest] at candidate
    | some x =>
      exact ⟨x, mem_filterMap.mpr ⟨worker, inside, greatest⟩, le_of_mem_argmax candidate greatest⟩

/-- The schedule decides nothing: every assignment of events, order of the workers and merge order give the winners of
    the sequential fold, and the resolver returns the same state for every version. -/
theorem resolveSemilatticeFold_schedule :
    (∀ (order : Order) (ctx : LatticeFoldCtx Id C) (events : EventMap Id C) (schedule : Schedule events)
      (whole : List (LeanEvent Id C)), ctx.version.isV2_1Plus = false → whole.Perm events.values →
        computeLatticeCoordinatizedWinners order ctx schedule = foldLatticeChunk ctx whole) ∧
    ∀ (order : Order) (inputs : IterativeInputs Id C) (conflictedKeys : KeySet)
      (schedule : Schedule (inputs.powerPhase order).nonPowerEvents),
      resolveSemilatticeFoldWithConflictedKeys order
          (fun ctx => computeLatticeCoordinatizedWinners order ctx schedule) inputs conflictedKeys =
        resolveSemilatticeFoldWithConflictedKeys order
          (fun ctx => foldLatticeChunk ctx
            (order.iter .nonPowerEvents (inputs.powerPhase order).nonPowerEvents.values))
          inputs conflictedKeys := by
  refine ⟨fun order ctx events schedule whole early listed =>
    computeLatticeCoordinatizedWinners_steady order schedule (steady_of_early early _) listed, ?_⟩
  intro order inputs conflictedKeys schedule
  unfold resolveSemilatticeFoldWithConflictedKeys
  split
  · rfl
  · rename_i early
    simp only [Bool.not_eq_true] at early
    have same := computeLatticeCoordinatizedWinners_steady order schedule
      (steady_of_early (show (latticeContext order inputs conflictedKeys).version.isV2_1Plus = false from early)
        _) (order.perm .nonPowerEvents _)
    dsimp only
    rw [same]

end

namespace Sample

open Basespec.Sample

def topics : EventMap Nat Content :=
  ⟨[topic 4 "@a:x" [1, 2, 3], topic 5 "@a:x" [1, 2, 3]], by decide⟩

def topicsContext : LatticeFoldCtx Nat Content where
  mainlineDistances _ := none
  mainlineLen := 1
  terminalPowerState := stateOf [create "10", joinA [1], openLevels]
  authContext := ⟨[create "10", joinA [1], openLevels], by decide⟩
  sortSet := topics
  version := .v2
  createEv := some (create "10")
  conflictedKeys := ∅

end Sample

open Sample in
theorem resolveSemilatticeFold_schedule_topics :
    computeLatticeCoordinatizedWinners .reversed topicsContext
        (⟨[[Basespec.Sample.topic 5 "@a:x" [1, 2, 3]], [], [Basespec.Sample.topic 4 "@a:x" [1, 2, 3]]],
          .swap _ _ _⟩ : Schedule topics) =
      foldLatticeChunk topicsContext topics.values :=
  resolveSemilatticeFold_schedule.1 .reversed topicsContext topics _ topics.values rfl (.refl _)

end Rezzy.Resolve
