import Rezzy.Resolve.KahnOrder
import Rezzy.Resolve.PowerPhaseOrder

namespace Rezzy.Resolve

open Basespec Auth State Permuted IterativeInputs List Std.ExtTreeSet Option

variable {Id C : Type}

section

theorem getElem?_mergeUnconflictedPowerEvent (unconflictedState : SharedState Id) (emptyKey : String)
    (resolved : SharedState Id) (eventType : String) (key : Key) :
    (mergeUnconflictedPowerEvent unconflictedState emptyKey resolved eventType)[key]? =
      resolved[key]?.or (if key = (⟨eventType⟩, emptyKey) then unconflictedState[key]? else none) := by
  unfold mergeUnconflictedPowerEvent
  dsimp only
  by_cases same : key = (⟨eventType⟩, emptyKey)
  · rw [if_pos same, same]
    cases unconflictedState[((⟨eventType⟩, emptyKey) : Key)]? with
    | none => simp
    | some id => simp [getElem?_fillKey]
  · rw [if_neg same, or_none]
    cases unconflictedState[((⟨eventType⟩, emptyKey) : Key)]? with
    | none => rfl
    | some id => simp [getElem?_fillKey, same]

theorem getElem?_mergeUnconflictedPowerEvent_foldl (unconflictedState : SharedState Id) (emptyKey : String)
    (eventTypes : List String) (resolved : SharedState Id) (key : Key) :
    (eventTypes.foldl (mergeUnconflictedPowerEvent unconflictedState emptyKey) resolved)[key]? =
      resolved[key]?.or (if key.2 = emptyKey ∧ key.1.asStr ∈ eventTypes then
        unconflictedState[key]? else none) := by
  induction eventTypes generalizing resolved with
  | nil => simp
  | cons eventType eventTypes ih =>
    rw [foldl_cons, ih, getElem?_mergeUnconflictedPowerEvent, Option.or_assoc]
    congr 1
    obtain ⟨⟨keyType⟩, stateKey⟩ := key
    by_cases empty : stateKey = emptyKey
    · by_cases same : keyType = eventType
      · cases unconflictedState[((⟨keyType⟩, stateKey) : Key)]? <;> simp [empty, same]
      · simp [empty, same]
    · simp [empty]

theorem getElem?_mergeUnconflictedPowerEvents (version : StateResVersion)
    (unconflictedState resolved : SharedState Id) (emptyKey : String) (key : Key) :
    (mergeUnconflictedPowerEvents version unconflictedState resolved emptyKey)[key]? =
      resolved[key]?.or (if version.isV2_1Plus ∧ key.2 = emptyKey ∧
          key.1.asStr ∈ [mRoomPowerLevels, mRoomJoinRules, mRoomCreate] then
        unconflictedState[key]? else none) := by
  unfold mergeUnconflictedPowerEvents
  by_cases merges : version.isV2_1Plus = true
  · rw [if_pos merges, getElem?_mergeUnconflictedPowerEvent_foldl]
    simp only [merges, true_and]
  · simp [merges]

theorem getElem?_fillKey_foldl (entries : List (Key × Id)) (state : SharedState Id) (key : Key) :
    (entries.foldl (fun f entry => fillKey f entry.1 entry.2) state)[key]? = state[key]?.or (entries.lookup key) := by
  induction entries generalizing state with
  | nil => simp
  | cons entry entries ih =>
    rw [foldl_cons, ih, getElem?_fillKey, Option.or_assoc, lookup_cons]
    congr 1
    by_cases same : key = entry.1
    · simp [same]
    · simp [same, beq_eq_false_iff_ne.mpr same]

theorem getElem?_mergeFinalResolved (unconflictedState resolved : SharedState Id) (key : Key) :
    (mergeFinalResolved unconflictedState resolved)[key]? = unconflictedState[key]?.or resolved[key]? := by
  unfold mergeFinalResolved
  rw [getElem?_fillKey_foldl, lookup_toList]

end

def AuthEntriesIn (inside : Id → Prop) (state : SharedState Id) : Prop :=
  ∀ (key : Key) id, key.1.asStr ∈ validAuthTypes → state[key]? = some id → inside id

theorem AuthEntriesIn.insert {inside : Id → Prop} (entries : AuthEntriesIn inside state) (key : Key) {id : Id}
    (mem : inside id) : AuthEntriesIn inside (state.insert key id) := by
  intro other found read known
  rw [getElem?_insert_key] at known
  split at known
  · rw [← Option.some.inj known]
    exact mem
  · exact entries other found read known

theorem AuthEntriesIn.applyAccepted {inside : Id → Prop} (entries : AuthEntriesIn inside resolved)
    (version : StateResVersion) (conflictedKeys : KeySet) {event : LeanEvent Id C} (mem : inside event.eventId) :
    AuthEntriesIn inside (applyAccepted version conflictedKeys resolved event) := by
  unfold Resolve.applyAccepted
  split
  · split
    · exact entries.insert _ mem
    · exact entries
  · exact entries

structure SameWorking (inside : Id → Prop) (left right : Working Id C) : Prop where
  resolved : left.resolved = right.resolved
  cached : ∀ id, inside id → left.localAuthCache.map id = right.localAuthCache.map id
  entries : AuthEntriesIn inside left.resolved

theorem SameWorking.foldl {inside : Id → Prop} {α : Type} {stepLeft stepRight : Working Id C → α → Working Id C}
    (l : List α)
    (steps : ∀ x ∈ l, ∀ w w', SameWorking inside w w' → SameWorking inside (stepLeft w x) (stepRight w' x))
    (working : SameWorking inside w w') : SameWorking inside (l.foldl stepLeft w) (l.foldl stepRight w') := by
  induction l generalizing w w' with
  | nil => exact working
  | cons x l ih =>
    exact ih (fun y mem => steps y (mem_cons_of_mem _ mem)) (steps x (by simp) _ _ working)

theorem SameInputs.localAuth [LinearOrder Id] {inside : Id → Prop} {w w' : Working Id C}
    (same : SameInputs inside left right) (mem : inside event.eventId) (cited : ∀ aid ∈ event.authEvents, inside aid)
    (working : SameWorking inside w w') :
    (computeLocalAuth event left.authContext left.conflictedEvents w.localAuthCache left.version).1 =
      (computeLocalAuth event right.authContext right.conflictedEvents w'.localAuthCache right.version).1 := by
  rw [← same.version]
  refine computeLocalAuth_congr left.version (working.cached _ mem) fun aid reached => ?_
  have chain : inside aid := by
    refine reached.subset_of_closed inside cited fun x y mem edge => ?_
    unfold chainEdges at edge
    cases found : State.lookupAuth left.authContext left.conflictedEvents x with
    | none => simp [found] at edge
    | some other => exact same.lookupAuth.closed x other mem found y (by simpa [found] using edge)
  exact ⟨same.lookupAuth.same aid chain, fun _ => working.cached aid chain⟩

theorem getPowerLevelFromAuthChain_congr [EventContent C] (agree : ∀ aid ∈ event.authEvents, provider aid = other aid)
    (createEv : Option (LeanEvent Id C)) (version : StateResVersion) :
    getPowerLevelFromAuthChain event provider createEv version =
      getPowerLevelFromAuthChain event other createEv version := by
  have found : ∀ ids : List Id, (∀ aid ∈ ids, provider aid = other aid) →
      (ids.findSome? fun aid => (provider aid).filter fun aev =>
        aev.eventType = mRoomPowerLevels ∧ aev.stateKey = some "") =
      ids.findSome? fun aid => (other aid).filter fun aev =>
        aev.eventType = mRoomPowerLevels ∧ aev.stateKey = some "" := by
    intro ids agree
    induction ids with
    | nil => rfl
    | cons aid ids ih =>
      rw [findSome?_cons, findSome?_cons, agree aid (by simp), ih fun x mem => agree x (mem_cons_of_mem _ mem)]
  unfold getPowerLevelFromAuthChain
  simp only [LeanEvent.dagEdges_eq, found event.authEvents agree]

theorem SameInputs.initialWorking [LinearOrder Id] {inside : Id → Prop} (same : SameInputs inside left right)
    (cached : ∀ id, inside id → (selectLocalAuthCache cacheLeft left.version).map id =
      (selectLocalAuthCache cacheRight right.version).map id) :
    SameWorking inside (initialWorking left cacheLeft) (initialWorking right cacheRight) where
  resolved := by
    simp only [Resolve.initialWorking, same.unconflicted, same.version]
  cached := cached
  entries key id read found := by
    simp only [Resolve.initialWorking, getInitialResolvedState] at found
    split at found
    · simp at found
    · rename_i inherits
      exact same.agreed key id (by simp [ReadsAgreed, inherits, read]) found

theorem deriveAllConflictedKeys_perm (same : left.values.Perm right.values) (emptyKey : String) :
    deriveAllConflictedKeys left emptyKey = deriveAllConflictedKeys right emptyKey := by
  apply ext_mem
  intro _
  unfold deriveAllConflictedKeys
  rw [mem_ofList, mem_ofList]
  exact Bool.eq_iff_iff.mp ((same.map _).contains_eq)

structure IterativeInputs.Shuffled (left right : IterativeInputs Id C) : Prop where
  unconflicted : left.unconflictedState = right.unconflictedState
  conflicted : left.conflictedEvents.values.Perm right.conflictedEvents.values
  auth : left.authContext.values.Perm right.authContext.values
  version : left.version = right.version
  emptyKey : left.emptyKey = right.emptyKey

theorem IterativeInputs.Shuffled.sameInputs [LinearOrder Id] {left right : IterativeInputs Id C}
    (shuffled : left.Shuffled right) : SameInputs (fun _ => True) left right where
  version := shuffled.version
  emptyKey := shuffled.emptyKey
  unconflicted := shuffled.unconflicted
  conflicted := shuffled.conflicted
  auth := ⟨fun id _ => EventMap.get_of_perm shuffled.auth id, fun _ _ _ _ _ _ => trivial⟩
  members _ _ := trivial
  cited _ _ _ _ := trivial
  agreed _ _ _ _ := trivial

theorem IterativeInputs.Shuffled.conflictedKeysOf (shuffled : left.Shuffled right)
    (conflictedKeysOverride : Option KeySet) :
    conflictedKeysOf left conflictedKeysOverride = conflictedKeysOf right conflictedKeysOverride := by
  rw [Resolve.conflictedKeysOf, Resolve.conflictedKeysOf, shuffled.emptyKey,
    deriveAllConflictedKeys_perm shuffled.conflicted]

structure SameCaches [LinearOrder Id] (inside : Id → Prop) (left right : IterativeInputs Id C)
    (cachesLeft cachesRight : ResolveCaches Id C) : Prop where
  keys : cachesLeft.conflictedKeys = cachesRight.conflictedKeys
  cached : ∀ id, inside id → (selectLocalAuthCache cachesLeft.externalAuthCache left.version).map id =
    (selectLocalAuthCache cachesRight.externalAuthCache right.version).map id
  validLeft : cachesLeft.mainlineCache.Valid (nearestPowerLevels left.sortContext left.sortNodes left.version)
  validRight : cachesRight.mainlineCache.Valid
    (nearestPowerLevels right.sortContext right.sortNodes right.version)

theorem SameCaches.fresh [LinearOrder Id] (inside : Id → Prop) (left right : IterativeInputs Id C)
    (conflictedKeys : KeySet) :
    SameCaches inside left right ⟨none, [], conflictedKeys⟩ ⟨none, [], conflictedKeys⟩ :=
  ⟨rfl, fun _ _ => rfl, by simp [MainlineCache.Valid], by simp [MainlineCache.Valid]⟩

section

variable [LinearOrder Id] [EventContent C] {inside : Id → Prop} {left right : IterativeInputs Id C}

theorem SameInputs.power_inside (same : SameInputs inside left right) (order : Order) {id : Id}
    (found : (executePowerPhase order left originals).powerEvents.get id = some event) :
    inside id ∧ ∀ aid ∈ event.authEvents, inside aid := by
  rcases (executePowerPhase_power order left originals id event).mp found with
    ⟨_, reached, ancestral⟩ | ⟨own, _⟩
  · have mem := same.ancestry_inside order reached
    exact ⟨mem, same.auth.closed id event mem (ancestralEvent_spec ancestral).2.1⟩
  · have known := (expandedEvents_splits order left).power id event own
    have mem := EventMap.get_mem known
    exact ⟨EventMap.get_id known ▸ same.members event mem, same.cited event mem⟩

theorem SameInputs.sortedPowerIds (same : SameInputs inside left right) (orderLeft orderRight : Order) :
    sortedPowerIds orderLeft left (left.powerPhase orderLeft) =
      sortedPowerIds orderRight right (right.powerPhase orderRight) := by
  have kept : ∀ id, id ∈ prepareConflictedAndKeys left.conflictedEvents ↔
      id ∈ prepareConflictedAndKeys right.conflictedEvents := fun id => (same.conflicted.map _).mem_iff
  apply KahnSortInputs.Same.sort
  refine ⟨same.power orderLeft orderRight kept, same.version, fun event mem => ?_⟩
  have created : (left.powerPhase orderLeft).createEv = (right.powerPhase orderRight).createEv :=
    same.createEv orderLeft orderRight
  have cited := (same.power_inside orderLeft (EventMap.get_of_mem mem)).2
  unfold KahnSortInputs.priority
  rw [created, same.version, getPowerLevelFromAuthChain_congr
    fun aid cites => same.sortContext.same aid (cited aid cites)]

theorem mem_sortedPowerIds (order : Order) (inputs : IterativeInputs Id C) (phase : PowerPhase Id C)
    (id : Id) : id ∈ Resolve.sortedPowerIds order inputs phase ↔ id ∈ phase.powerEvents.keys :=
  (KahnSortInputs.sort_perm _ order).mem_iff

theorem SameInputs.isSenderBanned (same : SameInputs inside left right)
    (hardened : left.version.hasBanEvasionHardening = true) (entries : AuthEntriesIn inside resolved)
    (ev : LeanEvent Id C) : isSenderBanned ev resolved left.unconflictedState left.sortContext =
      isSenderBanned ev resolved right.unconflictedState right.sortContext := by
  have plus : left.version.isV2_1Plus = true := by
    cases version : left.version <;> simp_all [StateResVersion.hasBanEvasionHardening, StateResVersion.isV2_1Plus]
  unfold Resolve.isSenderBanned
  dsimp only
  rw [← same.unconflicted]
  cases found : resolved[((⟨mRoomMember⟩, ev.sender) : Key)]?.or
      left.unconflictedState[((⟨mRoomMember⟩, ev.sender) : Key)]? with
  | none => rfl
  | some id =>
    have mem : inside id := by
      rcases or_eq_some_iff.mp found with own | ⟨_, agreed⟩
      · exact entries _ id (by simp [validAuthTypes]) own
      · exact same.agreed _ id (by simp [ReadsAgreed, plus, hardened]) agreed
    dsimp only
    rw [same.sortContext.same id mem]

theorem SameInputs.screened (same : SameInputs inside left right) (entries : AuthEntriesIn inside resolved)
    (perm : events.Perm others) :
    (screenBannedSenders left resolved events).Perm (screenBannedSenders right resolved others) := by
  unfold screenBannedSenders
  rw [← same.version]
  split
  · rename_i hardened
    have agree : (fun ev => !Resolve.isSenderBanned ev resolved left.unconflictedState left.sortContext) =
        fun ev => !Resolve.isSenderBanned ev resolved right.unconflictedState right.sortContext := by
      funext ev
      rw [same.isSenderBanned hardened entries ev]
    rw [agree]
    exact perm.filter _
  · exact perm

theorem screenBannedSenders_subset (inputs : IterativeInputs Id C) (resolved : SharedState Id)
    (events : List (LeanEvent Id C)) (ev : LeanEvent Id C)
    (mem : ev ∈ screenBannedSenders inputs resolved events) : ev ∈ events := by
  unfold screenBannedSenders at mem
  split at mem
  · exact List.mem_of_mem_filter mem
  · exact mem

theorem nonPower_conflicted {inputs : IterativeInputs Id C}
    (mem : ev ∈ (inputs.powerPhase order).nonPowerEvents.values) : ev ∈ inputs.conflictedEvents.values := by
  have found := EventMap.get_of_mem mem
  rw [powerPhase, executePowerPhase_nonPower, (expandedEvents_splits order inputs).rest] at found
  exact EventMap.get_mem found.1

def StaysNonPower (inputs : IterativeInputs Id C) (event : LeanEvent Id C) : Prop :=
  event ∈ inputs.conflictedEvents.values ∧
    ¬Worklist.Reached
      (if inputs.version ≠ .v1 then promotedEdges inputs.conflictedEvents else fun _ => [])
      ((inputs.conflictedEvents.filter (·.isPowerEvent inputs.version)).keys) event.eventId

theorem mem_nonPowerEvents (order : Order) (inputs : IterativeInputs Id C) (event : LeanEvent Id C) :
    event ∈ (inputs.powerPhase order).nonPowerEvents.values ↔ StaysNonPower inputs event := by
  have rest := (expandedEvents_splits order inputs).rest event.eventId event
  rw [mem_expandedEvents] at rest
  unfold powerPhase
  rw [executePowerPhase_nonPower]
  constructor
  · intro mem
    obtain ⟨found, outside⟩ := rest.mp (EventMap.get_of_mem mem)
    exact ⟨EventMap.get_mem found, fun reached =>
      outside ⟨EventMap.mem_keys.mpr ⟨event, found⟩, reached⟩⟩
  · rintro ⟨mem, outside⟩
    exact EventMap.get_mem (rest.mpr ⟨EventMap.get_of_mem mem, fun inside => outside inside.2⟩)

theorem mem_sortedNonPower (drops : ∀ resolved events, ∀ ev ∈ screen resolved events, ev ∈ events)
    {ev : LeanEvent Id C} (mem : ev ∈ sortedNonPower screen order inputs resolved mainline) :
    ev ∈ (inputs.powerPhase order).nonPowerEvents.values := by
  have kept := drops _ _ ev ((mem_insertionSort _).mp mem)
  exact (order.perm _ _).mem_iff.mp kept

theorem SameInputs.sortedNonPower (same : SameInputs inside left right) (entries : AuthEntriesIn inside resolved)
    (mainline : List Id) (orderLeft orderRight : Order) :
    sortedNonPower (screenBannedSenders left) orderLeft left resolved mainline =
      sortedNonPower (screenBannedSenders right) orderRight right resolved mainline := by
  have conflicted : ∀ ev ∈ screenBannedSenders left resolved (orderLeft.iter .nonPowerEvents
      (left.powerPhase orderLeft).nonPowerEvents.values), ev ∈ left.conflictedEvents.values :=
    fun ev mem => nonPower_conflicted
      ((orderLeft.perm _ _).mem_iff.mp (screenBannedSenders_subset left resolved _ ev mem))
  unfold Resolve.sortedNonPower
  rw [← same.version]
  refine mainlineSort_congr same.sortContext (lists_sortNodes left) (lists_sortNodes right)
    (same.screened entries (orderLeft.iter_perm orderRight _ (same.nonPower _ _ _ _))) ?_ ?_ _ _
  · intro a ha b hb
    exact EventMap.mem_unique (conflicted a ha) (conflicted b hb)
  · intro event mem
    exact same.members event (conflicted event mem)

end

section

variable [LinearOrder Id] [ToString Id] [EventContent C] {inside : Id → Prop}

theorem iterativeAuthOk_congr
    (agree : AgreeOn inside (lookupAuth authLeft conflictedLeft) (lookupAuth authRight conflictedRight))
    (entries : AuthEntriesIn inside resolved) (sameLocal : ∀ query ∈ authReads ev,
      localLeft[((⟨query.1⟩, query.2) : Key)]? = localRight[((⟨query.1⟩, query.2) : Key)]?)
    (createEv : Option (LeanEvent Id C)) (version : StateResVersion) (isPower : Bool) :
    iterativeAuthOk ev resolved authLeft conflictedLeft localLeft createEv version isPower =
      iterativeAuthOk ev resolved authRight conflictedRight localRight createEv version isPower := by
  unfold iterativeAuthOk
  split
  · rfl
  · have answers : Agree ev
        (OverlayState.getEvent ⟨resolved, authLeft, conflictedLeft, localLeft, createEv, version, isPower,
          ev.eventType⟩)
        (OverlayState.getEvent ⟨resolved, authRight, conflictedRight, localRight, createEv, version, isPower,
          ev.eventType⟩) := by
      apply Agree.of_reads
      intro eventType stateKey read
      have same : resolved[((⟨eventType⟩, stateKey) : Key)]?.bind (lookupAuth authLeft conflictedLeft) =
          resolved[((⟨eventType⟩, stateKey) : Key)]?.bind (lookupAuth authRight conflictedRight) := by
        cases found : resolved[((⟨eventType⟩, stateKey) : Key)]? with
        | none => rfl
        | some id => exact agree.same id (entries _ id (authReads_types read) found)
      unfold OverlayState.getEvent
      dsimp only
      rw [same, sameLocal _ read]
    dsimp only
    rw [checkAuth_congr answers]

variable {left right : IterativeInputs Id C} {w w' : Working Id C}

section

variable (same : SameInputs inside left right) {event : LeanEvent Id C} (mem : inside event.eventId)
  (cited : ∀ aid ∈ event.authEvents, inside aid) (working : SameWorking inside w w')
  (createEv : Option (LeanEvent Id C))
include same mem cited working

theorem SameInputs.eventAuthOk (isPower : Bool) :
    (eventAuthOk left createEv isPower w event).1 = (eventAuthOk right createEv isPower w' event).1 ∧
      ∀ id, inside id → (eventAuthOk left createEv isPower w event).2.map id =
        (eventAuthOk right createEv isPower w' event).2.map id := by
  have localAuth := same.localAuth mem cited working
  unfold Resolve.eventAuthOk
  dsimp only
  refine ⟨?_, fun id inside => ?_⟩
  · rw [← localAuth, ← working.resolved, ← same.version]
    exact iterativeAuthOk_congr same.lookupAuth working.entries (fun _ _ => rfl) createEv left.version isPower
  · rw [computeLocalAuth_map, computeLocalAuth_map, localAuth, working.cached id inside]

theorem SameInputs.checkEvent (conflictedKeys : KeySet) (isPower : Bool) :
    SameWorking inside (checkEvent left createEv conflictedKeys isPower w event)
      (checkEvent right createEv conflictedKeys isPower w' event) := by
  obtain ⟨accepted, cached⟩ := same.eventAuthOk mem cited working createEv isPower
  unfold Resolve.checkEvent
  refine ⟨?_, cached, ?_⟩
  · dsimp only
    rw [← accepted, ← working.resolved, ← same.version]
  · dsimp only
    split
    · exact working.entries.applyAccepted _ _ mem
    · exact working.entries

end

theorem SameInputs.powerTurn (same : SameInputs inside left right) {id : Id} (mem : inside id)
    (working : SameWorking inside w w') (createEv : Option (LeanEvent Id C)) (conflictedKeys : KeySet) :
    SameWorking inside (powerTurn left createEv conflictedKeys w id)
      (powerTurn right createEv conflictedKeys w' id) := by
  unfold Resolve.powerTurn
  rw [← same.sortContext.same id mem]
  cases found : left.sortContext id with
  | none => exact working
  | some event =>
    have named : event.eventId = id := by
      rw [IterativeInputs.sortContext, or_eq_some_iff] at found
      rcases found with found | ⟨_, found⟩ <;> exact EventMap.get_id found
    exact same.checkEvent (named ▸ mem) (same.sortContext.closed id event mem found) working
      createEv conflictedKeys true

variable {cachesLeft cachesRight : ResolveCaches Id C}

section

variable (same : SameInputs inside left right) (caches : SameCaches inside left right cachesLeft cachesRight)
  (orderLeft orderRight : Order)
include same caches

theorem SameInputs.workingAfterPower : SameWorking inside (workingAfterPower orderLeft left cachesLeft)
      (workingAfterPower orderRight right cachesRight) := by
  have created : (left.powerPhase orderLeft).createEv = (right.powerPhase orderRight).createEv :=
    same.createEv orderLeft orderRight
  have checked : SameWorking inside (runPowerPhaseIterativeChecks orderLeft left (left.powerPhase orderLeft)
        cachesLeft.conflictedKeys (Resolve.initialWorking left cachesLeft.externalAuthCache))
      (runPowerPhaseIterativeChecks orderRight right (right.powerPhase orderRight)
        cachesRight.conflictedKeys (Resolve.initialWorking right cachesRight.externalAuthCache)) := by
    unfold runPowerPhaseIterativeChecks
    rw [← same.sortedPowerIds orderLeft orderRight, ← created, ← caches.keys]
    refine SameWorking.foldl _ (fun id mem w w' working => ?_) (same.initialWorking caches.cached)
    obtain ⟨event, found⟩ := EventMap.mem_keys.mp ((mem_sortedPowerIds _ _ _ id).mp mem)
    exact same.powerTurn (same.power_inside orderLeft found).1 working _ _
  unfold Resolve.workingAfterPower
  refine ⟨?_, checked.cached, fun key id read found => ?_⟩
  · dsimp only
    rw [checked.resolved, same.version, same.unconflicted, same.emptyKey]
  · rw [getElem?_mergeUnconflictedPowerEvents, or_eq_some_iff] at found
    rcases found with own | ⟨_, merged⟩
    · exact checked.entries key id read own
    · split at merged
      · rename_i merges
        refine same.agreed key id ?_ merged
        rw [ReadsAgreed, if_pos merges.1]
        exact .inl merges.2
      · simp at merged

theorem SameInputs.mainlineAfterPower : (mainlineAfterPower orderLeft left cachesLeft).1 =
      (mainlineAfterPower orderRight right cachesRight).1 := by
  have working := same.workingAfterPower caches orderLeft orderRight
  unfold Resolve.mainlineAfterPower
  rw [← working.resolved, ← same.emptyKey, ← same.version]
  exact buildMainlineWithCache_congr same.sortContext (lists_sortNodes left) (lists_sortNodes right) _ _ _
    caches.validLeft (same.version ▸ caches.validRight)
    fun id found => working.entries _ id (by simp [validAuthTypes]) found

theorem SameInputs.workingAfterNonPower :
    SameWorking inside (workingAfterNonPower (screenBannedSenders left) orderLeft left cachesLeft)
      (workingAfterNonPower (screenBannedSenders right) orderRight right cachesRight) := by
  have created : (left.powerPhase orderLeft).createEv = (right.powerPhase orderRight).createEv :=
    same.createEv orderLeft orderRight
  have working := same.workingAfterPower caches orderLeft orderRight
  unfold Resolve.workingAfterNonPower
  dsimp only
  rw [← working.resolved, ← same.mainlineAfterPower caches orderLeft orderRight, ← created, ← caches.keys,
    ← same.sortedNonPower working.entries _ orderLeft orderRight]
  refine SameWorking.foldl _ (fun event mem w w' working => ?_) working
  have conflicted := nonPower_conflicted (mem_sortedNonPower (screenBannedSenders_subset left) mem)
  exact same.checkEvent (same.members event conflicted) (same.cited event conflicted) working _ _ _

theorem SameInputs.resolveScreened : (resolveScreened (screenBannedSenders left) orderLeft left cachesLeft).state =
      (resolveScreened (screenBannedSenders right) orderRight right cachesRight).state := by
  unfold Resolve.resolveScreened
  dsimp only
  rw [same.unconflicted, (same.workingAfterNonPower caches orderLeft orderRight).resolved]

end

theorem resolveIterativeSortWithAllCaches_eq (order : Order) (inputs : IterativeInputs Id C)
    (caches : ResolveCaches Id C) :
    resolveIterativeSortWithAllCaches order inputs caches = if inputs.version = .v3 then .error .requiresResolveV3
      else .ok (Resolve.resolveScreened (screenBannedSenders inputs) order inputs caches) := by
  unfold resolveIterativeSortWithAllCaches requireLegacyIterativeVersion
  split <;> rfl

/-- Whatever the hash iteration orders, a call with fresh caches returns the same state. -/
theorem resolveIterativeSortWithCache_hash_order (orderLeft orderRight : Order)
    {left right : IterativeInputs Id C} (shuffled : left.Shuffled right)
    (conflictedKeysOverride : Option KeySet) :
    (resolveIterativeSortWithCache orderLeft left none conflictedKeysOverride).map Resolution.state =
      (resolveIterativeSortWithCache orderRight right none conflictedKeysOverride).map Resolution.state := by
  rw [resolveIterativeSortWithCache, resolveIterativeSortWithCache, resolveIterativeSortWithAllCaches_eq,
    resolveIterativeSortWithAllCaches_eq, ← shuffled.version, ← shuffled.conflictedKeysOf]
  split
  · rfl
  · exact congrArg Except.ok (shuffled.sameInputs.resolveScreened (.fresh _ _ _ _) orderLeft orderRight)

end

namespace Sample

open Basespec.Sample

def cyclicLevels (first second : Nat) : LeanEvent Nat Content :=
  powerLevels first { users := [("@a:x", 100)] } [1, 2, second]

def cyclicInputs (conflicted : List (LeanEvent Nat Content))
    (distinct : (conflicted.map LeanEvent.eventId).Nodup) : IterativeInputs Nat Content :=
  ⟨stateOf [create "10", joinA [1]], ⟨conflicted, distinct⟩,
    ⟨[create "10", joinA [1], cyclicLevels 3 4, cyclicLevels 4 3], by decide⟩, .v2, ""⟩

end Sample

open Sample in
theorem cyclicInputs_shuffled : (cyclicInputs [cyclicLevels 3 4, cyclicLevels 4 3] (by decide)).Shuffled
      (cyclicInputs [cyclicLevels 4 3, cyclicLevels 3 4] (by decide)) := ⟨rfl, .swap _ _ _, .refl _, rfl, rfl⟩

open Sample in
theorem resolveIterativeSortWithCache_hash_order_cycle :
    (resolveIterativeSortWithCache .asListed
        (cyclicInputs [cyclicLevels 3 4, cyclicLevels 4 3] (by decide)) none none).map Resolution.state =
      (resolveIterativeSortWithCache .reversed
        (cyclicInputs [cyclicLevels 4 3, cyclicLevels 3 4] (by decide)) none none).map Resolution.state :=
  resolveIterativeSortWithCache_hash_order .asListed .reversed cyclicInputs_shuffled none

end Rezzy.Resolve
