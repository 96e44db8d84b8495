import Rezzy.Resolve.Entries
import Rezzy.State.Diff

namespace Rezzy.Resolve

open Std.ExtTreeMap List

section

open Basespec Auth State Permuted

variable {Id C : Type} [LinearOrder Id]

structure SamePartition (left right : Partition Id) : Prop where
  unconflicted : left.unconflictedState = right.unconflictedState
  conflicted : ∀ id, id ∈ left.conflictedIds ↔ id ∈ right.conflictedIds

theorem partitionStateMaps_same (orderLeft orderRight : Order) {left right : List (SharedState Id)}
    (same : ∀ map, map ∈ left ↔ map ∈ right) (nonempty : left ≠ []) :
    SamePartition (partitionStateMaps orderLeft left left.length)
      (partitionStateMaps orderRight right right.length) where
  unconflicted := by
    have other : right ≠ [] := by
      obtain ⟨map, mem⟩ := exists_mem_of_ne_nil _ nonempty
      exact ne_nil_of_mem ((same map).mp mem)
    apply Std.ExtTreeMap.ext_getElem?
    intro _
    ext id
    rw [partition_unconflicted orderLeft nonempty, partition_unconflicted orderRight other]
    exact forall_congr' fun map => by rw [same]
  conflicted id := by
    rw [mem_conflictedIds, mem_conflictedIds]
    simp only [same]

variable {eventContext : EventMap Id C} {version : StateResVersion} {left right : Partition Id}

section

variable (same : SamePartition left right)
include same

theorem SamePartition.covers : Covers eventContext version left ↔ Covers eventContext version right := by
  constructor
  · rintro ⟨conflicted, closure⟩
    exact ⟨fun id mem => conflicted id ((same.conflicted id).mpr mem), same.unconflicted ▸ closure⟩
  · rintro ⟨conflicted, closure⟩
    exact ⟨fun id mem => conflicted id ((same.conflicted id).mp mem), same.unconflicted.symm ▸ closure⟩

theorem SamePartition.conflictedChain (eventAuth : EventAuth Id) (visited : List Id) (state : SharedState Id) :
    conflictedChain eventAuth visited left.conflictedIds state =
      conflictedChain eventAuth visited right.conflictedIds state := by
  unfold Resolve.conflictedChain
  simp only [same.conflicted]

theorem SamePartition.inAuthDifference (maps : ∀ map, map ∈ mapsLeft ↔ map ∈ mapsRight) (id : Id) :
    InAuthDifference eventContext mapsLeft left id ↔ InAuthDifference eventContext mapsRight right id := by
  unfold InAuthDifference
  simp only [same.unconflicted, same.conflictedChain, maps]

theorem SamePartition.subgraphIds (orderLeft orderRight : Order) (id : Id) :
    id ∈ subgraphIds orderLeft eventContext none left.conflictedIds ↔
      id ∈ subgraphIds orderRight eventContext none right.conflictedIds := by
  unfold Resolve.subgraphIds
  rw [mem_computeV21ConflictedSubgraph, mem_computeV21ConflictedSubgraph]
  have backwards : Worklist.Reached (chainEdges eventContext.get) left.conflictedIds id ↔
      Worklist.Reached (chainEdges eventContext.get) right.conflictedIds id :=
    Worklist.Reached.congr (fun _ _ => rfl) same.conflicted id
  have forwards : Worklist.Reached (forwardEdges eventContext) (left.conflictedIds.filter (· ∈ eventContext.keys)) id ↔
      Worklist.Reached (forwardEdges eventContext) (right.conflictedIds.filter (· ∈ eventContext.keys)) id :=
    Worklist.Reached.congr (fun _ _ => rfl) (fun x => by simp only [List.mem_filter, same.conflicted]) id
  rw [backwards, forwards]

end

section

variable {orderLeft orderRight : Order} {mapsLeft mapsRight : List (SharedState Id)}

theorem fullConflicted_same (maps : ∀ map, map ∈ mapsLeft ↔ map ∈ mapsRight)
    (same : SamePartition left right) (id : Id) :
    FullConflicted eventContext mapsLeft version left (subgraphIds orderLeft eventContext none left.conflictedIds) id ↔
      FullConflicted eventContext mapsRight version right
        (subgraphIds orderRight eventContext none right.conflictedIds) id := by
  unfold FullConflicted
  rw [same.conflicted, same.subgraphIds orderLeft orderRight, same.inAuthDifference maps]

theorem Prepared.same (maps : ∀ map, map ∈ mapsLeft ↔ map ∈ mapsRight) (nonempty : mapsLeft ≠ [])
    (preparedLeft : Prepared orderLeft mapsLeft eventContext version none genuineLeft conflictedLeft)
    (preparedRight : Prepared orderRight mapsRight eventContext version none genuineRight conflictedRight) :
    genuineLeft.values.Perm genuineRight.values ∧ conflictedLeft.values.Perm conflictedRight.values := by
  have same := partitionStateMaps_same orderLeft orderRight maps nonempty
  constructor
  · refine EventMap.perm_of_get fun id => Option.ext fun event => ?_
    rw [preparedLeft.genuine, preparedRight.genuine, same.conflicted]
  · refine EventMap.perm_of_get fun id => Option.ext fun event => ?_
    rw [preparedLeft.conflicted, preparedRight.conflicted, fullConflicted_same maps same]

variable [ToString Id] [EventContent C]

theorem Prepared.resolution_state (maps : ∀ map, map ∈ mapsLeft ↔ map ∈ mapsRight) (nonempty : mapsLeft ≠ [])
    (preparedLeft : Prepared orderLeft mapsLeft eventContext version none genuineLeft conflictedLeft)
    (preparedRight : Prepared orderRight mapsRight eventContext version none genuineRight conflictedRight)
    (emptyKey : String) :
    (preparedResolution orderLeft mapsLeft eventContext version emptyKey genuineLeft conflictedLeft none).state =
      (preparedResolution orderRight mapsRight eventContext version emptyKey genuineRight conflictedRight
        none).state := by
  obtain ⟨sameGenuine, sameConflicted⟩ := preparedLeft.same maps nonempty preparedRight
  have shuffled : (iterativeInputsOf orderLeft mapsLeft eventContext version emptyKey conflictedLeft).Shuffled
      (iterativeInputsOf orderRight mapsRight eventContext version emptyKey conflictedRight) :=
    ⟨(partitionStateMaps_same orderLeft orderRight maps nonempty).unconflicted, sameConflicted, .refl _, rfl, rfl⟩
  unfold preparedResolution resolveCachesOf
  rw [deriveAllConflictedKeys_perm sameGenuine emptyKey]
  exact shuffled.sameInputs.resolveScreened (.fresh _ _ _ _) orderLeft orderRight

theorem resolveStateMaps_transfer (orderRight : Order) (maps : ∀ map, map ∈ mapsLeft ↔ map ∈ mapsRight)
    (returned : resolveStateMaps orderLeft mapsLeft eventContext version = .ok state) :
    resolveStateMaps orderRight mapsRight eventContext version = .ok state := by
  obtain ⟨nonempty, equal | ⟨differ, legacy, covers, genuine, conflicted, prepared, ran⟩⟩ :=
    resolveStateMaps_cases returned
  all_goals
    have other : mapsRight ≠ [] := by
      obtain ⟨map, mem⟩ := exists_mem_of_ne_nil _ nonempty
      exact ne_nil_of_mem ((maps map).mp mem)
  · have all : ∀ map ∈ mapsRight, map = state := fun map mem => equal map ((maps map).mpr mem)
    exact resolveStateMaps_equal orderRight eventContext version other all
  · have differRight : ¬∀ left ∈ mapsRight, ∀ right ∈ mapsRight, left = right := fun equal =>
      differ fun a ha b hb => equal a ((maps a).mp ha) b ((maps b).mp hb)
    have same := partitionStateMaps_same orderLeft orderRight maps nonempty
    obtain ⟨genuineRight, conflictedRight, preparedRight, run⟩ := resolveStateMapsGeneric_returns "" none other
      differRight legacy (same.covers.mp covers) fun _ => subgraphIds_known _
    unfold resolveStateMaps resolveWith
    rw [run, ran]
    exact congrArg Except.ok (prepared.resolution_state maps nonempty preparedRight "").symm

/-- The result depends on the set of the maps: their order, repeated maps and the hash order do not
    matter. -/
theorem resolveStateMaps_map_set (orderLeft orderRight : Order) {mapsLeft mapsRight : List (SharedState Id)}
    (maps : ∀ map, map ∈ mapsLeft ↔ map ∈ mapsRight) (eventContext : EventMap Id C)
    (version : StateResVersion) :
    (resolveStateMaps orderLeft mapsLeft eventContext version).toOption =
      (resolveStateMaps orderRight mapsRight eventContext version).toOption := by
  cases left : resolveStateMaps orderLeft mapsLeft eventContext version with
  | ok state => rw [resolveStateMaps_transfer _ maps left]
  | error panic =>
    cases right : resolveStateMaps orderRight mapsRight eventContext version with
    | ok state =>
      rw [resolveStateMaps_transfer _ (fun map => (maps map).symm) right] at left
      cases left
    | error _ => rfl

end

open Sample in
theorem resolveStateMaps_map_set_fork :
    (resolveStateMaps .asListed forkMaps forkContext .v2_1).toOption =
      (resolveStateMaps .reversed (forkMaps.reverse ++ forkMaps) forkContext .v2_1).toOption :=
  resolveStateMaps_map_set .asListed .reversed (fun map => by simp) forkContext .v2_1

end

open Basespec Auth State Permuted

variable {Id C : Type}

theorem mem_deriveAllConflictedKeys (mem : event ∈ conflicted.values) (keyed : event.key? = some key) :
    key ∈ deriveAllConflictedKeys conflicted emptyKey := by
  unfold deriveAllConflictedKeys
  rw [Std.ExtTreeSet.mem_ofList, List.contains_iff_mem]
  refine List.mem_map.mpr ⟨event, mem, ?_⟩
  unfold LeanEvent.key? at keyed
  cases state : event.stateKey with
  | none => simp [state] at keyed
  | some stateKey => simpa [state] using keyed

variable [LinearOrder Id]

def OwnKeyed (eventContext : EventMap Id C) (stateMaps : List (SharedState Id)) : Prop :=
  ∀ map ∈ stateMaps, ∀ (key : Key) id event, map[key]? = some id → eventContext.get id = some event →
    event.key? = some key

theorem ownKeyed_iff (eventContext : EventMap Id C) (stateMaps : List (SharedState Id)) :
    (∀ map ∈ stateMaps, ∀ entry ∈ map.toList, (eventContext.get entry.2).all fun event => event.key? = some entry.1) ↔
      OwnKeyed eventContext stateMaps := by
  constructor
  · intro all map mem key id event found known
    have own := all map mem (key, id) (mem_toList_iff_getElem?_eq_some.mpr found)
    simpa [known] using own
  · intro ownKeyed map mem entry listed
    cases known : eventContext.get entry.2 with
    | none => rfl
    | some event =>
      have found := mem_toList_iff_getElem?_eq_some.mp listed
      simpa using ownKeyed map mem entry.1 entry.2 event found known

instance (eventContext : EventMap Id C) (stateMaps : List (SharedState Id)) :
    Decidable (OwnKeyed eventContext stateMaps) :=
  decidable_of_iff _ (ownKeyed_iff eventContext stateMaps)

variable {order : Order} {stateMaps : List (SharedState Id)} {eventContext : EventMap Id C}
  {version : StateResVersion}

section

variable {genuine conflicted : EventMap Id C}
  (prepared : Prepared order stateMaps eventContext version none genuine conflicted)
  (covers : Covers eventContext version (partitionStateMaps order stateMaps stateMaps.length))
  (ownKeyed : OwnKeyed eventContext stateMaps)
include prepared covers ownKeyed

theorem Prepared.disputed_key {id : Id} {map : SharedState Id} (mem : map ∈ stateMaps) (found : map[key]? = some id)
    (disputed : ¬∀ other ∈ stateMaps, other[key]? = some id) :
    key ∈ deriveAllConflictedKeys conflicted emptyKey := by
  push Not at disputed
  have listed := (mem_conflictedIds order id).mpr ⟨key, ⟨map, mem, found⟩, disputed⟩
  obtain ⟨event, known⟩ := EventMap.mem_keys.mp (covers.conflicted id listed)
  have conflictedEvent := (prepared.conflicted id event).mpr ⟨known, .inl listed⟩
  exact mem_deriveAllConflictedKeys (EventMap.get_mem conflictedEvent) (ownKeyed map mem key id event found known)

theorem Prepared.agreed_key (unexamined : key ∉ deriveAllConflictedKeys conflicted emptyKey)
    (inLeft : left ∈ stateMaps) (inRight : right ∈ stateMaps) : left[key]? = right[key]? := by
  have agreed : ∀ map ∈ stateMaps, ∀ id, map[key]? = some id → ∀ other ∈ stateMaps, other[key]? = some id := by
    intro map inMaps id found
    by_contra disputed
    exact unexamined (prepared.disputed_key covers ownKeyed inMaps found disputed)
  cases found : left[key]? with
  | some id => rw [agreed left inLeft id found right inRight]
  | none =>
    cases other : right[key]? with
    | none => rfl
    | some id =>
      rw [agreed right inRight id other left inLeft] at found
      cases found

end

section

variable [ToString Id] [EventContent C]

def resolveStateMapsDiff (order : Order) (baseStateIndex : Nat) (stateMaps : List (SharedState Id))
    (eventContext : EventMap Id C) (version : StateResVersion) (emptyKey : String) :
    Except (Panic Id) (StateDiff Id) :=
  match stateMaps[baseStateIndex]? with
  | none => .error (.baseStateIndexOutOfRange baseStateIndex)
  | some baseState => do
    let resolution ← resolveStateMapsGeneric order stateMaps eventContext version emptyKey none none
    return diffOver resolution.diffKeys baseState resolution.state

def AccountedKey (stateMaps : List (SharedState Id)) (conflicted : EventMap Id C) (key : Key) : Prop :=
  (∃ map ∈ stateMaps, key ∈ map) ∨ key ∈ deriveAllConflictedKeys conflicted ""

/-- Each event that the power phase draws from the auth context has a key of the maps or of a conflicted event. -/
def AncestorsAccounted (order : Order) (stateMaps : List (SharedState Id)) (eventContext : EventMap Id C)
    (version : StateResVersion) : Prop :=
  ∀ genuine conflicted, Prepared order stateMaps eventContext version none genuine conflicted →
    ∀ event key, AncestralPower (iterativeInputsOf order stateMaps eventContext version "" conflicted) event →
      event.rejected = false → event.key? = some key → AccountedKey stateMaps conflicted key

def AcceptedAccounted (order : Order) (stateMaps : List (SharedState Id)) (eventContext : EventMap Id C)
    (version : StateResVersion) (genuine conflicted : EventMap Id C) : Prop :=
  ∀ event key, AcceptedAtTurn order (iterativeInputsOf order stateMaps eventContext version "" conflicted)
      (resolveCachesOf none genuine "") event →
    event.key? = some key → AccountedKey stateMaps conflicted key

theorem AncestorsAccounted.accepted (accounted : AncestorsAccounted order stateMaps eventContext version)
    (prepared : Prepared order stateMaps eventContext version none genuine conflicted) :
    AcceptedAccounted order stateMaps eventContext version genuine conflicted := by
  intro event key accepted keyed
  rcases accepted.source with conflictedEvent | ancestral
  · exact .inr (mem_deriveAllConflictedKeys conflictedEvent keyed)
  · exact accounted genuine conflicted prepared event key ancestral accepted.not_rejected keyed

variable {genuine conflicted : EventMap Id C} {base : SharedState Id}

theorem Prepared.unexamined (prepared : Prepared order stateMaps eventContext version none genuine conflicted)
    (covers : Covers eventContext version (partitionStateMaps order stateMaps stateMaps.length))
    (ownKeyed : OwnKeyed eventContext stateMaps)
    (accounted : AcceptedAccounted order stateMaps eventContext version genuine conflicted)
    (mem : base ∈ stateMaps) (unexamined : key ∉ deriveAllConflictedKeys conflicted "") :
    base[key]? = (preparedResolution order stateMaps eventContext version "" genuine conflicted none).state[key]? := by
  have agreed : ∀ map ∈ stateMaps, map[key]? = base[key]? := fun map inMaps =>
    prepared.agreed_key covers ownKeyed unexamined inMaps mem
  have nonempty := ne_nil_of_mem mem
  cases found : base[key]? with
  | some id =>
    have kept := (partition_unconflicted order nonempty key id).mpr fun map inMaps =>
      (agreed map inMaps).trans found
    unfold preparedResolution resolveScreened
    rw [getElem?_mergeFinalResolved]
    exact (Option.or_eq_some_iff.mpr (.inl kept)).symm
  | none =>
    cases after : (preparedResolution order stateMaps eventContext version "" genuine conflicted none).state[key]? with
    | none => rfl
    | some id =>
      rcases resolveScreened_explained key id after with unconflicted | ⟨event, rfl, keyed, accepted⟩
      · have all := (partition_unconflicted order nonempty key id).mp unconflicted base mem
        rw [found] at all
        cases all
      · rcases accounted event key accepted keyed with ⟨map, inMaps, known⟩ | examined
        · have held := mem_iff_isSome_getElem?.mp known
          rw [agreed map inMaps, found] at held
          cases held
        · exact absurd examined unexamined

theorem acceptedAccounted_of_unexamined (mem : base ∈ stateMaps)
    (kept : ∀ key, key ∉ deriveAllConflictedKeys conflicted "" →
      base[key]? = (preparedResolution order stateMaps eventContext version "" genuine conflicted none).state[key]?) :
    AcceptedAccounted order stateMaps eventContext version genuine conflicted := by
  intro _ key accepted keyed
  rcases accepted.source with conflictedEvent | ancestral
  · exact .inr (mem_deriveAllConflictedKeys conflictedEvent keyed)
  · by_contra stray
    have unexamined : key ∉ deriveAllConflictedKeys conflicted "" := fun examined => stray (.inr examined)
    have later : (iterativeInputsOf order stateMaps eventContext version "" conflicted).version ≠ .v1 := by
      intro first
      have routes := ancestral.routes
      rw [first] at routes
      cases routes
    have held := accepted.held keyed later
    have same := kept key unexamined
    unfold preparedResolution at same
    rw [← same] at held
    exact stray (.inl ⟨base, mem, mem_iff_isSome_getElem?.mpr held⟩)

theorem unexamined_iff
    (ran : resolveStateMapsGeneric order stateMaps eventContext version "" none none = .ok resolution)
    (ownKeyed : OwnKeyed eventContext stateMaps) (mem : base ∈ stateMaps) :
    (∀ key, key ∉ resolution.diffKeys → base[key]? = resolution.state[key]?) ↔ ∀ genuine conflicted,
      Prepared order stateMaps eventContext version none genuine conflicted →
        (¬∀ left ∈ stateMaps, ∀ right ∈ stateMaps, left = right) →
          AcceptedAccounted order stateMaps eventContext version genuine conflicted := by
  obtain ⟨nonempty, equal | ⟨differ, _, covers, genuine, conflicted, prepared, same, keys⟩⟩ :=
    resolveStateMapsGeneric_cases ran
  · refine ⟨fun _ _ _ _ differ => absurd (fun left hl right hr => ?_) differ, fun _ key _ => ?_⟩
    · rw [equal left hl, equal right hr]
    · rw [equal base mem]
  · constructor
    · intro kept _ _ prepared' _
      refine acceptedAccounted_of_unexamined mem fun key unexamined => ?_
      rw [← prepared.resolution_state (fun _ => .rfl) nonempty prepared' "", ← same]
      refine kept key ?_
      rw [keys, deriveAllConflictedKeys_perm (prepared.same (fun _ => .rfl) nonempty prepared').2]
      exact unexamined
    · intro accounted key unexamined
      rw [same]
      exact prepared.unexamined covers ownKeyed (accounted genuine conflicted prepared differ) mem (keys ▸ unexamined)

/-- The diff lists differing keys in strict key order, with the old ids of the base. It leads to the resolved state
    where the ancestors are accounted for, and exactly when none of the others is accepted. -/
theorem resolveStateMapsDiff_applyTo (orderLeft orderRight : Order) {baseStateIndex : Nat}
    {base state : SharedState Id} (ownKeyed : OwnKeyed eventContext stateMaps)
    (inRange : stateMaps[baseStateIndex]? = some base)
    (returned : resolveStateMaps orderLeft stateMaps eventContext version = .ok state) :
    ∃ diff, resolveStateMapsDiff orderRight baseStateIndex stateMaps eventContext version "" = .ok diff ∧
      diff.entries.Pairwise (fun a b => keyCmp a.key b.key = .lt) ∧
      (∀ entry ∈ diff.entries, entry.oldEventId? = base[entry.key]? ∧
        entry.newEventId? = state[entry.key]? ∧ base[entry.key]? ≠ state[entry.key]?) ∧
      (AncestorsAccounted orderRight stateMaps eventContext version → diff.applyTo base = state) ∧
      (diff.applyTo base = state ↔ ∀ genuine conflicted,
        Prepared orderRight stateMaps eventContext version none genuine conflicted →
          (¬∀ left ∈ stateMaps, ∀ right ∈ stateMaps, left = right) →
            AcceptedAccounted orderRight stateMaps eventContext version genuine conflicted) := by
  have other := resolveStateMaps_transfer orderRight (fun _ => .rfl) returned
  obtain ⟨resolution, ran, rfl⟩ := resolveStateMaps_generic other
  have leads := (diffOver_applyTo_eq_iff resolution.diffKeys base resolution.state).trans
    (unexamined_iff ran ownKeyed (mem_of_getElem? inRange))
  refine ⟨diffOver resolution.diffKeys base resolution.state, ?_, diffOver_sorted _ _ _,
    fun entry member => diffOver_honest member,
    fun accounted => leads.mpr fun _ _ prepared _ => accounted.accepted prepared, leads⟩
  unfold resolveStateMapsDiff
  rw [inRange]
  dsimp only
  rw [ran]
  rfl

end

namespace Sample

open Basespec.Sample

def joinRules (eventId : Nat) (rule : String) : LeanEvent Nat Content :=
  stateEvent eventId mRoomJoinRules "" "@a:x" { joinRule := some rule } [2, 3] eventId

def rulesContext : EventMap Nat Content :=
  ⟨[create "12", joinA [], openLevels, joinRules 4 rulePublic, joinRules 5 ruleInvite], by decide⟩

def rulesMaps (agreed : List (LeanEvent Nat Content)) : List (SharedState Nat) :=
  [stateOf (agreed ++ [joinRules 4 rulePublic]), stateOf (agreed ++ [joinRules 5 ruleInvite])]

end Sample

open Sample Basespec.Sample

theorem rules_accounted :
    AncestorsAccounted .asListed (rulesMaps [create "12", joinA [], openLevels]) rulesContext .v2_1 := by
  intro _ _ _ event key ancestral _ keyed
  have keys : ∀ event ∈ rulesContext.values, ∀ key ∈ event.key?,
      key ∈ stateOf [create "12", joinA [], openLevels, joinRules 4 rulePublic] := by decide
  exact .inl ⟨_, .head _, keys event (EventMap.get_mem ancestral.found) key keyed⟩

theorem resolveStateMapsDiff_applyTo_rules :
    ∃ diff, resolveStateMapsDiff .asListed 0 (rulesMaps [create "12", joinA [], openLevels]) rulesContext
        .v2_1 "" = .ok diff ∧
      diff.applyTo (stateOf [create "12", joinA [], openLevels, joinRules 4 rulePublic]) =
        stateOf [create "12", joinA [], openLevels, joinRules 5 ruleInvite] := by
  have ownKeyed : OwnKeyed rulesContext (rulesMaps [create "12", joinA [], openLevels]) := by decide
  have inRange : (rulesMaps [create "12", joinA [], openLevels])[0]? =
      some (stateOf [create "12", joinA [], openLevels, joinRules 4 rulePublic]) := rfl
  have returned : resolveStateMaps .asListed (rulesMaps [create "12", joinA [], openLevels]) rulesContext
      .v2_1 = .ok (stateOf [create "12", joinA [], openLevels, joinRules 5 ruleInvite]) := by decide
  obtain ⟨diff, ran, _, _, applied, _⟩ := resolveStateMapsDiff_applyTo .asListed .asListed ownKeyed inRange
    returned
  exact ⟨diff, ran, applied rules_accounted⟩

/-- The power levels are in neither map, and their key is not examined. -/
theorem diff_misses_ancestor :
    OwnKeyed rulesContext (rulesMaps [create "12", joinA []]) ∧
      resolveStateMapsDiff .asListed 0 (rulesMaps [create "12", joinA []]) rulesContext .v2_1 "" =
        .ok ⟨[.changed (⟨mRoomJoinRules⟩, "") 4 5]⟩ ∧
      resolveStateMaps .asListed (rulesMaps [create "12", joinA []]) rulesContext .v2_1 =
        .ok (stateOf [create "12", joinA [], joinRules 5 ruleInvite, openLevels]) ∧
      (StateDiff.mk [.changed (⟨mRoomJoinRules⟩, "") 4 5]).applyTo
          (stateOf [create "12", joinA [], joinRules 4 rulePublic]) ≠
        stateOf [create "12", joinA [], joinRules 5 ruleInvite, openLevels] := by
  decide

end Rezzy.Resolve
