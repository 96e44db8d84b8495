import Rezzy.Resolve.Multi

namespace Rezzy.Resolve

open Basespec Auth State Permuted List EventMap Worklist Occurrence

variable {Id C : Type}

section

variable [DecidableEq Id]

def seeNext (occ : Option (Occurrence Id)) (id : Id) : Occurrence Id :=
  match occ with
  | none => ⟨id, 1, none⟩
  | some occ => occ.see id

theorem getElem?_noteEntry (occurrences : Occurrences Id) (entry : Key × Id) (key : Key) :
    (noteEntry occurrences entry)[key]? =
      if key = entry.1 then some (seeNext occurrences[entry.1]? entry.2) else occurrences[key]? := by
  unfold noteEntry seeNext
  cases occurrences[entry.1]? <;> exact getElem?_insert_key _ _ _ _

theorem getElem?_noteEntries (entries : List (Key × Id)) (nodup : (entries.map Prod.fst).Nodup)
    (occurrences : Occurrences Id) (key : Key) :
    (entries.foldl noteEntry occurrences)[key]? = match entries.lookup key with
      | none => occurrences[key]?
      | some id => some (seeNext occurrences[key]? id) := by
  induction entries generalizing occurrences with
  | nil => rfl
  | cons entry entries ih =>
    obtain ⟨fresh, nodup⟩ := nodup_cons.mp nodup
    rw [foldl_cons, ih nodup, lookup_cons, getElem?_noteEntry]
    by_cases same : key = entry.1
    · subst same
      have missing : entries.lookup entry.1 = none := by
        rw [lookup_eq_none_iff]
        intro other mem
        rw [bne_iff_ne]
        intro equal
        exact fresh (mem_map.mpr ⟨other, mem, equal.symm⟩)
      simp [missing]
    · simp [same, beq_eq_false_iff_ne.mpr same]

theorem getElem?_scan (stateMaps : List (SharedState Id)) (occurrences : Occurrences Id) (key : Key) :
    (stateMaps.foldl (fun occurrences map => map.toList.foldl noteEntry occurrences) occurrences)[key]? =
      (stateMaps.filterMap (·[key]?)).foldl (fun occ id => some (seeNext occ id)) occurrences[key]? := by
  induction stateMaps generalizing occurrences with
  | nil => rfl
  | cons map stateMaps ih =>
    rw [foldl_cons, ih, getElem?_noteEntries _ (nodup_keys_toList map), lookup_toList, filterMap_cons]
    cases map[key]? <;> rfl

structure Tally (ids : List Id) (occ : Occurrence Id) : Prop where
  first : occ.firstId ∈ ids
  count : occ.count = ids.length
  agrees : occ.conflicts = none → ∀ id ∈ ids, id = occ.firstId
  differs : ∀ conflicts, occ.conflicts = some conflicts →
    (∀ id, id ∈ conflicts ↔ id ∈ ids) ∧ ∃ id ∈ ids, id ≠ occ.firstId

theorem Tally.see (tally : Tally ids occ) (id : Id) : Tally (ids ++ [id]) (occ.see id) where
  first := mem_append_left _ tally.first
  count := by simp [Occurrence.see, tally.count]
  agrees none := by
    unfold Occurrence.see at none ⊢
    split at none
    · rename_i same
      intro other mem
      rcases mem_append.mp mem with old | new
      · exact tally.agrees none other old
      · rw [mem_singleton.mp new, same]
    · split at none <;> simp at none
  differs conflicts some := by
    unfold Occurrence.see at some ⊢
    have first := tally.first
    split at some
    · rename_i same
      obtain ⟨members, other, mem, differ⟩ := tally.differs conflicts some
      refine ⟨fun x => ?_, other, mem_append_left _ mem, differ⟩
      rw [members, mem_append, mem_singleton]
      exact ⟨.inl, fun either => either.elim (fun h => h) fun new => new ▸ same ▸ first⟩
    · rename_i differ
      refine ⟨fun x => ?_, id, by simp, Ne.symm differ⟩
      rw [mem_append, mem_singleton]
      split at some
      · rename_i none
        rw [← Option.some.inj some]
        have all := tally.agrees none x
        constructor
        · intro mem
          rcases mem_cons.mp mem with rfl | mem
          · exact .inl first
          · exact .inr (mem_singleton.mp mem)
        · rintro (old | rfl)
          · simp [all old]
          · simp
      · rename_i old known
        have members := (tally.differs old known).1 x
        rw [← Option.some.inj some]
        split
        · rename_i listed
          rw [members]
          exact ⟨.inl, fun either => either.elim (fun h => h)
            fun new => new ▸ ((tally.differs old known).1 id).mp listed⟩
        · rw [mem_append, mem_singleton, members]

theorem seeNext_foldl (ids more : List Id) (tally : Tally ids occ) :
    ∃ final, more.foldl (fun occ id => some (seeNext occ id)) (some occ) = some final ∧ Tally (ids ++ more) final := by
  induction more generalizing ids occ with
  | nil => exact ⟨occ, rfl, by simpa using tally⟩
  | cons id more ih =>
    obtain ⟨final, run, known⟩ := ih (ids ++ [id]) (tally.see id)
    exact ⟨final, run, by simpa using known⟩

theorem scanStateMaps_spec (stateMaps : List (SharedState Id)) (key : Key) : match (scanStateMaps stateMaps)[key]? with
    | none => stateMaps.filterMap (·[key]?) = []
    | some occ => Tally (stateMaps.filterMap (·[key]?)) occ := by
  have scan := getElem?_scan stateMaps ∅ key
  unfold scanStateMaps
  rw [scan, Std.ExtTreeMap.getElem?_empty]
  cases ids : stateMaps.filterMap (·[key]?) with
  | nil => rfl
  | cons first rest =>
    have start : Tally [first] ⟨first, 1, none⟩ := ⟨by simp, rfl, by simp, by simp⟩
    obtain ⟨final, run, tally⟩ := seeNext_foldl [first] rest start
    rw [foldl_cons]
    have unfolded : seeNext none first = ⟨first, 1, none⟩ := rfl
    rw [unfolded, run]
    exact tally

end

section

def agreedId (numMaps : Nat) (occ : Occurrence Id) : Option Id :=
  if occ.conflicts = none ∧ occ.count = numMaps then some occ.firstId else none

def disputedIds (numMaps : Nat) (occ : Occurrence Id) : List Id :=
  if agreedId numMaps occ = none then occ.conflicts.getD [occ.firstId] else []

theorem partitionEntry_eq (numMaps : Nat) (partition : Partition Id) (entry : Key × Occurrence Id) :
    partitionEntry numMaps partition entry = ⟨(agreedId numMaps entry.2).elim partition.unconflictedState
        (partition.unconflictedState.insert entry.1),
        partition.conflictedIds ++ disputedIds numMaps entry.2⟩ := by
  unfold partitionEntry disputedIds agreedId
  cases entry.2.conflicts with
  | none =>
    by_cases all : entry.2.count = numMaps
    · simp [all]
    · simp [all]
  | some conflicts => simp

theorem partitionEntries_conflicted (numMaps : Nat) (entries : List (Key × Occurrence Id)) (partition : Partition Id) :
    (entries.foldl (partitionEntry numMaps) partition).conflictedIds =
      partition.conflictedIds ++ entries.flatMap fun entry => disputedIds numMaps entry.2 := by
  induction entries generalizing partition with
  | nil => simp
  | cons entry entries ih => rw [foldl_cons, ih, partitionEntry_eq]; simp

theorem partitionEntries_unconflicted (numMaps : Nat) (entries : List (Key × Occurrence Id))
    (nodup : (entries.map Prod.fst).Nodup) (partition : Partition Id) (key : Key) (id : Id) :
    (entries.foldl (partitionEntry numMaps) partition).unconflictedState[key]? = some id ↔
      (∃ occ, (key, occ) ∈ entries ∧ agreedId numMaps occ = some id) ∨
        (∀ occ, (key, occ) ∈ entries → agreedId numMaps occ = none) ∧ partition.unconflictedState[key]? = some id := by
  induction entries generalizing partition with
  | nil => simp
  | cons entry entries ih =>
    obtain ⟨first, occ⟩ := entry
    obtain ⟨fresh, nodup⟩ := nodup_cons.mp nodup
    have others : ∀ other, (key, other) ∈ entries → key ≠ first := fun other mem same =>
      fresh (mem_map.mpr ⟨(key, other), mem, same⟩)
    rw [foldl_cons, ih nodup, partitionEntry_eq]
    by_cases same : key = first
    · subst same
      have rest : ∀ other, (key, other) ∉ entries := fun other mem => others other mem rfl
      cases agreed : agreedId numMaps occ with
      | none => simp [rest, agreed]
      | some own => simp [rest, agreed]
    · have kept : ((agreedId numMaps occ).elim partition.unconflictedState
          (partition.unconflictedState.insert first))[key]? = partition.unconflictedState[key]? := by
        cases agreedId numMaps occ with
        | none => rfl
        | some own => simp [getElem?_insert_key, same]
      simp [kept, same]

theorem filterMap_length_eq {α : Type} {stateMaps : List (SharedState Id)} {f : SharedState Id → Option α} :
    (stateMaps.filterMap f).length = stateMaps.length ↔ ∀ map ∈ stateMaps, (f map).isSome := by
  induction stateMaps with
  | nil => simp
  | cons map stateMaps ih =>
    have bound := length_filterMap_le f stateMaps
    cases found : f map with
    | none =>
      simp only [found, filterMap_cons_none, length_cons, mem_cons, forall_eq_or_imp,
        Option.isSome_none, Bool.false_eq_true, false_and, iff_false]
      omega
    | some x => simp [found, ih]

theorem agreedId_eq_some {stateMaps : List (SharedState Id)} {key : Key} {occ : Occurrence Id} {id : Id}
    (tally : Tally (stateMaps.filterMap (·[key]?)) occ) :
    agreedId stateMaps.length occ = some id ↔ ∀ map ∈ stateMaps, map[key]? = some id := by
  have counted : occ.count = stateMaps.length ↔ ∀ map ∈ stateMaps, (map[key]?).isSome := by
    rw [tally.count]
    exact filterMap_length_eq
  unfold agreedId
  constructor
  · intro agreed
    split at agreed
    · rename_i unanimous
      intro map mem
      obtain ⟨own, found⟩ := Option.isSome_iff_exists.mp (counted.mp unanimous.2 map mem)
      have same := tally.agrees unanimous.1 own (mem_filterMap.mpr ⟨map, mem, found⟩)
      rw [found, same]
      exact agreed
    · simp at agreed
  · intro all
    have values : ∀ x ∈ stateMaps.filterMap (·[key]?), x = id := by
      intro x mem
      obtain ⟨map, inMaps, found⟩ := mem_filterMap.mp mem
      exact Option.some.inj (found.symm.trans (all map inMaps))
    have first := values _ tally.first
    have none : occ.conflicts = none := by
      cases known : occ.conflicts with
      | none => rfl
      | some conflicts =>
        obtain ⟨_, other, mem, differ⟩ := tally.differs conflicts known
        exact absurd ((values other mem).trans first.symm) differ
    rw [if_pos ⟨none, counted.mpr fun map mem => by simp [all map mem]⟩, first]

variable [DecidableEq Id] {order : Order} {stateMaps : List (SharedState Id)}

theorem mem_occurrences : (key, occ) ∈ order.iter .occurrences (scanStateMaps stateMaps).toList ↔
      (scanStateMaps stateMaps)[key]? = some occ := by
  rw [(order.perm _ _).mem_iff, Std.ExtTreeMap.mem_toList_iff_getElem?_eq_some]

theorem partition_unconflicted (order : Order) (nonempty : stateMaps ≠ []) (key : Key) (id : Id) :
    (partitionStateMaps order stateMaps stateMaps.length).unconflictedState[key]? = some id ↔
      ∀ map ∈ stateMaps, map[key]? = some id := by
  have nodup : ((order.iter .occurrences (scanStateMaps stateMaps).toList).map Prod.fst).Nodup :=
    ((order.perm _ _).map _).nodup_iff.mpr (nodup_keys_toList _)
  unfold partitionStateMaps
  rw [partitionEntries_unconflicted _ _ nodup]
  simp only [mem_occurrences, Std.ExtTreeMap.getElem?_empty, reduceCtorEq, and_false, or_false]
  have spec := scanStateMaps_spec stateMaps key
  constructor
  · rintro ⟨occ, found, agreed⟩
    rw [found] at spec
    exact (agreedId_eq_some spec).mp agreed
  · intro all
    obtain ⟨map, mem⟩ := exists_mem_of_ne_nil _ nonempty
    cases found : (scanStateMaps stateMaps)[key]? with
    | none =>
      rw [found] at spec
      have listed : id ∈ stateMaps.filterMap (·[key]?) := mem_filterMap.mpr ⟨map, mem, all map mem⟩
      rw [spec] at listed
      simp at listed
    | some occ =>
      rw [found] at spec
      exact ⟨occ, rfl, (agreedId_eq_some spec).mpr all⟩

theorem mem_disputedIds {key : Key} {occ : Occurrence Id} {id : Id}
    (tally : Tally (stateMaps.filterMap (·[key]?)) occ) :
    id ∈ disputedIds stateMaps.length occ ↔
      (∃ map ∈ stateMaps, map[key]? = some id) ∧ ∃ map ∈ stateMaps, map[key]? ≠ some id := by
  have listed : (∃ map ∈ stateMaps, map[key]? = some id) ↔ id ∈ stateMaps.filterMap (·[key]?) := mem_filterMap.symm
  have disputed : id ∈ stateMaps.filterMap (·[key]?) →
      ((∃ map ∈ stateMaps, map[key]? ≠ some id) ↔ agreedId stateMaps.length occ = none) := by
    intro mem
    constructor
    · rintro ⟨map, inMaps, differ⟩
      cases agreed : agreedId stateMaps.length occ with
      | none => rfl
      | some other =>
        have all := (agreedId_eq_some tally).mp agreed
        obtain ⟨own, inOwn, found⟩ := mem_filterMap.mp mem
        rw [all own inOwn] at found
        exact absurd (found ▸ all map inMaps) differ
    · intro none
      by_contra unanimous
      push Not at unanimous
      rw [(agreedId_eq_some tally).mpr unanimous] at none
      simp at none
  unfold disputedIds
  by_cases none : agreedId stateMaps.length occ = none
  · rw [if_pos none, listed]
    have ids : id ∈ occ.conflicts.getD [occ.firstId] ↔ id ∈ stateMaps.filterMap (·[key]?) := by
      cases known : occ.conflicts with
      | none =>
        simp only [Option.getD_none, mem_singleton]
        exact ⟨fun same => same ▸ tally.first, tally.agrees known id⟩
      | some conflicts => exact (tally.differs conflicts known).1 id
    rw [ids]
    exact ⟨fun mem => ⟨mem, (disputed mem).mpr none⟩, And.left⟩
  · rw [if_neg none, listed]
    simp only [not_mem_nil, false_iff, not_and]
    exact fun mem some => none ((disputed mem).mp some)

theorem mem_conflictedIds (order : Order) (id : Id) :
    id ∈ (partitionStateMaps order stateMaps stateMaps.length).conflictedIds ↔
      ∃ key : Key, (∃ map ∈ stateMaps, map[key]? = some id) ∧ ∃ map ∈ stateMaps, map[key]? ≠ some id := by
  unfold partitionStateMaps
  rw [partitionEntries_conflicted, nil_append, mem_flatMap]
  constructor
  · rintro ⟨⟨key, occ⟩, found, mem⟩
    have spec := scanStateMaps_spec stateMaps key
    rw [mem_occurrences.mp found] at spec
    exact ⟨key, (mem_disputedIds spec).mp mem⟩
  · rintro ⟨key, ⟨map, inMaps, own⟩, other⟩
    have spec := scanStateMaps_spec stateMaps key
    cases found : (scanStateMaps stateMaps)[key]? with
    | none =>
      rw [found] at spec
      have listed : id ∈ stateMaps.filterMap (·[key]?) := mem_filterMap.mpr ⟨map, inMaps, own⟩
      rw [spec] at listed
      simp at listed
    | some occ =>
      rw [found] at spec
      exact ⟨(key, occ), mem_occurrences.mpr found, (mem_disputedIds spec).mpr ⟨⟨map, inMaps, own⟩, other⟩⟩

end

theorem mem_stateValues {state : SharedState Id} {key : Key} {id : Id} (found : state[key]? = some id) :
    id ∈ stateValues state := mem_map.mpr ⟨(key, id), Std.ExtTreeMap.mem_toList_iff_getElem?_eq_some.mpr found, rfl⟩

variable [LinearOrder Id]

theorem popFirst_pops {α : Type} (first : α → α → Bool) : Worklist.Pops (popFirst first) :=
  ⟨fun _ => popFirst_none, fun _ _ _ => popFirst_perm⟩

section

variable (events : EventMap Id C)

theorem eventAuth_support (id : Id) (known : (eventAuth events).known id = true) : id ∈ (eventAuth events).nodes :=
  containsKey_iff.mp known

theorem eventAuth_kept (keep : Id → Bool) : keptNext (eventAuth events).known
        (fun id => ((eventAuth events).authOf id).filter keep) =
      fun id => (chainEdges events.get id).filter keep := by
  funext id
  cases found : events.get id <;> simp [keptNext, eventAuth, EventMap.containsKey, chainEdges, found]

theorem unconflictedClosure_spec (unconflictedState : SharedState Id) :
    ((∀ id, Worklist.Reached (chainEdges events.get) (stateValues unconflictedState) id → id ∈ events.keys) →
      ∃ visited, unconflictedClosure (eventAuth events) unconflictedState = .ok visited ∧ ∀ id, id ∈ visited ↔
          Worklist.Reached (chainEdges events.get) (stateValues unconflictedState) id) ∧
    (∀ visited, unconflictedClosure (eventAuth events) unconflictedState = .ok visited →
      ∀ id, Worklist.Reached (chainEdges events.get) (stateValues unconflictedState) id → id ∈ events.keys) := by
  have edges : keptNext (eventAuth events).known (eventAuth events).authOf = chainEdges events.get := by
    simpa using eventAuth_kept events fun _ => true
  have marks : ∀ id, id ∈ flood (popFirst (deeper (eventAuth events).depthOf))
      (eventAuth events).known (eventAuth events).authOf
      (eventAuth events).nodes (stateValues unconflictedState) ↔
        Worklist.Reached (chainEdges events.get) (stateValues unconflictedState) id := by
    intro id
    rw [mem_flood (popFirst_pops _) (eventAuth_support events), edges]
  unfold unconflictedClosure
  dsimp only
  constructor
  · intro covered
    have none : (flood (popFirst (deeper (eventAuth events).depthOf)) (eventAuth events).known (eventAuth events).authOf
        (eventAuth events).nodes (stateValues unconflictedState)).find?
        (fun id => !(eventAuth events).known id) = none := by
      rw [find?_eq_none]
      intro id mem
      have known : (eventAuth events).known id = true := containsKey_iff.mpr (covered id ((marks id).mp mem))
      simp [known]
    rw [none]
    exact ⟨_, rfl, marks⟩
  · intro _ ok id reached
    split at ok
    · simp at ok
    · rename_i none
      have known := find?_eq_none.mp none id ((marks id).mpr reached)
      simp only [Bool.not_eq_true', Bool.not_eq_false] at known
      exact containsKey_iff.mp known

theorem mem_conflictedChain (unconflictedVisited conflictedIds : List Id) (state : SharedState Id) (id : Id) :
    id ∈ conflictedChain (eventAuth events) unconflictedVisited conflictedIds state ↔ id ∈ events.keys ∧
        Worklist.Reached (fun id => (chainEdges events.get id).filter (· ∉ unconflictedVisited))
          (((stateValues state).filter (· ∈ conflictedIds)).flatMap fun id =>
            (chainEdges events.get id).filter (· ∉ unconflictedVisited)) id := by
  unfold conflictedChain
  rw [mem_filter, mem_flood (popFirst_pops _) (eventAuth_support events), eventAuth_kept, and_comm]
  have known : (eventAuth events).known id = true ↔ id ∈ events.keys := containsKey_iff
  have auth : (eventAuth events).authOf = chainEdges events.get := rfl
  rw [known, auth]

end

theorem mem_authDifference (closure : unconflictedClosure (EventMap.eventAuth events) unconflictedState = .ok visited)
    (ok : authDifference order unconflictedState stateMaps conflictedIds (EventMap.eventAuth events) =
      .ok diff) (id : Id) : id ∈ diff ↔
      (∃ state ∈ stateMaps, id ∈ conflictedChain (EventMap.eventAuth events) visited conflictedIds state) ∧
      ∃ state ∈ stateMaps, id ∉ conflictedChain (EventMap.eventAuth events) visited conflictedIds state := by
  unfold authDifference at ok
  rw [closure] at ok
  obtain rfl := Except.ok.inj ok
  rw [List.mem_insertionSort, List.mem_filter, (order.perm _ _).mem_iff, List.mem_dedup, List.mem_flatten]
  simp

end Rezzy.Resolve
