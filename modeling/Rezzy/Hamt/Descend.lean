import Rezzy.Hamt.Persist

namespace Rezzy.Hamt

open List Prod Except
open List.Perm (append_left)

section

variable {K V E : Type}

inductive DescendError where
  | decode (fault : DecodeFault)
  | corruptNode (message : String)
  /-- The caller found no bytes for a pending node. -/
  | notFetched (hash : StructuralHash)
  /-- The caller gave up before the end. -/
  | outOfRounds

structure DescendResult (V : Type) where
  found : List (KeyPathHash × V)
  absent : List KeyPathHash
  pending : List (StructuralHash × List KeyPathHash)

def DescendResult.empty : DescendResult V := ⟨[], [], []⟩

def pushPending (hash : StructuralHash) (request : KeyPathHash) :
    List (StructuralHash × List KeyPathHash) → List (StructuralHash × List KeyPathHash)
  | [] => [(hash, [request])]
  | group :: rest =>
    if group.1 = hash then (group.1, group.2 ++ [request]) :: rest else group :: pushPending hash request rest

structure FetchedNode where
  expectedHash : StructuralHash
  bytes : Bytes
  depth : Nat
  targetKeys : List KeyPathHash

def descendKey (keyHash : K → KeyPathHash) (node : HamtNode K V StructuralHash) (depth : Nat)
    (result : DescendResult V) (request : KeyPathHash) : Except DescendError (DescendResult V) :=
  if hamtMaxDepth ≤ depth then .error (.corruptNode "HAMT depth exceeds routing limit")
  else
    let slot := bucketIndex request depth
    if node.datamap &&& slotBit slot ≠ 0 then
      match node.leaves[mapIndex node.datamap slot]? with
      | none => .error (.corruptNode "leaf index out of bounds")
      | some (leafKey, value) =>
        if depth < hamtMaxDepth ∧ bucketIndex (keyHash leafKey) depth ≠ slot then
          .error (.corruptNode "leaf routed to wrong slot")
        else if keyHash leafKey = request then .ok { result with found := result.found ++ [(request, value)] }
        else .ok { result with absent := result.absent ++ [request] }
    else if node.nodemap &&& slotBit slot ≠ 0 then
      match node.children[mapIndex node.nodemap slot]? with
      | none => .error (.corruptNode "child index out of bounds")
      | some ref => .ok { result with pending := pushPending ref.structuralHash request result.pending }
    else .ok { result with absent := result.absent ++ [request] }

variable [HamtCodec K] [HamtCodec V]

def descendNode (hasher : Hasher K V StructuralHash) (keyHash : K → KeyPathHash) (result : DescendResult V)
    (fetched : FetchedNode) : Except DescendError (DescendResult V) :=
  match (decodeV1Unverified fetched.bytes : Except DecodeFault (PersistedInternalNode K V)) with
  | .error fault => .error (.decode fault)
  | .ok persisted =>
    match persisted.intoHamtNodeVerified hasher fetched.expectedHash with
    | .error _ => .error (.corruptNode "decoded node contents do not match requested node hash")
    | .ok node => fetched.targetKeys.foldlM (descendKey keyHash node fetched.depth) result

def descendLevel (hasher : Hasher K V StructuralHash) (keyHash : K → KeyPathHash)
    (nodesAndKeys : List FetchedNode) : Except DescendError (DescendResult V) :=
  match nodesAndKeys with
  | [] => .ok .empty
  | first :: rest =>
    if (first :: rest).all fun fetched => fetched.depth = first.depth then
      (first :: rest).foldlM (descendNode hasher keyHash) .empty
    else .error (.corruptNode "mixed-depth entries in a single descend_level call")

def fetchNodes (store : NodeStore) (depth : Nat) (pending : List (StructuralHash × List KeyPathHash)) :
    Except DescendError (List FetchedNode) :=
  pending.mapM fun group =>
    match store group.1 with
    | none => .error (.notFetched group.1)
    | some bytes => .ok ⟨group.1, bytes, depth, group.2⟩

/-- Descend level by level until nothing is pending. `arrange` is the order in which a level hands the pending
    requests on. -/
def descendAll (hasher : Hasher K V StructuralHash) (keyHash : K → KeyPathHash) (store : NodeStore)
    (arrange : Nat → List (StructuralHash × List KeyPathHash) → List (StructuralHash × List KeyPathHash)) :
    Nat → Nat → List (StructuralHash × List KeyPathHash) →
      Except DescendError (List (KeyPathHash × V) × List KeyPathHash)
  | _, _, [] => .ok ([], [])
  | 0, _, _ :: _ => .error .outOfRounds
  | rounds + 1, depth, pending => do
    let fetched ← fetchNodes store depth pending
    let level ← (descendLevel hasher keyHash fetched : Except DescendError (DescendResult V))
    let (found, absent) ← descendAll hasher keyHash store arrange rounds (depth + 1) (arrange depth level.pending)
    return (level.found ++ found, level.absent ++ absent)

end

variable {K V E : Type} {hasher : Hasher K V StructuralHash} {keyHash : K → KeyPathHash}
  {resolver : Resolver K V StructuralHash E}

section

def valueAt (keyHash : K → KeyPathHash) (entries : List (K × V)) (request : KeyPathHash) : Option V :=
  (entries.find? fun entry => keyHash entry.1 = request).map Prod.snd

theorem valueAt_bucket (depth : Nat) (entries : List (K × V)) (request : KeyPathHash) :
    valueAt keyHash (bucket keyHash depth entries (bucketIndex request depth)) request =
      valueAt keyHash entries request := by
  unfold valueAt bucket
  rw [find?_filter]
  congr 2
  funext entry
  by_cases same : keyHash entry.1 = request
  · simp [same, route]
  · simp [same]

theorem valueAt_singleton (entry : K × V) (request : KeyPathHash) :
    valueAt keyHash [entry] request = if keyHash entry.1 = request then some entry.2 else none := by
  unfold valueAt
  by_cases same : keyHash entry.1 = request <;> simp [same]

theorem valueAt_key [DecidableEq K] {entries : List (K × V)}
    (own : ∀ entry ∈ entries, keyHash entry.1 = keyHash key → entry.1 = key) :
    valueAt keyHash entries (keyHash key) = entries.lookup key := by
  induction entries with
  | nil => rfl
  | cons first rest ih =>
    rw [forall_mem_cons] at own
    have later := ih own.2
    unfold valueAt at later ⊢
    rw [find?_cons, lookup_cons]
    by_cases same : first.1 = key
    · simp [same]
    · have other : keyHash first.1 ≠ keyHash key := fun equal => same (own.1 equal)
      rw [beq_eq_false_iff_ne.mpr (Ne.symm same), decide_eq_false other]
      exact later

def Stands (hasher : Hasher K V StructuralHash) (keyHash : K → KeyPathHash)
    (resolver : Resolver K V StructuralHash E) (root : HamtNode K V StructuralHash) (entries : List (K × V))
    (levels : Nat) (hash : StructuralHash) (request : KeyPathHash) : Prop :=
  ∃ node part, Reaches resolver root node ∧ node.structuralHash = hash ∧
    Holds hasher keyHash resolver levels node part ∧ valueAt keyHash part request = valueAt keyHash entries request

structure DescendResult.Sorts (result : DescendResult V) (valueOf : KeyPathHash → Option V)
    (stands : StructuralHash → KeyPathHash → Prop) (requests : List KeyPathHash) : Prop where
  all : (result.found.map Prod.fst ++ (result.absent ++ result.pending.flatMap Prod.snd)).Perm requests
  found : ∀ item ∈ result.found, valueOf item.1 = some item.2
  absent : ∀ request ∈ result.absent, valueOf request = none
  pending : ∀ group ∈ result.pending, group.2 ≠ [] ∧ ∀ request ∈ group.2, stands group.1 request

variable {result : DescendResult V} {valueOf : KeyPathHash → Option V}
  {stands : StructuralHash → KeyPathHash → Prop} {requests : List KeyPathHash} {request : KeyPathHash}

theorem DescendResult.sorts_empty : (DescendResult.empty : DescendResult V).Sorts valueOf stands [] where
  all := .refl _
  found item member := by cases member
  absent item member := by cases member
  pending item member := by cases member

theorem DescendResult.Sorts.push_found (sorts : result.Sorts valueOf stands requests)
    (holds : valueOf request = some value) :
    ({ result with found := result.found ++ [(request, value)] } : DescendResult V).Sorts valueOf stands
      (requests ++ [request]) where
  all := by
    rw [map_append, append_assoc]
    refine (append_left _ perm_append_comm).trans ?_
    rw [← append_assoc]
    exact sorts.all.append_right _
  found := by
    intro item member
    rcases mem_append.mp member with before | last
    · exact sorts.found item before
    · rw [mem_singleton.mp last]
      exact holds
  absent := sorts.absent
  pending := sorts.pending

theorem DescendResult.Sorts.push_absent (sorts : result.Sorts valueOf stands requests)
    (missing : valueOf request = none) :
    ({ result with absent := result.absent ++ [request] } : DescendResult V).Sorts valueOf stands
      (requests ++ [request]) where
  all := by
    rw [append_assoc]
    refine (append_left _ (append_left _ perm_append_comm)).trans ?_
    rw [← append_assoc result.absent, ← append_assoc]
    exact sorts.all.append_right _
  found := sorts.found
  absent := by
    intro item member
    rcases mem_append.mp member with before | last
    · exact sorts.absent item before
    · rw [mem_singleton.mp last]
      exact missing
  pending := sorts.pending

theorem pushPending_perm (hash : StructuralHash) (request : KeyPathHash)
    (pending : List (StructuralHash × List KeyPathHash)) :
    ((pushPending hash request pending).flatMap snd).Perm (pending.flatMap snd ++ [request]) := by
  induction pending with
  | nil => exact .refl _
  | cons group rest ih =>
    rw [pushPending]
    split
    · rw [flatMap_cons, flatMap_cons, append_assoc, append_assoc]
      exact append_left _ perm_append_comm
    · rw [flatMap_cons, flatMap_cons, append_assoc]
      exact append_left _ ih

theorem mem_pushPending {hash : StructuralHash}
    (before : ∀ group ∈ pending, group.2 ≠ [] ∧ ∀ request ∈ group.2, stands group.1 request)
    (own : stands hash request) :
    ∀ group ∈ pushPending hash request pending, group.2 ≠ [] ∧ ∀ request ∈ group.2, stands group.1 request := by
  induction pending with
  | nil =>
    intro _ member
    rw [mem_singleton.mp member]
    simpa using own
  | cons first rest ih =>
    rw [forall_mem_cons] at before
    rw [pushPending]
    split
    · rename_i same
      refine forall_mem_cons.mpr ⟨⟨by simp, ?_⟩, before.2⟩
      intro other member
      rcases mem_append.mp member with old | last
      · exact before.1.2 other old
      · rw [mem_singleton.mp last]
        exact same ▸ own
    · exact forall_mem_cons.mpr ⟨before.1, ih before.2⟩

theorem DescendResult.Sorts.push_pending (sorts : result.Sorts valueOf stands requests) {hash : StructuralHash}
    (own : stands hash request) :
    ({ result with pending := pushPending hash request result.pending } : DescendResult V).Sorts valueOf stands
      (requests ++ [request]) where
  all := by
    refine (append_left _ (append_left _ (pushPending_perm hash request _))).trans ?_
    rw [← append_assoc result.absent, ← append_assoc]
    exact sorts.all.append_right _
  found := sorts.found
  absent := sorts.absent
  pending := mem_pushPending sorts.pending own

end

section

variable {root : HamtNode K V StructuralHash} {entries : List (K × V)}

theorem descendKey_sorts {request : KeyPathHash} (within : levels + 1 ≤ hamtMaxDepth)
    (reaches : Reaches resolver root node) (holds : Holds hasher keyHash resolver (levels + 1) node part)
    (decides : valueAt keyHash part request = valueAt keyHash entries request)
    (sorts : result.Sorts (valueAt keyHash entries) (Stands hasher keyHash resolver root entries levels) requests) :
    ∃ next, descendKey keyHash node.unloaded (depthOf (levels + 1)) result request = .ok next ∧
      next.Sorts (valueAt keyHash entries) (Stands hasher keyHash resolver root entries levels)
        (requests ++ [request]) := by
  have inside := bucketIndex_lt request (depthOf (levels + 1))
  have shallow : ¬hamtMaxDepth ≤ depthOf (levels + 1) := by
    unfold depthOf
    omega
  have value : valueAt keyHash entries request =
      valueAt keyHash (bucket keyHash (depthOf (levels + 1)) part (bucketIndex request (depthOf (levels + 1))))
        request := by
    rw [valueAt_bucket, decides]
  obtain ⟨leafSlots, childSlots, packed, slots⟩ := holds
  have loaded := packed.unloaded
  unfold descendKey
  rw [if_neg shallow]
  rcases (slots _ inside).inv with ⟨shared, leaf, child⟩ | ⟨entry, shared, leaf, child⟩ |
    ⟨ref, child, -, leaf, taken, resolves, named, inner⟩
  · rw [if_neg (loaded.leaf_free inside leaf), if_neg (loaded.child_free inside (by rw [child]; rfl))]
    exact ⟨_, rfl, sorts.push_absent (by rw [value, shared]; rfl)⟩
  · obtain ⟨bit, found⟩ := loaded.leaf_taken inside leaf
    have routed : bucketIndex (keyHash entry.1) (depthOf (levels + 1)) = bucketIndex request (depthOf (levels + 1)) :=
      (mem_bucket.mp (shared ▸ mem_singleton_self entry)).2
    rw [if_pos bit, found]
    dsimp only
    rw [if_neg (fun wrong => wrong.2 routed)]
    rw [shared, valueAt_singleton] at value
    by_cases same : keyHash entry.1 = request
    · rw [if_pos same] at value ⊢
      exact ⟨_, rfl, sorts.push_found value⟩
    · rw [if_neg same] at value ⊢
      exact ⟨_, rfl, sorts.push_absent value⟩
  · have lazyRef : (childSlots (bucketIndex request (depthOf (levels + 1)))).map
        (fun ref => NodeRef.lazy (K := K) (V := V) ref.structuralHash) = some (.lazy ref.structuralHash) := by
      rw [taken]
      rfl
    obtain ⟨bit, found⟩ := loaded.child_taken inside lazyRef
    rw [if_neg (loaded.leaf_free inside leaf), if_pos bit, found]
    have member : ref ∈ node.children := by
      rw [packed.children.list]
      exact mem_items.mpr ⟨_, inside, taken⟩
    exact ⟨_, rfl, sorts.push_pending
      ⟨child, _, reaches.trans (.child member resolves (.self child)), named, inner, value.symm⟩⟩

theorem descendKeys_sorts {requests targets : List KeyPathHash} (within : levels + 1 ≤ hamtMaxDepth)
    (stand : ∀ request ∈ targets, ∃ own part, Reaches resolver root own ∧ own.unloaded = node ∧
      Holds hasher keyHash resolver (levels + 1) own part ∧
      valueAt keyHash part request = valueAt keyHash entries request)
    (sorts : result.Sorts (valueAt keyHash entries) (Stands hasher keyHash resolver root entries levels) requests) :
    ∃ next, targets.foldlM (descendKey keyHash node (depthOf (levels + 1))) result = .ok next ∧
      next.Sorts (valueAt keyHash entries) (Stands hasher keyHash resolver root entries levels)
        (requests ++ targets) := by
  induction targets generalizing result requests with
  | nil => exact ⟨result, rfl, by rwa [append_nil]⟩
  | cons request rest ih =>
    rw [forall_mem_cons] at stand
    obtain ⟨⟨own, part, reaches, rfl, holds, decides⟩, others⟩ := stand
    obtain ⟨middle, first, middleSorts⟩ := descendKey_sorts within reaches holds decides sorts
    obtain ⟨next, more, nextSorts⟩ := ih others middleSorts
    refine ⟨next, ?_, by rwa [append_cons]⟩
    rw [foldlM_cons, first]
    exact more

variable [HamtCodec K] [HamtCodec V] [LawfulHamtCodec K] [LawfulHamtCodec V] {store : NodeStore}

def Grouped (hasher : Hasher K V StructuralHash) (keyHash : K → KeyPathHash)
    (resolver : Resolver K V StructuralHash E) (root : HamtNode K V StructuralHash) (entries : List (K × V))
    (levels : Nat) (group : StructuralHash × List KeyPathHash) : Prop :=
  (∃ node part, Reaches resolver root node ∧ node.structuralHash = group.1 ∧
    Holds hasher keyHash resolver levels node part) ∧
  ∀ request ∈ group.2, Stands hasher keyHash resolver root entries levels group.1 request

variable (stored : ∀ target, Reaches resolver root target → StoredNode store target)

include stored

theorem descendNode_sorts (within : levels + 1 ≤ hamtMaxDepth)
    (grouped : Grouped hasher keyHash resolver root entries (levels + 1) group) (fetched : store group.1 = some bytes)
    (sorts : result.Sorts (valueAt keyHash entries) (Stands hasher keyHash resolver root entries levels) requests) :
    ∃ next, descendNode hasher keyHash result ⟨group.1, bytes, depthOf (levels + 1), group.2⟩ = .ok next ∧
      next.Sorts (valueAt keyHash entries) (Stands hasher keyHash resolver root entries levels)
        (requests ++ group.2) := by
  have decode : ∀ node part, Reaches resolver root node → node.structuralHash = group.1 →
      Holds hasher keyHash resolver (levels + 1) node part →
      decodeV1Unverified bytes = .ok node.persisted ∧
        node.persisted.intoHamtNodeVerified hasher group.1 = .ok node.unloaded := by
    intro node part reaches named holds
    obtain ⟨own, encodes, found⟩ := stored node reaches
    rw [named, fetched] at found
    obtain rfl := Option.some.inj found
    exact ⟨decodeV1Unverified_eq_ok.mpr encodes, named ▸ holds.intoHamtNodeVerified⟩
  obtain ⟨⟨node, part, reaches, named, holds⟩, stand⟩ := grouped
  obtain ⟨decoded, verified⟩ := decode node part reaches named holds
  rw [descendNode]
  rw [decoded]
  dsimp only
  rw [verified]
  refine descendKeys_sorts within (fun request member => ?_) sorts
  obtain ⟨own, ownPart, ownReaches, ownNamed, ownHolds, decides⟩ := stand request member
  obtain ⟨ownDecoded, ownVerified⟩ := decode own ownPart ownReaches ownNamed ownHolds
  have same : own.persisted = node.persisted := ok.inj (ownDecoded.symm.trans decoded)
  rw [same] at ownVerified
  exact ⟨own, ownPart, ownReaches, ok.inj (ownVerified.symm.trans verified), ownHolds, decides⟩

theorem descendNodes_sorts {levels : Nat} {groups : List (StructuralHash × List KeyPathHash)}
    {bytes : StructuralHash → Bytes} {result : DescendResult V} {requests : List KeyPathHash}
    (within : levels + 1 ≤ hamtMaxDepth)
    (grouped : ∀ group ∈ groups, Grouped hasher keyHash resolver root entries (levels + 1) group)
    (fetched : ∀ group ∈ groups, store group.1 = some (bytes group.1))
    (sorts : result.Sorts (valueAt keyHash entries) (Stands hasher keyHash resolver root entries levels) requests) :
    ∃ next, (groups.map fun group => ⟨group.1, bytes group.1, depthOf (levels + 1), group.2⟩).foldlM
        (descendNode hasher keyHash) result = .ok next ∧
      next.Sorts (valueAt keyHash entries) (Stands hasher keyHash resolver root entries levels)
        (requests ++ groups.flatMap snd) := by
  induction groups generalizing result requests with
  | nil => exact ⟨result, rfl, by rwa [flatMap_nil, append_nil]⟩
  | cons group rest ih =>
    rw [forall_mem_cons] at grouped fetched
    obtain ⟨middle, first, middleSorts⟩ := descendNode_sorts stored within grouped.1 fetched.1 sorts
    obtain ⟨next, more, nextSorts⟩ := ih grouped.2 fetched.2 middleSorts
    refine ⟨next, ?_, by rwa [flatMap_cons, ← append_assoc]⟩
    rw [map_cons, foldlM_cons, first]
    exact more

omit [LawfulHamtCodec K] [LawfulHamtCodec V] in
theorem Grouped.fetched (grouped : Grouped hasher keyHash resolver root entries levels group) :
    store group.1 = some ((store group.1).getD []) := by
  obtain ⟨⟨node, part, reaches, named, -⟩, -⟩ := grouped
  obtain ⟨bytes, -, found⟩ := stored node reaches
  rw [← named, found]
  rfl

theorem descendLevel_sorts (within : levels + 1 ≤ hamtMaxDepth)
    (grouped : ∀ group ∈ groups, Grouped hasher keyHash resolver root entries (levels + 1) group) :
    ∃ fetched level, fetchNodes store (depthOf (levels + 1)) groups = .ok fetched ∧
      descendLevel hasher keyHash fetched = .ok level ∧
      level.Sorts (valueAt keyHash entries) (Stands hasher keyHash resolver root entries levels)
        (groups.flatMap snd) := by
  have found := fun group member => (grouped group member).fetched stored
  obtain ⟨level, run, sorts⟩ :=
    @descendNodes_sorts K V E hasher keyHash resolver root entries _ _ _ _ store stored levels groups
      (fun hash => (store hash).getD []) .empty [] within grouped found DescendResult.sorts_empty
  refine ⟨groups.map fun group => ⟨group.1, (store group.1).getD [], depthOf (levels + 1), group.2⟩, level,
    Outcome.mapM_ok fun group member => ?_, ?_, sorts⟩
  · rw [found group member]
    rfl
  · cases groups with
    | nil => exact run
    | cons group rest =>
      rw [map_cons] at run ⊢
      rw [descendLevel, if_pos (by simp)]
      exact run

omit [LawfulHamtCodec K] [LawfulHamtCodec V] stored [HamtCodec K] [HamtCodec V] in
theorem DescendResult.Sorts.grouped {level : DescendResult V}
    (sorts : level.Sorts (valueAt keyHash entries) (Stands hasher keyHash resolver root entries levels) requests) :
    ∀ group ∈ level.pending, Grouped hasher keyHash resolver root entries levels group := by
  intro group member
  obtain ⟨some, stand⟩ := sorts.pending group member
  obtain ⟨request, inGroup⟩ := exists_mem_of_ne_nil _ some
  obtain ⟨node, part, reaches, named, holds, -⟩ := stand request inGroup
  exact ⟨⟨node, part, reaches, named, holds⟩, stand⟩

variable {arrange : Nat → List (StructuralHash × List KeyPathHash) → List (StructuralHash × List KeyPathHash)}

theorem descendAll_sorts (arranged : ∀ depth groups, (arrange depth groups).Perm groups)
    (within : levels ≤ hamtMaxDepth) (enough : levels ≤ rounds)
    (grouped : ∀ group ∈ groups, Grouped hasher keyHash resolver root entries levels group) :
    ∃ found absent, descendAll hasher keyHash store arrange rounds (depthOf levels) groups = .ok (found, absent) ∧
      (found.map fst ++ absent).Perm (groups.flatMap snd) ∧
      (∀ item ∈ found, valueAt keyHash entries item.1 = some item.2) ∧
      ∀ request ∈ absent, valueAt keyHash entries request = none := by
  induction levels generalizing rounds groups with
  | zero =>
    cases groups with
    | nil => exact ⟨[], [], by rw [descendAll], .refl _, fun _ member => (by cases member), fun _ member => by cases member⟩
    | cons group rest =>
      obtain ⟨⟨node, part, -, -, holds⟩, -⟩ := grouped group (mem_cons_self ..)
      exact holds.elim
  | succ levels ih =>
    cases groups with
    | nil => exact ⟨[], [], by rw [descendAll], .refl _, fun _ member => (by cases member), fun _ member => by cases member⟩
    | cons group rest =>
      obtain ⟨rounds, rfl⟩ := Nat.exists_eq_add_of_le' (Nat.le_trans (Nat.succ_le_succ (Nat.zero_le levels)) enough)
      obtain ⟨fetched, level, fetch, run, sorts⟩ := descendLevel_sorts stored within grouped
      have perm := arranged (depthOf (levels + 1)) level.pending
      obtain ⟨found, absent, more, all, foundValues, absentValues⟩ :=
        @ih rounds (arrange (depthOf (levels + 1)) level.pending) (by omega) (by omega)
          fun other member => sorts.grouped other (perm.mem_iff.mp member)
      rw [depthOf_succ within] at more
      refine ⟨level.found ++ found, level.absent ++ absent, ?_, ?_, ?_, ?_⟩
      · rw [descendAll, fetch]
        · simp only [bind, Except.bind, run, more]
          rfl
        · exact cons_ne_nil group rest
      · refine List.Perm.trans ?_ sorts.all
        have later := all.trans (perm.flatMap_right snd)
        rw [map_append, append_assoc]
        refine append_left _ ?_
        refine List.Perm.trans ?_ (append_left level.absent later)
        rw [← append_assoc, ← append_assoc]
        exact List.Perm.append_right _ perm_append_comm
      · exact forall_mem_append.mpr ⟨sorts.found, foundValues⟩
      · exact forall_mem_append.mpr ⟨sorts.absent, absentValues⟩

/-- The lookup of a batch of path hashes ends, whatever order the groups come in, and reports each request once, with
    the map's value or as absent. -/
theorem descendAll_reports [DecidableEq K] (holds : Holds hasher keyHash resolver hamtMaxDepth root entries)
    (arranged : ∀ depth groups, (arrange depth groups).Perm groups) (requests : List KeyPathHash) {rounds : Nat}
    (enough : hamtMaxDepth ≤ rounds) :
    ∃ found absent,
      descendAll hasher keyHash store arrange rounds 0 [(root.structuralHash, requests)] = .ok (found, absent) ∧
      found.Perm (requests.filterMap fun request => (valueAt keyHash entries request).map (request, ·)) ∧
      absent.Perm (requests.filter fun request => (valueAt keyHash entries request).isNone) ∧
      ∀ key, keyHash key ∈ requests → (∀ entry ∈ entries, keyHash entry.1 = keyHash key → entry.1 = key) →
        (∀ value, (keyHash key, value) ∈ found ↔ entries.lookup key = some value) ∧
          (keyHash key ∈ absent ↔ entries.lookup key = none) := by
  have grouped : ∀ group ∈ [(root.structuralHash, requests)],
      Grouped hasher keyHash resolver root entries hamtMaxDepth group := by
    intro group member
    rw [mem_singleton.mp member]
    exact ⟨⟨root, entries, .self root, rfl, holds⟩, fun request _ => ⟨root, entries, .self root, rfl, holds, rfl⟩⟩
  obtain ⟨found, absent, run, all, foundValues, absentValues⟩ :=
    descendAll_sorts stored arranged (Nat.le_refl _) enough grouped
  rw [flatMap_singleton] at all
  have foundPerm : found.Perm
      (requests.filterMap fun request => (valueAt keyHash entries request).map (request, ·)) := by
    have shown := all.filterMap fun request => (valueAt keyHash entries request).map (request, ·)
    refine List.Perm.trans (List.Perm.of_eq ?_) shown
    rw [filterMap_append, filterMap_map]
    have own : found.filterMap ((fun request => (valueAt keyHash entries request).map (request, ·)) ∘ fst) =
        found := by
      rw [filterMap_congr (g := some) fun item member => by
        simp only [Function.comp, foundValues item member, Option.map_some]]
      exact filterMap_some
    have none : absent.filterMap (fun request => (valueAt keyHash entries request).map (request, ·)) = [] := by
      rw [filterMap_eq_nil_iff]
      intro request member
      rw [absentValues request member]
      rfl
    rw [own, none, append_nil]
  have absentPerm : absent.Perm (requests.filter fun request => (valueAt keyHash entries request).isNone) := by
    have shown := all.filter fun request => (valueAt keyHash entries request).isNone
    refine List.Perm.trans (List.Perm.of_eq ?_) shown
    rw [filter_append]
    have none : (found.map fst).filter (fun request => (valueAt keyHash entries request).isNone) = [] := by
      rw [filter_eq_nil_iff]
      intro request member
      obtain ⟨item, inFound, rfl⟩ := mem_map.mp member
      rw [foundValues item inFound]
      exact Bool.false_ne_true
    have own : absent.filter (fun request => (valueAt keyHash entries request).isNone) = absent := by
      rw [filter_eq_self]
      intro request member
      rw [absentValues request member]
      rfl
    rw [none, own, nil_append]
  refine ⟨found, absent, run, foundPerm, absentPerm, fun key requested own => ⟨fun value => ?_, ?_⟩⟩
  · rw [foundPerm.mem_iff, mem_filterMap, ← valueAt_key own]
    constructor
    · rintro ⟨request, -, same⟩
      obtain ⟨given, shown, rest⟩ := Option.map_eq_some_iff.mp same
      obtain ⟨rfl, rfl⟩ := mk.inj rest
      exact shown
    · intro shown
      exact ⟨keyHash key, requested, by rw [shown]; rfl⟩
  · rw [absentPerm.mem_iff, mem_filter, ← valueAt_key own, Option.isNone_iff_eq_none]
    exact and_iff_right requested

end

namespace Sample

def nestedChild : HamtNode (LeInt 1) Bool StructuralHash := rebuildNode sizeHash 3 0 [(3, true), (35, false)] []

def nestedRoot : HamtNode (LeInt 1) Bool StructuralHash := rebuildNode sizeHash 0 8 [] [.resolved nestedChild]

def nestedStore : NodeStore := fun hash =>
  if hash = nestedRoot.structuralHash then nestedRoot.persisted.encodeV1
  else if hash = nestedChild.structuralHash then nestedChild.persisted.encodeV1
  else none

def inOrder (_ : Nat) (groups : List (StructuralHash × List KeyPathHash)) :
    List (StructuralHash × List KeyPathHash) := groups

theorem nestedRoot_holds : Holds sizeHash intHash noStore hamtMaxDepth nestedRoot [(3, true), (35, false)] := by
  obtain ⟨root, built, holds⟩ := @buildHamt_holds _ _ _ sizeHash intHash [(3, true), (35, false)]
    (.root (by decide) (by decide +kernel))
  have same : buildHamt sizeHash intHash [(3, true), (35, false)] = .ok nestedRoot := rfl
  rwa [ok.inj (built.symm.trans same)] at holds

theorem nestedRoot_stored (target : HamtNode (LeInt 1) Bool StructuralHash)
    (reaches : Reaches (noStore : Resolver _ _ _ Unit) nestedRoot target) : StoredNode nestedStore target := by
  rcases reaches.cases_child with rfl | ⟨ref, member, child, resolves, below⟩
  · exact ⟨_, rfl, rfl⟩
  · obtain rfl := mem_singleton.mp member
    obtain rfl := ok.inj resolves
    rcases below.cases_child with rfl | ⟨ref, member, -⟩
    · exact ⟨_, rfl, rfl⟩
    · cases member

end Sample

open Sample in
theorem descendAll_reports_nested : ∃ found absent,
    (descendAll sizeHash intHash nestedStore inOrder 52 0
      [(nestedRoot.structuralHash, [intHash 3, intHash 67, intHash 35, intHash 3])] : Except _ (List (_ × Bool) × _)) =
        .ok (found, absent) ∧
      found.Perm [(intHash 3, true), (intHash 35, false), (intHash 3, true)] ∧ absent.Perm [intHash 67] := by
  have arranged : ∀ depth groups, (inOrder depth groups).Perm groups := fun _ _ => .refl _
  obtain ⟨found, absent, run, foundPerm, absentPerm, -⟩ := descendAll_reports nestedRoot_stored nestedRoot_holds
    arranged [intHash 3, intHash 67, intHash 35, intHash 3] (Nat.le_refl hamtMaxDepth)
  exact ⟨found, absent, run, foundPerm.trans (.of_eq (by decide)), absentPerm.trans (.of_eq (by decide))⟩

end Rezzy.Hamt
