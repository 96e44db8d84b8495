import Rezzy.Hamt.Stored

namespace Rezzy.Hamt

open List

section

variable {K V E : Type}

def HamtMutateError.ofTraversalError : HamtTraversalError E → HamtMutateError E
  | .resolve error => .resolve error
  | .maxDepthExceeded depth => .maxDepthExceeded depth
  | .outOfBounds => .outOfBounds

structure Persisted (K V D : Type) where
  root : HamtNode K V StructuralHash
  displaced : D
  created : List (StructuralHash × Bytes)

structure ChainStep (K V : Type) where
  rootHash : StructuralHash
  root : HamtNode K V StructuralHash
  displaced : Option V
  created : List (StructuralHash × Bytes)

mutual

def collectCreated (newSet : StructuralHash → Bool) :
    HamtNode K V StructuralHash → List (HamtNode K V StructuralHash)
  | .mk datamap nodemap leaves children hash =>
    if newSet hash then .mk datamap nodemap leaves children hash :: collectCreatedChildren newSet children else []

def collectCreatedChildren (newSet : StructuralHash → Bool) :
    List (NodeRef K V StructuralHash) → List (HamtNode K V StructuralHash)
  | [] => []
  | .resolved child :: rest => collectCreatedChildren newSet rest ++ collectCreated newSet child
  | .lazy _ :: rest => collectCreatedChildren newSet rest

end

variable [HamtCodec K] [HamtCodec V]

def encodeCreated (nodes : List (HamtNode K V StructuralHash)) :
    Except (HamtMutateError E) (List (StructuralHash × Bytes)) :=
  nodes.mapM fun node =>
    match node.persisted.encodeV1 with
    | some bytes => .ok (node.structuralHash, bytes)
    | none => .error .unencodable

variable [DecidableEq K]

def persistMutation (hasher : Hasher K V StructuralHash) (keyHash : K → KeyPathHash)
    (resolver : Resolver K V StructuralHash E) (prevRoot : HamtNode K V StructuralHash) (key : K)
    (value : Option V) : Except (HamtMutateError E) (Persisted K V (Option V)) := do
  let mutated ← mutate hasher keyHash resolver prevRoot key value
  let created ← encodeCreated mutated.emitted
  return ⟨mutated.node, mutated.displaced,
    if mutated.node.structuralHash = prevRoot.structuralHash then [] else created⟩

def finalizePersistedMutations (resolver : Resolver K V StructuralHash E)
    (prevRoot currentRoot : HamtNode K V StructuralHash) (displaced : List (Option V)) :
    Except (HamtMutateError E) (Persisted K V (List (Option V))) :=
  if currentRoot.structuralHash = prevRoot.structuralHash then .ok ⟨currentRoot, displaced, []⟩
  else
    match diffNodeHashes resolver prevRoot currentRoot with
    | .error error => .error (.ofTraversalError error)
    | .ok delta => do
      let created ← encodeCreated (collectCreated (fun hash => decide (hash ∈ delta.newNodeHashes)) currentRoot)
      return ⟨currentRoot, displaced, created⟩

def persistMutations (hasher : Hasher K V StructuralHash) (keyHash : K → KeyPathHash)
    (resolver : Resolver K V StructuralHash E) (prevRoot : HamtNode K V StructuralHash)
    (mutations : List (K × Option V)) : Except (HamtMutateError E) (Persisted K V (List (Option V))) := do
  let (currentRoot, displaced) ← runMutations hasher keyHash resolver prevRoot mutations
  finalizePersistedMutations resolver prevRoot currentRoot displaced

def persistChain (hasher : Hasher K V StructuralHash) (keyHash : K → KeyPathHash)
    (resolver : Resolver K V StructuralHash E) :
    HamtNode K V StructuralHash → List (K × Option V) → Except (HamtMutateError E) (List (ChainStep K V))
  | _, [] => .ok []
  | currentRoot, (key, value) :: rest => do
    let step ← persistMutation hasher keyHash resolver currentRoot key value
    let later ← persistChain hasher keyHash resolver step.root rest
    return ⟨step.root.structuralHash, step.root, step.displaced, step.created⟩ :: later

end

open Outcome

variable {K V E : Type} {hasher : Hasher K V StructuralHash} {keyHash : K → KeyPathHash}
  {resolver : Resolver K V StructuralHash E}

theorem SameContents.persisted (same : SameContents left right) : left.persisted = right.persisted := by
  unfold HamtNode.persisted
  rw [same.datamap, same.nodemap, same.leaves, same.children]

def writeCreated (store : NodeStore) (created : List (StructuralHash × Bytes)) : NodeStore :=
  created.foldl (fun store item => Function.update store item.1 (some item.2)) store

theorem writeCreated_cases (store : NodeStore) (created : List (StructuralHash × Bytes)) (hash : StructuralHash) :
    (writeCreated store created hash = store hash ∧ ∀ item ∈ created, item.1 ≠ hash) ∨
      ∃ item ∈ created, item.1 = hash ∧ writeCreated store created hash = some item.2 := by
  induction created generalizing store with
  | nil => exact .inl ⟨rfl, fun item member => by cases member⟩
  | cons first rest ih =>
    rcases ih (Function.update store first.1 (some first.2)) with ⟨kept, none⟩ | ⟨item, member, same, written⟩
    · by_cases own : first.1 = hash
      · refine .inr ⟨first, mem_cons_self .., own, kept.trans ?_⟩
        rw [← own, Function.update_self]
      · refine .inl ⟨kept.trans (Function.update_of_ne (Ne.symm own) ..), ?_⟩
        exact forall_mem_cons.mpr ⟨own, none⟩
    · exact .inr ⟨item, mem_cons_of_mem _ member, same, written⟩

section

variable [HamtCodec K] [HamtCodec V]

/-- What a publication has to achieve: it has every node that the previous root does not reach, none that the new one
    does not reach, and with it the store serves the new root in full. -/
structure Published (hasher : Hasher K V StructuralHash) (keyHash : K → KeyPathHash)
    (resolver : Resolver K V StructuralHash E) (prevRoot newRoot : HamtNode K V StructuralHash)
    (entries : List (K × V)) (created : List (StructuralHash × Bytes)) : Prop where
  complete : ∀ target, Reaches resolver newRoot target →
    ¬ReachesHash resolver prevRoot target.structuralHash →
    ∃ bytes, target.persisted.encodeV1 = some bytes ∧ (target.structuralHash, bytes) ∈ created
  sound : ∀ item ∈ created, ∃ target, Reaches resolver newRoot target ∧ item.1 = target.structuralHash ∧
    target.persisted.encodeV1 = some item.2
  resolvable : ∀ store, (∀ target, Reaches resolver prevRoot target → StoredNode store target) →
    (∀ target, Reaches resolver prevRoot target ∨ Reaches resolver newRoot target →
      StoredNode (writeCreated store created) target) ∧
    loadNode hasher (writeCreated store created) newRoot.structuralHash = .ok newRoot.unloaded ∧
    Holds hasher keyHash (loadNode hasher (writeCreated store created)) hamtMaxDepth newRoot.unloaded entries

theorem stored_writeCreated (apart : RootsApart resolver [prevRoot, newRoot])
    (complete : ∀ target, Reaches resolver newRoot target → ¬ReachesHash resolver prevRoot target.structuralHash →
      ∃ bytes, target.persisted.encodeV1 = some bytes ∧ (target.structuralHash, bytes) ∈ created)
    (sound : ∀ item ∈ created, ∃ target, Reaches resolver newRoot target ∧ item.1 = target.structuralHash ∧
      target.persisted.encodeV1 = some item.2)
    (stored : ∀ target, Reaches resolver prevRoot target → StoredNode store target)
    (reaches : Reaches resolver prevRoot target ∨ Reaches resolver newRoot target) :
    StoredNode (writeCreated store created) target := by
  have inPlay : ∃ root ∈ [prevRoot, newRoot], Reaches resolver root target := by simpa using reaches
  rcases writeCreated_cases store created target.structuralHash with ⟨kept, none⟩ | ⟨item, member, same, written⟩
  · have old : ReachesHash resolver prevRoot target.structuralHash := by
      rcases reaches with before | after
      · exact ⟨target, before, rfl⟩
      · by_contra fresh
        obtain ⟨bytes, -, listed⟩ := complete target after fresh
        exact none _ listed rfl
    obtain ⟨before, reached, same⟩ := old
    obtain ⟨bytes, encodes, found⟩ := stored before reached
    have contents := apart before target ⟨prevRoot, by simp, reached⟩ inPlay same
    exact ⟨bytes, contents.persisted ▸ encodes, kept.trans (same ▸ found)⟩
  · obtain ⟨own, reached, named, encodes⟩ := sound item member
    have contents := apart own target ⟨newRoot, by simp, reached⟩ inPlay (named.symm.trans same)
    exact ⟨item.2, contents.persisted ▸ encodes, written⟩

variable [LawfulHamtCodec K] [LawfulHamtCodec V]

theorem Published.of_created (apart : RootsApart resolver [prevRoot, newRoot])
    (holds : Holds hasher keyHash resolver hamtMaxDepth newRoot entries)
    (complete : ∀ target, Reaches resolver newRoot target → ¬ReachesHash resolver prevRoot target.structuralHash →
      ∃ bytes, target.persisted.encodeV1 = some bytes ∧ (target.structuralHash, bytes) ∈ created)
    (sound : ∀ item ∈ created, ∃ target, Reaches resolver newRoot target ∧ item.1 = target.structuralHash ∧
      target.persisted.encodeV1 = some item.2) :
    Published hasher keyHash resolver prevRoot newRoot entries created where
  complete := complete
  sound := sound
  resolvable store stored := by
    have written : ∀ target, Reaches resolver prevRoot target ∨ Reaches resolver newRoot target →
        StoredNode (writeCreated store created) target :=
      fun target => stored_writeCreated apart complete sound stored
    refine ⟨written, loadNode_stored holds (written newRoot (.inr (.self newRoot))), ?_⟩
    exact holds.unloaded fun target reaches => written target (.inr reaches)

end

section

variable [HamtCodec K] [HamtCodec V] {nodes : List (HamtNode K V StructuralHash)}
  {created : List (StructuralHash × Bytes)}

theorem encodeCreated_ok (run : (encodeCreated nodes : Except (HamtMutateError E) _) = .ok created) :
    (∀ node ∈ nodes, ∃ bytes, node.persisted.encodeV1 = some bytes ∧ (node.structuralHash, bytes) ∈ created) ∧
      ∀ item ∈ created, ∃ node ∈ nodes, item.1 = node.structuralHash ∧ node.persisted.encodeV1 = some item.2 := by
  induction nodes generalizing created with
  | nil =>
    obtain rfl := Except.ok.inj run
    exact ⟨fun node member => (by cases member), fun item member => by cases member⟩
  | cons first rest ih =>
    rw [encodeCreated, mapM_cons] at run
    obtain ⟨item, own, more⟩ := bind_eq_ok.mp run
    obtain ⟨later, others, last⟩ := bind_eq_ok.mp more
    obtain rfl := Except.ok.inj last
    obtain ⟨each, all⟩ := ih others
    have encoded : ∃ bytes, first.persisted.encodeV1 = some bytes ∧ (first.structuralHash, bytes) = item := by
      split at own
      · rename_i bytes encodes
        exact ⟨bytes, encodes, Except.ok.inj own⟩
      · cases own
    obtain ⟨bytes, encodes, rfl⟩ := encoded
    constructor
    · intro node member
      rcases mem_cons.mp member with rfl | inRest
      · exact ⟨bytes, encodes, mem_cons_self ..⟩
      · obtain ⟨found, encodesFound, listed⟩ := each node inRest
        exact ⟨found, encodesFound, mem_cons_of_mem _ listed⟩
    · intro item member
      rcases mem_cons.mp member with rfl | inRest
      · exact ⟨first, mem_cons_self .., rfl, encodes⟩
      · obtain ⟨node, inNodes, same⟩ := all item inRest
        exact ⟨node, mem_cons_of_mem _ inNodes, same⟩

end

section

theorem reachesHash_same_root (apart : RootsApart resolver [prevRoot, newRoot])
    (holds : Holds hasher keyHash resolver hamtMaxDepth prevRoot entries)
    (newHolds : Holds hasher keyHash resolver hamtMaxDepth newRoot newEntries)
    (same : newRoot.structuralHash = prevRoot.structuralHash) (reaches : Reaches resolver newRoot target) :
    ReachesHash resolver prevRoot target.structuralHash :=
  reaches.of_same apart.collisionFree ⟨newRoot, by simp, .self newRoot⟩ ⟨prevRoot, by simp, .self prevRoot⟩
    newHolds holds same

theorem reachesHash_below {prevRoot newRoot middle target : HamtNode K V StructuralHash}
    {entries newEntries : List (K × V)} (apart : RootsApart resolver [prevRoot, newRoot])
    (holds : Holds hasher keyHash resolver hamtMaxDepth prevRoot entries)
    (spread : Spread keyHash hamtMaxDepth entries)
    (newHolds : Holds hasher keyHash resolver hamtMaxDepth newRoot newEntries)
    (newSpread : Spread keyHash hamtMaxDepth newEntries) (reached : Reaches resolver newRoot middle)
    (old : ReachesHash resolver prevRoot middle.structuralHash) (below : Reaches resolver middle target) :
    ReachesHash resolver prevRoot target.structuralHash := by
  obtain ⟨before, beforeReached, same⟩ := old
  obtain ⟨levels, part, partHolds, -⟩ := newHolds.reached newSpread reached
  obtain ⟨beforeLevels, beforePart, beforeHolds, -⟩ := holds.reached spread beforeReached
  obtain ⟨other, otherReached, otherSame⟩ := below.of_same apart.collisionFree ⟨newRoot, by simp, reached⟩
    ⟨prevRoot, by simp, beforeReached⟩ partHolds beforeHolds same.symm
  exact ⟨other, beforeReached.trans otherReached, otherSame⟩

variable [HamtCodec K] [HamtCodec V] [LawfulHamtCodec K] [LawfulHamtCodec V] [DecidableEq K]

theorem persistMutation_published (holds : Holds hasher keyHash resolver hamtMaxDepth prevRoot entries)
    (spread : Spread keyHash hamtMaxDepth entries)
    (run : persistMutation hasher keyHash resolver prevRoot key value = .ok result)
    (apart : RootsApart resolver [prevRoot, result.root]) :
    Holds hasher keyHash resolver hamtMaxDepth result.root (assign entries key value) ∧
      Spread keyHash hamtMaxDepth (assign entries key value) ∧ result.displaced = entries.lookup key ∧
      Published hasher keyHash resolver prevRoot result.root (assign entries key value) result.created := by
  obtain ⟨mutated, step, rest⟩ := bind_eq_ok.mp run
  obtain ⟨created, encodes, last⟩ := bind_eq_ok.mp rest
  obtain rfl := Except.ok.inj last
  have fits := mutate_fits holds spread step
  obtain ⟨own, ownStep, newHolds, displaced, grafts⟩ := mutate_holds holds spread fits
  obtain rfl := Except.ok.inj (ownStep.symm.trans step)
  obtain ⟨each, all⟩ := encodeCreated_ok encodes
  refine ⟨newHolds, fits, displaced, ?_⟩
  by_cases same : own.node.structuralHash = prevRoot.structuralHash
  · refine .of_created apart newHolds ?_ ?_
    · intro target reaches fresh
      exact (fresh (reachesHash_same_root apart holds newHolds same reaches)).elim
    · intro item member
      rw [if_pos same] at member
      cases member
  · have listed : (if own.node.structuralHash = prevRoot.structuralHash then [] else created) = created :=
      if_neg same
    refine .of_created apart newHolds ?_ ?_
    · intro target reaches fresh
      rw [listed]
      rcases grafts.complete target reaches with emitted | before
      · exact each target emitted
      · exact (fresh ⟨target, before, rfl⟩).elim
    · intro item member
      rw [listed] at member
      obtain ⟨node, emitted, named, bytes⟩ := all item member
      exact ⟨node, grafts.sound node emitted, named, bytes⟩

end

section

variable [DecidableEq K]

def UnloadsFrom (resolver : Resolver K V StructuralHash E) (prevRoot node : HamtNode K V StructuralHash) : Prop :=
  ∀ target, Reaches resolver node target → ∀ hash, .lazy hash ∈ target.children → ReachesHash resolver prevRoot hash

omit [DecidableEq K] in
theorem UnloadsFrom.self (holds : Holds hasher keyHash resolver hamtMaxDepth root entries)
    (spread : Spread keyHash hamtMaxDepth entries) : UnloadsFrom resolver root root := by
  intro target reaches hash member
  obtain ⟨levels, part, partHolds, -⟩ := holds.reached spread reaches
  cases levels with
  | zero => exact partHolds.elim
  | succ levels =>
    obtain ⟨child, slot, found, named, -⟩ := partHolds.child member
    exact ⟨child, reaches.trans (.child member found (.self child)), named⟩

theorem runMutations_ok (holds : Holds hasher keyHash resolver hamtMaxDepth root entries)
    (spread : Spread keyHash hamtMaxDepth entries) (unloads : UnloadsFrom resolver prevRoot root)
    (run : runMutations hasher keyHash resolver root mutations = .ok (final, displaced)) :
    Holds hasher keyHash resolver hamtMaxDepth final (applyMutations entries mutations) ∧
      Spread keyHash hamtMaxDepth (applyMutations entries mutations) ∧
      displaced = displacedBy entries mutations ∧ UnloadsFrom resolver prevRoot final := by
  induction mutations generalizing root entries displaced with
  | nil =>
    obtain ⟨rfl, rfl⟩ := Prod.mk.inj (Except.ok.inj run)
    exact ⟨holds, spread, rfl, unloads⟩
  | cons mutation rest ih =>
    obtain ⟨step, first, more⟩ := bind_eq_ok.mp run
    obtain ⟨⟨last, later⟩, others, same⟩ := bind_eq_ok.mp more
    obtain ⟨rfl, rfl⟩ := Prod.mk.inj (Except.ok.inj same)
    have fits := mutate_fits holds spread first
    obtain ⟨own, ownStep, stepHolds, stepDisplaced, grafts⟩ := mutate_holds holds spread fits
    obtain rfl := Except.ok.inj (ownStep.symm.trans first)
    have stepUnloads : UnloadsFrom resolver prevRoot own.node := by
      intro target reaches hash member
      rcases grafts.complete target reaches with emitted | before
      · obtain ⟨source, reached, found⟩ := grafts.unloaded target emitted hash member
        exact unloads source reached hash found
      · exact unloads target before hash member
    obtain ⟨finalHolds, finalSpread, laterDisplaced, finalUnloads⟩ := ih stepHolds fits stepUnloads others
    exact ⟨finalHolds, finalSpread, by rw [displacedBy, stepDisplaced, laterDisplaced], finalUnloads⟩

end

section

mutual

theorem collectCreated_sound (node target : HamtNode K V StructuralHash)
    (member : target ∈ collectCreated newSet node) : Reaches resolver node target := by
  match node with
  | .mk datamap nodemap leaves children hash =>
    rw [collectCreated] at member
    split at member
    · rcases mem_cons.mp member with rfl | below
      · exact .self _
      · obtain ⟨child, inChildren, reaches⟩ := collectCreatedChildren_sound children target below
        exact .child inChildren rfl reaches
    · cases member

theorem collectCreatedChildren_sound (children : List (NodeRef K V StructuralHash))
    (target : HamtNode K V StructuralHash) (member : target ∈ collectCreatedChildren newSet children) :
    ∃ child, .resolved child ∈ children ∧ Reaches resolver child target := by
  match children with
  | [] =>
    rw [collectCreatedChildren] at member
    cases member
  | .resolved child :: rest =>
    rw [collectCreatedChildren] at member
    rcases mem_append.mp member with later | own
    · obtain ⟨other, inRest, reaches⟩ := collectCreatedChildren_sound rest target later
      exact ⟨other, mem_cons_of_mem _ inRest, reaches⟩
    · exact ⟨child, mem_cons_self .., collectCreated_sound child target own⟩
  | .lazy hash :: rest =>
    rw [collectCreatedChildren] at member
    obtain ⟨other, inRest, reaches⟩ := collectCreatedChildren_sound rest target member
    exact ⟨other, mem_cons_of_mem _ inRest, reaches⟩

end

theorem mem_collectCreatedChildren (inChildren : .resolved child ∈ children)
    (member : target ∈ collectCreated newSet child) : target ∈ collectCreatedChildren newSet children := by
  induction children with
  | nil => cases inChildren
  | cons first rest ih =>
    cases first with
    | resolved other =>
      rw [collectCreatedChildren]
      rcases mem_cons.mp inChildren with same | later
      · cases same
        exact mem_append_right _ member
      · exact mem_append_left _ (ih later)
    | lazy hash =>
      rw [collectCreatedChildren]
      rcases mem_cons.mp inChildren with same | later
      · cases same
      · exact ih later

theorem mem_collectCreated (new : newSet node.structuralHash = true) :
    target ∈ collectCreated newSet node ↔ target = node ∨ target ∈ collectCreatedChildren newSet node.children := by
  obtain ⟨datamap, nodemap, leaves, children, hash⟩ := node
  change newSet hash = true at new
  rw [collectCreated, if_pos new, mem_cons]
  rfl

theorem collectCreated_complete (reaches : Reaches resolver node target)
    (upward : ∀ middle, Reaches resolver node middle → Reaches resolver middle target →
      newSet middle.structuralHash = true)
    (loaded : ∀ middle, Reaches resolver node middle → ∀ hash child, .lazy hash ∈ middle.children →
      resolver hash = .ok child → ¬Reaches resolver child target) : target ∈ collectCreated newSet node := by
  induction reaches with
  | self node => exact (mem_collectCreated (upward node (.self node) (.self node))).mpr (.inl rfl)
  | @child node child target ref member resolves below ih =>
    refine (mem_collectCreated (upward node (.self node) (.child member resolves below))).mpr (.inr ?_)
    cases ref with
    | lazy hash => exact (loaded node (.self node) hash child member resolves below).elim
    | resolved own =>
      obtain rfl := Except.ok.inj resolves
      refine mem_collectCreatedChildren member (ih ?_ ?_)
      · intro middle reached rest
        exact upward middle (.child member rfl reached) rest
      · intro middle reached
        exact loaded middle (.child member rfl reached)

variable [HamtCodec K] [HamtCodec V] [LawfulHamtCodec K] [LawfulHamtCodec V] [DecidableEq K]
  {prevRoot : HamtNode K V StructuralHash} {entries : List (K × V)} {mutations : List (K × Option V)}

theorem persistMutations_published (holds : Holds hasher keyHash resolver hamtMaxDepth prevRoot entries)
    (spread : Spread keyHash hamtMaxDepth entries)
    (run : persistMutations hasher keyHash resolver prevRoot mutations = .ok result)
    (apart : RootsApart resolver [prevRoot, result.root]) : result.displaced = displacedBy entries mutations ∧
      Published hasher keyHash resolver prevRoot result.root (applyMutations entries mutations) result.created := by
  obtain ⟨⟨current, displaced⟩, mutates, rest⟩ := bind_eq_ok.mp run
  obtain ⟨newHolds, newSpread, rfl, unloads⟩ := runMutations_ok holds spread (UnloadsFrom.self holds spread) mutates
  change finalizePersistedMutations resolver prevRoot current _ = .ok result at rest
  unfold finalizePersistedMutations at rest
  by_cases same : current.structuralHash = prevRoot.structuralHash
  · rw [if_pos same] at rest
    obtain rfl := Except.ok.inj rest
    refine ⟨rfl, .of_created apart newHolds ?_ fun item member => by cases member⟩
    intro target reaches fresh
    exact (fresh (reachesHash_same_root apart holds newHolds same reaches)).elim
  · rw [if_neg same] at rest
    split at rest
    · cases rest
    · rename_i delta diff
      obtain ⟨created, encodes, last⟩ := bind_eq_ok.mp rest
      obtain rfl := Except.ok.inj last
      obtain ⟨each, all⟩ := encodeCreated_ok encodes
      obtain ⟨own, ownDiff, between⟩ := diffNodeHashesRec_spec apart.collisionFree hamtMaxDepth
        ⟨prevRoot, by simp, .self prevRoot⟩ ⟨current, by simp, .self current⟩ holds newHolds spread newSpread
      obtain rfl := Except.ok.inj (ownDiff.symm.trans diff)
      have old := fun middle target => @reachesHash_below K V E hasher keyHash resolver prevRoot current middle
        target _ _ apart holds spread newHolds newSpread
      refine ⟨rfl, .of_created apart newHolds ?_ ?_⟩
      · intro target reaches fresh
        refine each target (collectCreated_complete reaches ?_ ?_)
        · intro middle reached below
          rw [decide_eq_true_eq, between.new]
          exact ⟨⟨middle, reached, rfl⟩, fun before => fresh (old middle target reached before below)⟩
        · intro middle reached hash child member resolves below
          obtain ⟨levels, part, partHolds, -⟩ := newHolds.reached newSpread reached
          cases levels with
          | zero => exact partHolds.elim
          | succ levels =>
            obtain ⟨found, slot, loads, named, -⟩ := partHolds.child member
            obtain rfl := Except.ok.inj (loads.symm.trans resolves)
            have inside : Reaches resolver current found := reached.trans (.child member resolves (.self found))
            exact fresh (old found target inside (named.symm ▸ unloads middle reached hash member) below)
      · intro item member
        obtain ⟨node, collected, named, bytes⟩ := all item member
        exact ⟨node, collectCreated_sound _ _ collected, named, bytes⟩

def PublishedChain (hasher : Hasher K V StructuralHash) (keyHash : K → KeyPathHash)
    (resolver : Resolver K V StructuralHash E) :
    HamtNode K V StructuralHash → List (K × V) → List (K × Option V) → List (ChainStep K V) → Prop
  | _, _, [], steps => steps = []
  | prevRoot, entries, mutation :: rest, steps => ∃ step later, steps = step :: later ∧
      step.rootHash = step.root.structuralHash ∧ step.displaced = entries.lookup mutation.1 ∧
      Published hasher keyHash resolver prevRoot step.root (assign entries mutation.1 mutation.2) step.created ∧
      PublishedChain hasher keyHash resolver step.root (assign entries mutation.1 mutation.2) rest later

omit [HamtCodec K] [HamtCodec V] [LawfulHamtCodec K] [LawfulHamtCodec V] [DecidableEq K] in
theorem RootsApart.sublist {roots some : List (HamtNode K V StructuralHash)} (apart : RootsApart resolver roots)
    (within : ∀ root ∈ some, root ∈ roots) : RootsApart resolver some := by
  rintro left right ⟨root, member, reaches⟩ ⟨other, otherMember, otherReaches⟩
  exact apart left right ⟨root, within root member, reaches⟩ ⟨other, within other otherMember, otherReaches⟩

theorem persistChain_published (holds : Holds hasher keyHash resolver hamtMaxDepth prevRoot entries)
    (spread : Spread keyHash hamtMaxDepth entries)
    (run : persistChain hasher keyHash resolver prevRoot mutations = .ok steps)
    (apart : RootsApart resolver (prevRoot :: steps.map ChainStep.root)) :
    PublishedChain hasher keyHash resolver prevRoot entries mutations steps := by
  induction mutations generalizing prevRoot entries steps with
  | nil => exact (Except.ok.inj run).symm
  | cons mutation rest ih =>
    obtain ⟨step, first, more⟩ := bind_eq_ok.mp run
    obtain ⟨later, others, last⟩ := bind_eq_ok.mp more
    obtain rfl := Except.ok.inj last
    obtain ⟨stepHolds, stepSpread, displaced, published⟩ := persistMutation_published holds spread first
      (apart.sublist fun root member => by simp at member ⊢; tauto)
    refine ⟨_, later, rfl, rfl, displaced, published, ih stepHolds stepSpread others ?_⟩
    exact apart.sublist fun root member => mem_cons_of_mem _ member

/-- Publication safety of the three entry points. -/
theorem persist_published (hasher : Hasher K V StructuralHash) (keyHash : K → KeyPathHash)
    (resolver : Resolver K V StructuralHash E) (prevRoot : HamtNode K V StructuralHash) (entries : List (K × V))
    (holds : Holds hasher keyHash resolver hamtMaxDepth prevRoot entries)
    (spread : Spread keyHash hamtMaxDepth entries) :
    (∀ key value result, persistMutation hasher keyHash resolver prevRoot key value = .ok result →
      RootsApart resolver [prevRoot, result.root] →
      result.displaced = entries.lookup key ∧
        Published hasher keyHash resolver prevRoot result.root (assign entries key value) result.created) ∧
    (∀ mutations result, persistMutations hasher keyHash resolver prevRoot mutations = .ok result →
      RootsApart resolver [prevRoot, result.root] →
      result.displaced = displacedBy entries mutations ∧
        Published hasher keyHash resolver prevRoot result.root (applyMutations entries mutations)
          result.created) ∧
    ∀ mutations steps, persistChain hasher keyHash resolver prevRoot mutations = .ok steps →
      RootsApart resolver (prevRoot :: steps.map ChainStep.root) →
      PublishedChain hasher keyHash resolver prevRoot entries mutations steps := by
  refine ⟨?_, ?_, ?_⟩
  · intro key value result run apart
    obtain ⟨-, -, displaced, published⟩ := persistMutation_published holds spread run apart
    exact ⟨displaced, published⟩
  · intro mutations result run apart
    exact persistMutations_published holds spread run apart
  · intro mutations steps run apart
    exact persistChain_published holds spread run apart

end

namespace Sample

def sizeHash : Hasher (LeInt 1) Bool StructuralHash := fun _ _ leaves _ =>
  (Vector.replicate 32 0).set 0 (UInt8.ofNat leaves.length) hash_width

def intHash (key : LeInt 1) : KeyPathHash := (Vector.replicate 32 0).set 0 (UInt8.ofNat key.toNat) hash_width

def emptyRoot : HamtNode (LeInt 1) Bool StructuralHash := rebuildNode sizeHash 0 0 [] []

def filledRoot : HamtNode (LeInt 1) Bool StructuralHash := rebuildNode sizeHash 8 0 [(3, true)] []

theorem roots_apart : RootsApart noStore [emptyRoot, filledRoot, emptyRoot] := by
  have alone : ∀ node, (∃ root ∈ [emptyRoot, filledRoot, emptyRoot], Reaches noStore root node) →
      node = emptyRoot ∨ node = filledRoot := by
    rintro node ⟨root, member, reaches⟩
    simp only [mem_cons, not_mem_nil, or_false] at member
    rcases member with rfl | rfl | rfl <;> rcases reaches.cases_child with rfl | ⟨ref, child, -⟩ <;>
      first | exact .inl rfl | exact .inr rfl | cases child
  intro left right inLeft inRight same
  have different : emptyRoot.structuralHash ≠ filledRoot.structuralHash := by decide
  rcases alone left inLeft with rfl | rfl <;> rcases alone right inRight with rfl | rfl
  · exact ⟨rfl, rfl, rfl, rfl⟩
  · exact (different same).elim
  · exact (different same.symm).elim
  · exact ⟨rfl, rfl, rfl, rfl⟩

end Sample

open Sample in
theorem persist_published_return : ∃ steps,
    persistChain sizeHash intHash noStore emptyRoot [(3, some true), (3, none)] = .ok steps ∧
      PublishedChain sizeHash intHash noStore emptyRoot [] [(3, some true), (3, none)] steps := by
  obtain ⟨first, second, run⟩ : ∃ first second,
      persistChain sizeHash intHash noStore emptyRoot [(3, some true), (3, none)] =
        .ok [⟨filledRoot.structuralHash, filledRoot, none, first⟩,
          ⟨emptyRoot.structuralHash, emptyRoot, some true, second⟩] := ⟨_, _, rfl⟩
  exact ⟨_, run, (persist_published sizeHash intHash noStore emptyRoot [] (holds_nil _)
    (.root nodup_nil fun _ member => by cases member)).2.2 _ _ run roots_apart⟩

end Rezzy.Hamt
