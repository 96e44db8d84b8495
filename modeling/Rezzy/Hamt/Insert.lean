import Rezzy.Hamt.Assign

namespace Rezzy.Hamt

open List Function

section

open Packed

variable {K V H E : Type}

inductive HamtMutateError (E : Type) where
  | hashCollision (depth bucketSize : Nat)
  | maxDepthExceeded (depth : Nat)
  | resolve (error : E)
  /-- A taken bit without an item: the source indexes out of bounds. -/
  | outOfBounds
  /-- A payload that is too long for its length field: the source panics. -/
  | unencodable

def HamtMutateError.ofBuildError : HamtBuildError → HamtMutateError E
  | .hashCollision depth bucketSize => .hashCollision depth bucketSize

structure Mutated (K V H : Type) where
  node : HamtNode K V H
  displaced : Option V
  emitted : List (HamtNode K V H)

mutual

def emitSplitNodesToSink : HamtNode K V H → List (HamtNode K V H)
  | .mk datamap nodemap leaves children hash =>
    .mk datamap nodemap leaves children hash :: emitSplitChildren children

def emitSplitChildren : List (NodeRef K V H) → List (HamtNode K V H)
  | [] => []
  | .resolved child :: rest => emitSplitNodesToSink child ++ emitSplitChildren rest
  | .lazy _ :: rest => emitSplitChildren rest

end

def resolveForMutation (resolver : Resolver K V H E) (ref : NodeRef K V H) :
    Except (HamtMutateError E) (HamtNode K V H) :=
  match resolveChildRef resolver ref with
  | .ok child => .ok child
  | .error error => .error (.resolve error)

def rebuildWithChild (hasher : Hasher K V H) (node : HamtNode K V H) (idx : Nat) (newChild : HamtNode K V H) :
    HamtNode K V H :=
  rebuildNode hasher node.datamap node.nodemap node.leaves (node.children.set idx (.resolved newChild))

variable [DecidableEq K]

def splitLeaf (hasher : Hasher K V H) (keyHash : K → KeyPathHash) (levels : Nat) (node : HamtNode K V H)
    (slot : Nat) (existing entry : K × V) : Except (HamtMutateError E) (Mutated K V H) :=
  match buildNode hasher levels
      [⟨existing.1, existing.2, keyHash existing.1⟩, ⟨entry.1, entry.2, keyHash entry.1⟩] with
  | .error error => .error (.ofBuildError error)
  | .ok child =>
    let newNodemap := node.nodemap ||| slotBit slot
    let newNode := rebuildNode hasher (node.datamap &&& ~~~slotBit slot) newNodemap
      (node.leaves.eraseIdx (mapIndex node.datamap slot))
      (node.children.insertIdx (mapIndex newNodemap slot) (.resolved child))
    .ok ⟨newNode, none, emitSplitNodesToSink child ++ [newNode]⟩

def insertNode (hasher : Hasher K V H) (keyHash : K → KeyPathHash) (resolver : Resolver K V H E) (key : K)
    (value : V) : Nat → HamtNode K V H → Except (HamtMutateError E) (Mutated K V H)
  | 0, node => .error (.hashCollision hamtMaxDepth (node.leaves.length + 1))
  | levels + 1, node =>
    let slot := bucketIndex (keyHash key) (depthOf (levels + 1))
    if node.datamap &&& slotBit slot ≠ 0 then
      let idx := mapIndex node.datamap slot
      match node.leaves[idx]? with
      | none => .error .outOfBounds
      | some existing =>
        if existing.1 = key then
          let newNode := rebuildNode hasher node.datamap node.nodemap
            (node.leaves.set idx (existing.1, value)) node.children
          .ok ⟨newNode, some existing.2, [newNode]⟩
        else splitLeaf hasher keyHash levels node slot existing (key, value)
    else if node.nodemap &&& slotBit slot ≠ 0 then
      let idx := mapIndex node.nodemap slot
      match node.children[idx]? with
      | none => .error .outOfBounds
      | some ref => do
        let child ← resolveForMutation resolver ref
        let inner ← insertNode hasher keyHash resolver key value levels child
        let newNode := rebuildWithChild hasher node idx inner.node
        .ok ⟨newNode, inner.displaced, inner.emitted ++ [newNode]⟩
    else
      let newNode := rebuildNode hasher (node.datamap ||| slotBit slot) node.nodemap
        (node.leaves.insertIdx (mapIndex node.datamap slot) (key, value)) node.children
      .ok ⟨newNode, none, [newNode]⟩

def hamtInsert (hasher : Hasher K V H) (keyHash : K → KeyPathHash) (resolver : Resolver K V H E)
    (root : HamtNode K V H) (key : K) (value : V) : Except (HamtMutateError E) (Mutated K V H) :=
  insertNode hasher keyHash resolver key value hamtMaxDepth root

end

section

variable {K V H E F : Type} {hasher : Hasher K V H} {keyHash : K → KeyPathHash} {resolver : Resolver K V H E}

inductive Reaches (resolver : Resolver K V H E) : HamtNode K V H → HamtNode K V H → Prop where
  | self (node : HamtNode K V H) : Reaches resolver node node
  | child {node child target : HamtNode K V H} {ref : NodeRef K V H} (member : ref ∈ node.children)
      (resolves : resolveChildRef resolver ref = .ok child) (below : Reaches resolver child target) :
      Reaches resolver node target

theorem Reaches.cases_child (reaches : Reaches resolver node target) :
    target = node ∨ ∃ ref ∈ node.children, ∃ child, resolveChildRef resolver ref = .ok child ∧
      Reaches resolver child target := by
  cases reaches with
  | self => exact .inl rfl
  | child mem resolves below => exact .inr ⟨_, mem, _, resolves, below⟩

theorem Reaches.trans {top middle bottom : HamtNode K V H} (upper : Reaches resolver top middle)
    (lower : Reaches resolver middle bottom) : Reaches resolver top bottom := by
  induction upper with
  | self => exact lower
  | child mem resolves _ ih => exact .child mem resolves (ih lower)

theorem Reaches.within (within : small.Within large) (reaches : Reaches small node target) :
    Reaches large node target := by
  induction reaches with
  | self node => exact .self node
  | child mem resolves _ ih => exact .child mem (within.resolveChildRef resolves) ih

section

mutual

theorem mem_emitSplitNodesToSink (node target : HamtNode K V H) :
    target ∈ emitSplitNodesToSink node ↔ Reaches noStore node target := by
  match node with
  | .mk datamap nodemap leaves children hash =>
    rw [emitSplitNodesToSink, mem_cons, mem_emitSplitChildren]
    constructor
    · rintro (rfl | ⟨child, mem, below⟩)
      · exact .self _
      · exact .child mem rfl below
    · intro reaches
      rcases reaches.cases_child with rfl | ⟨ref, mem, child, resolves, below⟩
      · exact .inl rfl
      · cases ref with
        | resolved own =>
          obtain rfl := Except.ok.inj resolves
          exact .inr ⟨own, mem, below⟩
        | lazy hash => cases resolves

theorem mem_emitSplitChildren (children : List (NodeRef K V H)) (target : HamtNode K V H) :
    target ∈ emitSplitChildren children ↔ ∃ child, .resolved child ∈ children ∧ Reaches noStore child target := by
  match children with
  | [] => simp [emitSplitChildren]
  | .resolved child :: rest =>
    rw [emitSplitChildren, mem_append, mem_emitSplitNodesToSink, mem_emitSplitChildren]
    simp only [mem_cons, NodeRef.resolved.injEq]
    constructor
    · rintro (below | ⟨other, mem, below⟩)
      · exact ⟨child, .inl rfl, below⟩
      · exact ⟨other, .inr mem, below⟩
    · rintro ⟨other, rfl | mem, below⟩
      · exact .inl below
      · exact .inr ⟨other, mem, below⟩
  | .lazy hash :: rest =>
    rw [emitSplitChildren, mem_emitSplitChildren]
    simp only [mem_cons, reduceCtorEq, false_or]

end

end

theorem Holds.child {levels : Nat} {node : HamtNode K V H} {entries : List (K × V)} {ref : NodeRef K V H}
    (holds : Holds hasher keyHash resolver (levels + 1) node entries) (mem : ref ∈ node.children) :
    ∃ child slot, resolveChildRef resolver ref = .ok child ∧ child.structuralHash = ref.structuralHash ∧
      2 ≤ (bucket keyHash (depthOf (levels + 1)) entries slot).length ∧
      Holds hasher keyHash resolver levels child (bucket keyHash (depthOf (levels + 1)) entries slot) := by
  obtain ⟨leafSlots, childSlots, packed, slots⟩ := holds
  rw [packed.children.list, Packed.items, mem_filterMap] at mem
  obtain ⟨slot, small, found⟩ := mem
  obtain ⟨several, child, resolves, named, holds⟩ := (slots slot (mem_range.mp small)).of_child found
  exact ⟨child, slot, resolves, named, several, holds⟩

theorem Holds.reaches_noStore (holds : Holds hasher keyHash noStore levels node entries)
    (reaches : Reaches resolver node target) : Reaches noStore node target := by
  induction reaches generalizing levels entries with
  | self node => exact .self node
  | @child node child target ref mem resolves below ih =>
    cases levels with
    | zero => exact holds.elim
    | succ levels =>
      obtain ⟨own, slot, found, -, -, inner⟩ := holds.child mem
      have same := (noStore_within resolver).resolveChildRef found
      obtain rfl := Except.ok.inj (same.symm.trans resolves)
      exact .child mem found (ih inner)

/-- The nodes a mutation emits are those of the new trie that it has not taken from the old one; what they
    leave unloaded was unloaded there. -/
structure Grafts (resolver : Resolver K V H E) (old new : HamtNode K V H) (emitted : List (HamtNode K V H)) :
    Prop where
  sound : ∀ target ∈ emitted, Reaches resolver new target
  complete : ∀ target, Reaches resolver new target → target ∈ emitted ∨ Reaches resolver old target
  unloaded : ∀ target ∈ emitted, ∀ hash, .lazy hash ∈ target.children →
    ∃ before, Reaches resolver old before ∧ .lazy hash ∈ before.children

theorem Grafts.unchanged (node : HamtNode K V H) : Grafts resolver node node [] where
  sound target member := by simp at member
  complete _ reaches := .inr reaches
  unloaded target member := by simp at member

theorem Grafts.own (kept : ∀ ref ∈ new.children, ref ∈ old.children) : Grafts resolver old new [new] where
  sound target member := by
    rw [mem_singleton.mp member]
    exact .self new
  complete target reaches := by
    rcases reaches.cases_child with rfl | ⟨ref, member, child, resolves, below⟩
    · exact .inl (mem_singleton_self _)
    · exact .inr (.child (kept ref member) resolves below)
  unloaded target member hash ref := by
    rw [mem_singleton.mp member] at ref
    exact ⟨old, .self old, kept _ ref⟩

theorem Grafts.child {old new newChild : HamtNode K V H} {emitted : List (HamtNode K V H)}
    (kept : ∀ ref ∈ new.children, ref = .resolved newChild ∨ ref ∈ old.children)
    (fresh : .resolved newChild ∈ new.children) (sound : ∀ target ∈ emitted, Reaches resolver newChild target)
    (complete : ∀ target, Reaches resolver newChild target → target ∈ emitted ∨ Reaches resolver old target)
    (unloaded : ∀ target ∈ emitted, ∀ hash, .lazy hash ∈ target.children →
      ∃ before, Reaches resolver old before ∧ .lazy hash ∈ before.children) :
    Grafts resolver old new (emitted ++ [new]) where
  sound target member := by
    rcases mem_append.mp member with inner | own
    · exact .child fresh rfl (sound target inner)
    · rw [mem_singleton.mp own]
      exact .self new
  complete target reaches := by
    rcases reaches.cases_child with rfl | ⟨ref, member, found, resolves, below⟩
    · exact .inl (mem_append_right _ (mem_singleton_self _))
    · rcases kept ref member with rfl | before
      · obtain rfl := Except.ok.inj resolves
        rcases complete target below with inner | earlier
        · exact .inl (mem_append_left _ inner)
        · exact .inr earlier
      · exact .inr (.child before resolves below)
  unloaded target member hash ref := by
    rcases mem_append.mp member with inner | own
    · exact unloaded target inner hash ref
    · rw [mem_singleton.mp own] at ref
      rcases kept _ ref with other | before
      · cases other
      · exact ⟨old, .self old, before⟩

theorem Grafts.replace {old new child newChild : HamtNode K V H} (inner : Grafts resolver child newChild emitted)
    (mem : ref ∈ old.children) (resolves : resolveChildRef resolver ref = .ok child)
    (kept : ∀ ref ∈ new.children, ref = .resolved newChild ∨ ref ∈ old.children)
    (fresh : .resolved newChild ∈ new.children) : Grafts resolver old new (emitted ++ [new]) := by
  apply Grafts.child kept fresh inner.sound
  · intro target reaches
    exact (inner.complete target reaches).imp_right fun below => .child mem resolves below
  · intro target inEmitted hash unloaded
    obtain ⟨before, reaches, found⟩ := inner.unloaded target inEmitted hash unloaded
    exact ⟨before, .child mem resolves reaches, found⟩

theorem Holds.loaded (holds : Holds hasher keyHash noStore levels node entries)
    (reaches : Reaches noStore node target) (hash : H) : .lazy hash ∉ target.children := by
  induction reaches generalizing levels entries with
  | self node =>
    cases levels with
    | zero => exact holds.elim
    | succ levels =>
      intro mem
      obtain ⟨child, slot, found, -⟩ := holds.child mem
      cases found
  | child mem resolves _ ih =>
    cases levels with
    | zero => exact holds.elim
    | succ levels =>
      obtain ⟨own, slot, found, -, -, inner⟩ := holds.child mem
      obtain rfl := Except.ok.inj (found.symm.trans resolves)
      exact ih inner

end

open Packed

variable {K V H E : Type} {hasher : Hasher K V H} {keyHash : K → KeyPathHash} {resolver : Resolver K V H E}

section

variable {node : HamtNode K V H} {leafSlots : Nat → Option (K × V)} {childSlots : Nat → Option (NodeRef K V H)}

section

variable (packed : node.Packed hasher leafSlots childSlots) {slot : Nat} (inside : slot < 32)
include packed inside

theorem HamtNode.Packed.leaf_taken (leaf : leafSlots slot = some entry) :
    node.datamap &&& slotBit slot ≠ 0 ∧ node.leaves[mapIndex node.datamap slot]? = some entry := by
  refine ⟨(packs_taken packed.leaves inside).mpr (by rw [leaf]; rfl), ?_⟩
  rw [packs_mapIndex packed.leaves inside]
  exact packed.leaves.get inside leaf

theorem HamtNode.Packed.leaf_free (free : leafSlots slot = none) : ¬node.datamap &&& slotBit slot ≠ 0 := by
  rw [packs_taken packed.leaves inside, free]
  exact Bool.false_ne_true

theorem HamtNode.Packed.child_taken (child : childSlots slot = some ref) :
    node.nodemap &&& slotBit slot ≠ 0 ∧ node.children[mapIndex node.nodemap slot]? = some ref := by
  refine ⟨(packs_taken packed.children inside).mpr (by rw [child]; rfl), ?_⟩
  rw [packs_mapIndex packed.children inside]
  exact packed.children.get inside child

theorem HamtNode.Packed.child_free (free : childSlots slot = none) : ¬node.nodemap &&& slotBit slot ≠ 0 := by
  rw [packs_taken packed.children inside, free]
  exact Bool.false_ne_true

end

variable {slot : Nat} (inside : slot < 32) (packed : node.Packed hasher leafSlots childSlots)

include inside packed

theorem HamtNode.Packed.add_leaf (free : leafSlots slot = none) (noChild : childSlots slot = none) (entry : K × V) :
    (rebuildNode hasher (node.datamap ||| slotBit slot) node.nodemap
      (node.leaves.insertIdx (mapIndex node.datamap slot) entry) node.children).Packed hasher
      (update leafSlots slot (some entry)) (update childSlots slot none) where
  leaves := packs_mapIndex packed.leaves inside ▸ packed.leaves.insert inside (slotBit_bit inside) free entry
  children := packed.children.keep noChild
  hash := rfl

theorem HamtNode.Packed.set_leaf (taken : leafSlots slot = some old) (noChild : childSlots slot = none)
    (entry : K × V) :
    (rebuildNode hasher node.datamap node.nodemap (node.leaves.set (mapIndex node.datamap slot) entry)
      node.children).Packed hasher
      (update leafSlots slot (some entry)) (update childSlots slot none) where
  leaves := packs_mapIndex packed.leaves inside ▸ packed.leaves.set inside taken entry
  children := packed.children.keep noChild
  hash := rfl

theorem HamtNode.Packed.set_child (taken : childSlots slot = some old) (noLeaf : leafSlots slot = none)
    (child : HamtNode K V H) : (rebuildWithChild hasher node (mapIndex node.nodemap slot) child).Packed hasher
      (update leafSlots slot none) (update childSlots slot (some (.resolved child))) where
  leaves := packed.leaves.keep noLeaf
  children := packs_mapIndex packed.children inside ▸ packed.children.set inside taken _
  hash := rfl

theorem HamtNode.Packed.mapIndex_own (noChild : childSlots slot = none) :
    mapIndex (node.nodemap ||| slotBit slot) slot = rank childSlots slot := by
  have update := packed.children.insert inside (slotBit_bit inside) noChild (.lazy node.structuralHash)
  rw [packs_mapIndex update inside]
  unfold rank items
  congr 1
  apply filterMap_congr
  intro _ mem
  exact update_of_ne (mem_range.mp mem).ne _ _

theorem HamtNode.Packed.push_down (taken : leafSlots slot = some old) (noChild : childSlots slot = none)
    (child : HamtNode K V H) : (rebuildNode hasher (node.datamap &&& ~~~slotBit slot) (node.nodemap ||| slotBit slot)
      (node.leaves.eraseIdx (mapIndex node.datamap slot))
      (node.children.insertIdx (mapIndex (node.nodemap ||| slotBit slot) slot) (.resolved child))).Packed hasher
      (update leafSlots slot none) (update childSlots slot (some (.resolved child))) where
  leaves := packs_mapIndex packed.leaves inside ▸ packed.leaves.erase inside (slotBit_bit inside) taken
  children := packed.mapIndex_own inside noChild ▸
    packed.children.insert inside (slotBit_bit inside) noChild (.resolved child)
  hash := rfl

end

section

variable {levels : Nat} {node : HamtNode K V H}

theorem splitLeaf_eq {existing entry : K × V} (fits : Spread keyHash levels [existing, entry]) (slot : Nat) :
    ∃ child, Holds hasher keyHash noStore levels child [existing, entry] ∧
      (splitLeaf hasher keyHash levels node slot existing entry : Except (HamtMutateError E) (Mutated K V H)) =
        let newNode := rebuildNode hasher (node.datamap &&& ~~~slotBit slot) (node.nodemap ||| slotBit slot)
          (node.leaves.eraseIdx (mapIndex node.datamap slot))
          (node.children.insertIdx (mapIndex (node.nodemap ||| slotBit slot) slot) (.resolved child))
        .ok ⟨newNode, none, emitSplitNodesToSink child ++ [newNode]⟩ := by
  obtain ⟨child, built, holds⟩ := @buildNode_several K V H hasher keyHash levels [existing, entry] fits (Nat.le_refl _)
  refine ⟨child, holds, ?_⟩
  unfold splitLeaf
  have run : buildNode hasher levels
      [⟨existing.1, existing.2, keyHash existing.1⟩, ⟨entry.1, entry.2, keyHash entry.1⟩] = .ok child := built
  rw [run]

theorem Grafts.split {child new : HamtNode K V H} {entries : List (K × V)}
    (holds : Holds hasher keyHash noStore levels child entries)
    (kept : ∀ ref ∈ new.children, ref = .resolved child ∨ ref ∈ node.children)
    (fresh : .resolved child ∈ new.children) :
    Grafts resolver node new (emitSplitNodesToSink child ++ [new]) := by
  apply Grafts.child kept fresh
  · intro target mem
    exact ((mem_emitSplitNodesToSink child target).mp mem).within (noStore_within resolver)
  · intro target reaches
    exact .inl ((mem_emitSplitNodesToSink child target).mpr (holds.reaches_noStore reaches))
  · intro target mem hash unloaded
    exact (holds.loaded ((mem_emitSplitNodesToSink child target).mp mem) hash unloaded).elim

end

variable [DecidableEq K] {key : K} {value : V} {levels : Nat} {node : HamtNode K V H}

theorem assign_singleton (entry : K × V) (key : K) (value : V) :
    assign [entry] key (some value) = if entry.1 = key then [(key, value)] else [entry, (key, value)] := by
  unfold assign without
  by_cases same : entry.1 = key
  · rw [filter_cons_of_neg (by simpa using same), if_pos same]
    rfl
  · rw [filter_cons_of_pos (by simpa using same), if_neg same]
    rfl

section

variable {slot : Nat} (own : route keyHash (depthOf (levels + 1)) key = slot)

include own

theorem insertNode_free (leaf : ¬node.datamap &&& slotBit slot ≠ 0) (child : ¬node.nodemap &&& slotBit slot ≠ 0) :
    insertNode hasher keyHash resolver key value (levels + 1) node =
      let newNode := rebuildNode hasher (node.datamap ||| slotBit slot) node.nodemap
        (node.leaves.insertIdx (mapIndex node.datamap slot) (key, value)) node.children
      .ok ⟨newNode, none, [newNode]⟩ := by
  subst own
  unfold route at leaf child ⊢
  rw [insertNode]
  rw [if_neg leaf, if_neg child]

theorem insertNode_at_leaf (taken : node.datamap &&& slotBit slot ≠ 0)
    (found : node.leaves[mapIndex node.datamap slot]? = some existing) :
    insertNode hasher keyHash resolver key value (levels + 1) node = if existing.1 = key then
        let newNode := rebuildNode hasher node.datamap node.nodemap
          (node.leaves.set (mapIndex node.datamap slot) (existing.1, value)) node.children
        .ok ⟨newNode, some existing.2, [newNode]⟩
      else splitLeaf hasher keyHash levels node slot existing (key, value) := by
  subst own
  unfold route at taken found ⊢
  rw [insertNode]
  dsimp only
  rw [if_pos taken, found]

theorem insertNode_at_child (leaf : ¬node.datamap &&& slotBit slot ≠ 0) (taken : node.nodemap &&& slotBit slot ≠ 0)
    (found : node.children[mapIndex node.nodemap slot]? = some ref) :
    insertNode hasher keyHash resolver key value (levels + 1) node = (do
      let child ← resolveForMutation resolver ref
      let inner ← insertNode hasher keyHash resolver key value levels child
      let newNode := rebuildWithChild hasher node (mapIndex node.nodemap slot) inner.node
      .ok ⟨newNode, inner.displaced, inner.emitted ++ [newNode]⟩) := by
  subst own
  unfold route at leaf taken found ⊢
  rw [insertNode]
  dsimp only
  rw [if_neg leaf, if_pos taken, found]

end

def InsertsInto (hasher : Hasher K V H) (keyHash : K → KeyPathHash) (resolver : Resolver K V H E) (key : K)
    (value : V) (levels : Nat) (node : HamtNode K V H) (entries : List (K × V)) : Prop :=
  ∃ result, insertNode hasher keyHash resolver key value levels node = .ok result ∧
    Holds hasher keyHash resolver levels result.node (assign entries key (some value)) ∧
    result.displaced = entries.lookup key ∧ Grafts resolver node result.node result.emitted

section

variable {leafSlots : Nat → Option (K × V)} {childSlots : Nat → Option (NodeRef K V H)} {entries : List (K × V)}
  {slot : Nat} (own : route keyHash (depthOf (levels + 1)) key = slot)
  (packed : node.Packed hasher leafSlots childSlots)
  (slots : ∀ slot < 32, SlotHolds resolver (Holds hasher keyHash resolver levels)
    (bucket keyHash (depthOf (levels + 1)) entries slot) (leafSlots slot) (childSlots slot))

include own packed slots

theorem insertNode_empty (shared : bucket keyHash (depthOf (levels + 1)) entries slot = [])
    (leaf : leafSlots slot = none) (child : childSlots slot = none) :
    InsertsInto hasher keyHash resolver key value (levels + 1) node entries := by
  have inside : slot < 32 := own ▸ route_lt keyHash _ key
  refine ⟨_, insertNode_free own (packed.leaf_free inside leaf) (packed.child_free inside child),
    holds_update own slots _ _ ?_ (packed.add_leaf inside leaf child (key, value)), ?_,
    Grafts.own fun ref mem => mem⟩
  · rw [shared]
    exact .leaf (key, value)
  · rw [← lookup_bucket (depthOf (levels + 1)) entries key, own, shared]
    rfl

theorem insertNode_leaf (shared : bucket keyHash (depthOf (levels + 1)) entries slot = [existing])
    (leaf : leafSlots slot = some existing) (child : childSlots slot = none)
    (fits : Spread keyHash levels (assign [existing] key (some value))) :
    InsertsInto hasher keyHash resolver key value (levels + 1) node entries := by
  have inside : slot < 32 := own ▸ route_lt keyHash _ key
  obtain ⟨taken, found⟩ := packed.leaf_taken inside leaf
  have before : entries.lookup key = if existing.1 = key then some existing.2 else none := by
    rw [← lookup_bucket (depthOf (levels + 1)) entries key, own, shared, lookup_singleton]
  unfold InsertsInto
  rw [insertNode_at_leaf own taken found, before]
  by_cases same : existing.1 = key
  · refine ⟨_, if_pos same, holds_update own slots _ _ ?_
      (packed.set_leaf inside leaf child (existing.1, value)), (if_pos same).symm, Grafts.own fun ref mem => mem⟩
    rw [shared, assign_singleton, if_pos same, same]
    exact .leaf (key, value)
  · rw [assign_singleton, if_neg same] at fits
    obtain ⟨new, holds, run⟩ := @splitLeaf_eq K V H E hasher keyHash levels node existing (key, value) fits slot
    have packedNew := packed.push_down inside leaf child new
    refine ⟨_, (if_neg same).trans run, holds_update own slots _ _ ?_ packedNew, (if_neg same).symm, ?_⟩
    · rw [shared, assign_singleton, if_neg same]
      exact .child (Nat.le_refl _) rfl rfl (holds.within (noStore_within resolver))
    · refine Grafts.split holds (fun ref => (mem_insertIdx ?_).mp) ((mem_insertIdx ?_).mpr (.inl rfl)) <;>
      · rw [packed.mapIndex_own inside child]
        exact packed.children.rank_le inside

theorem insertNode_child (several : 2 ≤ (bucket keyHash (depthOf (levels + 1)) entries slot).length)
    (leaf : leafSlots slot = none) (taken : childSlots slot = some ref)
    (resolves : resolveChildRef resolver ref = .ok child) (spread : Spread keyHash (levels + 1) entries)
    (inner : InsertsInto hasher keyHash resolver key value levels child
      (bucket keyHash (depthOf (levels + 1)) entries slot)) :
    InsertsInto hasher keyHash resolver key value (levels + 1) node entries := by
  have inside : slot < 32 := own ▸ route_lt keyHash _ key
  obtain ⟨bit, found⟩ := packed.child_taken inside taken
  obtain ⟨result, run, holds, displaced, grafts⟩ := inner
  have mem := mem_of_getElem? found
  refine ⟨⟨rebuildWithChild hasher node (mapIndex node.nodemap slot) result.node, result.displaced,
    result.emitted ++ [rebuildWithChild hasher node (mapIndex node.nodemap slot) result.node]⟩, ?_, holds_update own slots _ _ ?_ (packed.set_child inside taken leaf result.node), ?_, ?_⟩
  · rw [insertNode_at_child own (packed.leaf_free inside leaf) bit found, resolveForMutation, resolves]
    simp only [bind, Except.bind, run]
  · refine .child (Nat.le_trans several (length_le_assign (spread.bucket slot).distinct key value)) rfl rfl holds
  · rw [← lookup_bucket (depthOf (levels + 1)) entries key, own]
    exact displaced
  · exact grafts.replace mem resolves (fun ref inSet => (mem_or_eq_of_mem_set inSet).symm)
      (mem_set (List.getElem?_eq_some_iff.mp found).1 _)

end

theorem insertNode_holds (holds : Holds hasher keyHash resolver levels node entries)
    (spread : Spread keyHash levels entries) (fits : Spread keyHash levels (assign entries key (some value))) :
    InsertsInto hasher keyHash resolver key value levels node entries := by
  induction levels generalizing node entries with
  | zero => exact holds.elim
  | succ levels ih =>
    obtain ⟨leafSlots, childSlots, packed, slots⟩ := holds
    have innerFits := fits.bucket_assign
    rcases (slots _ (route_lt keyHash (depthOf (levels + 1)) key)).inv with ⟨shared, leaf, child⟩ |
      ⟨existing, shared, leaf, child⟩ | ⟨ref, child, several, leaf, taken, resolves, -, inner⟩
    · exact insertNode_empty rfl packed slots shared leaf child
    · exact insertNode_leaf rfl packed slots shared leaf child (shared ▸ innerFits)
    · exact insertNode_child rfl packed slots several leaf taken resolves spread (ih inner (spread.bucket _) innerFits)

end Rezzy.Hamt
