import Rezzy.Hamt.Identity

namespace Rezzy.Hamt

open List

section

variable {K V H E : Type}

inductive HamtTraversalError (E : Type) where
  | resolve (error : E)
  | maxDepthExceeded (depth : Nat)
  /-- A taken bit without a child: the source indexes out of bounds. -/
  | outOfBounds

def resolveNodeChecked (resolver : Resolver K V H E) (ref : NodeRef K V H) :
    Except (HamtTraversalError E) (HamtNode K V H) :=
  match resolveChildRef resolver ref with
  | .ok child => .ok child
  | .error error => .error (.resolve error)

def walkSubtree (resolver : Resolver K V H E) :
    Nat → HamtNode K V H → Except (HamtTraversalError E) (List (HamtNode K V H))
  | 0, _ => .error (.maxDepthExceeded hamtMaxDepth)
  | levels + 1, node => do
    let below ← node.children.mapM fun ref => do
      let child ← resolveNodeChecked resolver ref
      walkSubtree resolver levels child
    return node :: below.flatten

def reachableHashesFrom (resolver : Resolver K V H E) (levels : Nat) (node : HamtNode K V H) :
    Except (HamtTraversalError E) (List H) := do
  let nodes ← walkSubtree resolver levels node
  return nodes.map HamtNode.structuralHash

def reachableNodeHashes (resolver : Resolver K V H E) (root : HamtNode K V H) :
    Except (HamtTraversalError E) (List H) :=
  reachableHashesFrom resolver hamtMaxDepth root

def setBits (bits : BitVec 32) : List Nat := (List.range 32).filter bits.getLsbD

structure NodeHashDelta (H : Type) where
  supersededNodeHashes : List H
  newNodeHashes : List H

def NodeHashDelta.empty : NodeHashDelta H := ⟨[], []⟩

def childRefAt (node : HamtNode K V H) (slot : Nat) : Except (HamtTraversalError E) (NodeRef K V H) :=
  match node.children[mapIndex node.nodemap slot]? with
  | some ref => .ok ref
  | none => .error .outOfBounds

variable [DecidableEq H]

def diffSlot (resolver : Resolver K V H E)
    (recurse : HamtNode K V H → HamtNode K V H → Except (HamtTraversalError E) (NodeHashDelta H))
    (appendReachable : HamtNode K V H → Except (HamtTraversalError E) (List H)) (nodeA nodeB : HamtNode K V H)
    (slot : Nat) : Except (HamtTraversalError E) (NodeHashDelta H) :=
  if nodeA.nodemap &&& slotBit slot ≠ 0 ∧ nodeB.nodemap &&& slotBit slot ≠ 0 then do
    let childA ← childRefAt nodeA slot
    let childB ← childRefAt nodeB slot
    if childA.structuralHash = childB.structuralHash then return .empty
    else
      let left ← resolveNodeChecked resolver childA
      let right ← resolveNodeChecked resolver childB
      recurse left right
  else if nodeA.nodemap &&& slotBit slot ≠ 0 then do
    let childA ← childRefAt nodeA slot
    let only ← resolveNodeChecked resolver childA
    return ⟨← appendReachable only, []⟩
  else do
    let childB ← childRefAt nodeB slot
    let only ← resolveNodeChecked resolver childB
    return ⟨[], ← appendReachable only⟩

def diffNodeHashesRec (resolver : Resolver K V H E) :
    Nat → HamtNode K V H → HamtNode K V H → Except (HamtTraversalError E) (NodeHashDelta H)
  | levels, nodeA, nodeB =>
    if nodeA.structuralHash = nodeB.structuralHash then .ok .empty
    else
      match levels with
      | 0 => .error (.maxDepthExceeded hamtMaxDepth)
      | levels + 1 => do
        let deltas ← (setBits (nodeA.nodemap ||| nodeB.nodemap)).mapM
          (diffSlot resolver (diffNodeHashesRec resolver levels) (reachableHashesFrom resolver levels) nodeA nodeB)
        return ⟨nodeA.structuralHash :: deltas.flatMap NodeHashDelta.supersededNodeHashes,
          nodeB.structuralHash :: deltas.flatMap NodeHashDelta.newNodeHashes⟩

def diffNodeHashes (resolver : Resolver K V H E) (rootA rootB : HamtNode K V H) :
    Except (HamtTraversalError E) (NodeHashDelta H) :=
  diffNodeHashesRec resolver hamtMaxDepth rootA rootB

end

open Packed

variable {K V H E : Type} {hasher : Hasher K V H} {keyHash : K → KeyPathHash} {resolver : Resolver K V H E}

theorem resolveNodeChecked_ok (resolves : resolveChildRef resolver ref = .ok child) :
    resolveNodeChecked resolver ref = .ok child := by
  rw [resolveNodeChecked, resolves]

def ReachesHash (resolver : Resolver K V H E) (node : HamtNode K V H) (hash : H) : Prop :=
  ∃ target, Reaches resolver node target ∧ target.structuralHash = hash

def BelowHash (resolver : Resolver K V H E) (node : HamtNode K V H) (slot : Nat) (hash : H) : Prop :=
  ∃ target, Below resolver node slot target ∧ target.structuralHash = hash

theorem Holds.reachesHash_iff (holds : Holds hasher keyHash resolver (levels + 1) node entries) (hash : H) :
    ReachesHash resolver node hash ↔ hash = node.structuralHash ∨ ∃ slot < 32, BelowHash resolver node slot hash := by
  constructor
  · rintro ⟨target, reaches, rfl⟩
    rcases holds.reaches_iff.mp reaches with rfl | ⟨slot, inside, below⟩
    · exact .inl rfl
    · exact .inr ⟨slot, inside, target, below, rfl⟩
  · rintro (rfl | ⟨slot, inside, target, below, rfl⟩)
    · exact ⟨node, .self node, rfl⟩
    · exact ⟨target, holds.reaches_iff.mpr (.inr ⟨slot, inside, below⟩), rfl⟩

theorem belowHash_child {hash : H} (taken : node.childAt slot = some ref)
    (resolves : resolveChildRef resolver ref = .ok child) :
    BelowHash resolver node slot hash ↔ ReachesHash resolver child hash := by
  constructor
  · rintro ⟨target, ⟨own, found, taken', resolves', reaches⟩, rfl⟩
    obtain rfl := Option.some.inj (taken.symm.trans taken')
    obtain rfl := Except.ok.inj (resolves.symm.trans resolves')
    exact ⟨target, reaches, rfl⟩
  · rintro ⟨target, reaches, rfl⟩
    exact ⟨target, ⟨ref, child, taken, resolves, reaches⟩, rfl⟩

theorem not_belowHash {hash : H} (empty : node.childAt slot = none) : ¬BelowHash resolver node slot hash := by
  rintro ⟨target, ⟨ref, child, taken, -⟩, -⟩
  rw [empty] at taken
  cases taken

theorem childRefAt_ok {node : HamtNode K V H} {slot : Nat} {ref : NodeRef K V H}
    (taken : node.childAt slot = some ref) :
    node.nodemap &&& slotBit slot ≠ 0 ∧ (childRefAt node slot : Except (HamtTraversalError E) _) = .ok ref := by
  unfold HamtNode.childAt at taken
  unfold childRefAt
  by_cases bit : node.nodemap &&& slotBit slot ≠ 0
  · rw [if_pos bit] at taken
    rw [taken]
    exact ⟨bit, rfl⟩
  · rw [if_neg bit] at taken
    cases taken

theorem Holds.childAt_none (holds : Holds hasher keyHash resolver (levels + 1) node entries) (inside : slot < 32)
    (empty : node.childAt slot = none) : ¬node.nodemap &&& slotBit slot ≠ 0 := by
  obtain ⟨leafSlots, childSlots, packed, -⟩ := holds
  exact packed.child_free inside ((packed.childAt inside).symm.trans empty)

structure NodeHashDelta.Between (delta : NodeHashDelta H) (before after : H → Prop) : Prop where
  superseded : ∀ hash, hash ∈ delta.supersededNodeHashes ↔ before hash ∧ ¬after hash
  new : ∀ hash, hash ∈ delta.newNodeHashes ↔ after hash ∧ ¬before hash
  supersededOnce : delta.supersededNodeHashes.Nodup
  newOnce : delta.newNodeHashes.Nodup

theorem NodeHashDelta.Between.empty {before after : H → Prop} (same : ∀ hash, before hash ↔ after hash) :
    (NodeHashDelta.empty : NodeHashDelta H).Between before after where
  superseded hash := by simp [NodeHashDelta.empty, same hash]
  new hash := by simp [NodeHashDelta.empty, same hash]
  supersededOnce := nodup_nil
  newOnce := nodup_nil

theorem NodeHashDelta.Between.onlyBefore {before after : H → Prop} (once : hashes.Nodup)
    (listed : ∀ hash, hash ∈ hashes ↔ before hash) (none : ∀ hash, ¬after hash) :
    (⟨hashes, []⟩ : NodeHashDelta H).Between before after where
  superseded hash := by simp [listed hash, none hash]
  new hash := by simp [none hash]
  supersededOnce := once
  newOnce := nodup_nil

theorem NodeHashDelta.Between.onlyAfter {before after : H → Prop} (once : hashes.Nodup)
    (listed : ∀ hash, hash ∈ hashes ↔ after hash) (none : ∀ hash, ¬before hash) :
    (⟨[], hashes⟩ : NodeHashDelta H).Between before after where
  superseded hash := by simp [none hash]
  new hash := by simp [listed hash, none hash]
  supersededOnce := nodup_nil
  newOnce := once

theorem NodeHashDelta.Between.congr {delta : NodeHashDelta H} {before after before' after' : H → Prop}
    (between : delta.Between before after) (sameBefore : ∀ hash, before' hash ↔ before hash)
    (sameAfter : ∀ hash, after' hash ↔ after hash) : delta.Between before' after' where
  superseded hash := by rw [between.superseded, sameBefore, sameAfter]
  new hash := by rw [between.new, sameBefore, sameAfter]
  supersededOnce := between.supersededOnce
  newOnce := between.newOnce

variable {play : HamtNode K V H → Prop} (free : CollisionFree resolver play)

theorem nodup_of_slots (inPlay : play node) (holds : Holds hasher keyHash resolver (levels + 1) node entries)
    (spread : Spread keyHash (levels + 1) entries) (free : CollisionFree resolver play) {slots : List Nat}
    (once : slots.Nodup) (inside : ∀ slot ∈ slots, slot < 32) (nodup : ∀ slot ∈ slots, (hashes slot).Nodup)
    (below : ∀ slot ∈ slots, ∀ hash ∈ hashes slot, BelowHash resolver node slot hash) :
    (node.structuralHash :: slots.flatMap hashes).Nodup := by
  rw [nodup_cons, nodup_flatMap]
  refine ⟨?_, nodup, ?_⟩
  · intro mem
    obtain ⟨slot, inSlots, found⟩ := mem_flatMap.mp mem
    obtain ⟨target, lower, same⟩ := below slot inSlots _ found
    exact below_ne free inPlay inPlay holds holds spread spread (inside slot inSlots) lower same
  · refine once.pairwise_of_forall_ne fun slot inSlots other inOther different => ?_
    intro hash first second
    obtain ⟨target, lower, same⟩ := below slot inSlots hash first
    obtain ⟨otherTarget, otherLower, otherSame⟩ := below other inOther hash second
    exact different (below_slot free inPlay inPlay holds holds spread spread (inside slot inSlots)
      (inside other inOther) lower otherLower (same.trans otherSame.symm))

include free

section

variable {levels : Nat} {node : HamtNode K V H} {entries : List (K × V)} (inPlay : play node)
  (holds : Holds hasher keyHash resolver levels node entries) (spread : Spread keyHash levels entries)
include inPlay holds spread

theorem walkSubtree_spec :
    ∃ nodes, walkSubtree resolver levels node = .ok nodes ∧ (∀ target, target ∈ nodes ↔ Reaches resolver node target) ∧
      (nodes.map HamtNode.structuralHash).Nodup := by
  induction levels generalizing node entries with
  | zero => exact holds.elim
  | succ levels ih =>
    have each : ∀ ref, ∃ nodes, ∀ slot < 32, node.childAt slot = some ref →
        (resolveNodeChecked resolver ref >>= walkSubtree resolver levels) = .ok nodes ∧
        (∀ target, target ∈ nodes ↔ Below resolver node slot target) ∧
        (nodes.map HamtNode.structuralHash).Nodup := by
      intro ref
      by_cases taken : ∃ slot < 32, node.childAt slot = some ref
      · obtain ⟨slot, inside, found⟩ := taken
        obtain ⟨child, resolves, -, mem, -, inner⟩ := holds.childAt inside found
        obtain ⟨nodes, run, reached, nodup⟩ := ih
          (free.below _ inPlay _ (.child mem resolves (.self child))) inner (spread.bucket slot)
        refine ⟨nodes, fun other otherInside otherFound => ⟨?_, ?_, nodup⟩⟩
        · rw [resolveNodeChecked_ok resolves]
          exact run
        · intro target
          rw [reached]
          constructor
          · intro reaches
            exact ⟨ref, child, otherFound, resolves, reaches⟩
          · rintro ⟨own, ownChild, ownFound, ownResolves, reaches⟩
            obtain rfl := Option.some.inj (otherFound.symm.trans ownFound)
            obtain rfl := Except.ok.inj (resolves.symm.trans ownResolves)
            exact reaches
      · exact ⟨[], fun slot inside found => (taken ⟨slot, inside, found⟩).elim⟩
    choose walk spec using each
    have bySlot : node.children.flatMap walk =
        (List.range 32).flatMap fun slot => (node.childAt slot).toList.flatMap walk := by
      conv_lhs => rw [holds.children_slots, filterMap_eq_flatMap_toList, flatMap_assoc]
    have atSlot : ∀ slot < 32, ∀ target,
        target ∈ (node.childAt slot).toList.flatMap walk ↔ Below resolver node slot target := by
      intro slot inside target
      cases found : node.childAt slot with
      | none =>
        refine ⟨fun mem => (by cases mem), ?_⟩
        rintro ⟨ref, -, taken, -⟩
        rw [found] at taken
        cases taken
      | some ref =>
        rw [Option.toList_some, flatMap_singleton]
        exact (spec ref slot inside found).2.1 target
    refine ⟨node :: node.children.flatMap walk, ?_, ?_, ?_⟩
    · rw [walkSubtree, Outcome.mapM_ok (g := walk)]
      · rfl
      · intro ref mem
        rw [holds.children_slots, mem_filterMap] at mem
        obtain ⟨slot, small, found⟩ := mem
        exact (spec ref slot (mem_range.mp small) found).1
    · intro target
      rw [mem_cons, holds.reaches_iff, bySlot, mem_flatMap]
      refine or_congr Iff.rfl (exists_congr fun slot => ?_)
      rw [mem_range]
      exact and_congr_right fun inside => atSlot slot inside target
    · rw [map_cons, bySlot, map_flatMap]
      refine nodup_of_slots inPlay holds spread free nodup_range (fun slot => mem_range.mp) ?_ ?_
      · intro slot small
        cases found : node.childAt slot with
        | none => exact nodup_nil
        | some ref =>
          rw [Option.toList_some, flatMap_singleton]
          exact (spec ref slot (mem_range.mp small) found).2.2
      · intro slot small hash mem
        obtain ⟨target, inWalk, same⟩ := mem_map.mp mem
        exact ⟨target, (atSlot slot (mem_range.mp small) target).mp inWalk, same⟩

theorem reachableHashesFrom_spec : ∃ hashes, reachableHashesFrom resolver levels node = .ok hashes ∧
      (∀ hash, hash ∈ hashes ↔ ReachesHash resolver node hash) ∧ hashes.Nodup := by
  obtain ⟨nodes, run, reached, nodup⟩ := walkSubtree_spec free inPlay holds spread
  refine ⟨nodes.map HamtNode.structuralHash, ?_, ?_, nodup⟩
  · rw [reachableHashesFrom, run]
    rfl
  · intro _
    rw [mem_map]
    exact exists_congr fun target => and_congr_left fun _ => reached target

end

theorem reachesHash_of_same (inLeft : play left) (inRight : play right)
    (holds : Holds hasher keyHash resolver levels left entries)
    (otherHolds : Holds hasher keyHash resolver otherLevels right otherEntries)
    (same : left.structuralHash = right.structuralHash) (hash : H) :
    ReachesHash resolver left hash ↔ ReachesHash resolver right hash := by
  constructor
  · rintro ⟨target, reaches, rfl⟩
    exact reaches.of_same free inLeft inRight holds otherHolds same
  · rintro ⟨target, reaches, rfl⟩
    exact reaches.of_same free inRight inLeft otherHolds holds same.symm

variable [DecidableEq H]

def Diffs (resolver : Resolver K V H E) (play : HamtNode K V H → Prop) (hasher : Hasher K V H)
    (keyHash : K → KeyPathHash) (levels : Nat) : Prop :=
  ∀ {left right : HamtNode K V H} {entries otherEntries : List (K × V)}, play left → play right →
    Holds hasher keyHash resolver levels left entries → Holds hasher keyHash resolver levels right otherEntries →
    Spread keyHash levels entries → Spread keyHash levels otherEntries →
    ∃ delta, diffNodeHashesRec resolver levels left right = .ok delta ∧
      delta.Between (ReachesHash resolver left) (ReachesHash resolver right)

section

variable {levels slot : Nat} {left right : HamtNode K V H} {entries otherEntries : List (K × V)}
  (inLeft : play left) (inRight : play right) (holds : Holds hasher keyHash resolver (levels + 1) left entries)
  (otherHolds : Holds hasher keyHash resolver (levels + 1) right otherEntries)
  (spread : Spread keyHash (levels + 1) entries) (otherSpread : Spread keyHash (levels + 1) otherEntries)

include inLeft inRight holds otherHolds spread otherSpread

theorem diffSlot_spec (recurse : Diffs resolver play hasher keyHash levels) (inside : slot < 32)
    (taken : left.childAt slot ≠ none ∨ right.childAt slot ≠ none) :
    ∃ delta, diffSlot resolver (diffNodeHashesRec resolver levels) (reachableHashesFrom resolver levels) left right
        slot = .ok delta ∧
      delta.Between (BelowHash resolver left slot) (BelowHash resolver right slot) := by
  unfold diffSlot
  cases leftRef : left.childAt slot with
  | none =>
    cases rightRef : right.childAt slot with
    | none =>
      rw [leftRef, rightRef] at taken
      exact (taken.elim (· rfl) (· rfl)).elim
    | some ref =>
      obtain ⟨child, resolves, -, mem, -, inner⟩ := otherHolds.childAt inside rightRef
      obtain ⟨hashes, run, reached, once⟩ := reachableHashesFrom_spec free
        (free.below _ inRight _ (.child mem resolves (.self child))) inner (otherSpread.bucket slot)
      have free' := holds.childAt_none inside leftRef
      refine ⟨⟨[], hashes⟩, ?_, .onlyAfter once (fun hash => ?_) fun hash => not_belowHash leftRef⟩
      · rw [if_neg (fun both => free' both.1), if_neg free', (childRefAt_ok rightRef).2]
        simp only [bind, Except.bind, resolveNodeChecked_ok resolves, run]
        rfl
      · rw [reached, belowHash_child rightRef resolves]
  | some ref =>
    obtain ⟨child, resolves, named, mem, -, inner⟩ := holds.childAt inside leftRef
    have inChild := free.below _ inLeft _ (.child mem resolves (.self child))
    obtain ⟨bit, found⟩ := childRefAt_ok (E := E) leftRef
    cases rightRef : right.childAt slot with
    | none =>
      obtain ⟨hashes, run, reached, once⟩ := reachableHashesFrom_spec free inChild inner (spread.bucket slot)
      have free' := otherHolds.childAt_none inside rightRef
      refine ⟨⟨hashes, []⟩, ?_, .onlyBefore once (fun hash => ?_) fun hash => not_belowHash rightRef⟩
      · rw [if_neg (fun both => free' both.2), if_pos bit, found]
        simp only [bind, Except.bind, resolveNodeChecked_ok resolves, run]
        rfl
      · rw [reached, belowHash_child leftRef resolves]
    | some otherRef =>
      obtain ⟨other, otherResolves, otherNamed, otherMember, -, otherInner⟩ := otherHolds.childAt inside rightRef
      have inOther := free.below _ inRight _ (.child otherMember otherResolves (.self other))
      obtain ⟨otherBit, otherFound⟩ := childRefAt_ok (E := E) rightRef
      rw [if_pos ⟨bit, otherBit⟩, found, otherFound]
      by_cases same : ref.structuralHash = otherRef.structuralHash
      · refine ⟨.empty, if_pos same, .empty fun hash => ?_⟩
        rw [belowHash_child leftRef resolves, belowHash_child rightRef otherResolves]
        exact reachesHash_of_same free inChild inOther inner otherInner (by rw [named, otherNamed, same]) hash
      · obtain ⟨delta, run, between⟩ :=
          recurse inChild inOther inner otherInner (spread.bucket slot) (otherSpread.bucket slot)
        refine ⟨delta, ?_, between.congr (fun hash => belowHash_child leftRef resolves)
          fun hash => belowHash_child rightRef otherResolves⟩
        refine (if_neg same).trans ?_
        simp only [resolveNodeChecked_ok resolves, resolveNodeChecked_ok otherResolves, bind, Except.bind]
        exact run

end

omit free [DecidableEq H] in
theorem Holds.childAt_isSome (holds : Holds hasher keyHash resolver (levels + 1) node entries) (inside : slot < 32) :
    node.nodemap.getLsbD slot = true ↔ node.childAt slot ≠ none := by
  obtain ⟨leafSlots, childSlots, packed, -⟩ := holds
  rw [packed.children.bits slot inside, packed.childAt inside, Option.isSome_iff_ne_none]

section

variable {levels : Nat} {left right : HamtNode K V H} {entries otherEntries : List (K × V)}
  (inLeft : play left) (inRight : play right) (holds : Holds hasher keyHash resolver (levels + 1) left entries)
  (otherHolds : Holds hasher keyHash resolver (levels + 1) right otherEntries)
  (spread : Spread keyHash (levels + 1) entries) (otherSpread : Spread keyHash (levels + 1) otherEntries)

include inLeft inRight holds otherHolds spread otherSpread

omit [DecidableEq H] in
theorem mem_oneSided (different : left.structuralHash ≠ right.structuralHash) {slots : List Nat}
    (small : ∀ slot ∈ slots, slot < 32) (all : ∀ slot < 32, left.childAt slot ≠ none → slot ∈ slots)
    (listed : ∀ slot ∈ slots, ∀ hash,
      hash ∈ hashes slot ↔ BelowHash resolver left slot hash ∧ ¬BelowHash resolver right slot hash) (hash : H) :
    hash ∈ left.structuralHash :: slots.flatMap hashes ↔
      ReachesHash resolver left hash ∧ ¬ReachesHash resolver right hash := by
  rw [mem_cons, mem_flatMap]
  constructor
  · rintro (rfl | ⟨slot, mem, found⟩)
    · refine ⟨⟨left, .self left, rfl⟩, fun again => ?_⟩
      rcases (otherHolds.reachesHash_iff _).mp again with root | ⟨slot, inside, target, below, equal⟩
      · exact different root
      · exact below_ne free inRight inLeft otherHolds holds otherSpread spread inside below equal
    · obtain ⟨⟨target, below, rfl⟩, absent⟩ := (listed slot mem hash).mp found
      refine ⟨(holds.reachesHash_iff _).mpr (.inr ⟨slot, small slot mem, target, below, rfl⟩), fun again => ?_⟩
      rcases (otherHolds.reachesHash_iff _).mp again with root | ⟨other, inside, found, otherBelow, equal⟩
      · exact below_ne free inLeft inRight holds otherHolds spread otherSpread (small slot mem) below root
      · obtain rfl := below_slot free inLeft inRight holds otherHolds spread otherSpread (small slot mem)
          inside below otherBelow equal.symm
        exact absent ⟨found, otherBelow, equal⟩
  · rintro ⟨reaches, absent⟩
    rcases (holds.reachesHash_iff hash).mp reaches with root | ⟨slot, inside, below⟩
    · exact .inl root
    · obtain ⟨target, ⟨ref, child, taken, resolves, lower⟩, equal⟩ := below
      have mem := all slot inside (by rw [taken]; exact Option.some_ne_none ref)
      exact .inr ⟨slot, mem, (listed slot mem hash).mpr
        ⟨⟨target, ⟨ref, child, taken, resolves, lower⟩, equal⟩, fun again => absent
          ((otherHolds.reachesHash_iff hash).mpr (.inr ⟨slot, inside, again⟩))⟩⟩

end

theorem diffNodeHashesRec_spec (levels : Nat) : Diffs resolver play hasher keyHash levels := by
  induction levels with
  | zero => exact fun _ _ holds => holds.elim
  | succ levels ih =>
    intro left right _ _ inLeft inRight holds otherHolds spread otherSpread
    rw [diffNodeHashesRec]
    by_cases same : left.structuralHash = right.structuralHash
    · exact ⟨.empty, if_pos same, .empty fun hash =>
        reachesHash_of_same free inLeft inRight holds otherHolds same hash⟩
    rw [if_neg same]
    have inUnion : ∀ slot, slot ∈ setBits (left.nodemap ||| right.nodemap) ↔
        slot < 32 ∧ (left.childAt slot ≠ none ∨ right.childAt slot ≠ none) := by
      intro slot
      rw [setBits, mem_filter, mem_range, BitVec.getLsbD_or, Bool.or_eq_true]
      exact and_congr_right fun inside =>
        or_congr (holds.childAt_isSome inside) (otherHolds.childAt_isSome inside)
    have each : ∀ slot, ∃ delta, slot ∈ setBits (left.nodemap ||| right.nodemap) →
        diffSlot resolver (diffNodeHashesRec resolver levels) (reachableHashesFrom resolver levels) left right
          slot = .ok delta ∧
        delta.Between (BelowHash resolver left slot) (BelowHash resolver right slot) := by
      intro slot
      by_cases mem : slot ∈ setBits (left.nodemap ||| right.nodemap)
      · obtain ⟨inside, taken⟩ := (inUnion slot).mp mem
        obtain ⟨delta, run, between⟩ :=
          diffSlot_spec free inLeft inRight holds otherHolds spread otherSpread ih inside taken
        exact ⟨delta, fun _ => ⟨run, between⟩⟩
      · exact ⟨.empty, fun inside => (mem inside).elim⟩
    choose deltas spec using each
    have once : (setBits (left.nodemap ||| right.nodemap)).Nodup := nodup_range.filter _
    generalize setBits (left.nodemap ||| right.nodemap) = slots at inUnion spec once ⊢
    have small : ∀ slot ∈ slots, slot < 32 := fun slot mem => ((inUnion slot).mp mem).1
    refine ⟨⟨left.structuralHash :: slots.flatMap fun slot => (deltas slot).supersededNodeHashes,
      right.structuralHash :: slots.flatMap fun slot => (deltas slot).newNodeHashes⟩, ?_, ?_⟩
    · rw [Outcome.mapM_ok (g := deltas) fun slot mem => (spec slot mem).1]
      simp only [bind, Except.bind, pure, Except.pure, flatMap_map]
    · constructor
      · exact mem_oneSided free inLeft inRight holds otherHolds spread otherSpread same small
          (fun slot inside taken => (inUnion slot).mpr ⟨inside, .inl taken⟩)
          fun slot mem => (spec slot mem).2.superseded
      · exact mem_oneSided free inRight inLeft otherHolds holds otherSpread spread (Ne.symm same) small
          (fun slot inside taken => (inUnion slot).mpr ⟨inside, .inr taken⟩)
          fun slot mem => (spec slot mem).2.new
      · exact nodup_of_slots inLeft holds spread free once small (fun slot mem => (spec slot mem).2.supersededOnce)
          fun slot mem hash listed => (((spec slot mem).2.superseded hash).mp listed).1
      · exact nodup_of_slots inRight otherHolds otherSpread free once small (fun slot mem => (spec slot mem).2.newOnce)
          fun slot mem hash listed => (((spec slot mem).2.new hash).mp listed).1

end Rezzy.Hamt
