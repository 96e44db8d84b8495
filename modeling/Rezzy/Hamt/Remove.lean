import Rezzy.Hamt.Insert

namespace Rezzy.Hamt

open List Function

section

open Packed

variable {K V H E : Type}

inductive RemoveOutcome (K V H : Type) where
  | empty
  | leaf (key : K) (value : V)
  | node (node : HamtNode K V H)

structure Removed (K V H : Type) where
  outcome : RemoveOutcome K V H
  displaced : Option V
  emitted : List (HamtNode K V H)

def finalizeAfterRemoval (hasher : Hasher K V H) (datamap nodemap : BitVec 32) (leaves : List (K × V))
    (children : List (NodeRef K V H)) : RemoveOutcome K V H :=
  if nodemap = 0 then
    match leaves with
    | [] => .empty
    | [entry] => .leaf entry.1 entry.2
    | leaves => .node (rebuildNode hasher datamap nodemap leaves children)
  else .node (rebuildNode hasher datamap nodemap leaves children)

def RemoveOutcome.emitted : RemoveOutcome K V H → List (HamtNode K V H)
  | .node newNode => [newNode]
  | .empty | .leaf .. => []

variable [DecidableEq K]

def mergeChildOutcome (hasher : Hasher K V H) (node : HamtNode K V H) (slot : Nat) (child : Removed K V H) :
    Removed K V H :=
  let idx := mapIndex node.nodemap slot
  match child.outcome with
  | .empty =>
    let outcome := finalizeAfterRemoval hasher node.datamap (node.nodemap &&& ~~~slotBit slot) node.leaves
      (node.children.eraseIdx idx)
    ⟨outcome, child.displaced, child.emitted ++ outcome.emitted⟩
  | .leaf key value =>
    let outcome := finalizeAfterRemoval hasher (node.datamap ||| slotBit slot) (node.nodemap &&& ~~~slotBit slot)
      (node.leaves.insertIdx (mapIndex node.datamap slot) (key, value)) (node.children.eraseIdx idx)
    ⟨outcome, child.displaced, child.emitted ++ outcome.emitted⟩
  | .node newChild =>
    let newNode := rebuildWithChild hasher node idx newChild
    ⟨.node newNode, child.displaced, child.emitted ++ [newNode]⟩

def removeNodeWithCtx (hasher : Hasher K V H) (resolver : Resolver K V H E) (key : K) (pathHash : KeyPathHash) :
    Nat → HamtNode K V H → Except (HamtMutateError E) (Removed K V H)
  | 0, _ => .error (.maxDepthExceeded hamtMaxDepth)
  | levels + 1, node =>
    let depth := depthOf (levels + 1)
    let slot := bucketIndex pathHash depth
    if node.datamap &&& slotBit slot ≠ 0 then
      let idx := mapIndex node.datamap slot
      match node.leaves[idx]? with
      | none => .error .outOfBounds
      | some existing =>
        if existing.1 ≠ key then .ok ⟨.node node, none, []⟩
        else
          let outcome := finalizeAfterRemoval hasher (node.datamap &&& ~~~slotBit slot) node.nodemap
            (node.leaves.eraseIdx idx) node.children
          .ok ⟨outcome, some existing.2, outcome.emitted⟩
    else if node.nodemap &&& slotBit slot = 0 then .ok ⟨.node node, none, []⟩
    else
      match node.children[mapIndex node.nodemap slot]? with
      | none => .error .outOfBounds
      | some ref => do
        let child ← resolveForMutation resolver ref
        if hamtMaxDepth ≤ depth + 1 then .error (.maxDepthExceeded (depth + 1))
        else
          let inner ← removeNodeWithCtx hasher resolver key pathHash levels child
          -- The key was not there: the node stands as it is.
          if inner.displaced.isNone then .ok ⟨.node node, none, inner.emitted⟩
          else .ok (mergeChildOutcome hasher node slot inner)

def finalizeRemoveRoot (hasher : Hasher K V H) (rootSlotForLeaf : K → Nat) (removed : Removed K V H) :
    Mutated K V H :=
  match removed.outcome with
  | .empty =>
    let root := rebuildNode hasher 0 0 [] []
    ⟨root, removed.displaced, removed.emitted ++ [root]⟩
  | .leaf key value =>
    let root := rebuildNode hasher (slotBit (rootSlotForLeaf key)) 0 [(key, value)] []
    ⟨root, removed.displaced, removed.emitted ++ [root]⟩
  | .node newRoot => ⟨newRoot, removed.displaced, removed.emitted⟩

def removeSpine (hasher : Hasher K V H) (keyHash : K → KeyPathHash) (resolver : Resolver K V H E)
    (root : HamtNode K V H) (key : K) : Except (HamtMutateError E) (Mutated K V H) := do
  let removed ← removeNodeWithCtx hasher resolver key (keyHash key) hamtMaxDepth root
  return finalizeRemoveRoot hasher (fun leafKey => bucketIndex (keyHash leafKey) 0) removed

def mutate (hasher : Hasher K V H) (keyHash : K → KeyPathHash) (resolver : Resolver K V H E)
    (root : HamtNode K V H) (key : K) (value : Option V) : Except (HamtMutateError E) (Mutated K V H) :=
  match value with
  | some value => hamtInsert hasher keyHash resolver root key value
  | none => removeSpine hasher keyHash resolver root key

end

open Packed

variable {K V H E : Type} {hasher : Hasher K V H} {keyHash : K → KeyPathHash} {resolver : Resolver K V H E}

section

theorem filter_below_succ (key : K × V → Nat) (n : Nat) (entries : List (K × V)) :
    ((entries.filter fun entry => key entry < n) ++ entries.filter fun entry => key entry = n).Perm
      (entries.filter fun entry => key entry < n + 1) := by
  induction entries with
  | nil => exact .refl _
  | cons entry entries ih =>
    rcases Nat.lt_trichotomy (key entry) n with below | same | above
    · rw [filter_cons_of_pos (by simpa using below), filter_cons_of_neg (by simpa using below.ne),
        filter_cons_of_pos (by simp; omega), cons_append]
      exact ih.cons entry
    · rw [filter_cons_of_neg (by simp; omega), filter_cons_of_pos (by simpa using same),
        filter_cons_of_pos (by simp; omega)]
      exact perm_middle.trans (ih.cons entry)
    · rw [filter_cons_of_neg (by simp; omega), filter_cons_of_neg (by simp; omega), filter_cons_of_neg (by simp; omega)]
      exact ih

theorem buckets_perm (keyHash : K → KeyPathHash) (depth : Nat) (entries : List (K × V)) :
    ((range 32).flatMap (bucket keyHash depth entries)).Perm entries := by
  have below : ∀ n, ((range n).flatMap (bucket keyHash depth entries)).Perm
      (entries.filter fun entry => route keyHash depth entry.1 < n) := by
    intro n
    induction n with
    | zero => simp
    | succ n ih =>
      rw [range_succ, flatMap_append, flatMap_singleton]
      exact (ih.append_right _).trans (filter_below_succ (fun entry => route keyHash depth entry.1) n entries)
  refine (below 32).trans ?_
  rw [filter_eq_self.mpr]
  intro entry _
  exact decide_eq_true (route_lt keyHash depth entry.1)

variable {node : HamtNode K V H} {leafSlots : Nat → Option (K × V)} {childSlots : Nat → Option (NodeRef K V H)}
  {slot : Nat} (inside : slot < 32) (packed : node.Packed hasher leafSlots childSlots)

include inside packed

theorem HamtNode.Packed.erase_leaf (taken : leafSlots slot = some old) (noChild : childSlots slot = none) :
    (rebuildNode hasher (node.datamap &&& ~~~slotBit slot) node.nodemap
      (node.leaves.eraseIdx (mapIndex node.datamap slot)) node.children).Packed hasher
      (update leafSlots slot none) (update childSlots slot none) where
  leaves := packs_mapIndex packed.leaves inside ▸ packed.leaves.erase inside (slotBit_bit inside) taken
  children := packed.children.keep noChild
  hash := rfl

theorem HamtNode.Packed.erase_child (taken : childSlots slot = some old) (noLeaf : leafSlots slot = none) :
    (rebuildNode hasher node.datamap (node.nodemap &&& ~~~slotBit slot) node.leaves
      (node.children.eraseIdx (mapIndex node.nodemap slot))).Packed hasher
      (update leafSlots slot none) (update childSlots slot none) where
  leaves := packed.leaves.keep noLeaf
  children := packs_mapIndex packed.children inside ▸ packed.children.erase inside (slotBit_bit inside) taken
  hash := rfl

theorem HamtNode.Packed.pull_up (taken : childSlots slot = some old) (noLeaf : leafSlots slot = none) (entry : K × V) :
    (rebuildNode hasher (node.datamap ||| slotBit slot) (node.nodemap &&& ~~~slotBit slot)
      (node.leaves.insertIdx (mapIndex node.datamap slot) entry)
      (node.children.eraseIdx (mapIndex node.nodemap slot))).Packed hasher
      (update leafSlots slot (some entry)) (update childSlots slot none) where
  leaves := packs_mapIndex packed.leaves inside ▸ packed.leaves.insert inside (slotBit_bit inside) noLeaf entry
  children := packs_mapIndex packed.children inside ▸ packed.children.erase inside (slotBit_bit inside) taken
  hash := rfl

end

section

theorem Holds.leaves_perm (holds : Holds hasher keyHash resolver (levels + 1) node entries) (flat : node.nodemap = 0) :
    entries.Perm node.leaves := by
  obtain ⟨leafSlots, childSlots, packed, slots⟩ := holds
  refine (buckets_perm keyHash (depthOf (levels + 1)) entries).symm.trans ?_
  rw [packed.leaves.list, items, filterMap_eq_flatMap_toList]
  refine List.Perm.of_eq (flatMap_congr fun slot mem => ?_)
  have inside := mem_range.mp mem
  rcases (slots slot inside).inv with ⟨shared, leaf, -⟩ | ⟨entry, shared, leaf, -⟩ | ⟨ref, -, -, -, taken, -⟩
  · rw [shared, leaf]
    rfl
  · rw [shared, leaf]
    rfl
  · have bit := packed.children.bits slot inside
    rw [flat, taken] at bit
    simp at bit

theorem Holds.several (holds : Holds hasher keyHash resolver (levels + 1) node entries) (deep : node.nodemap ≠ 0) :
    2 ≤ entries.length := by
  obtain ⟨leafSlots, childSlots, packed, slots⟩ := holds
  by_contra few
  apply deep
  apply BitVec.eq_of_getLsbD_eq
  intro slot inside
  rw [packed.children.bits slot inside]
  rcases (slots slot inside).inv with ⟨-, -, none⟩ | ⟨-, -, -, none⟩ | ⟨-, -, more, -⟩
  · rw [none]
    simp
  · rw [none]
    simp
  · have bound : (bucket keyHash (depthOf (levels + 1)) entries slot).length ≤ entries.length := length_filter_le _ _
    omega

def RemoveOutcome.HoldsAt (hasher : Hasher K V H) (keyHash : K → KeyPathHash) (resolver : Resolver K V H E)
    (levels : Nat) (outcome : RemoveOutcome K V H) (entries : List (K × V)) : Prop :=
  match outcome with
  | .empty => entries = []
  | .leaf key value => entries = [(key, value)]
  | .node root => 2 ≤ entries.length ∧ Holds hasher keyHash resolver levels root entries

theorem finalizeAfterRemoval_holds
    (holds : Holds hasher keyHash resolver (levels + 1) (rebuildNode hasher datamap nodemap leaves children) entries) :
    (finalizeAfterRemoval hasher datamap nodemap leaves children).HoldsAt hasher keyHash resolver (levels + 1)
      entries := by
  unfold finalizeAfterRemoval
  by_cases flat : nodemap = 0
  · have same : entries.Perm leaves := holds.leaves_perm flat
    rw [if_pos flat]
    match leaves, same, holds with
    | [], same, _ => exact perm_nil.mp same
    | [entry], same, _ => exact perm_singleton.mp same
    | first :: second :: rest, same, holds => exact ⟨by rw [same.length_eq]; simp, holds⟩
  · rw [if_neg flat]
    exact ⟨holds.several flat, holds⟩

def RemoveOutcome.GraftsAt (resolver : Resolver K V H E) (old : HamtNode K V H) (outcome : RemoveOutcome K V H)
    (emitted : List (HamtNode K V H)) : Prop :=
  match outcome with
  | .empty | .leaf .. => emitted = []
  | .node new => Grafts resolver old new emitted

theorem finalizeAfterRemoval_grafts (kept : ∀ ref ∈ children, ref ∈ old.children) :
    (finalizeAfterRemoval hasher datamap nodemap leaves children).GraftsAt resolver old
      (finalizeAfterRemoval hasher datamap nodemap leaves children).emitted := by
  have rebuilt : Grafts resolver old (rebuildNode hasher datamap nodemap leaves children)
      [rebuildNode hasher datamap nodemap leaves children] := Grafts.own kept
  unfold finalizeAfterRemoval
  split
  · split
    · rfl
    · rfl
    · exact rebuilt
  · exact rebuilt

end

variable [DecidableEq K] {key : K} {levels : Nat} {node : HamtNode K V H}

/-- What a removal has to achieve: an absent key leaves the node alone; a present one leaves the other entries
    in the only shape there is for them. -/
def RemovesFrom (hasher : Hasher K V H) (keyHash : K → KeyPathHash) (resolver : Resolver K V H E) (key : K)
    (levels : Nat) (node : HamtNode K V H) (entries : List (K × V)) : Prop :=
  ∃ result, removeNodeWithCtx hasher resolver key (keyHash key) levels node = .ok result ∧
    result.displaced = entries.lookup key ∧
    (result.displaced = none → result.outcome = .node node ∧ result.emitted = []) ∧
    (result.displaced ≠ none →
      result.outcome.HoldsAt hasher keyHash resolver levels (without entries key) ∧
      result.outcome.GraftsAt resolver node result.emitted)

section

variable {slot : Nat} (own : route keyHash (depthOf (levels + 1)) key = slot)

include own

theorem removeNodeWithCtx_free (leaf : ¬node.datamap &&& slotBit slot ≠ 0)
    (child : ¬node.nodemap &&& slotBit slot ≠ 0) :
    removeNodeWithCtx hasher resolver key (keyHash key) (levels + 1) node = .ok ⟨.node node, none, []⟩ := by
  subst own
  unfold route at leaf child
  rw [removeNodeWithCtx]
  dsimp only
  rw [if_neg leaf, if_pos (not_not.mp child)]

theorem removeNodeWithCtx_at_leaf (taken : node.datamap &&& slotBit slot ≠ 0)
    (found : node.leaves[mapIndex node.datamap slot]? = some existing) :
    removeNodeWithCtx hasher resolver key (keyHash key) (levels + 1) node =
      if existing.1 ≠ key then .ok ⟨.node node, none, []⟩
      else
        let outcome := finalizeAfterRemoval hasher (node.datamap &&& ~~~slotBit slot) node.nodemap
          (node.leaves.eraseIdx (mapIndex node.datamap slot)) node.children
        .ok ⟨outcome, some existing.2, outcome.emitted⟩ := by
  subst own
  unfold route at taken found ⊢
  rw [removeNodeWithCtx]
  dsimp only
  rw [if_pos taken, found]

theorem removeNodeWithCtx_at_child {inner : Removed K V H} (leaf : ¬node.datamap &&& slotBit slot ≠ 0)
    (taken : node.nodemap &&& slotBit slot ≠ 0) (found : node.children[mapIndex node.nodemap slot]? = some ref)
    (resolves : resolveChildRef resolver ref = .ok child) (room : depthOf (levels + 1) + 1 < hamtMaxDepth)
    (run : removeNodeWithCtx hasher resolver key (keyHash key) levels child = .ok inner) :
    removeNodeWithCtx hasher resolver key (keyHash key) (levels + 1) node =
      if inner.displaced.isNone then .ok ⟨.node node, none, inner.emitted⟩
      else .ok (mergeChildOutcome hasher node slot inner) := by
  subst own
  unfold route at leaf taken found ⊢
  rw [removeNodeWithCtx]
  dsimp only
  rw [if_neg leaf, if_neg taken, found]
  simp only [resolveForMutation, resolves, bind, Except.bind]
  rw [if_neg (Nat.not_le_of_lt room), run]

end

theorem without_singleton (entry : K × V) (key : K) : without [entry] key = if entry.1 = key then [] else [entry] := by
  unfold without
  by_cases same : entry.1 = key
  · rw [filter_cons_of_neg (by simpa using same), if_pos same]
    rfl
  · rw [filter_cons_of_pos (by simpa using same), if_neg same]
    rfl

theorem assign_none (entries : List (K × V)) (key : K) : assign entries key none = without entries key := by
  rw [assign, Option.toList_none, map_nil, append_nil]

section

variable {leafSlots : Nat → Option (K × V)} {childSlots : Nat → Option (NodeRef K V H)} {entries : List (K × V)}
  {slot : Nat} (own : route keyHash (depthOf (levels + 1)) key = slot)
  (packed : node.Packed hasher leafSlots childSlots)
  (slots : ∀ slot < 32, SlotHolds resolver (Holds hasher keyHash resolver levels)
    (bucket keyHash (depthOf (levels + 1)) entries slot) (leafSlots slot) (childSlots slot))

include own packed slots

omit slots in
theorem removeNodeWithCtx_empty (shared : bucket keyHash (depthOf (levels + 1)) entries slot = [])
    (leaf : leafSlots slot = none) (child : childSlots slot = none) :
    RemovesFrom hasher keyHash resolver key (levels + 1) node entries := by
  have inside : slot < 32 := own ▸ route_lt keyHash _ key
  refine ⟨_, removeNodeWithCtx_free own (packed.leaf_free inside leaf) (packed.child_free inside child), ?_,
    fun _ => ⟨rfl, rfl⟩, fun some => absurd rfl some⟩
  rw [← lookup_bucket (depthOf (levels + 1)) entries key, own, shared]
  rfl

theorem removeNodeWithCtx_leaf (shared : bucket keyHash (depthOf (levels + 1)) entries slot = [existing])
    (leaf : leafSlots slot = some existing) (child : childSlots slot = none) :
    RemovesFrom hasher keyHash resolver key (levels + 1) node entries := by
  have inside : slot < 32 := own ▸ route_lt keyHash _ key
  obtain ⟨taken, found⟩ := packed.leaf_taken inside leaf
  have before : entries.lookup key = if existing.1 = key then some existing.2 else none := by
    rw [← lookup_bucket (depthOf (levels + 1)) entries key, own, shared, lookup_singleton]
  unfold RemovesFrom
  rw [removeNodeWithCtx_at_leaf own taken found, before]
  by_cases same : existing.1 = key
  · refine ⟨_, if_neg (not_not.mpr same), (if_pos same).symm, fun gone => (Option.some_ne_none _ gone).elim, fun _ =>
      ⟨finalizeAfterRemoval_holds ?_, finalizeAfterRemoval_grafts fun ref mem => mem⟩⟩
    rw [← assign_none]
    refine holds_update own slots none none ?_ (packed.erase_leaf inside leaf child)
    rw [shared, assign_none, without_singleton, if_pos same]
    exact .empty
  · exact ⟨_, if_pos same, (if_neg same).symm, fun _ => ⟨rfl, rfl⟩, fun some => absurd rfl some⟩

theorem mergeChildOutcome_holds {inner : Removed K V H} (leaf : leafSlots slot = none)
    (taken : childSlots slot = some ref) (resolves : resolveChildRef resolver ref = .ok child)
    (holds : inner.outcome.HoldsAt hasher keyHash resolver levels
      (without (bucket keyHash (depthOf (levels + 1)) entries slot) key))
    (grafts : inner.outcome.GraftsAt resolver child inner.emitted) :
    (mergeChildOutcome hasher node slot inner).outcome.HoldsAt hasher keyHash resolver (levels + 1)
        (without entries key) ∧
      (mergeChildOutcome hasher node slot inner).outcome.GraftsAt resolver node
        (mergeChildOutcome hasher node slot inner).emitted := by
  have inside : slot < 32 := own ▸ route_lt keyHash _ key
  obtain ⟨-, found⟩ := packed.child_taken inside taken
  obtain ⟨outcome, displaced, emitted⟩ := inner
  rw [← assign_none] at holds ⊢
  cases outcome with
  | empty =>
    obtain rfl : emitted = [] := grafts
    have none : assign (bucket keyHash (depthOf (levels + 1)) entries slot) key none = [] := holds
    refine ⟨finalizeAfterRemoval_holds (holds_update own slots _ _ ?_ (packed.erase_child inside taken leaf)),
      finalizeAfterRemoval_grafts fun ref mem => mem_of_mem_eraseIdx mem⟩
    rw [none]
    exact .empty
  | leaf last value =>
    obtain rfl : emitted = [] := grafts
    have single : assign (bucket keyHash (depthOf (levels + 1)) entries slot) key none = [(last, value)] := holds
    refine ⟨finalizeAfterRemoval_holds (holds_update own slots _ _ ?_ (packed.pull_up inside taken leaf (last, value))),
      finalizeAfterRemoval_grafts fun ref mem => mem_of_mem_eraseIdx mem⟩
    rw [single]
    exact .leaf (last, value)
  | node newChild =>
    have rebuilt : Holds hasher keyHash resolver (levels + 1)
        (rebuildWithChild hasher node (mapIndex node.nodemap slot) newChild) (assign entries key none) :=
      holds_update own slots _ _ (.child holds.1 rfl rfl holds.2) (packed.set_child inside taken leaf newChild)
    refine ⟨⟨rebuilt.several ?_, rebuilt⟩, Grafts.replace grafts (mem_of_getElem? found) resolves
      (fun ref inSet => (mem_or_eq_of_mem_set inSet).symm)
      (mem_set (List.getElem?_eq_some_iff.mp found).1 _)⟩
    intro zero
    apply packed.child_taken inside taken |>.1
    have same : node.nodemap = 0 := zero
    rw [same]
    exact BitVec.zero_and

theorem removeNodeWithCtx_child (leaf : leafSlots slot = none) (taken : childSlots slot = some ref)
    (resolves : resolveChildRef resolver ref = .ok child) (room : depthOf (levels + 1) + 1 < hamtMaxDepth)
    (inner : RemovesFrom hasher keyHash resolver key levels child
      (bucket keyHash (depthOf (levels + 1)) entries slot)) :
    RemovesFrom hasher keyHash resolver key (levels + 1) node entries := by
  have inside : slot < 32 := own ▸ route_lt keyHash _ key
  obtain ⟨bit, found⟩ := packed.child_taken inside taken
  obtain ⟨result, run, displaced, absent, present⟩ := inner
  rw [← own, lookup_bucket] at displaced
  unfold RemovesFrom
  rw [removeNodeWithCtx_at_child own (packed.leaf_free inside leaf) bit found resolves room run]
  by_cases none : result.displaced = none
  · rw [if_pos (by rw [none]; rfl), (absent none).2]
    exact ⟨_, rfl, none.symm.trans displaced, fun _ => ⟨rfl, rfl⟩, fun some => absurd rfl some⟩
  · rw [if_neg (by rwa [Option.isNone_iff_eq_none])]
    obtain ⟨holds, grafts⟩ := present none
    have kept : (mergeChildOutcome hasher node slot result).displaced = result.displaced := by
      unfold mergeChildOutcome
      cases result.outcome <;> rfl
    refine ⟨_, rfl, kept.trans displaced, fun gone => absurd (kept.symm.trans gone) none, fun _ =>
      mergeChildOutcome_holds own packed slots leaf taken resolves holds grafts⟩

end

theorem removeNodeWithCtx_holds (holds : Holds hasher keyHash resolver levels node entries)
    (within : levels ≤ hamtMaxDepth) : RemovesFrom hasher keyHash resolver key levels node entries := by
  induction levels generalizing node entries with
  | zero => exact holds.elim
  | succ levels ih =>
    obtain ⟨leafSlots, childSlots, packed, slots⟩ := holds
    rcases (slots _ (route_lt keyHash (depthOf (levels + 1)) key)).inv with ⟨shared, leaf, child⟩ |
      ⟨existing, shared, leaf, child⟩ | ⟨ref, child, several, leaf, taken, resolves, -, inner⟩
    · exact removeNodeWithCtx_empty rfl packed shared leaf child
    · exact removeNodeWithCtx_leaf rfl packed slots shared leaf child
    · have room : depthOf (levels + 1) + 1 < hamtMaxDepth := by
        cases levels with
        | zero => exact inner.elim
        | succ levels =>
          unfold depthOf
          omega
      exact removeNodeWithCtx_child rfl packed slots leaf taken resolves room (ih inner (by omega))

end Rezzy.Hamt
