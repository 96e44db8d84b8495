import Rezzy.Hamt.Traversal

namespace Rezzy.Hamt

open Fallible List Outcome Packed

variable {K V H E : Type}

/-- A node with an item for each taken bit. The fields are public, and a resolver may answer with others. -/
structure HamtNode.Shaped (node : HamtNode K V H) : Prop where
  leaves : countOnes node.datamap ≤ node.leaves.length
  children : countOnes node.nodemap ≤ node.children.length

def ShapedBelow (resolver : Resolver K V H E) (root : HamtNode K V H) : Prop :=
  ∀ target, Reaches resolver root target → target.Shaped

section

variable {hasher : Hasher K V H} {keyHash : K → KeyPathHash} {resolver : Resolver K V H E}

theorem Holds.shaped (holds : Holds hasher keyHash resolver levels node entries) : node.Shaped := by
  cases levels with
  | zero => exact holds.elim
  | succ levels =>
    obtain ⟨leafSlots, childSlots, packed, -⟩ := holds
    exact ⟨packed.leaves.length.ge, packed.children.length.ge⟩

theorem item_at {α : Type} {list : List α} (full : countOnes bitmap ≤ list.length) (inside : slot < 32)
    (taken : bitmap.getLsbD slot = true) : ∃ item, list[mapIndex bitmap slot]? = some item := by
  have packs : Packs bitmap (items 32 fun i => if bitmap.getLsbD i then some () else none)
      fun i => if bitmap.getLsbD i then some () else none := by
    refine ⟨fun i _ => ?_, rfl⟩
    cases bitmap.getLsbD i <;> rfl
  have found := packs.get inside (if_pos taken)
  rw [← packs_mapIndex packs inside] at found
  obtain ⟨small, -⟩ := List.getElem?_eq_some_iff.mp found
  have short : mapIndex bitmap slot < list.length := Nat.lt_of_lt_of_le small (packs.length.trans_le full)
  exact ⟨_, getElem?_eq_getElem short⟩

end

section

variable {node : HamtNode K V H}

theorem HamtNode.Shaped.childRefAt (shaped : node.Shaped) (inside : slot < 32) (taken : node.nodemap.getLsbD slot = true) :
    ∃ ref ∈ node.children, (childRefAt node slot : Except (HamtTraversalError E) _) = .ok ref := by
  obtain ⟨ref, found⟩ := item_at shaped.children inside taken
  refine ⟨ref, mem_of_getElem? found, ?_⟩
  rw [Hamt.childRefAt, found]

theorem HamtNode.Shaped.leafAt (shaped : node.Shaped) (inside : slot < 32) (taken : node.datamap.getLsbD slot = true) :
    ∃ entry, (leafAt node slot : Except (HamtTraversalError E) _) = .ok entry := by
  obtain ⟨entry, found⟩ := item_at shaped.leaves inside taken
  exact ⟨entry, leafAt_ok found⟩

theorem HamtNode.Shaped.slotAt (shaped : node.Shaped) (pathHash : KeyPathHash) (depth : Nat) :
    node.slotAt pathHash depth ≠ .corrupt ∧ ∀ ref, node.slotAt pathHash depth = .child ref → ref ∈ node.children := by
  have inside := bucketIndex_lt pathHash depth
  unfold HamtNode.slotAt
  dsimp only
  split
  · rename_i taken
    obtain ⟨entry, found⟩ := item_at shaped.leaves inside ((and_slotBit_ne_zero inside _).mp taken)
    rw [found]
    exact ⟨fun same => (by cases same), fun ref same => (by cases same)⟩
  · split
    · rename_i taken
      obtain ⟨own, found⟩ := item_at shaped.children inside ((and_slotBit_ne_zero inside _).mp taken)
      rw [found]
      refine ⟨fun same => (by cases same), fun ref same => ?_⟩
      cases same
      exact mem_of_getElem? found
    · exact ⟨fun same => (by cases same), fun ref same => (by cases same)⟩

end

section

variable {resolver : Resolver K V H E} {node : HamtNode K V H}

theorem ShapedBelow.child {child : HamtNode K V H} (shaped : ShapedBelow resolver node) (member : ref ∈ node.children)
    (resolves : resolveChildRef resolver ref = .ok child) : ShapedBelow resolver child :=
  fun target reaches => shaped target (.child member resolves reaches)

theorem searchByPathHash_bounded [DecidableEq K] (shaped : ShapedBelow resolver node) (key : K)
    (pathHash : KeyPathHash) : searchByPathHash key pathHash resolver levels node ≠ .error .outOfBounds := by
  induction levels generalizing node with
  | zero => exact fun same => by cases same
  | succ levels ih =>
    obtain ⟨whole, children⟩ := (shaped node (.self node)).slotAt pathHash (depthOf (levels + 1))
    rw [searchByPathHash]
    cases slot : node.slotAt pathHash (depthOf (levels + 1)) with
    | corrupt => exact absurd slot whole
    | leaf entry => exact fun same => by cases same
    | empty => exact fun same => by cases same
    | child ref =>
      have member := children ref slot
      cases ref with
      | resolved child => exact ih (shaped.child member rfl)
      | lazy hash =>
        cases found : resolver hash with
        | error fault =>
          dsimp only
          rw [found]
          exact fun same => by cases same
        | ok child =>
          dsimp only
          rw [found]
          exact ih (shaped.child member found)

theorem resolveNodeChecked_bounded (resolver : Resolver K V H E) (ref : NodeRef K V H) :
    resolveNodeChecked resolver ref ≠ .error .outOfBounds := by
  unfold resolveNodeChecked
  split <;> exact fun same => by cases same

theorem resolved_of_checked (found : resolveNodeChecked resolver ref = .ok child) :
    resolveChildRef resolver ref = .ok child := by
  unfold resolveNodeChecked at found
  split at found
  · rename_i resolves
    exact resolves.trans (congrArg Except.ok (Except.ok.inj found))
  · cases found

theorem walkSubtree_bounded (resolver : Resolver K V H E) (levels : Nat) (node : HamtNode K V H) :
    walkSubtree resolver levels node ≠ .error .outOfBounds := by
  induction levels generalizing node with
  | zero => exact fun same => by cases same
  | succ levels ih =>
    refine bind_ne_error (mapM_ne_error fun ref _ => ?_) fun _ _ same => by cases same
    exact bind_ne_error (resolveNodeChecked_bounded resolver ref) fun child _ => ih child

theorem reachableHashesFrom_bounded (resolver : Resolver K V H E) (levels : Nat) (node : HamtNode K V H) :
    reachableHashesFrom resolver levels node ≠ .error .outOfBounds :=
  bind_ne_error (walkSubtree_bounded resolver levels node) fun _ _ same => by cases same

theorem walkReachableChildren_bounded {M : Type} (mark : Mark M H) (levels : Nat) (node : HamtNode K V H) (marks : M) :
    walkReachableChildren resolver mark levels node marks ≠ .error .outOfBounds := by
  induction levels generalizing node marks with
  | zero => exact fun same => by cases same
  | succ levels ih =>
    refine foldlM_ne_error (fun child _ marks => ?_) marks
    split
    · exact bind_ne_error (resolveNodeChecked_bounded resolver child) fun childNode _ => ih childNode _
    · exact fun same => by cases same

theorem subtreeLeaves_bounded (resolver : Resolver K V H E) (levels : Nat) (ref : NodeRef K V H) :
    subtreeLeaves resolver levels ref ≠ .error .outOfBounds := by
  refine bind_ne_error (resolveNodeChecked_bounded resolver ref) fun child _ => ?_
  exact bind_ne_error (walkSubtree_bounded resolver levels child) fun _ _ same => by cases same

end

section

variable {resolver : Resolver K V H E} {nodeA nodeB : HamtNode K V H}

/-- What both diffs do at a slot with a child on either side. -/
theorem childSlot_bounded {D : Type} [DecidableEq H] {empty : D}
    {changed : HamtNode K V H → HamtNode K V H → Except (HamtTraversalError E) D}
    {onlyA onlyB : NodeRef K V H → Except (HamtTraversalError E) D} (shapedA : ShapedBelow resolver nodeA)
    (shapedB : ShapedBelow resolver nodeB)
    (recurse : ∀ left right, ShapedBelow resolver left → ShapedBelow resolver right →
      changed left right ≠ .error .outOfBounds)
    (boundedA : ∀ ref, onlyA ref ≠ .error .outOfBounds) (boundedB : ∀ ref, onlyB ref ≠ .error .outOfBounds)
    (inside : slot < 32) (taken : nodeA.nodemap.getLsbD slot = true ∨ nodeB.nodemap.getLsbD slot = true) :
    (if nodeA.nodemap &&& slotBit slot ≠ 0 ∧ nodeB.nodemap &&& slotBit slot ≠ 0 then do
      let childA ← childRefAt nodeA slot
      let childB ← childRefAt nodeB slot
      if childA.structuralHash = childB.structuralHash then return empty
      else
        let left ← resolveNodeChecked resolver childA
        let right ← resolveNodeChecked resolver childB
        changed left right
    else if nodeA.nodemap &&& slotBit slot ≠ 0 then do
      let childA ← childRefAt nodeA slot
      onlyA childA
    else do
      let childB ← childRefAt nodeB slot
      onlyB childB) ≠ .error .outOfBounds := by
  have rootA := shapedA nodeA (.self nodeA)
  have rootB := shapedB nodeB (.self nodeB)
  have bit := and_slotBit_ne_zero inside
  split
  · rename_i both
    obtain ⟨childA, memberA, foundA⟩ := rootA.childRefAt (E := E) inside ((bit _).mp both.1)
    obtain ⟨childB, memberB, foundB⟩ := rootB.childRefAt (E := E) inside ((bit _).mp both.2)
    rw [foundA, foundB]
    dsimp only [except_ok_bind]
    split
    · exact fun same => by cases same
    · refine bind_ne_error (resolveNodeChecked_bounded resolver childA) fun left foundLeft => ?_
      refine bind_ne_error (resolveNodeChecked_bounded resolver childB) fun right foundRight => ?_
      exact recurse left right (shapedA.child memberA (resolved_of_checked foundLeft))
        (shapedB.child memberB (resolved_of_checked foundRight))
  · rename_i apart
    split
    · rename_i own
      obtain ⟨childA, -, foundA⟩ := rootA.childRefAt (E := E) inside ((bit _).mp own)
      rw [foundA]
      exact boundedA childA
    · rename_i other
      obtain ⟨childB, -, foundB⟩ := rootB.childRefAt (E := E) inside (taken.resolve_left fun own => other ((bit _).mpr own))
      rw [foundB]
      exact boundedB childB

variable [DecidableEq H]

theorem diffNodeHashesRec_bounded (shapedA : ShapedBelow resolver nodeA) (shapedB : ShapedBelow resolver nodeB) :
    diffNodeHashesRec resolver levels nodeA nodeB ≠ .error .outOfBounds := by
  induction levels generalizing nodeA nodeB with
  | zero =>
    unfold diffNodeHashesRec
    split <;> exact fun same => by cases same
  | succ levels ih =>
    unfold diffNodeHashesRec
    split
    · exact fun same => by cases same
    · refine bind_ne_error (mapM_ne_error fun slot member => ?_) fun _ _ same => by cases same
      obtain ⟨inside, taken⟩ := mem_setBits.mp member
      rw [BitVec.getLsbD_or, Bool.or_eq_true] at taken
      have alone : ∀ (wrap : List H → NodeHashDelta H) (ref : NodeRef K V H), (do
          let only ← resolveNodeChecked resolver ref
          return wrap (← reachableHashesFrom resolver levels only)) ≠ .error .outOfBounds := by
        intro wrap ref
        refine bind_ne_error (resolveNodeChecked_bounded resolver ref) fun only _ => ?_
        exact bind_ne_error (reachableHashesFrom_bounded resolver levels only) fun _ _ same => by cases same
      exact childSlot_bounded shapedA shapedB (fun _ _ => ih) (alone fun hashes => ⟨hashes, []⟩)
        (alone fun hashes => ⟨[], hashes⟩) inside taken

variable [DecidableEq K] [DecidableEq V]

omit [DecidableEq H] in
theorem diffLeaves_bounded (shapedA : nodeA.Shaped) (shapedB : nodeB.Shaped) (inside : slot < 32)
    (taken : nodeA.datamap.getLsbD slot = true ∨ nodeB.datamap.getLsbD slot = true) :
    (diffLeaves nodeA nodeB slot : Except (HamtTraversalError E) _) ≠ .error .outOfBounds := by
  unfold diffLeaves
  have bit := and_slotBit_ne_zero inside
  split
  · rename_i both
    obtain ⟨entryA, foundA⟩ := shapedA.leafAt (E := E) inside ((bit _).mp both.1)
    obtain ⟨entryB, foundB⟩ := shapedB.leafAt (E := E) inside ((bit _).mp both.2)
    rw [foundA, foundB]
    dsimp only [except_ok_bind]
    split <;> exact fun same => by cases same
  · split
    · rename_i own
      obtain ⟨entryA, foundA⟩ := shapedA.leafAt (E := E) inside ((bit _).mp own)
      rw [foundA]
      exact fun same => by cases same
    · rename_i other
      obtain ⟨entryB, foundB⟩ := shapedB.leafAt (E := E) inside (taken.resolve_left fun own => other ((bit _).mpr own))
      rw [foundB]
      exact fun same => by cases same

omit [DecidableEq H] in
theorem diffLeafSubtree_bounded (leafNode : nodeA.Shaped) (subtreeNode : nodeB.Shaped) (inside : slot < 32)
    (leaf : nodeA.datamap.getLsbD slot = true) (child : nodeB.nodemap.getLsbD slot = true) :
    diffLeafSubtree resolver levels nodeA nodeB slot ≠ .error .outOfBounds := by
  unfold diffLeafSubtree
  obtain ⟨entry, found⟩ := leafNode.leafAt (E := E) inside leaf
  obtain ⟨ref, -, taken⟩ := subtreeNode.childRefAt (E := E) inside child
  rw [found, except_ok_bind, taken, except_ok_bind]
  exact bind_ne_error (subtreeLeaves_bounded resolver levels ref) fun _ _ same => by cases same

theorem diffNodes_bounded (shapedA : ShapedBelow resolver nodeA) (shapedB : ShapedBelow resolver nodeB) :
    diffNodes resolver levels nodeA nodeB ≠ .error .outOfBounds := by
  induction levels generalizing nodeA nodeB with
  | zero =>
    unfold diffNodes
    split <;> exact fun same => by cases same
  | succ levels ih =>
    have rootA := shapedA nodeA (.self nodeA)
    have rootB := shapedB nodeB (.self nodeB)
    unfold diffNodes
    split
    · exact fun same => by cases same
    · refine bind_ne_error (mapM_ne_error fun slot member => ?_) fun _ _ => ?_
      · obtain ⟨inside, taken⟩ := mem_setBits.mp member
        rw [BitVec.getLsbD_and, BitVec.getLsbD_or, Bool.and_eq_true, Bool.or_eq_true] at taken
        exact diffLeaves_bounded rootA rootB inside taken.1
      refine bind_ne_error (mapM_ne_error fun slot member => ?_) fun _ _ => ?_
      · obtain ⟨inside, taken⟩ := mem_setBits.mp member
        simp only [BitVec.getLsbD_or, BitVec.getLsbD_and, Bool.or_eq_true, Bool.and_eq_true] at taken
        have alone : ∀ (wrap : List (K × V) → EntryDelta K V) (ref : NodeRef K V H), (do
            return wrap (← subtreeLeaves resolver levels ref)) ≠ .error .outOfBounds := fun wrap ref =>
          bind_ne_error (subtreeLeaves_bounded resolver levels ref) fun _ _ same => by cases same
        exact childSlot_bounded shapedA shapedB (fun _ _ => ih) (alone fun leaves => ⟨[], leaves⟩)
          (alone fun leaves => ⟨leaves, []⟩) inside (taken.imp And.left And.left)
      refine bind_ne_error (mapM_ne_error fun slot member => ?_) fun _ _ => ?_
      · obtain ⟨inside, taken⟩ := mem_setBits.mp member
        rw [leafASubB, BitVec.getLsbD_and, Bool.and_eq_true] at taken
        exact bind_ne_error (diffLeafSubtree_bounded rootA rootB inside taken.1 taken.2) fun _ _ same => by cases same
      refine bind_ne_error (mapM_ne_error fun slot member => ?_) fun _ _ same => by cases same
      obtain ⟨inside, taken⟩ := mem_setBits.mp member
      rw [subALeafB, BitVec.getLsbD_and, Bool.and_eq_true] at taken
      exact bind_ne_error (diffLeafSubtree_bounded rootB rootA inside taken.2 taken.1) fun _ _ same => by cases same

end

variable {resolver : Resolver K V H E} {S A : Type}

theorem firstMatchingLeaf_bounded (predicate : K × V → S → Except E (Bool × S)) (leaves : List (K × V)) (s : S) :
    Recursive.firstMatchingLeaf predicate leaves s ≠ .error .outOfBounds := by
  induction leaves generalizing s with
  | nil => exact fun same => by cases same
  | cons entry rest ih =>
    unfold Recursive.firstMatchingLeaf
    split
    · exact fun same => by cases same
    · exact fun same => by cases same
    · exact ih _

theorem firstInChildren_ends {visit : HamtNode K V H → S → Run (HamtTraversalError E) (Option A × S)}
    (each : ∀ node s, (visit node s).Ends .outOfBounds) (children : List (NodeRef K V H)) (s : S) :
    (Recursive.firstInChildren resolver visit children s).Ends .outOfBounds := by
  induction children generalizing s with
  | nil => exact ends_returned fun same => by cases same
  | cons child rest ih =>
    apply (ends_returned (resolveNodeChecked_bounded resolver child)).bind
    intro childNode _
    apply (each childNode s).bind
    intro found _
    split
    · exact ends_returned fun same => by cases same
    · exact ih found.2

theorem firstEntry_ends (node : HamtNode K V H) (s : S) (inside : levels ≤ hamtMaxDepth) (enough : levels < fuel) :
    (Recursive.firstEntry resolver predicate answer fuel (depthOf levels) node s).Ends .outOfBounds := by
  induction levels generalizing fuel node s with
  | zero =>
    obtain ⟨fuel, rfl⟩ := Nat.exists_eq_succ_of_ne_zero (Nat.ne_zero_of_lt enough)
    unfold Recursive.firstEntry
    rw [checkDepth_zero]
    exact ends_returned fun same => by cases same
  | succ levels ih =>
    obtain ⟨fuel, rfl⟩ := Nat.exists_eq_succ_of_ne_zero (Nat.ne_zero_of_lt enough)
    unfold Recursive.firstEntry
    rw [checkDepth_succ inside, ok_bind, depthOf_next inside]
    apply (ends_returned (firstMatchingLeaf_bounded predicate node.leaves s)).bind
    intro found _
    split
    · exact ends_returned fun same => by cases same
    · exact firstInChildren_ends (fun child s => ih child s (by omega) (by omega)) node.children found.2

end Rezzy.Hamt
