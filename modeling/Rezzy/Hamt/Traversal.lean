import Rezzy.Hamt.Audit
import Rezzy.Hamt.Isolate

namespace Rezzy.Hamt

open Fallible Nat

variable {K V H E : Type}

def checkDepth (depth : Nat) : Except (HamtTraversalError E) Unit :=
  if hamtMaxDepth ≤ depth then .error (.maxDepthExceeded depth) else .ok ()

namespace Recursive

section

variable {S : Type}

/-- There is no check of the depth here. -/
def visitEntries (resolver : Resolver K V H E) (visitor : S → K × V → Except E S) :
    Nat → HamtNode K V H → S → Run E S
  | 0, _, _ => unfinished
  | fuel + 1, node, s => do
    let s ← returned (node.leaves.foldlM visitor s)
    node.children.foldlM (fun s child => do
      let childNode ← returned (resolveChildRef resolver child)
      visitEntries resolver visitor fuel childNode s) s

variable {A : Type}

def firstMatchingLeaf (predicate : K × V → S → Except E (Bool × S)) :
    List (K × V) → S → Except (HamtTraversalError E) (Option (K × V) × S)
  | [], s => .ok (none, s)
  | entry :: rest, s =>
    match predicate entry s with
    | .error fault => .error (.resolve fault)
    | .ok (true, s) => .ok (some entry, s)
    | .ok (false, s) => firstMatchingLeaf predicate rest s

def firstInChildren (resolver : Resolver K V H E)
    (visit : HamtNode K V H → S → Run (HamtTraversalError E) (Option A × S)) :
    List (NodeRef K V H) → S → Run (HamtTraversalError E) (Option A × S)
  | [], s => returned (.ok (none, s))
  | child :: rest, s => do
    let childNode ← returned (resolveNodeChecked resolver child)
    let found ← visit childNode s
    if found.1.isSome then return found else firstInChildren resolver visit rest found.2

def firstEntry (resolver : Resolver K V H E) (predicate : K × V → S → Except E (Bool × S)) (answer : K × V → A) :
    Nat → Nat → HamtNode K V H → S → Run (HamtTraversalError E) (Option A × S)
  | 0, _, _, _ => unfinished
  | fuel + 1, depth, node, s => do
    returned (checkDepth depth)
    let found ← returned (firstMatchingLeaf predicate node.leaves s)
    if found.1.isSome then return (found.1.map answer, found.2)
    else firstInChildren resolver (firstEntry resolver predicate answer fuel (depth + 1)) node.children found.2

def anyEntry (resolver : Resolver K V H E) (predicate : K × V → S → Except E (Bool × S)) (fuel : Nat)
    (node : HamtNode K V H) (s : S) : Run (HamtTraversalError E) (Bool × S) := do
  let found ← firstEntry resolver predicate (fun _ => ()) fuel 0 node s
  return (found.1.isSome, found.2)

def findEntry (resolver : Resolver K V H E) (predicate : K × V → S → Except E (Bool × S)) (fuel : Nat)
    (node : HamtNode K V H) (s : S) : Run (HamtTraversalError E) (Option (K × V) × S) :=
  firstEntry resolver predicate id fuel 0 node s

end

section

variable [DecidableEq K]

def searchByPathHash (key : K) (pathHash : KeyPathHash) (resolver : Resolver K V H E) :
    Nat → Nat → HamtNode K V H → Run (LookupFault E) (Option V)
  | 0, _, _ => unfinished
  | fuel + 1, depth, node =>
    if hamtMaxDepth ≤ depth then returned (.ok none)
    else
      match node.slotAt pathHash depth with
      | .leaf entry => returned (.ok (if entry.1 = key then some entry.2 else none))
      | .child (.resolved child) => searchByPathHash key pathHash resolver fuel (depth + 1) child
      | .child (.lazy hash) => do
        let child ← returned ((resolver hash).mapError .resolve)
        searchByPathHash key pathHash resolver fuel (depth + 1) child
      | .empty => returned (.ok none)
      | .corrupt => returned (.error .outOfBounds)

def search (node : HamtNode K V H) (keyHash : K → KeyPathHash) (key : K) (resolver : Resolver K V H E)
    (fuel : Nat) : Run (LookupFault E) (Option V) :=
  searchByPathHash key (keyHash key) resolver fuel 0 node

end

section

variable {M : Type}

def walkSubtree (resolver : Resolver K V H E) :
    Nat → Nat → HamtNode K V H → Run (HamtTraversalError E) (List (HamtNode K V H))
  | 0, _, _ => unfinished
  | fuel + 1, depth, node => do
    returned (checkDepth depth)
    let below ← node.children.mapM fun child => do
      let childNode ← returned (resolveNodeChecked resolver child)
      walkSubtree resolver fuel (depth + 1) childNode
    return node :: below.flatten

def appendReachableNodeHashes (resolver : Resolver K V H E) (fuel depth : Nat) (node : HamtNode K V H) :
    Run (HamtTraversalError E) (List H) := do
  let nodes ← walkSubtree resolver fuel depth node
  return nodes.map HamtNode.structuralHash

def reachableNodeHashes (resolver : Resolver K V H E) (fuel : Nat) (root : HamtNode K V H) :
    Run (HamtTraversalError E) (List H) :=
  appendReachableNodeHashes resolver fuel 0 root

def walkReachableChildren (resolver : Resolver K V H E) (mark : Mark M H) :
    Nat → Nat → HamtNode K V H → M → Run (HamtTraversalError E) M
  | 0, _, _, _ => unfinished
  | fuel + 1, depth, node, marks => do
    returned (checkDepth depth)
    node.children.foldlM (fun marks child =>
      if (mark marks child.structuralHash).1 then do
        let childNode ← returned (resolveNodeChecked resolver child)
        walkReachableChildren resolver mark fuel (depth + 1) childNode (mark marks child.structuralHash).2
      else returned (.ok (mark marks child.structuralHash).2)) marks

def walkReachableNodeHashes (resolver : Resolver K V H E) (mark : Mark M H) (fuel : Nat) (root : HamtNode K V H)
    (marks : M) : Run (HamtTraversalError E) M :=
  if (mark marks root.structuralHash).1 then
    walkReachableChildren resolver mark fuel 0 root (mark marks root.structuralHash).2
  else returned (.ok (mark marks root.structuralHash).2)

end

variable [DecidableEq H]

def diffShortCircuit (nodeA nodeB : HamtNode K V H) (depth : Nat) : Except (HamtTraversalError E) Bool :=
  if nodeA.structuralHash = nodeB.structuralHash then .ok true
  else if hamtMaxDepth ≤ depth then .error (.maxDepthExceeded depth)
  else .ok false

def resolveChangedPair (resolver : Resolver K V H E) (nodeA nodeB : HamtNode K V H) (slot : Nat) :
    Except (HamtTraversalError E) (Option (HamtNode K V H × HamtNode K V H)) := do
  let childA ← childRefAt nodeA slot
  let childB ← childRefAt nodeB slot
  if childA.structuralHash = childB.structuralHash then return none
  else
    let left ← resolveNodeChecked resolver childA
    let right ← resolveNodeChecked resolver childB
    return some (left, right)

def resolveOnlyChild (resolver : Resolver K V H E) (node : HamtNode K V H) (slot : Nat) :
    Except (HamtTraversalError E) (HamtNode K V H) := do
  let child ← childRefAt node slot
  resolveNodeChecked resolver child

def unionSlot {D : Type} (resolver : Resolver K V H E) (empty : D)
    (changed : HamtNode K V H → HamtNode K V H → Run (HamtTraversalError E) D)
    (onlyA onlyB : HamtNode K V H → Run (HamtTraversalError E) D) (nodeA nodeB : HamtNode K V H) (slot : Nat) :
    Run (HamtTraversalError E) D :=
  if nodeA.nodemap &&& slotBit slot ≠ 0 ∧ nodeB.nodemap &&& slotBit slot ≠ 0 then do
    let pair ← returned (resolveChangedPair resolver nodeA nodeB slot)
    match pair with
    | none => return empty
    | some (left, right) => changed left right
  else if nodeA.nodemap &&& slotBit slot ≠ 0 then do
    let only ← returned (resolveOnlyChild resolver nodeA slot)
    onlyA only
  else do
    let only ← returned (resolveOnlyChild resolver nodeB slot)
    onlyB only

def diffNodeHashesRec (resolver : Resolver K V H E) :
    Nat → Nat → HamtNode K V H → HamtNode K V H → Run (HamtTraversalError E) (NodeHashDelta H)
  | 0, _, _, _ => unfinished
  | fuel + 1, depth, nodeA, nodeB => do
    let same ← returned (diffShortCircuit nodeA nodeB depth)
    if same then return .empty
    else
      let deltas ← (setBits (nodeA.nodemap ||| nodeB.nodemap)).mapM
        (unionSlot resolver .empty (diffNodeHashesRec resolver fuel (depth + 1))
          (fun only => do return ⟨← appendReachableNodeHashes resolver fuel (depth + 1) only, []⟩)
          (fun only => do return ⟨[], ← appendReachableNodeHashes resolver fuel (depth + 1) only⟩) nodeA nodeB)
      return ⟨nodeA.structuralHash :: deltas.flatMap NodeHashDelta.supersededNodeHashes,
        nodeB.structuralHash :: deltas.flatMap NodeHashDelta.newNodeHashes⟩

def diffNodeHashes (resolver : Resolver K V H E) (fuel : Nat) (rootA rootB : HamtNode K V H) :
    Run (HamtTraversalError E) (NodeHashDelta H) :=
  diffNodeHashesRec resolver fuel 0 rootA rootB

variable [DecidableEq K] [DecidableEq V]

def diffLeafSubtree (resolver : Resolver K V H E) (fuel depth : Nat) (leafNode subtreeNode : HamtNode K V H)
    (slot : Nat) : Run (HamtTraversalError E) (List (K × V) × List (K × V)) := do
  let entry ← returned (leafAt leafNode slot)
  let child ← returned (resolveOnlyChild resolver subtreeNode slot)
  let nodes ← walkSubtree resolver fuel depth child
  return againstLeaf entry (nodes.flatMap HamtNode.leaves)

def diffNodes (resolver : Resolver K V H E) :
    Nat → Nat → HamtNode K V H → HamtNode K V H → Run (HamtTraversalError E) (EntryDelta K V)
  | 0, _, _, _ => unfinished
  | fuel + 1, depth, nodeA, nodeB => do
    let same ← returned (diffShortCircuit nodeA nodeB depth)
    if same then return .empty
    else
      let leaves ← returned ((leafSlots nodeA nodeB).mapM (diffLeaves nodeA nodeB))
      let children ← (childSlots nodeA nodeB).mapM
        (unionSlot resolver .empty (diffNodes resolver fuel (depth + 1))
          (fun only => do return ⟨[], (← walkSubtree resolver fuel (depth + 1) only).flatMap HamtNode.leaves⟩)
          (fun only => do return ⟨(← walkSubtree resolver fuel (depth + 1) only).flatMap HamtNode.leaves, []⟩)
          nodeA nodeB)
      let grown ← (setBits (leafASubB nodeA nodeB)).mapM fun slot => do
        let parts ← diffLeafSubtree resolver fuel (depth + 1) nodeA nodeB slot
        return ⟨parts.1, parts.2⟩
      let shrunk ← (setBits (subALeafB nodeA nodeB)).mapM fun slot => do
        let parts ← diffLeafSubtree resolver fuel (depth + 1) nodeB nodeA slot
        return ⟨parts.2, parts.1⟩
      return .join (leaves ++ children ++ grown ++ shrunk)

def collectDelta (resolver : Resolver K V H E) (fuel : Nat) (rootA rootB : HamtNode K V H) :
    Run (HamtTraversalError E) (EntryDelta K V) :=
  diffNodes resolver fuel 0 rootA rootB

def isolateDelta {L : Type} [DecidableEq L] (resolver : Resolver K V H E) (fuel : Nat) (rootA : HamtNode K V H)
    (latticeA : L) (rootB : HamtNode K V H) (latticeB : L) : Run (HamtTraversalError E) (EntryDelta K V) :=
  if latticeA = latticeB ∧ rootA.structuralHash = rootB.structuralHash then returned (.ok .empty)
  else collectDelta resolver fuel rootA rootB

def diffHamtNodes (resolver : Resolver K V H E) (fuel : Nat) (rootA rootB : HamtNode K V H) :
    Run (HamtTraversalError E) (EntryDelta K V) :=
  if rootA.structuralHash = rootB.structuralHash then returned (.ok .empty)
  else collectDelta resolver fuel rootA rootB

end Recursive

theorem depthOf_max : depthOf hamtMaxDepth = 0 := Nat.sub_self hamtMaxDepth

theorem depthOf_zero : depthOf 0 = hamtMaxDepth := rfl

theorem depthOf_next (inside : levels + 1 ≤ hamtMaxDepth) : depthOf (levels + 1) + 1 = depthOf levels := by
  unfold depthOf
  omega

theorem not_max_le_depthOf (inside : levels + 1 ≤ hamtMaxDepth) : ¬hamtMaxDepth ≤ depthOf (levels + 1) := by
  unfold depthOf
  omega

theorem checkDepth_zero :
    (checkDepth (depthOf 0) : Except (HamtTraversalError E) Unit) = .error (.maxDepthExceeded hamtMaxDepth) := by
  unfold checkDepth
  rw [depthOf_zero, if_pos le_rfl]

theorem checkDepth_succ (inside : levels + 1 ≤ hamtMaxDepth) :
    (checkDepth (depthOf (levels + 1)) : Except (HamtTraversalError E) Unit) = .ok () := by
  unfold checkDepth
  rw [if_neg (not_max_le_depthOf inside)]

theorem walkSubtree_recursive (node : HamtNode K V H) (inside : levels ≤ hamtMaxDepth) (enough : levels < fuel) :
    Recursive.walkSubtree resolver fuel (depthOf levels) node = returned (walkSubtree resolver levels node) := by
  induction levels generalizing fuel node with
  | zero =>
    obtain ⟨fuel, rfl⟩ := exists_eq_succ_of_ne_zero (Nat.ne_zero_of_lt enough)
    unfold Recursive.walkSubtree
    rw [checkDepth_zero, failed_bind]
    rfl
  | succ levels ih =>
    obtain ⟨fuel, rfl⟩ := exists_eq_succ_of_ne_zero (Nat.ne_zero_of_lt enough)
    unfold Recursive.walkSubtree walkSubtree
    rw [checkDepth_succ inside, ok_bind, depthOf_next inside, ← returned_bind, ← returned_mapM]
    · rfl
    · intro _ _
      rw [← returned_bind]
      apply bind_congr
      intro childNode
      exact ih childNode (by omega) (by omega)

theorem walkReachableChildren_recursive {M : Type} {mark : Mark M H} (node : HamtNode K V H)
    (inside : levels ≤ hamtMaxDepth) (enough : levels < fuel) (marks : M) :
    Recursive.walkReachableChildren resolver mark fuel (depthOf levels) node marks =
      returned (walkReachableChildren resolver mark levels node marks) := by
  induction levels generalizing fuel node marks with
  | zero =>
    obtain ⟨fuel, rfl⟩ := exists_eq_succ_of_ne_zero (Nat.ne_zero_of_lt enough)
    unfold Recursive.walkReachableChildren
    rw [checkDepth_zero, failed_bind]
    rfl
  | succ levels ih =>
    obtain ⟨fuel, rfl⟩ := exists_eq_succ_of_ne_zero (Nat.ne_zero_of_lt enough)
    unfold Recursive.walkReachableChildren walkReachableChildren
    rw [checkDepth_succ inside, ok_bind, depthOf_next inside]
    refine returned_foldlM (fun child _ marks => ?_) marks
    split
    · rw [← returned_bind]
      apply bind_congr
      intro childNode
      exact ih childNode (by omega) (by omega) _
    · rfl

theorem searchByPathHash_recursive [DecidableEq K] (node : HamtNode K V H) (inside : levels ≤ hamtMaxDepth)
    (enough : levels < fuel) : Recursive.searchByPathHash key pathHash resolver fuel (depthOf levels) node =
      returned (searchByPathHash key pathHash resolver levels node) := by
  induction levels generalizing fuel node with
  | zero =>
    obtain ⟨fuel, rfl⟩ := exists_eq_succ_of_ne_zero (Nat.ne_zero_of_lt enough)
    unfold Recursive.searchByPathHash
    rw [depthOf_zero, if_pos le_rfl]
    rfl
  | succ levels ih =>
    obtain ⟨fuel, rfl⟩ := exists_eq_succ_of_ne_zero (Nat.ne_zero_of_lt enough)
    have lower : ∀ child, Recursive.searchByPathHash key pathHash resolver fuel (depthOf levels) child =
        returned (searchByPathHash key pathHash resolver levels child) :=
      fun child => ih child (by omega) (by omega)
    unfold Recursive.searchByPathHash searchByPathHash
    rw [if_neg (not_max_le_depthOf inside), depthOf_next inside]
    cases node.slotAt pathHash (depthOf (levels + 1)) with
    | leaf entry => rfl
    | empty => rfl
    | corrupt => rfl
    | child ref =>
      cases ref with
      | resolved child => exact lower child
      | lazy hash =>
        rw [← returned_bind]
        apply bind_congr
        exact lower

theorem appendReachableNodeHashes_recursive (node : HamtNode K V H) (inside : levels ≤ hamtMaxDepth)
    (enough : levels < fuel) :
    Recursive.appendReachableNodeHashes resolver fuel (depthOf levels) node =
      returned (reachableHashesFrom resolver levels node) := by
  unfold Recursive.appendReachableNodeHashes reachableHashesFrom
  rw [walkSubtree_recursive node inside enough, ← returned_bind]
  rfl

theorem subtreeLeaves_bind {D : Type} (ref : NodeRef K V H) (next : List (K × V) → Except (HamtTraversalError E) D) :
    (subtreeLeaves resolver levels ref >>= next) = (resolveNodeChecked resolver ref >>= fun child =>
      walkSubtree resolver levels child >>= fun nodes => next (nodes.flatMap HamtNode.leaves)) := by
  unfold subtreeLeaves
  cases resolveNodeChecked resolver ref with
  | error fault => rfl
  | ok child =>
    simp only [except_ok_bind]
    cases walkSubtree resolver levels child <;> rfl

theorem diffLeafSubtree_recursive [DecidableEq K] [DecidableEq V]
    (leafNode subtreeNode : HamtNode K V H) (slot : Nat) (inside : levels ≤ hamtMaxDepth)
    (enough : levels < fuel) :
    Recursive.diffLeafSubtree resolver fuel (depthOf levels) leafNode subtreeNode slot =
      returned (diffLeafSubtree resolver levels leafNode subtreeNode slot) := by
  unfold Recursive.diffLeafSubtree diffLeafSubtree Recursive.resolveOnlyChild
  cases leafAt leafNode slot with
  | error fault => rfl
  | ok entry =>
    cases childRefAt subtreeNode slot with
    | error fault => rfl
    | ok ref =>
      simp only [except_ok_bind, ok_bind]
      rw [subtreeLeaves_bind, ← returned_bind]
      apply bind_congr
      intro child
      rw [walkSubtree_recursive child inside enough, ← returned_bind]
      rfl

variable [DecidableEq H]

theorem diffShortCircuit_same {nodeA nodeB : HamtNode K V H} (depth : Nat)
    (same : nodeA.structuralHash = nodeB.structuralHash) :
    (Recursive.diffShortCircuit nodeA nodeB depth : Except (HamtTraversalError E) Bool) = .ok true :=
  if_pos same

theorem diffShortCircuit_zero {nodeA nodeB : HamtNode K V H} (differ : ¬nodeA.structuralHash = nodeB.structuralHash) :
    (Recursive.diffShortCircuit nodeA nodeB (depthOf 0) : Except (HamtTraversalError E) Bool) =
      .error (.maxDepthExceeded hamtMaxDepth) := by
  unfold Recursive.diffShortCircuit
  rw [if_neg differ, depthOf_zero, if_pos le_rfl]

theorem diffShortCircuit_succ {nodeA nodeB : HamtNode K V H} (inside : levels + 1 ≤ hamtMaxDepth)
    (differ : ¬nodeA.structuralHash = nodeB.structuralHash) :
    (Recursive.diffShortCircuit nodeA nodeB (depthOf (levels + 1)) : Except (HamtTraversalError E) Bool) =
      .ok false := by
  unfold Recursive.diffShortCircuit
  rw [if_neg differ, if_neg (not_max_le_depthOf inside)]

theorem unionSlot_recursive {D : Type} {empty : D}
    {changed : HamtNode K V H → HamtNode K V H → Run (HamtTraversalError E) D}
    {onlyA onlyB : HamtNode K V H → Run (HamtTraversalError E) D}
    {changedLevels : HamtNode K V H → HamtNode K V H → Except (HamtTraversalError E) D}
    {levelsA levelsB : HamtNode K V H → Except (HamtTraversalError E) D}
    (same : ∀ left right, changed left right = returned (changedLevels left right))
    (sameA : ∀ only, onlyA only = returned (levelsA only)) (sameB : ∀ only, onlyB only = returned (levelsB only))
    {nodeA nodeB : HamtNode K V H} {slot : Nat} :
    Recursive.unionSlot resolver empty changed onlyA onlyB nodeA nodeB slot =
      returned (if nodeA.nodemap &&& slotBit slot ≠ 0 ∧ nodeB.nodemap &&& slotBit slot ≠ 0 then do
        let childA ← childRefAt nodeA slot
        let childB ← childRefAt nodeB slot
        if childA.structuralHash = childB.structuralHash then return empty
        else
          let left ← resolveNodeChecked resolver childA
          let right ← resolveNodeChecked resolver childB
          changedLevels left right
      else if nodeA.nodemap &&& slotBit slot ≠ 0 then do
        let childA ← childRefAt nodeA slot
        let only ← resolveNodeChecked resolver childA
        levelsA only
      else do
        let childB ← childRefAt nodeB slot
        let only ← resolveNodeChecked resolver childB
        levelsB only) := by
  unfold Recursive.unionSlot Recursive.resolveChangedPair Recursive.resolveOnlyChild
  split
  · cases childRefAt nodeA slot with
    | error fault => rfl
    | ok childA =>
      cases childRefAt nodeB slot with
      | error fault => rfl
      | ok childB =>
        by_cases equal : childA.structuralHash = childB.structuralHash
        · simp only [except_ok_bind, if_pos equal]
          rfl
        · simp only [except_ok_bind, if_neg equal]
          cases resolveNodeChecked resolver childA with
          | error fault => rfl
          | ok left =>
            cases resolveNodeChecked resolver childB with
            | error fault => rfl
            | ok right => exact same left right
  · split
    · cases childRefAt nodeA slot with
      | error fault => rfl
      | ok childA =>
        cases found : resolveNodeChecked resolver childA with
        | error fault =>
          simp only [except_ok_bind, found]
          rfl
        | ok only =>
          simp only [except_ok_bind, found]
          exact sameA only
    · cases childRefAt nodeB slot with
      | error fault => rfl
      | ok childB =>
        cases found : resolveNodeChecked resolver childB with
        | error fault =>
          simp only [except_ok_bind, found]
          rfl
        | ok only =>
          simp only [except_ok_bind, found]
          exact sameB only

theorem diffNodeHashesRec_recursive (nodeA nodeB : HamtNode K V H) (inside : levels ≤ hamtMaxDepth)
    (enough : levels < fuel) :
    Recursive.diffNodeHashesRec resolver fuel (depthOf levels) nodeA nodeB =
      returned (diffNodeHashesRec resolver levels nodeA nodeB) := by
  induction levels generalizing fuel nodeA nodeB with
  | zero =>
    obtain ⟨fuel, rfl⟩ := exists_eq_succ_of_ne_zero (Nat.ne_zero_of_lt enough)
    unfold Recursive.diffNodeHashesRec diffNodeHashesRec
    by_cases same : nodeA.structuralHash = nodeB.structuralHash
    · rw [diffShortCircuit_same _ same, if_pos same]
      rfl
    · rw [diffShortCircuit_zero same, if_neg same]
      rfl
  | succ levels ih =>
    obtain ⟨fuel, rfl⟩ := exists_eq_succ_of_ne_zero (Nat.ne_zero_of_lt enough)
    have lower : levels ≤ hamtMaxDepth := by omega
    have less : levels < fuel := by omega
    unfold Recursive.diffNodeHashesRec diffNodeHashesRec
    by_cases same : nodeA.structuralHash = nodeB.structuralHash
    · rw [diffShortCircuit_same _ same, if_pos same]
      rfl
    · rw [diffShortCircuit_succ inside same, if_neg same, ok_bind, if_neg Bool.false_ne_true,
        depthOf_next inside, ← returned_bind, ← returned_mapM]
      · rfl
      · intro _ _
        exact unionSlot_recursive (fun left right => ih left right lower less)
          (fun only => by rw [appendReachableNodeHashes_recursive only lower less, ← returned_bind]; rfl)
          (fun only => by rw [appendReachableNodeHashes_recursive only lower less, ← returned_bind]; rfl)

theorem diffChildren_recursive (resolver : Resolver K V H E) (nodeA nodeB : HamtNode K V H) (slot : Nat)
    (inside : levels ≤ hamtMaxDepth) (enough : levels < fuel)
    (same : ∀ left right, changed left right = returned (recurse left right)) :
    Recursive.unionSlot resolver .empty changed (fun only => do
          return ⟨[], (← Recursive.walkSubtree resolver fuel (depthOf levels) only).flatMap HamtNode.leaves⟩)
        (fun only => do
          return ⟨(← Recursive.walkSubtree resolver fuel (depthOf levels) only).flatMap HamtNode.leaves, []⟩)
        nodeA nodeB slot =
      returned (diffChildren resolver levels recurse nodeA nodeB slot) := by
  unfold diffChildren
  rw [unionSlot_recursive same (fun only => by rw [walkSubtree_recursive only inside enough]; exact returned_bind _ _)
    (fun only => by rw [walkSubtree_recursive only inside enough]; exact returned_bind _ _)]
  simp only [subtreeLeaves_bind]
  rfl

variable [DecidableEq K] [DecidableEq V]

theorem diffNodes_recursive (nodeA nodeB : HamtNode K V H) (inside : levels ≤ hamtMaxDepth) (enough : levels < fuel) :
    Recursive.diffNodes resolver fuel (depthOf levels) nodeA nodeB =
      returned (diffNodes resolver levels nodeA nodeB) := by
  induction levels generalizing fuel nodeA nodeB with
  | zero =>
    obtain ⟨fuel, rfl⟩ := exists_eq_succ_of_ne_zero (Nat.ne_zero_of_lt enough)
    unfold Recursive.diffNodes diffNodes
    by_cases same : nodeA.structuralHash = nodeB.structuralHash
    · rw [diffShortCircuit_same _ same, if_pos same]
      rfl
    · rw [diffShortCircuit_zero same, if_neg same]
      rfl
  | succ levels ih =>
    obtain ⟨fuel, rfl⟩ := exists_eq_succ_of_ne_zero (Nat.ne_zero_of_lt enough)
    have lower : levels ≤ hamtMaxDepth := by omega
    have less : levels < fuel := by omega
    unfold Recursive.diffNodes diffNodes
    by_cases same : nodeA.structuralHash = nodeB.structuralHash
    · rw [diffShortCircuit_same _ same, if_pos same]
      rfl
    · rw [diffShortCircuit_succ inside same, if_neg same, ok_bind, if_neg Bool.false_ne_true, depthOf_next inside]
      have changed : ∀ left right, Recursive.diffNodes resolver fuel (depthOf levels) left right =
          returned (diffNodes resolver levels left right) := fun left right => ih left right lower less
      have children := returned_mapM fun slot (_ : slot ∈ childSlots nodeA nodeB) =>
        diffChildren_recursive resolver nodeA nodeB slot lower less changed
      rw [children, ← returned_bind]
      apply bind_congr
      intro _
      rw [← returned_bind]
      apply bind_congr
      intro _
      have cross : ∀ leafNode subtreeNode slot,
          Recursive.diffLeafSubtree resolver fuel (depthOf levels) leafNode subtreeNode slot =
            returned (diffLeafSubtree resolver levels leafNode subtreeNode slot) :=
        fun leafNode subtreeNode slot => diffLeafSubtree_recursive leafNode subtreeNode slot lower less
      rw [← returned_bind, ← returned_mapM]
      · apply bind_congr
        intro _
        rw [← returned_bind, ← returned_mapM]
        · rfl
        · intro slot _
          rw [cross, ← returned_bind]
          rfl
      · intro slot _
        rw [cross, ← returned_bind]
        rfl

end Rezzy.Hamt
