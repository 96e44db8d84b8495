import Rezzy.Hamt.Shaped

namespace Rezzy.Hamt

open Fallible List
open Recursive (anyEntry findEntry search)
open Run.Within (eq refl)

variable {K V H E : Type}

section

variable {resolver : Resolver K V H E}

inductive Loads (resolver : Resolver K V H E) : HamtNode K V H → Prop where
  | mk {node : HamtNode K V H} (below : NodeRef K V H → HamtNode K V H)
      (resolves : ∀ child ∈ node.children, resolveChildRef resolver child = .ok (below child))
      (loads : ∀ child ∈ node.children, Loads resolver (below child)) : Loads resolver node

def Descends (resolver : Resolver K V H E) (node childNode : HamtNode K V H) : Prop :=
  ∃ before child after, node.children = before ++ child :: after ∧
    (∀ earlier ∈ before, ∃ sibling, resolveChildRef resolver earlier = .ok sibling ∧ Loads resolver sibling) ∧
    resolveChildRef resolver child = .ok childNode

theorem loads_iff (node : HamtNode K V H) :
    Loads resolver node ↔ ∀ child ∈ node.children, ∃ childNode, resolveChildRef resolver child = .ok childNode ∧
      Loads resolver childNode := by
  constructor
  · rintro ⟨below, resolves, loads⟩ child inside
    exact ⟨below child, resolves child inside, loads child inside⟩
  · intro each
    refine .mk (fun child => (resolveChildRef resolver child).toOption.getD node) (fun child inside => ?_)
      (fun child inside => ?_)
    · obtain ⟨childNode, resolves, -⟩ := each child inside
      rw [resolves]
      rfl
    · obtain ⟨childNode, resolves, loads⟩ := each child inside
      rw [resolves]
      exact loads

section

variable {S : Type}

theorem visitEntries_within (node : HamtNode K V H) (s : S) (less : fuel ≤ more) :
    (Recursive.visitEntries resolver visitor fuel node s).Within
      (Recursive.visitEntries resolver visitor more node s) := by
  induction fuel generalizing more node s with
  | zero => exact .inl rfl
  | succ fuel ih =>
    obtain ⟨more, rfl⟩ := Nat.exists_eq_succ_of_ne_zero (Nat.ne_zero_of_lt (Nat.lt_of_succ_le less))
    apply (refl _).bind
    intro s
    apply Run.Within.foldlM
    intro s _
    apply (refl _).bind
    intro childNode
    exact ih childNode s (Nat.le_of_succ_le_succ less)

theorem visitEntries_loads (ended : Recursive.visitEntries resolver visitor fuel node s = returned (.ok last)) :
    Loads resolver node := by
  induction fuel generalizing node s last with
  | zero => exact absurd ended.symm (returned_ne_unfinished _)
  | succ fuel ih =>
    obtain ⟨t, -, below⟩ := ok_of_bind ended
    rw [loads_iff]
    intro child inside
    obtain ⟨u, v, turn⟩ := ok_of_foldlM below child inside
    obtain ⟨childNode, resolves, visited⟩ := ok_of_bind turn
    exact ⟨childNode, returned_inj resolves, ih visited⟩

theorem children_return (each : ∀ childNode, Descends resolver node childNode → ∀ s : S,
      ∃ fuel, (Recursive.visitEntries resolver visitor fuel childNode s).Returns)
    (split : node.children = before ++ left)
    (loaded : ∀ earlier ∈ before, ∃ sibling, resolveChildRef resolver earlier = .ok sibling ∧ Loads resolver sibling)
    (s : S) : ∃ fuel, (left.foldlM (fun s child => (do
      let childNode ← returned (resolveChildRef resolver child)
      Recursive.visitEntries resolver visitor fuel childNode s : Run E S)) s).Returns := by
  induction left generalizing before s with
  | nil => exact ⟨0, returns_returned _⟩
  | cons child rest ih =>
    simp only [foldlM_cons]
    cases resolves : resolveChildRef resolver child with
    | error fault => exact ⟨0, returns_returned _⟩
    | ok childNode =>
      simp only [ok_bind]
      obtain ⟨fuel, result, ended⟩ := each childNode ⟨before, child, rest, split, loaded, resolves⟩ s
      cases result with
      | error fault =>
        refine ⟨fuel, ?_⟩
        rw [ended]
        exact returns_returned _
      | ok t =>
        have further : ∀ earlier ∈ before ++ [child],
            ∃ sibling, resolveChildRef resolver earlier = .ok sibling ∧ Loads resolver sibling := by
          intro earlier inside
          rcases mem_append.mp inside with old | new
          · exact loaded earlier old
          · rw [mem_singleton.mp new]
            exact ⟨childNode, resolves, visitEntries_loads ended⟩
        obtain ⟨more, result, rested⟩ := ih (by rw [split, append_assoc, singleton_append]) further t
        refine ⟨max fuel more, ?_⟩
        rw [(visitEntries_within childNode s (Nat.le_max_left fuel more)).eq ended, ok_bind]
        refine ⟨result, eq (Run.Within.foldlM (fun u ref => ?_) rest t) rested⟩
        apply (refl _).bind
        exact fun other => visitEntries_within other u (Nat.le_max_right fuel more)

theorem visitEntries_returns (ends : Acc (fun child node => Descends resolver node child) node) (s : S) :
    ∃ fuel, (Recursive.visitEntries resolver visitor fuel node s).Returns := by
  induction ends generalizing s with
  | intro node _ ih =>
    cases visited : node.leaves.foldlM visitor s with
    | error fault =>
      refine ⟨1, ?_⟩
      unfold Recursive.visitEntries
      rw [visited]
      exact returns_returned _
    | ok t =>
      obtain ⟨fuel, returns⟩ := children_return ih (nil_append _).symm (fun _ none => absurd none not_mem_nil) t
      refine ⟨fuel + 1, ?_⟩
      unfold Recursive.visitEntries
      rw [visited]
      exact returns

end

def passEntry : Unit → K × V → Except E Unit := fun _ _ => .ok ()

theorem passEntries (leaves : List (K × V)) : leaves.foldlM (passEntry : Unit → K × V → Except E Unit) () = .ok () := by
  induction leaves with
  | nil => rfl
  | cons entry rest ih => exact ih

theorem passed_ok (loads : Loads resolver node)
    (ended : Recursive.visitEntries resolver passEntry fuel node () = returned result) : ∃ s, result = .ok s := by
  induction fuel generalizing node result with
  | zero => exact absurd ended.symm (returned_ne_unfinished _)
  | succ fuel ih =>
    unfold Recursive.visitEntries at ended
    rw [passEntries, ok_bind] at ended
    obtain ⟨s, ok⟩ := foldlM_ok (fun child inside _ outcome turn => by
      obtain ⟨childNode, resolves, below⟩ := (loads_iff node).mp loads child inside
      rw [resolves, ok_bind] at turn
      exact ih below turn) ⟨result, ended⟩
    exact ⟨s, returned_inj (ended.symm.trans ok)⟩

theorem acc_of_passed (returns : (Recursive.visitEntries resolver passEntry fuel node ()).Returns) :
    Acc (fun child node => Descends resolver node child) node := by
  induction fuel generalizing node with
  | zero => exact absurd returns not_returns_unfinished
  | succ fuel ih =>
    unfold Recursive.visitEntries at returns
    rw [passEntries, ok_bind] at returns
    constructor
    rintro childNode ⟨before, child, after, split, loaded, resolves⟩
    rw [split, foldlM_append] at returns
    obtain ⟨s, passed⟩ := foldlM_ok (fun earlier inside _ outcome turn => by
      obtain ⟨sibling, found, loads⟩ := loaded earlier inside
      rw [found, ok_bind] at turn
      exact passed_ok loads turn) returns.of_bind
    rw [passed, ok_bind, foldlM_cons, resolves, ok_bind] at returns
    exact ih returns.of_bind

end

variable [DecidableEq K] [DecidableEq V] [DecidableEq H]

/-- Each traversal with a depth of its own gives a result or an error, and does not panic at an index. -/
structure GuardedReturn (resolver : Resolver K V H E) (node : HamtNode K V H) : Prop where
  anyEntry : ∀ (S : Type) (predicate : K × V → S → Except E (Bool × S)) (s : S),
    ∃ fuel, (anyEntry resolver predicate fuel node s).Ends .outOfBounds
  findEntry : ∀ (S : Type) (predicate : K × V → S → Except E (Bool × S)) (s : S),
    ∃ fuel, (findEntry resolver predicate fuel node s).Ends .outOfBounds
  search : ∀ (keyHash : K → KeyPathHash) (key : K), ∃ fuel, (search node keyHash key resolver fuel).Ends .outOfBounds
  diffHamtNodes : ∀ other, ShapedBelow resolver other →
    ∃ fuel, (Recursive.diffHamtNodes resolver fuel node other).Ends .outOfBounds
  isolateDelta : ∀ (L : Type) [DecidableEq L] (latticeA latticeB : L) (other : HamtNode K V H),
    ShapedBelow resolver other →
      ∃ fuel, (Recursive.isolateDelta resolver fuel node latticeA other latticeB).Ends .outOfBounds
  diffNodeHashes : ∀ other, ShapedBelow resolver other →
    ∃ fuel, (Recursive.diffNodeHashes resolver fuel node other).Ends .outOfBounds
  reachableNodeHashes : ∃ fuel, (Recursive.reachableNodeHashes resolver fuel node).Ends .outOfBounds
  walkReachableNodeHashes : ∀ (M : Type) (mark : Mark M H) (marks : M),
    ∃ fuel, (Recursive.walkReachableNodeHashes resolver mark fuel node marks).Ends .outOfBounds

structure TraversalsReturn (resolver : Resolver K V H E) (node : HamtNode K V H) : Prop
    extends GuardedReturn resolver node where
  visitEntries : ∀ (S : Type) (visitor : S → K × V → Except E S) (s : S),
    ∃ fuel, (Recursive.visitEntries resolver visitor fuel node s).Returns

theorem collectDelta_ends {nodeA nodeB : HamtNode K V H} (shapedA : ShapedBelow resolver nodeA)
    (shapedB : ShapedBelow resolver nodeB) :
    (Recursive.collectDelta resolver (hamtMaxDepth + 1) nodeA nodeB).Ends .outOfBounds := by
  unfold Recursive.collectDelta
  rw [← depthOf_max, diffNodes_recursive nodeA nodeB le_rfl (Nat.lt_succ_self _)]
  exact ends_returned (diffNodes_bounded shapedA shapedB)

theorem guardedReturn {node : HamtNode K V H} (shaped : ShapedBelow resolver node) : GuardedReturn resolver node := by
  have enough := Nat.lt_succ_self hamtMaxDepth
  constructor
  · intro S predicate s
    refine ⟨hamtMaxDepth + 1, ?_⟩
    apply Run.Ends.bind
    · rw [← depthOf_max]
      exact firstEntry_ends node s le_rfl enough
    · exact fun found _ => ends_returned fun same => by cases same
  · intro S predicate s
    refine ⟨hamtMaxDepth + 1, ?_⟩
    unfold findEntry
    rw [← depthOf_max]
    exact firstEntry_ends node s le_rfl enough
  · intro _ _
    refine ⟨hamtMaxDepth + 1, ?_⟩
    unfold search
    rw [← depthOf_max, searchByPathHash_recursive node le_rfl enough]
    exact ends_returned (searchByPathHash_bounded shaped _ _)
  · intro other otherShaped
    refine ⟨hamtMaxDepth + 1, ?_⟩
    unfold Recursive.diffHamtNodes
    split
    · exact ends_returned fun same => by cases same
    · exact collectDelta_ends shaped otherShaped
  · intro _ _ _ _ other otherShaped
    refine ⟨hamtMaxDepth + 1, ?_⟩
    unfold Recursive.isolateDelta
    split
    · exact ends_returned fun same => by cases same
    · exact collectDelta_ends shaped otherShaped
  · intro other otherShaped
    refine ⟨hamtMaxDepth + 1, ?_⟩
    unfold Recursive.diffNodeHashes
    rw [← depthOf_max, diffNodeHashesRec_recursive node other le_rfl enough]
    exact ends_returned (diffNodeHashesRec_bounded shaped otherShaped)
  · refine ⟨hamtMaxDepth + 1, ?_⟩
    unfold Recursive.reachableNodeHashes
    rw [← depthOf_max, appendReachableNodeHashes_recursive node le_rfl enough]
    exact ends_returned (reachableHashesFrom_bounded resolver _ node)
  · intro _ mark _
    refine ⟨hamtMaxDepth + 1, ?_⟩
    unfold Recursive.walkReachableNodeHashes
    split
    · rw [← depthOf_max, walkReachableChildren_recursive node le_rfl enough]
      exact ends_returned (walkReachableChildren_bounded mark _ node _)
    · exact ends_returned fun same => by cases same

/-- All traversals end with a result or an error exactly where no descent goes on for ever, among nodes that hold what
    their bitmaps promise. -/
theorem traversalsReturn_iff (resolver : Resolver K V H E) (node : HamtNode K V H) (shaped : ShapedBelow resolver node) :
    TraversalsReturn resolver node ↔
      ¬∃ chain : Nat → HamtNode K V H, chain 0 = node ∧ ∀ i, Descends resolver (chain i) (chain (i + 1)) := by
  rw [← not_acc_iff_exists_descending_chain (r := fun child node => Descends resolver node child), not_not]
  constructor
  · intro returns
    obtain ⟨fuel, passed⟩ := returns.visitEntries Unit passEntry ()
    exact acc_of_passed passed
  · intro ends
    exact ⟨guardedReturn shaped, fun S visitor s => visitEntries_returns ends s⟩

namespace Sample

def loopNode : HamtNode Nat Nat Nat := ⟨0, 1, [], [.lazy 5], 5⟩

def loopStore : Resolver Nat Nat Nat Unit := fun _ => .ok loopNode

def bottom : HamtNode Nat Nat Nat := ⟨2, 0, [(7, 70)], [], 8⟩

def forked : HamtNode Nat Nat Nat := ⟨2, 5, [(6, 60)], [.resolved bottom, .lazy 8], 9⟩

def bottomStore : Resolver Nat Nat Nat Unit := fun hash => if hash = 8 then .ok bottom else .error ()

theorem forked_child (member : ref ∈ forked.children) (resolves : resolveChildRef bottomStore ref = .ok child) :
    child = bottom := by
  change ref ∈ [NodeRef.resolved bottom, .lazy 8] at member
  rcases List.mem_pair.mp member with rfl | rfl
  · exact (Except.ok.inj resolves).symm
  · exact (Except.ok.inj resolves).symm

theorem forked_shaped : ShapedBelow bottomStore forked := by
  intro target reaches
  cases reaches with
  | self => exact ⟨by decide, by decide⟩
  | child member resolves below =>
    cases forked_child member resolves
    cases below with
    | self => exact ⟨by decide, by decide⟩
    | child member => exact absurd member List.not_mem_nil

end Sample

open Sample in
theorem forked_traversals : TraversalsReturn bottomStore forked := by
  refine (traversalsReturn_iff bottomStore forked forked_shaped).mpr ?_
  rintro ⟨chain, start, descends⟩
  have first := descends 0
  rw [start] at first
  obtain ⟨before, child, after, split, -, resolves⟩ := first
  have member : child ∈ forked.children := by
    rw [split]
    exact mem_append_right before mem_cons_self
  obtain ⟨before, child, after, split, -⟩ := descends 1
  rw [forked_child member resolves] at split
  exact absurd split.symm (append_ne_nil_of_right_ne_nil before (cons_ne_nil child after))

theorem loop_unfinished (fuel : Nat) :
    Recursive.visitEntries Sample.loopStore passEntry fuel Sample.loopNode () = unfinished := by
  induction fuel with
  | zero => rfl
  | succ fuel ih =>
    have turn : Recursive.visitEntries Sample.loopStore passEntry (fuel + 1) Sample.loopNode () =
        (Recursive.visitEntries Sample.loopStore passEntry fuel Sample.loopNode () >>= fun s => pure s) := rfl
    rw [turn, ih, unfinished_bind]

theorem loop_never_visited : ¬TraversalsReturn Sample.loopStore Sample.loopNode := by
  intro returns
  obtain ⟨fuel, visited⟩ := returns.visitEntries Unit passEntry ()
  rw [loop_unfinished] at visited
  exact not_returns_unfinished visited

end Rezzy.Hamt
