import Mathlib.Data.List.Induction
import Mathlib.Data.Set.Insert

namespace HashTree

open List

variable {D : Type} (node : D → D → D)

/-- The value is the root of a tree over the leaves, whose inner nodes are made of some pairs. -/
inductive Tree (hashed : Set (D × D)) : List D → D → Prop where
  | leaf (leaf : D) : Tree hashed [leaf] leaf
  | node {left right : List D} {leftRoot rightRoot : D} (leftTree : Tree hashed left leftRoot)
      (rightTree : Tree hashed right rightRoot) (made : (leftRoot, rightRoot) ∈ hashed) :
      Tree hashed (left ++ right) (node leftRoot rightRoot)

abbrev Step (D : Type) := Bool × D

def ordered (current : D) (step : Step D) : D × D := if step.1 then (step.2, current) else (current, step.2)

def climb : D → List (Step D) → D
  | current, [] => current
  | current, step :: path => climb (node (ordered current step).1 (ordered current step).2) path

def climbNodes : D → List (Step D) → Set (D × D)
  | _, [] => ∅
  | current, step :: path =>
    {ordered current step} ∪ climbNodes (node (ordered current step).1 (ordered current step).2) path

inductive Opening : List D → Nat → List (Step D) → D → Prop where
  | leaf (leaf : D) : Opening [leaf] 0 [] leaf
  | left {left right : List D} {leftRoot rightRoot : D} {index : Nat} {path : List (Step D)}
      (opening : Opening left index path leftRoot) :
      Opening (left ++ right) index (path ++ [(false, rightRoot)]) (node leftRoot rightRoot)
  | right {left right : List D} {leftRoot rightRoot : D} {index : Nat} {path : List (Step D)}
      (opening : Opening right index path rightRoot) :
      Opening (left ++ right) (left.length + index) (path ++ [(true, leftRoot)]) (node leftRoot rightRoot)

variable {node}

theorem climb_concat (step : Step D) : climb node current (path ++ [step]) =
    node (ordered (climb node current path) step).1 (ordered (climb node current path) step).2 := by
  induction path generalizing current with
  | nil => rfl
  | cons first path ih => exact ih

theorem climbNodes_concat (step : Step D) : climbNodes node current (path ++ [step]) =
    climbNodes node current path ∪ {ordered (climb node current path) step} := by
  induction path generalizing current with
  | nil =>
    show {_} ∪ ∅ = ∅ ∪ {_}
    rw [Set.union_empty, Set.empty_union]
    rfl
  | cons first path ih =>
    show {_} ∪ climbNodes node _ (path ++ [step]) = ({_} ∪ _) ∪ _
    rw [ih, Set.union_assoc]
    rfl

theorem Opening.climb (opening : Opening node leaves index path root) :
    ∃ leaf, leaves[index]? = some leaf ∧ climb node leaf path = root := by
  induction opening with
  | leaf leaf => exact ⟨leaf, rfl, rfl⟩
  | @left left right leftRoot rightRoot index path _ ih =>
    obtain ⟨leaf, found, climbed⟩ := ih
    refine ⟨leaf, ?_, ?_⟩
    · rw [List.getElem?_append_left (List.getElem?_eq_some_iff.mp found).1, found]
    · rw [climb_concat, climbed]
      rfl
  | @right left right leftRoot rightRoot index path _ ih =>
    obtain ⟨leaf, found, climbed⟩ := ih
    refine ⟨leaf, ?_, ?_⟩
    · rw [List.getElem?_append_right (Nat.le_add_right _ _), Nat.add_sub_cancel_left, found]
    · rw [climb_concat, climbed]
      rfl

theorem Tree.sound (tree : Tree node hashed leaves root)
    (binding : ∀ one ∈ hashed, ∀ other ∈ hashed, node one.1 one.2 = node other.1 other.2 → one = other) {leafy : D → Prop}
    (apart : ∀ leaf, leafy leaf → ∀ pair ∈ hashed, leaf ≠ node pair.1 pair.2) (all : ∀ leaf ∈ leaves, leafy leaf)
    (start : leafy current) (climbed : climbNodes node current path ⊆ hashed) (same : climb node current path = root) :
    current ∈ leaves := by
  induction tree generalizing path with
  | leaf leaf =>
    cases path using List.reverseRecOn with
    | nil => exact mem_singleton.mpr same
    | append_singleton path step =>
      rw [climb_concat] at same
      rw [climbNodes_concat] at climbed
      exact absurd same.symm (apart leaf (all leaf mem_cons_self) _ (climbed (Or.inr rfl)))
  | @node left right leftRoot rightRoot _ _ made leftIh rightIh =>
    cases path using List.reverseRecOn with
    | nil => exact absurd same (apart current start _ made)
    | append_singleton path step =>
      rw [climb_concat] at same
      rw [climbNodes_concat] at climbed
      have earlier := Set.subset_union_left.trans climbed
      have pair := binding _ (climbed (Or.inr rfl)) _ made same
      obtain ⟨onLeft, other⟩ := step
      cases onLeft with
      | true =>
        have below := rightIh (fun leaf mem => all leaf (mem_append_right _ mem)) earlier (Prod.mk.inj pair).2
        exact mem_append_right _ below
      | false =>
        have below := leftIh (fun leaf mem => all leaf (mem_append_left _ mem)) earlier (Prod.mk.inj pair).1
        exact mem_append_left _ below

end HashTree
