import Mathlib
import Rezzy.Lib.Alternate
import Rezzy.Lib.Permuted
import Rezzy.Pow.CuckooVerify

namespace Rezzy.Pow

open Alternate Fallible List Nat BitVec Option

section

def side (k : Nat) : U64 := if k % 2 = 0 then 0 else 1

def edgeAt (order : List U64) (k : Nat) : U64 := order.getD (k % proofSize) 0

/-- Each edge shares a node with the next, on one side and on the other in turn; the nodes of a side are apart. -/
structure CycleOrder (nodeOf : NodeOf) (order : List U64) : Prop where
  shares : ∀ k, nodeOf (edgeAt order k) (side k) = nodeOf (edgeAt order (k + 1)) (side k)
  apart0 : ∀ m < 21, ∀ l < 21, nodeOf (edgeAt order (2 * m)) 0 = nodeOf (edgeAt order (2 * l)) 0 → m = l
  apart1 : ∀ m < 21, ∀ l < 21,
    nodeOf (edgeAt order (2 * m + 1)) 1 = nodeOf (edgeAt order (2 * l + 1)) 1 → m = l

structure IsCycle (nodeOf : NodeOf) (edges : List U64) : Prop where
  size : edges.length = 42
  ascends : edges.Pairwise (· < ·)
  small : ∀ edge ∈ edges, edge.toNat < 2 ^ 29
  cyclic : ∃ order : List U64, order.Perm edges ∧ CycleOrder nodeOf order

theorem validateEdges_ok (previous : Option U64) (edges : List U64) : validateEdges previous edges = .ok () ↔
    (∀ edge ∈ edges, edge.toNat < 2 ^ 29) ∧ edges.Pairwise (· < ·) ∧
      ∀ before, previous = some before → ∀ edge ∈ edges, before < edge := by
  induction edges generalizing previous with
  | nil => simp [validateEdges]
  | cons edge rest ih =>
    have mask : ¬edgeMask < edge ↔ edge.toNat < 2 ^ 29 := by
      rw [lt_def]
      have value : edgeMask.toNat = 2 ^ 29 - 1 := by decide
      omega
    unfold validateEdges
    by_cases big : edgeMask < edge
    · rw [if_pos big]
      exact iff_of_false nofun fun ⟨small, _⟩ => mask.mpr (small edge mem_cons_self) big
    · rw [if_neg big]
      by_cases low : (previous.any fun previous => edge ≤ previous) = true
      · rw [if_pos low]
        obtain ⟨before, given, le⟩ := (Option.any_eq_true _ _).mp low
        refine iff_of_false nofun fun ⟨_, _, after⟩ => ?_
        exact absurd (after before given edge mem_cons_self) (BitVec.not_lt.mpr (of_decide_eq_true le))
      · rw [if_neg low, ih]
        simp only [forall_mem_cons, pairwise_cons, Option.some.injEq]
        have first : ∀ before, previous = some before → before < edge := by
          intro before given
          rw [← BitVec.not_le]
          exact fun le => low ((Option.any_eq_true _ _).mpr ⟨before, given, decide_eq_true le⟩)
        constructor
        · rintro ⟨small, pairs, after⟩
          refine ⟨⟨mask.mp big, small⟩, ⟨after edge rfl, pairs⟩, fun before given => ⟨first before given, ?_⟩⟩
          exact fun other inside => BitVec.lt_trans (first before given) (after edge rfl other inside)
        · rintro ⟨⟨_, small⟩, ⟨after, pairs⟩, _⟩
          refine ⟨small, pairs, ?_⟩
          rintro _ rfl
          exact after

theorem validateSolutionShape_ok (edges : List U64) : validateSolutionShape edges = .ok () ↔
    edges.length = 42 ∧ edges.Pairwise (· < ·) ∧ ∀ edge ∈ edges, edge.toNat < 2 ^ 29 := by
  unfold validateSolutionShape
  by_cases size : edges.length = proofSize
  · rw [if_neg (not_not_intro size), validateEdges_ok]
    constructor
    · exact fun ⟨small, pairs, _⟩ => ⟨size, pairs, small⟩
    · exact fun ⟨_, pairs, small⟩ => ⟨small, pairs, nofun⟩
  · rw [if_pos size]
    exact iff_of_false nofun fun ⟨length, _⟩ => size length

theorem endpoints_length (nodeOf : NodeOf) (edges : List U64) : (endpoints nodeOf edges).length = 2 * edges.length := by
  unfold endpoints
  induction edges with
  | nil => rfl
  | cons edge rest ih =>
    rw [flatMap_cons, length_append, ih]
    simp
    omega

theorem side_mod (k : Nat) : side (k % 2) = side k := by
  unfold side
  rw [mod_mod]

theorem endpoints_get (inside : i < 2 * edges.length) :
    (endpoints nodeOf edges)[i]? = some (nodeOf (edges.getD (i / 2) 0) (side i)) := by
  unfold endpoints
  induction edges generalizing i with
  | nil => simp at inside
  | cons edge rest ih =>
    rw [flatMap_cons]
    rcases i with _ | _ | i
    · rfl
    · rfl
    · have deeper : ([nodeOf edge 0, nodeOf edge 1] ++ rest.flatMap fun edge => [nodeOf edge 0, nodeOf edge 1])[i + 2]? =
          (rest.flatMap fun edge => [nodeOf edge 0, nodeOf edge 1])[i]? := by
        rw [getElem?_append_right (by simp)]
        rfl
      rw [deeper, ih (by rw [length_cons] at inside; omega)]
      have half : (i + 2) / 2 = i / 2 + 1 := by omega
      have same : side (i + 2) = side i := by
        unfold side
        rw [add_mod_right]
      rw [half, same, getD_cons_succ]

variable {uvs : List U64}

def flip (i : Nat) : Nat := i ^^^ 1

theorem flip_flip (i : Nat) : flip (flip i) = i := by
  unfold flip
  rw [Nat.xor_assoc, Nat.xor_self, Nat.xor_zero]

theorem flip_of_lt : ∀ i < 84, flip i < 84 ∧ flip i / 2 = i / 2 ∧ flip i % 2 = 1 - i % 2 := by
  decide

theorem flip_ne (i : Nat) : flip i ≠ i := by
  intro same
  have zero : i ^^^ flip i = 0 := by rw [same, Nat.xor_self]
  unfold flip at zero
  rw [← Nat.xor_assoc, Nat.xor_self, Nat.zero_xor] at zero
  cases zero

def Partners (uvs : List U64) (i j : Nat) : Prop := i < 84 ∧ Partner uvs i j

theorem pairing (uvs : List U64) : Pairing (Partners uvs) flip where
  symm i j partners := by
    obtain ⟨inside, meets, unique⟩ := partners
    refine ⟨meets.within, ⟨inside, meets.side.symm, meets.other.symm, meets.node.symm⟩, fun k further => ?_⟩
    by_contra apart
    exact further.other (unique k ⟨further.within, further.side.trans meets.side, apart, further.node.trans meets.node⟩)
  unique i j k first second := second.2.2 j first.2.1
  apart i partners := partners.2.1.other rfl
  flip_flip := flip_flip
  flip_apart := flip_ne

theorem closes_iff (inside : i < 84) : Closes uvs n i ↔ 0 < n ∧ ∃ walk : Nat → Nat, walk 0 = i ∧
    walk n = 0 ∧ Walks (Partners uvs) flip walk n ∧ ∀ k, 0 < k → k < n → walk k ≠ 0 := by
  induction n generalizing i with
  | zero => exact iff_of_false id fun ⟨positive, _⟩ => absurd positive (Nat.lt_irrefl 0)
  | succ n ih =>
    constructor
    · rintro ⟨j, partner, further⟩
      refine ⟨succ_pos n, ?_⟩
      have next : flip j < 84 := (flip_of_lt j partner.1.within).1
      split at further
      · rename_i back
        refine ⟨fun k => if k = 0 then i else flip j, if_pos rfl, back, fun k small => ?_, fun k positive small => ?_⟩
        · obtain rfl : k = 0 := by omega
          simp only [if_true, Nat.zero_add, Nat.one_ne_zero, if_false, flip_flip]
          exact ⟨inside, partner⟩
        · omega
      · rename_i away
        obtain ⟨positive, walk, start, ended, walks, first⟩ := (ih next).mp further
        refine ⟨fun k => if k = 0 then i else walk (k - 1), if_pos rfl, ?_, fun k small => ?_, fun k above small => ?_⟩
        · simp only [succ_ne_zero, if_false, Nat.add_sub_cancel, ended]
        · rcases k with _ | k
          · simp only [if_true, Nat.zero_add, Nat.one_ne_zero, if_false, Nat.sub_self, start, flip_flip]
            exact ⟨inside, partner⟩
          · exact walks k (by omega)
        · simp only [Nat.ne_of_gt above, if_false]
          rcases Nat.eq_or_lt_of_le above with one | more
          · rw [← one, Nat.sub_self, start]
            exact away
          · exact first (k - 1) (by omega) (by omega)
    · rintro ⟨-, walk, start, ended, walks, first⟩
      have step := walks 0 (succ_pos n)
      rw [start] at step
      refine ⟨flip (walk 1), step.2, ?_⟩
      have back : flip (walk 1) ^^^ 1 = walk 1 := flip_flip (walk 1)
      rw [back]
      have next : walk 1 < 84 := by
        have flipped := flip_of_lt _ step.2.1.within
        rw [flip_flip] at flipped
        exact flipped.1
      split
      · rename_i zero
        by_contra more
        exact first 1 Nat.one_pos (by omega) zero
      · rename_i away
        refine (ih next).mpr ⟨?_, fun k => walk (k + 1), rfl, ended, fun k small => walks (k + 1) (by omega),
          fun k _ small => first (k + 1) (succ_pos k) (by omega)⟩
        rcases n with _ | n
        · exact absurd ended away
        · exact succ_pos n

end

section

variable {nodeOf : NodeOf} {edges : List U64}

theorem range_perm (inside : ∀ k < n, f k < n) (injective : ∀ a < n, ∀ b < n, f a = f b → a = b) :
    ((range n).map f).Perm (range n) := by
  have nodup : ((range n).map f).Nodup := by
    refine nodup_range.map_on fun a first b second same => ?_
    exact injective a (mem_range.mp first) b (mem_range.mp second) same
  have subset : (range n).map f ⊆ range n := by
    intro _ mem
    obtain ⟨k, small, rfl⟩ := List.mem_map.mp mem
    exact mem_range.mpr (inside k (mem_range.mp small))
  exact (subperm_of_subset nodup subset).perm_of_length_le (by simp)

theorem map_getD_range (list : List U64) : (range list.length).map (list.getD · 0) = list := by
  apply ext_getElem
  · simp
  · intro _ _ inside
    rw [getElem_map, getElem_range, getD_eq_getElem?_getD, List.getElem?_eq_getElem inside, getD_some]

theorem edgeAt_map (k : Nat) : edgeAt ((range 42).map f) k = f (k % 42) := by
  unfold edgeAt proofSize
  have small : k % 42 < 42 := mod_lt _ (by decide)
  rw [getD_eq_getElem?_getD, getElem?_map, getElem?_range small, map_some, getD_some]

section

variable {walk : Nat → Nat} (size : edges.length = 42) (start : walk 0 = 0) (ended : walk 42 = 0)
  (walks : Walks (Partners (endpoints nodeOf edges)) flip walk 42)

include start walks

theorem walk_side (within : k ≤ 42) : walk k < 84 ∧ walk k % 2 = k % 2 := by
  induction k with
  | zero =>
    rw [start]
    decide
  | succ k ih =>
    obtain ⟨-, -⟩ := ih (by omega)
    have step := (walks k (by omega)).2.1
    have flipped := flip_of_lt _ step.within
    have same := step.side
    rw [flip_flip] at flipped
    omega

include size

theorem walk_node (small : k < 42) :
    nodeOf (edges.getD (walk k / 2) 0) (side k) = nodeOf (edges.getD (walk (k + 1) / 2) 0) (side k) := by
  have length : 2 * edges.length = 84 := by rw [size]
  obtain ⟨inside, parity⟩ := walk_side start walks small.le
  obtain ⟨inside', -⟩ := walk_side start walks small
  have step := (walks k small).2.1
  have node := step.node
  obtain ⟨within, half, -⟩ := flip_of_lt _ inside'
  rw [endpoints_get (length ▸ within), endpoints_get (length ▸ inside), half, ← side_mod (flip _), step.side, parity,
    side_mod, ← side_mod (walk k), parity, side_mod] at node
  exact (Option.some.inj node).symm

omit size in
theorem walk_once (first : ∀ k, 0 < k → k < 42 → walk k ≠ 0) (smallA : a < 42) (smallB : b < 42)
    (same : walk a = walk b) : a = b := by
  have ordered : ∀ a b, a < b → b < 42 → walk a ≠ walk b := by
    intro a b less small
    refine walks.injective (pairing _) (fun k above within => ?_) less small
    rw [start]
    exact first k above within
  rcases Nat.lt_trichotomy a b with less | equal | more
  · exact absurd same (ordered a b less smallB)
  · exact equal
  · exact absurd same.symm (ordered b a more smallA)

omit start size in
theorem walk_apart (withinA : a ≤ 42) (withinB : b ≤ 42) : walk a ≠ flip (walk b) := by
  intro same
  rcases Nat.le_total a b with less | more
  · refine walks.not_flipped (pairing _) less withinB ?_
    rw [same, flip_flip]
  · exact walks.not_flipped (pairing _) more withinA same

omit size in
theorem walk_edge (first : ∀ k, 0 < k → k < 42 → walk k ≠ 0) (smallA : a < 42) (smallB : b < 42)
    (same : walk a / 2 = walk b / 2) : a = b := by
  obtain ⟨insideA, -⟩ := walk_side start walks smallA.le
  obtain ⟨insideB, -⟩ := walk_side start walks smallB.le
  obtain ⟨-, half, parity⟩ := flip_of_lt _ insideB
  by_cases sides : walk a % 2 = walk b % 2
  · exact walk_once start walks first smallA smallB (by omega)
  · exact absurd (by omega) (walk_apart walks smallA.le smallB.le)

-- A node of two half-edges of one side that are not partners would have a third.
theorem walk_nodes (first : ∀ k, 0 < k → k < 42 → walk k ≠ 0) (smallA : a < 42) (smallB : b < 42)
    (sides : a % 2 = b % 2)
    (same : nodeOf (edges.getD (walk a / 2) 0) (side a) = nodeOf (edges.getD (walk b / 2) 0) (side a)) : a = b := by
  have length : 2 * edges.length = 84 := by rw [size]
  by_contra differ
  obtain ⟨insideA, parityA⟩ := walk_side start walks smallA.le
  obtain ⟨insideB, parityB⟩ := walk_side start walks smallB.le
  have meets : Meets (endpoints nodeOf edges) (walk a) (walk b) := by
    refine ⟨insideB, by omega, fun equal => differ (walk_once start walks first smallA smallB equal.symm), ?_⟩
    rw [endpoints_get (length ▸ insideB), endpoints_get (length ▸ insideA), ← side_mod (walk b),
      ← side_mod (walk a), parityA, parityB, ← sides, side_mod, same]
  exact walk_apart walks smallB.le smallA ((walks a smallA).2.2 _ meets)

include ended in
theorem order_of_walk (first : ∀ k, 0 < k → k < 42 → walk k ≠ 0) :
    ∃ order : List U64, order.Perm edges ∧ CycleOrder nodeOf order := by
  have halves : ∀ a < 42, ∀ b < 42, walk a / 2 = walk b / 2 → a = b :=
    fun a smallA b smallB => walk_edge start walks first smallA smallB
  refine ⟨(List.range 42).map fun k => edges.getD (walk k / 2) 0, ?_, ?_, ?_, ?_⟩
  · have listed := (range_perm (fun k small => ?_) halves).map (edges.getD · 0)
    · rw [List.map_map] at listed
      rw [← size, map_getD_range] at listed
      rw [← size]
      exact listed
    · obtain ⟨inside, -⟩ := walk_side start walks small.le
      omega
  · intro k
    rw [edgeAt_map, edgeAt_map]
    have small : k % 42 < 42 := mod_lt _ (by decide)
    have node := walk_node size start walks small
    have same : side (k % 42) = side k := by
      unfold side
      rw [mod_mod_of_dvd _ (by decide)]
    rw [same] at node
    rw [node]
    rcases Nat.lt_or_eq_of_le (succ_le_of_lt small) with more | last
    · have next : (k + 1) % 42 = k % 42 + 1 := by omega
      rw [next]
    · have next : (k + 1) % 42 = 0 := by omega
      rw [next, start, ← ended]
      exact congrArg (fun j => nodeOf (edges.getD (walk j / 2) 0) (side k)) last
  · intro m smallM l smallL same
    rw [edgeAt_map, edgeAt_map, mod_eq_of_lt (by omega), mod_eq_of_lt (by omega)] at same
    have equal := walk_nodes size start walks first (a := 2 * m) (b := 2 * l) (by omega) (by omega) (by omega)
    have zero : ∀ j, side (2 * j) = 0 := fun j => if_pos (by omega)
    rw [zero] at equal
    have := equal same
    omega
  · intro m smallM l smallL same
    rw [edgeAt_map, edgeAt_map, mod_eq_of_lt (by omega), mod_eq_of_lt (by omega)] at same
    have equal :=
      walk_nodes size start walks first (a := 2 * m + 1) (b := 2 * l + 1) (by omega) (by omega) (by omega)
    have one : ∀ j, side (2 * j + 1) = 1 := fun j => if_neg (by omega)
    rw [one] at equal
    have := equal same
    omega

end

section

variable {order : List U64} (cycle : CycleOrder nodeOf order)

theorem edgeAt_mod (order : List U64) (k : Nat) : edgeAt order (k % 42) = edgeAt order k := by
  unfold edgeAt proofSize
  rw [mod_mod]

def block (s k : Nat) : Nat := (k + s) % 42 / 2

include cycle

theorem node_iff (small : s < 2) (a b : Nat) :
    nodeOf (edgeAt order a) (side s) = nodeOf (edgeAt order b) (side s) ↔ block s a = block s b := by
  have leader : ∀ k, nodeOf (edgeAt order k) (side s) = nodeOf (edgeAt order (2 * block s k + 41 * s)) (side s) := by
    intro k
    have folded : ∀ j, j % 42 = (2 * block s k + 41 * s) % 42 →
        nodeOf (edgeAt order j) (side s) = nodeOf (edgeAt order (2 * block s k + 41 * s)) (side s) := by
      intro j same
      rw [← edgeAt_mod order j, same, edgeAt_mod]
    by_cases even : (k + s) % 2 = 0
    · apply folded
      unfold block
      omega
    · have before := cycle.shares (k + 41)
      have same : side (k + 41) = side s := by
        rw [← side_mod, ← side_mod s]
        congr 1
        omega
      have round : edgeAt order (k + 41 + 1) = edgeAt order k := by
        rw [← edgeAt_mod, ← edgeAt_mod order k]
        congr 1
        omega
      rw [same, round] at before
      rw [← before]
      apply folded
      unfold block
      omega
  constructor
  · intro same
    rw [leader a, leader b] at same
    have insideA : block s a < 21 := by
      unfold block
      omega
    have insideB : block s b < 21 := by
      unfold block
      omega
    rcases (by omega : s = 0 ∨ s = 1) with rfl | rfl
    · exact cycle.apart0 _ insideA _ insideB same
    · have shifted : ∀ m < 21, edgeAt order (2 * m + 41 * 1) = edgeAt order (2 * ((m + 20) % 21) + 1) := by
        intro m _
        rw [← edgeAt_mod, ← edgeAt_mod order (2 * ((m + 20) % 21) + 1)]
        congr 1
        omega
      rw [shifted _ insideA, shifted _ insideB] at same
      have equal := cycle.apart1 _ (mod_lt _ (by decide)) _ (mod_lt _ (by decide)) same
      omega
  · intro same
    rw [leader a, leader b, same]

omit cycle in
theorem edgeAt_getElem? (size : order.length = 42) (k : Nat) : order[k % 42]? = some (edgeAt order k) := by
  have small : k % 42 < order.length := by
    rw [size]
    exact mod_lt _ (by decide)
  unfold edgeAt proofSize
  rw [getD_eq_getElem?_getD, List.getElem?_eq_getElem small, getD_some]

omit cycle in
theorem edgeAt_inj (size : order.length = 42) (once : order.Nodup) {a b : Nat} :
    edgeAt order a = edgeAt order b ↔ a % 42 = b % 42 := by
  constructor
  · intro same
    have first := edgeAt_getElem? size a
    rw [same, ← edgeAt_getElem? size b] at first
    have small : b % 42 < order.length := by
      rw [size]
      exact mod_lt _ (by decide)
    exact ((getElem?_inj small once).mp first.symm).symm
  · intro same
    rw [← edgeAt_mod, same, edgeAt_mod]

omit cycle in
theorem exists_way (p : Nat) : ∃ pos : Nat → Nat, pos 0 % 42 = p % 42 ∧
    (∀ k < 42, block (k % 2) (pos k) = block (k % 2) (pos (k + 1)) ∧ pos k % 42 ≠ pos (k + 1) % 42) ∧
    pos 42 % 42 = p % 42 ∧ ∀ k, 0 < k → k < 42 → pos k % 42 ≠ p % 42 := by
  unfold block
  by_cases even : p % 2 = 0
  · refine ⟨fun k => p + k, ?_, fun k small => ⟨?_, ?_⟩, ?_, fun k above small => ?_⟩ <;> dsimp only <;> omega
  · refine ⟨fun k => p + 42 - k, ?_, fun k small => ⟨?_, ?_⟩, ?_, fun k above small => ?_⟩ <;> dsimp only <;> omega

def place (order edges : List U64) (k : Nat) : Nat := edges.idxOf (edgeAt order k)

structure Placing (order edges : List U64) : Prop where
  inside : ∀ k, place order edges k < 42
  edge : ∀ k, edges.getD (place order edges k) 0 = edgeAt order k
  onto : ∀ e < 42, ∃ k, place order edges k = e
  apart : ∀ j k, place order edges j = place order edges k ↔ j % 42 = k % 42

omit cycle in
theorem placing (size : edges.length = 42) (once : edges.Nodup) (perm : order.Perm edges) : Placing order edges := by
  have length : order.length = 42 := perm.length_eq.trans size
  have listed : ∀ k, edges[place order edges k]? = some (edgeAt order k) := by
    intro k
    have mem := perm.mem_iff.mp (mem_of_getElem? (edgeAt_getElem? length k))
    unfold place
    rw [List.getElem?_eq_getElem (idxOf_lt_length_of_mem mem), getElem_idxOf]
  constructor
  · intro k
    rw [← size]
    exact (List.getElem?_eq_some_iff.mp (listed k)).1
  · intro k
    rw [getD_eq_getElem?_getD, listed, getD_some]
  · intro e small
    have mem := perm.mem_iff.mpr (getElem_mem (size.symm ▸ small : e < edges.length))
    obtain ⟨k, within, here⟩ := getElem_of_mem mem
    have found : edgeAt order k = edges[e] := by
      have at' := edgeAt_getElem? length k
      rw [mod_eq_of_lt (length ▸ within), List.getElem?_eq_getElem within, here] at at'
      exact (Option.some.inj at').symm
    refine ⟨k, ?_⟩
    unfold place
    rw [found]
    exact once.idxOf_getElem e _
  · intro j k
    rw [← edgeAt_inj length (perm.nodup_iff.mpr once)]
    constructor
    · intro same
      have one := listed j
      rw [same, listed k] at one
      exact (Option.some.inj one).symm
    · exact congrArg edges.idxOf

section

variable (placed : Placing order edges) (pos : Nat → Nat)

def walkAlong (order edges : List U64) (pos : Nat → Nat) (k : Nat) : Nat := 2 * place order edges (pos k) + k % 2

include placed

omit cycle in
theorem walkAlong_spec (k : Nat) : walkAlong order edges pos k < 84 ∧
    walkAlong order edges pos k / 2 = place order edges (pos k) ∧ walkAlong order edges pos k % 2 = k % 2 := by
  have small := placed.inside (pos k)
  unfold walkAlong
  omega

omit cycle in
theorem flip_walkAlong (k : Nat) :
    flip (walkAlong order edges pos (k + 1)) = 2 * place order edges (pos (k + 1)) + k % 2 := by
  obtain ⟨small, half, parity⟩ := walkAlong_spec placed pos (k + 1)
  obtain ⟨-, half', parity'⟩ := flip_of_lt _ small
  omega

theorem meets_along (size : edges.length = 42) (shared : block (k % 2) (pos k) = block (k % 2) (pos (k + 1)))
    (differ : pos k % 42 ≠ pos (k + 1) % 42) :
    Meets (endpoints nodeOf edges) (walkAlong order edges pos k) (flip (walkAlong order edges pos (k + 1))) ∧
    ∀ x, Meets (endpoints nodeOf edges) (walkAlong order edges pos k) x → x = flip (walkAlong order edges pos (k + 1)) := by
  have node : ∀ i < 84, (endpoints nodeOf edges)[i]? = some (nodeOf (edges.getD (i / 2) 0) (side i)) :=
    fun i small => endpoints_get (by omega)
  have fits := placed.inside (pos (k + 1))
  obtain ⟨bound, half, parity⟩ := walkAlong_spec placed pos k
  rw [flip_walkAlong placed pos]
  constructor
  · have half' : (2 * place order edges (pos (k + 1)) + k % 2) / 2 = place order edges (pos (k + 1)) := by omega
    have sides : (2 * place order edges (pos (k + 1)) + k % 2) % 2 = k % 2 := by omega
    refine ⟨by omega, by omega, fun equal => ?_, ?_⟩
    · exact differ ((placed.apart _ _).mp (by omega))
    · rw [node _ (by omega), node _ bound, half, half', placed.edge, placed.edge, ← side_mod (walkAlong order edges pos k),
        parity, side_mod, ← side_mod (2 * _ + _), sides, ← side_mod k, (node_iff cycle (mod_lt k (by decide)) _ _).mpr shared]
  · intro x meets
    have inside := meets.within
    have side := meets.side
    have other := meets.other
    obtain ⟨r, found⟩ := placed.onto (x / 2) (by omega)
    have equal := meets.node
    rw [node x inside, node _ bound, half, placed.edge, ← found, placed.edge, ← side_mod x, side,
      ← side_mod (walkAlong order edges pos k), parity] at equal
    have third := (node_iff cycle (mod_lt k (by decide)) _ _).mp (Option.some.inj equal)
    have apart : r % 42 ≠ pos k % 42 := by
      intro again
      have indices := (placed.apart _ _).mpr again
      omega
    have reached : r % 42 = pos (k + 1) % 42 := by
      unfold block at shared third
      omega
    have indices := (placed.apart _ _).mpr reached
    omega

end

theorem closes_of_order (size : edges.length = 42) (once : edges.Nodup) (perm : order.Perm edges) :
    Closes (endpoints nodeOf edges) 42 0 := by
  have placed := placing size once perm
  obtain ⟨p, first⟩ := placed.onto 0 (by decide)
  obtain ⟨pos, start, pairs, round, away⟩ := exists_way p
  have begun : ∀ k, place order edges (pos k) = 0 ↔ pos k % 42 = p % 42 := by
    intro k
    rw [← placed.apart, first]
  refine (closes_iff (by decide)).mpr ⟨by decide, walkAlong order edges pos, ?_, ?_, fun k small => ?_, ?_⟩
  · have zero := (begun 0).mpr start
    unfold walkAlong
    omega
  · have zero := (begun 42).mpr round
    unfold walkAlong
    omega
  · obtain ⟨shared, differ⟩ := pairs k small
    exact ⟨(walkAlong_spec placed pos k).1, meets_along cycle placed pos size shared differ⟩
  · intro k above small back
    have half := (walkAlong_spec placed pos k).2.1
    exact away k above small ((begun k).mp (by omega))

end

section

def xorUp (f : Nat → U64) (n : Nat) : U64 := (List.range n).foldl (fun xor k => xor ^^^ f k) 0

theorem xorUp_succ (f : Nat → U64) (n : Nat) : xorUp f (n + 1) = xorUp f n ^^^ f n := by
  unfold xorUp
  rw [range_succ, foldl_append]
  rfl

theorem xorUp_pairs {f : Nat → U64} (pairs : ∀ m, f (2 * m) = f (2 * m + 1)) (n : Nat) : xorUp f (2 * n) = 0 := by
  induction n with
  | zero => rfl
  | succ n ih => rw [Nat.mul_succ, xorUp_succ, xorUp_succ, ih, pairs, xor_assoc, BitVec.xor_self, BitVec.xor_zero]

theorem xorUp_shifted (pairs : ∀ m, f (2 * m + 1) = f (2 * m + 2)) (n : Nat) : xorUp f (2 * n + 1) = f 0 := by
  induction n with
  | zero => exact BitVec.zero_xor
  | succ n ih => rw [Nat.mul_succ, xorUp_succ, xorUp_succ, ih, pairs, xor_assoc, BitVec.xor_self, BitVec.xor_zero]

theorem xors_split (f g : U64 → U64) (edges : List U64) (a b : U64) :
    edges.foldl (fun (xors : U64 × U64) edge => (xors.1 ^^^ f edge, xors.2 ^^^ g edge)) (a, b) =
      (edges.foldl (fun xor edge => xor ^^^ f edge) a, edges.foldl (fun xor edge => xor ^^^ g edge) b) := by
  induction edges generalizing a b with
  | nil => rfl
  | cons edge rest ih => exact ih _ _

theorem xor_perm (perm : order.Perm edges) (size : edges.length = 42) (f : U64 → U64) :
    edges.foldl (fun xor edge => xor ^^^ f edge) 0 = xorUp (fun k => f (edgeAt order k)) 42 := by
  have commutes : ∀ xor e e' : U64, xor ^^^ f e ^^^ f e' = xor ^^^ f e' ^^^ f e := by
    intro xor e e'
    rw [xor_assoc, BitVec.xor_comm (f e), xor_assoc]
  have listed : (range 42).map (edgeAt order) = order := by
    have length : order.length = 42 := perm.length_eq.trans size
    have all := map_getD_range order
    rw [length] at all
    refine (map_congr_left fun k small => ?_).trans all
    unfold edgeAt proofSize
    rw [mod_eq_of_lt (mem_range.mp small)]
  have : RightCommutative fun (xor : U64) edge => xor ^^^ f edge := ⟨commutes⟩
  rw [← perm.foldl_eq, ← listed, foldl_map, listed]
  rfl

theorem xors_zero (cycle : CycleOrder nodeOf order) (perm : order.Perm edges) (size : edges.length = 42) :
    edges.foldl (fun (xors : U64 × U64) edge => (xors.1 ^^^ nodeOf edge 0, xors.2 ^^^ nodeOf edge 1)) (0, 0) =
      (0, 0) := by
  have zero : ∀ m, side (2 * m) = 0 := fun m => if_pos (by omega)
  have one : ∀ m, side (2 * m + 1) = 1 := fun m => if_neg (by omega)
  rw [xors_split (nodeOf · 0) (nodeOf · 1), xor_perm perm size, xor_perm perm size]
  congr 1
  · apply xorUp_pairs (n := 21)
    intro m
    have shared := cycle.shares (2 * m)
    rwa [zero] at shared
  · have shifted : xorUp (fun k => nodeOf (edgeAt order k) 1) (2 * 20 + 1) = nodeOf (edgeAt order 0) 1 := by
      apply xorUp_shifted
      intro m
      have shared := cycle.shares (2 * m + 1)
      rwa [one] at shared
    have last := cycle.shares (2 * 20 + 1)
    have round : edgeAt order (2 * 20 + 1 + 1) = edgeAt order 0 := edgeAt_mod order 42
    rw [one, round] at last
    rw [xorUp_succ, shifted, last, BitVec.xor_self]
    rfl

end

theorem closes_iff_cyclic (size : edges.length = 42) (once : edges.Nodup) : Closes (endpoints nodeOf edges) 42 0 ↔
    ∃ order : List U64, order.Perm edges ∧ CycleOrder nodeOf order := by
  constructor
  · intro closes
    obtain ⟨-, walk, start, ended, walks, first⟩ := (closes_iff (by decide)).mp closes
    exact order_of_walk size start ended walks first
  · rintro ⟨order, perm, cycle⟩
    exact closes_of_order cycle size once perm

end

theorem verifyEdges_returns (nodeOf : NodeOf) (edges : List U64) :
    ∃ result, (∀ fuel, 43 ≤ fuel → verifyEdges fuel nodeOf edges = returned result) ∧
      (result = .ok () ↔ IsCycle nodeOf edges) := by
  unfold verifyEdges
  cases shape : validateSolutionShape edges with
  | error fault =>
    refine ⟨.error fault, fun fuel _ => failed_bind fault _, iff_of_false nofun fun cycle => ?_⟩
    have accepted := (validateSolutionShape_ok edges).mpr ⟨cycle.size, cycle.ascends, cycle.small⟩
    rw [shape] at accepted
    cases accepted
  | ok =>
    obtain ⟨size, ascends, small⟩ := (validateSolutionShape_ok edges).mp shape
    have once : edges.Nodup := ascends.imp fun less => BitVec.ne_of_lt less
    have cyclic : (∃ order : List U64, order.Perm edges ∧ CycleOrder nodeOf order) ↔ IsCycle nodeOf edges :=
      ⟨fun order => ⟨size, ascends, small, order⟩, IsCycle.cyclic⟩
    simp only [ok_bind]
    by_cases zero : (edges.foldl (fun (xors : U64 × U64) edge => (xors.1 ^^^ nodeOf edge 0, xors.2 ^^^ nodeOf edge 1))
        (0, 0)).1 ||| (edges.foldl (fun (xors : U64 × U64) edge => (xors.1 ^^^ nodeOf edge 0,
          xors.2 ^^^ nodeOf edge 1)) (0, 0)).2 ≠ 0
    · refine ⟨.error .nonMatchingEndpoints, fun fuel _ => if_pos zero, iff_of_false nofun fun cycle => zero ?_⟩
      obtain ⟨order, perm, ordered⟩ := cycle.cyclic
      rw [xors_zero ordered perm size]
      exact BitVec.or_self
    · have length : (endpoints nodeOf edges).length = 84 := by rw [endpoints_length, size]
      obtain ⟨result, verified, closes⟩ := verifyCycleUvs_spec length
      refine ⟨result, fun fuel enough => ?_, closes.trans ((closes_iff_cyclic size once).trans cyclic)⟩
      rw [if_neg zero]
      exact (verifyCycleUvs_within enough).eq verified

/-- The verifier returns on every list of edges, and accepts exactly the single cycles through forty-two edges. -/
theorem verifyEdges_exact (nodeOf : NodeOf) (edges : List U64) :
    ∃ result, (∀ fuel, 43 ≤ fuel → verifyEdges fuel nodeOf edges = returned result) ∧
      (result = .ok () ↔ IsCycle nodeOf edges) := verifyEdges_returns nodeOf edges

theorem CuckooVerifier.verify_exact (verifier : CuckooVerifier) (edges : List U64) :
    ∃ result, (∀ fuel, 43 ≤ fuel → verifier.verify fuel edges = returned result) ∧
      (result = .ok () ↔ IsCycle (sipnode verifier.keys) edges) := verifyEdges_returns (sipnode verifier.keys) edges

end Rezzy.Pow
