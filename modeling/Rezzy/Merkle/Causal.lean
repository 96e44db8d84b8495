import Rezzy.Lib.SparseTrie
import Rezzy.Merkle.Digest

namespace Rezzy.Merkle

open Json List
open List (range)

def causalDepth : Nat := 256

def causalLeafDst : Bytes := asBytes "msc4511:causal-leaf:sha256:v1"
def causalNodeDst : Bytes := asBytes "msc4511:causal-node:sha256:v1"
def causalEmptyLeafDst : Bytes := asBytes "msc4511:causal-empty-leaf:sha256:v1"

def causalBit (key : Hash) (d : Nat) : UInt8 := bitAt key d

def depthU16 (depth : Nat) : Nat := if depth < 2 ^ 16 then depth else 2 ^ 16 - 1

def countSum (a b : UInt64) : UInt64 := UInt64.ofNat (min (a.toNat + b.toNat) (2 ^ 64 - 1))

def zeroPrefix : Hash := Vector.replicate 32 0

def nodeCmp : Nat × Hash → Nat × Hash → Ordering := compareLex (compareOn Prod.fst) (compareOn Prod.snd)

instance nodeCmp_trans : Std.TransCmp nodeCmp :=
  inferInstanceAs (Std.TransCmp (compareLex (compareOn fun place : Nat × Hash => place.1)
    (compareOn fun place : Nat × Hash => place.2)))

theorem nodeCmp_eq (same : nodeCmp left right = .eq) : left = right := by
  simp only [nodeCmp, compareLex, compareOn, Ordering.then_eq_eq] at same
  exact Prod.ext (Std.LawfulEqCmp.eq_of_compare same.1) (Std.LawfulEqCmp.eq_of_compare same.2)

instance nodeCmp_lawful : Std.LawfulEqCmp nodeCmp where
  eq_of_compare := nodeCmp_eq

abbrev Nodes := Std.ExtTreeMap (Nat × Hash) (Hash × UInt64) nodeCmp

structure CausalSet where
  keys : Std.ExtTreeSet Hash
  nodes : Nodes

structure CausalProofStep where
  hash : Hash
  count : UInt64
deriving DecidableEq

section

variable (sha256 : Sha256)

def causalLeaf (key : Hash) : Hash := hashParts sha256 [causalLeafDst, key.toList]

def causalNode (depth : Nat) (leftHash : Hash) (leftCount : UInt64) (rightHash : Hash) (rightCount : UInt64) : Hash :=
  hashParts sha256 [causalNodeDst, toBeBytes 2 depth, leftHash.toList, toBeBytes 8 leftCount.toNat, rightHash.toList,
    toBeBytes 8 rightCount.toNat]

def emptyBelow : Nat → Hash
  | 0 => hashParts sha256 [causalEmptyLeafDst]
  | levels + 1 =>
    let child := emptyBelow levels
    causalNode sha256 (depthU16 (causalDepth - (levels + 1))) child 0 child 0

def emptyTable (depth : Nat) : Hash := emptyBelow sha256 (causalDepth - depth)

end

namespace CausalSet

variable (sha256 : Sha256)

def empty : CausalSet := ⟨∅, ∅⟩

def enter (key : Hash) (state : Nodes × Hash) (d : Nat) : Nodes × Hash :=
  (state.1.insertIfNew (depthU16 d, state.2) (emptyTable sha256 d, 0),
    if causalBit key d = 0 then clearBit state.2 d else setBit state.2 d)

def nodeAt (nodes : Nodes) (d : Nat) (place : Hash) : Hash × UInt64 :=
  (nodes[(depthU16 d, place)]?).getD (emptyTable sha256 d, 0)

def recompute (state : Nodes × Hash) (d : Nat) : Nodes × Hash :=
  let childPrefix := maskAfter state.2 d
  let leftPrefix := clearBit childPrefix d
  let left := nodeAt sha256 state.1 (d + 1) leftPrefix
  let right := nodeAt sha256 state.1 (d + 1) (setBit childPrefix d)
  (state.1.insert (depthU16 d, leftPrefix)
    (causalNode sha256 (depthU16 d) left.1 left.2 right.1 right.2, countSum left.2 right.2), childPrefix)

def insertMut (set : CausalSet) (key : Hash) : CausalSet × Bool :=
  if set.keys.contains key then (set, false)
  else
    let down := (range causalDepth).foldl (enter sha256 key) (set.nodes, zeroPrefix)
    let nodes := down.1.insert (depthU16 causalDepth, down.2) (causalLeaf sha256 key, 1)
    let up := (range causalDepth).reverse.foldl (recompute sha256) (nodes, down.2)
    (⟨set.keys.insert key, up.1⟩, true)

def extend (set : CausalSet) (iter : List Hash) : CausalSet :=
  iter.foldl (fun set key => (set.insertMut sha256 key).1) set

def insert (set : CausalSet) (key : Hash) : CausalSet := (set.insertMut sha256 key).1

def union (set other : CausalSet) : CausalSet :=
  other.keys.toList.foldl (fun next key => (next.insertMut sha256 key).1) set

def contains (set : CausalSet) (key : Hash) : Bool := set.keys.contains key

def count (set : CausalSet) : UInt64 := UInt64.ofNat set.keys.size

def root (set : CausalSet) : Hash :=
  if set.keys.isEmpty then emptyTable sha256 0
  else (set.nodes[(0, zeroPrefix)]?.map Prod.fst).getD (emptyTable sha256 0)

def stepPrefixes (prefix_ key : Hash) (d : Nat) : Hash × Hash :=
  if causalBit key d = 0 then (setBit prefix_ d, clearBit prefix_ d) else (clearBit prefix_ d, setBit prefix_ d)

def siblingStep (set : CausalSet) (siblingPrefix : Hash) (d : Nat) : CausalProofStep :=
  let sibling := nodeAt sha256 set.nodes (d + 1) siblingPrefix
  ⟨sibling.1, sibling.2⟩

def pathFrom (set : CausalSet) (key : Hash) : Nat → Hash → List CausalProofStep
  | 0, _ => []
  | levels + 1, prefix_ =>
    let d := causalDepth - (levels + 1)
    let (siblingPrefix, ownPrefix) := stepPrefixes prefix_ key d
    pathFrom set key levels ownPrefix ++ [set.siblingStep sha256 siblingPrefix d]

def inclusionProof (set : CausalSet) (key : Hash) : Option (List CausalProofStep × Hash × UInt64) :=
  if set.keys.isEmpty || !set.keys.contains key then none
  else some (set.pathFrom sha256 key causalDepth zeroPrefix, set.root sha256, set.count)

def missingFrom (set : CausalSet) (key : Hash) : Nat → Hash → Option (List CausalProofStep × Nat)
  | 0, _ => none
  | levels + 1, prefix_ =>
    let d := causalDepth - (levels + 1)
    let (siblingPrefix, childPrefix) := stepPrefixes prefix_ key d
    let step := set.siblingStep sha256 siblingPrefix d
    if set.nodes[(depthU16 (d + 1), childPrefix)]?.all fun child => child.2 = 0 then some ([step], d + 1)
    else (missingFrom set key levels childPrefix).map fun (path, depth) => (path ++ [step], depth)

def nonInclusionProof (set : CausalSet) (key : Hash) : Option (List CausalProofStep × Nat × Hash × UInt64) :=
  if set.keys.isEmpty then some ([], 0, emptyTable sha256 0, 0)
  else
    (set.missingFrom sha256 key causalDepth zeroPrefix).map fun (path, depth) =>
      (path, depth, set.root sha256, set.count)

end CausalSet

section

variable (sha256 : Sha256)

def climbCausalPath (key : Hash) : Nat → Hash → UInt64 → List CausalProofStep → Option (Hash × UInt64)
  | _, curHash, curCount, [] => some (curHash, curCount)
  | depth, curHash, curCount, step :: path =>
    let above := depth - 1
    let hash :=
      if causalBit key above = 0 then causalNode sha256 (depthU16 above) curHash curCount step.hash step.count
      else causalNode sha256 (depthU16 above) step.hash step.count curHash curCount
    if curCount.toNat + step.count.toNat < 2 ^ 64 then
      climbCausalPath key above hash (curCount + step.count) path
    else none

def verifyCausalPath (terminalHash : Hash) (terminalCount : UInt64) (terminalDepth : Nat) (key : Hash)
    (path : List CausalProofStep) (root : Hash) (count : UInt64) : Bool :=
  path.length = terminalDepth ∧
    (climbCausalPath sha256 key terminalDepth terminalHash terminalCount path).any fun top =>
      top.1 = root ∧ top.2 = count

def verifyCausalInclusion (key : Hash) (path : List CausalProofStep) (root : Hash) (count : UInt64) : Bool :=
  verifyCausalPath sha256 (causalLeaf sha256 key) 1 causalDepth key path root count

def verifyCausalNonInclusion (key : Hash) (terminalDepth : Nat) (path : List CausalProofStep) (root : Hash)
    (count : UInt64) : Bool :=
  if causalDepth < terminalDepth then false
  else if path.length ≠ terminalDepth then false
  else if path.head?.any fun first => first.count = 0 ∧ first.hash = emptyTable sha256 terminalDepth then false
  else verifyCausalPath sha256 (emptyTable sha256 terminalDepth) 0 terminalDepth key path root count

end

open SparseTrie

variable (sha256 : Sha256)

/-! The recursion from the root, as the tests of the set have it. -/

def partitionByBit (keys : List Hash) (depth : Nat) : List Hash × List Hash :=
  keys.partition fun key => causalBit key depth = 0

def subtreeRoot : Nat → List Hash → Hash × UInt64
  | 0, keys => (causalLeaf sha256 (keys.headD zeroPrefix), 1)
  | levels + 1, keys =>
    let depth := causalDepth - (levels + 1)
    let (left, right) := partitionByBit keys depth
    let leftRoot := if left.isEmpty then (emptyTable sha256 (depth + 1), 0) else subtreeRoot levels left
    let rightRoot := if right.isEmpty then (emptyTable sha256 (depth + 1), 0) else subtreeRoot levels right
    (causalNode sha256 (depthU16 depth) leftRoot.1 leftRoot.2 rightRoot.1 rightRoot.2, countSum leftRoot.2 rightRoot.2)

def subtreeRootOrEmpty (keys : List Hash) (depth : Nat) : Hash × UInt64 :=
  if keys.isEmpty then (emptyTable sha256 depth, 0) else subtreeRoot sha256 (causalDepth - depth) keys

def hasPrefix (d : Nat) (prefix_ key : Hash) : Bool := (range d).all fun e => bitAt key e = bitAt prefix_ e

def Padded (d : Nat) (prefix_ : Hash) : Prop := ∀ e < causalDepth, d ≤ e → bitAt prefix_ e = 0

def causalTurn (key : Hash) (levels : Nat) : Bool := causalBit key (255 - levels) != 0

def causalJoin (levels : Nat) (left right : Hash × UInt64) : Hash × UInt64 :=
  (causalNode sha256 (depthU16 (255 - levels)) left.1 left.2 right.1 right.2, countSum left.2 right.2)

def causalBlank : Hash × UInt64 := (emptyBelow sha256 0, 0)

def causalEntries (keys : List Hash) : List (Hash × Hash × UInt64) := keys.map fun key => (key, causalLeaf sha256 key, 1)

def causalSubtree (levels : Nat) (keys : List Hash) : Hash × UInt64 :=
  subtree (causalJoin sha256) (causalBlank sha256) causalTurn levels (causalEntries sha256 keys)

variable {sha256} {keys : List Hash} {key : Hash} {levels d : Nat}

theorem void_eq : void (causalJoin sha256) (causalBlank sha256) levels = (emptyBelow sha256 levels, 0) := by
  induction levels with
  | zero => rfl
  | succ levels ih =>
    rw [void, ih]
    show (causalNode sha256 (depthU16 (255 - levels)) _ 0 _ 0, countSum 0 0) = (causalNode sha256 _ _ 0 _ 0, 0)
    rw [show causalDepth - (levels + 1) = 255 - levels from by unfold causalDepth; omega]
    rfl

theorem side_causalEntries (right : Bool) : side causalTurn levels right (causalEntries sha256 keys) =
    causalEntries sha256 (keys.filter fun key => causalTurn key levels == right) := by
  unfold side causalEntries
  rw [filter_map]
  rfl

theorem causalSubtree_nil : causalSubtree sha256 levels [] = (emptyBelow sha256 levels, 0) := subtree_nil.trans void_eq

theorem causalSubtree_succ : causalSubtree sha256 (levels + 1) keys = causalJoin sha256 levels
    (causalSubtree sha256 levels (keys.filter fun key => causalTurn key levels == false))
      (causalSubtree sha256 levels (keys.filter fun key => causalTurn key levels == true)) := by
  unfold causalSubtree
  rw [subtree, side_causalEntries, side_causalEntries]

theorem emptyTable_sub (small : levels ≤ causalDepth) : emptyTable sha256 (causalDepth - levels) = emptyBelow sha256 levels := by
  unfold emptyTable
  rw [Nat.sub_sub_self small]

theorem partitionByBit_eq : partitionByBit keys (causalDepth - (levels + 1)) =
    (keys.filter fun key => causalTurn key levels == false, keys.filter fun key => causalTurn key levels == true) := by
  unfold partitionByBit
  rw [partition_eq_filter_filter, show causalDepth - (levels + 1) = 255 - levels from by unfold causalDepth; omega]
  have same (key : Hash) : (causalTurn key levels == false) = decide (causalBit key (255 - levels) = 0) ∧
      (causalTurn key levels == true) = !decide (causalBit key (255 - levels) = 0) := by
    unfold causalTurn
    by_cases zero : causalBit key (255 - levels) = 0 <;> simp [zero]
  exact Prod.ext (filter_congr fun key _ => (same key).1.symm) (filter_congr fun key _ => (same key).2.symm)

theorem subtreeRoot_eq (small : levels ≤ causalDepth) (some : keys ≠ []) :
    subtreeRoot sha256 levels keys = causalSubtree sha256 levels keys := by
  induction levels generalizing keys with
  | zero =>
    cases keys with
    | nil => exact absurd rfl some
    | cons first rest => rfl
  | succ levels ih =>
    have child (keys : List Hash) : (if keys.isEmpty then (emptyTable sha256 (causalDepth - (levels + 1) + 1), 0)
        else subtreeRoot sha256 levels keys) = causalSubtree sha256 levels keys := by
      rw [show causalDepth - (levels + 1) + 1 = causalDepth - levels from by omega, emptyTable_sub (by omega)]
      cases keys with
      | nil => exact causalSubtree_nil.symm
      | cons first rest => exact ih (by omega) (cons_ne_nil _ _)
    rw [subtreeRoot, partitionByBit_eq, causalSubtree_succ]
    dsimp only
    rw [child, child, show causalDepth - (levels + 1) = 255 - levels from by unfold causalDepth; omega]
    rfl

theorem subtreeRootOrEmpty_eq : subtreeRootOrEmpty sha256 keys d = causalSubtree sha256 (causalDepth - d) keys := by
  cases keys with
  | nil => exact causalSubtree_nil.symm
  | cons first rest => exact subtreeRoot_eq (Nat.sub_le _ _) (cons_ne_nil _ _)

section

theorem hasPrefix_iff : hasPrefix d place key = true ↔ ∀ e < d, bitAt key e = bitAt place e := by
  simp [hasPrefix]

theorem causalTurn_eq_iff (small : d < causalDepth) :
    causalTurn one (255 - d) = causalTurn other (255 - d) ↔ bitAt one d = bitAt other d := by
  unfold causalTurn causalBit
  rw [show 255 - (255 - d) = d from by unfold causalDepth at small; omega]
  rcases bitAt_cases one d with zero | one <;> rcases bitAt_cases other d with zero' | one' <;> simp [*]

theorem bitAt_zero (small : d < causalDepth) : bitAt zeroPrefix d = 0 := by
  unfold causalDepth at small
  rw [bitAt_of_lt (by omega)]
  unfold zeroPrefix
  rw [show (Vector.replicate 32 (0 : UInt8)).get ⟨d / 8, by omega⟩ = 0 from Vector.getElem_replicate _]
  exact byteBit_zero _

theorem zeroPrefix_padded : Padded 0 zeroPrefix := fun _ small _ => bitAt_zero small

theorem Padded.unique (padded : Padded d place) (otherPadded : Padded d other)
    (same : ∀ e < d, bitAt place e = bitAt other e) : place = other := by
  apply hash_ext
  intro e small
  rcases Nat.lt_or_ge e d with before | after
  · exact same e before
  · rw [padded e small after, otherPadded e small after]

theorem Padded.set (padded : Padded d place) : Padded (d + 1) (setBit place d) := by
  intro e within _
  rw [bitAt_setBit within, if_neg (by omega)]
  exact padded e within (by omega)

theorem Padded.clear (padded : Padded d place) : Padded d (clearBit place d) := by
  intro e within after
  rw [bitAt_clearBit within]
  split
  · rfl
  · exact padded e within after

theorem Padded.mono (padded : Padded d place) (deeper : d ≤ e) : Padded e place :=
  fun index within after => padded index within (deeper.trans after)

variable {place : Hash}

def prefixValue (sha256 : Sha256) (keys : List Hash) (d : Nat) (place : Hash) : Hash × UInt64 :=
  causalSubtree sha256 (causalDepth - d) (keys.filter (hasPrefix d place))

theorem causalSubtree_congr (same : ∀ key, key ∈ keys ↔ key ∈ others)
    (single : ∀ one ∈ keys, ∀ other ∈ keys, (∀ level < levels, causalTurn one level = causalTurn other level) → one = other) :
    causalSubtree sha256 levels keys = causalSubtree sha256 levels others := by
  apply subtree_congr
  · intro _
    unfold causalEntries
    rw [mem_map, mem_map]
    simp only [same]
  · intro _ oneIn _ otherIn agree
    obtain ⟨first, firstIn, rfl⟩ := mem_map.mp oneIn
    obtain ⟨second, secondIn, rfl⟩ := mem_map.mp otherIn
    rw [single first firstIn second secondIn agree]

theorem key_of_prefix (oneIn : hasPrefix d place one = true) (otherIn : hasPrefix d place other = true)
    (agree : ∀ level < causalDepth - d, causalTurn one level = causalTurn other level) : one = other := by
  apply hash_ext
  intro e small
  rcases Nat.lt_or_ge e d with before | after
  · rw [hasPrefix_iff.mp oneIn e before, hasPrefix_iff.mp otherIn e before]
  · apply (causalTurn_eq_iff small).mp
    apply agree
    unfold causalDepth
    omega

theorem prefixValue_congr (same : ∀ key, hasPrefix d place key = true → (key ∈ keys ↔ key ∈ others)) :
    prefixValue sha256 keys d place = prefixValue sha256 others d place := by
  apply causalSubtree_congr
  · intro key
    rw [mem_filter, mem_filter, and_congr_left_iff]
    exact same key
  · intro _ oneIn _ otherIn agree
    exact key_of_prefix (mem_filter.mp oneIn).2 (mem_filter.mp otherIn).2 agree

def child (place : Hash) (d : Nat) (right : Bool) : Hash := if right then setBit place d else clearBit place d

theorem bitAt_child (within : e < causalDepth) :
    bitAt (child place d right) e = if e = d then (if right then 1 else 0) else bitAt place e := by
  cases right with
  | false => exact bitAt_clearBit within
  | true => exact bitAt_setBit within

theorem Padded.child {right : Bool} (padded : Padded d place) : Padded (d + 1) (child place d right) := by
  cases right with
  | false => exact padded.clear.mono (Nat.le_succ d)
  | true => exact padded.set

theorem causalTurn_eq (small : d < causalDepth) :
    causalTurn key (255 - d) = right ↔ bitAt key d = if right then 1 else 0 := by
  unfold causalTurn causalBit
  rw [show 255 - (255 - d) = d from by unfold causalDepth at small; omega]
  cases right <;> rcases bitAt_cases key d with zero | one <;> simp [*]

theorem filter_child (small : d < causalDepth) (right : Bool) :
    (keys.filter (hasPrefix d place)).filter (fun key => causalTurn key (255 - d) == right) =
      keys.filter (hasPrefix (d + 1) (child place d right)) := by
  rw [filter_filter]
  apply filter_congr
  intro _ _
  rw [Bool.eq_iff_iff, Bool.and_eq_true, hasPrefix_iff, hasPrefix_iff, Nat.forall_lt_succ_right, beq_iff_eq,
    causalTurn_eq small, bitAt_child small, if_pos rfl, and_comm]
  apply and_congr_left'
  apply forall₂_congr
  intro _ before
  rw [bitAt_child (before.trans small), if_neg before.ne]

theorem prefixValue_step (small : d < causalDepth) : prefixValue sha256 keys d place =
    causalJoin sha256 (255 - d) (prefixValue sha256 keys (d + 1) (clearBit place d))
      (prefixValue sha256 keys (d + 1) (setBit place d)) := by
  have split : causalDepth - d = 255 - d + 1 := by
    unfold causalDepth at small ⊢
    omega
  have below : causalDepth - (d + 1) = 255 - d := by
    omega
  unfold prefixValue
  rw [split, causalSubtree_succ, below, filter_child small, filter_child small]
  rfl

end

namespace CausalSet

variable {nodes : Nodes} {place : Hash}

theorem depthU16_eq (shallow : d ≤ causalDepth) : depthU16 d = d := by
  unfold depthU16
  unfold causalDepth at shallow
  rw [if_pos (by omega)]

theorem nodeAt_insert (shallow : d ≤ causalDepth) (within : e ≤ causalDepth) (value : Hash × UInt64) :
    nodeAt sha256 (nodes.insert (depthU16 d, place) value) e other =
      if e = d ∧ other = place then value else nodeAt sha256 nodes e other := by
  unfold nodeAt
  rw [Std.ExtTreeMap.getElem?_insert, depthU16_eq shallow, depthU16_eq within]
  by_cases same : e = d ∧ other = place
  · obtain ⟨rfl, rfl⟩ := same
    rw [if_pos Std.ReflCmp.compare_self, if_pos ⟨rfl, rfl⟩]
    rfl
  · rw [if_neg same, if_neg]
    intro equal
    obtain ⟨depth, prefix_⟩ := Prod.mk.inj (nodeCmp_eq equal)
    exact same ⟨depth.symm, prefix_.symm⟩

section

theorem nodeAt_enter (shallow : d ≤ causalDepth) (within : e ≤ causalDepth) :
    nodeAt sha256 (enter sha256 key state d).1 e other = nodeAt sha256 state.1 e other := by
  show ((state.1.insertIfNew (depthU16 d, state.2) (emptyTable sha256 d, 0))[(depthU16 e, other)]?).getD _ = _
  rw [Std.ExtTreeMap.getElem?_insertIfNew, depthU16_eq shallow]
  split
  · rename_i created
    obtain ⟨depth, rfl⟩ := Prod.mk.inj (nodeCmp_eq created.1)
    rw [depthU16_eq within] at depth created
    subst depth
    unfold nodeAt
    rw [depthU16_eq shallow, Std.ExtTreeMap.getElem?_eq_none created.2]
    rfl
  · rfl

def Walked (key : Hash) (d : Nat) (place : Hash) : Prop := Padded d place ∧ ∀ e < d, bitAt place e = bitAt key e

theorem walked_enter (small : d < causalDepth) (walked : Walked key d state.2) :
    Walked key (d + 1) (enter sha256 key state d).2 := by
  obtain ⟨padded, same⟩ := walked
  show Walked key (d + 1) (if causalBit key d = 0 then clearBit state.2 d else setBit state.2 d)
  split
  · rename_i zero
    refine ⟨padded.clear.mono (Nat.le_succ d), ?_⟩
    intro e before
    rw [bitAt_clearBit (Nat.lt_of_lt_of_le before small)]
    split
    · rename_i last
      rw [last]
      exact zero.symm
    · exact same e (by omega)
  · rename_i one
    refine ⟨padded.set, ?_⟩
    intro e before
    rw [bitAt_setBit (Nat.lt_of_lt_of_le before small)]
    split
    · rename_i last
      rw [last]
      exact ((bitAt_cases key d).resolve_left one).symm
    · exact same e (by omega)

theorem down_spec (sha256 : Sha256) (key : Hash) (nodes : Nodes) (shallow : d ≤ causalDepth) :
    Walked key d ((range d).foldl (enter sha256 key) (nodes, zeroPrefix)).2 ∧ ∀ e ≤ causalDepth, ∀ other,
        nodeAt sha256 ((range d).foldl (enter sha256 key) (nodes, zeroPrefix)).1 e other =
          nodeAt sha256 nodes e other := by
  induction d with
  | zero => exact ⟨⟨zeroPrefix_padded, fun e before => nomatch before⟩, fun e within other => rfl⟩
  | succ d ih =>
    obtain ⟨walked, kept⟩ := ih (by omega)
    rw [range_succ, foldl_append, foldl_cons, foldl_nil]
    exact ⟨walked_enter shallow walked, fun e within other =>
      (nodeAt_enter (by omega) within).trans (kept e within other)⟩

theorem Walked.whole (walked : Walked key causalDepth place) : place = key := hash_ext walked.2

end

variable {keys : List Hash}

def RightFrom (sha256 : Sha256) (keys : List Hash) (key : Hash) (d : Nat) (nodes : Nodes) : Prop :=
  ∀ e ≤ causalDepth, ∀ place, Padded e place → (d ≤ e ∨ hasPrefix e place key = false) →
    nodeAt sha256 nodes e place = prefixValue sha256 keys e place

theorem recompute_prefix (small : d < causalDepth) (same : ∀ e ≤ d, bitAt state.2 e = bitAt key e) (before : e ≤ d) :
    bitAt (recompute sha256 state d).2 e = bitAt key e := by
  show bitAt (maskAfter state.2 d) e = bitAt key e
  rw [bitAt_maskAfter (Nat.lt_of_le_of_lt before small), if_pos before, same e before]

theorem rightFrom_recompute (small : d < causalDepth) (same : ∀ e ≤ d, bitAt state.2 e = bitAt key e)
    (right : RightFrom sha256 keys key (d + 1) state.1) : RightFrom sha256 keys key d (recompute sha256 state d).1 := by
  have masked {e : Nat} (within : e < causalDepth) :
      bitAt (maskAfter state.2 d) e = if e ≤ d then bitAt key e else 0 := by
    rw [bitAt_maskAfter within]
    split
    · rename_i before
      exact same e before
    · rfl
  have padded : Padded (d + 1) (maskAfter state.2 d) := by
    intro e within after
    rw [masked within, if_neg (by omega)]
  have leftPadded : Padded d (clearBit (maskAfter state.2 d) d) := by
    intro e within after
    rw [bitAt_clearBit within]
    split
    · rfl
    · exact padded e within (by omega)
  have rightPadded : Padded (d + 1) (setBit (maskAfter state.2 d) d) := by
    intro e within after
    rw [bitAt_setBit within, if_neg (by omega)]
    exact padded e within after
  have leftNode := right (d + 1) small _ (leftPadded.mono (Nat.le_succ d)) (Or.inl (le_refl _))
  have rightNode := right (d + 1) small _ rightPadded (Or.inl (le_refl _))
  intro e within place placePadded wanted
  show nodeAt sha256 (state.1.insert (depthU16 d, clearBit (maskAfter state.2 d) d)
    (causalNode sha256 (depthU16 d) _ _ _ _, countSum _ _)) e place = _
  rw [nodeAt_insert small.le within]
  split
  · rename_i here
    obtain ⟨rfl, rfl⟩ := here
    rw [leftNode, rightNode, prefixValue_step small]
    have again : clearBit (clearBit (maskAfter state.2 e) e) e = clearBit (maskAfter state.2 e) e := by
      apply hash_ext
      intro index inside
      rw [bitAt_clearBit inside, bitAt_clearBit inside]
      split <;> rfl
    have other : setBit (clearBit (maskAfter state.2 e) e) e = setBit (maskAfter state.2 e) e := by
      apply hash_ext
      intro index inside
      rw [bitAt_setBit inside, bitAt_setBit inside, bitAt_clearBit inside]
      split <;> rfl
    rw [again, other]
    unfold causalJoin
    rw [show 255 - (255 - e) = e from by unfold causalDepth at small; omega]
  · rename_i elsewhere
    apply right e within place placePadded
    rcases wanted with deep | beside
    · by_cases deeper : d + 1 ≤ e
      · exact Or.inl deeper
      · apply Or.inr
        obtain rfl : e = d := by omega
        rw [← Bool.not_eq_true, hasPrefix_iff]
        intro shared
        apply elsewhere
        refine ⟨rfl, placePadded.unique leftPadded ?_⟩
        intro index before
        have inside : index < causalDepth := by omega
        rw [← shared index before, bitAt_clearBit inside, if_neg before.ne, masked inside, if_pos before.le]
    · exact Or.inr beside

theorem up_spec (shallow : d ≤ causalDepth) (same : ∀ e < d, bitAt state.2 e = bitAt key e)
    (right : RightFrom sha256 keys key d state.1) :
    RightFrom sha256 keys key 0 ((range d).reverse.foldl (recompute sha256) state).1 := by
  induction d generalizing state with
  | zero => exact right
  | succ d ih =>
    rw [range_succ, reverse_append, reverse_singleton, singleton_append, foldl_cons]
    have before : ∀ e ≤ d, bitAt state.2 e = bitAt key e := fun e small => same e (by omega)
    apply ih (by omega)
    · intro e small
      exact recompute_prefix shallow before small.le
    · exact rightFrom_recompute shallow before right

end CausalSet

end Rezzy.Merkle
