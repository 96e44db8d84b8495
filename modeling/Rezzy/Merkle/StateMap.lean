import Rezzy.Lib.SparseTrie
import Rezzy.Merkle.Digest

namespace Rezzy.Merkle

open Json Basespec List

abbrev MerkleHash := Hash

def stateDepth : Nat := 256

def stateKeyDst : Bytes := asBytes "msc4511:state-key:sha256:v1"
def stateLeafDst : Bytes := asBytes "msc4511:state-leaf:sha256:v1"
def stateNodeDst : Bytes := asBytes "msc4511:state-node:sha256:v1"
def stateEmptyDst : Bytes := asBytes "msc4511:state-empty:sha256:v1"

def bit (key : MerkleHash) (depth : Nat) : UInt8 := bitAt key depth

def lengthBytes (text : String) : Bytes := toBeBytes 8 (min (asBytes text).length (2 ^ 64 - 1))

def encodePair (eventType stateKey : String) : Bytes :=
  lengthBytes eventType ++ asBytes eventType ++ lengthBytes stateKey ++ asBytes stateKey

structure StateProofStep where
  hash : MerkleHash
deriving DecidableEq

section

variable (sha256 : Sha256)

def stateKeyHash (eventType stateKey : String) : MerkleHash :=
  hashParts sha256 [stateKeyDst, encodePair eventType stateKey]

def stateLeafHash (eventType stateKey eventId : String) : MerkleHash :=
  hashParts sha256 [stateLeafDst, encodePair eventType stateKey, lengthBytes eventId, asBytes eventId]

def stateNode (depth : Nat) (left right : MerkleHash) : MerkleHash :=
  hashParts sha256 [stateNodeDst, toBeBytes 2 (min depth (2 ^ 16 - 1)), left.toList, right.toList]

def stateEmptyBelow : Nat → MerkleHash
  | 0 => hashParts sha256 [stateEmptyDst]
  | levels + 1 =>
    let child := stateEmptyBelow levels
    stateNode sha256 (stateDepth - (levels + 1)) child child

def stateEmptyTable (depth : Nat) : MerkleHash := stateEmptyBelow sha256 (stateDepth - depth)

end

structure StateMap where
  leaves : Std.ExtTreeMap MerkleHash MerkleHash

namespace StateMap

def partition (entries : List (MerkleHash × MerkleHash)) (depth : Nat) :
    List (MerkleHash × MerkleHash) × List (MerkleHash × MerkleHash) :=
  entries.partition fun entry => bit entry.1 depth = 0

section

variable (sha256 : Sha256) {Id K : Type} {cmp : EventType × K → EventType × K → Ordering} [Std.TransCmp cmp]

def fromState (asRef : K → String) (display : Id → String) (state : Std.ExtTreeMap (EventType × K) Id cmp) : StateMap :=
  ⟨state.toList.foldl (fun leaves entry =>
    leaves.insert (stateKeyHash sha256 entry.1.1.asStr (asRef entry.1.2))
      (stateLeafHash sha256 entry.1.1.asStr (asRef entry.1.2) (display entry.2))) ∅⟩

end

variable (sha256 : Sha256)

def subtree : Nat → List (MerkleHash × MerkleHash) → MerkleHash
  | levels, [] => stateEmptyTable sha256 (stateDepth - levels)
  | 0, first :: _ => first.2
  | levels + 1, entries =>
    let depth := stateDepth - (levels + 1)
    let (left, right) := partition entries depth
    stateNode sha256 depth (subtree levels left) (subtree levels right)

def descend (key : MerkleHash) : Nat → List (MerkleHash × MerkleHash) → Nat × List StateProofStep
  | levels, [] => (stateDepth - levels, [])
  | 0, _ => (stateDepth, [])
  | levels + 1, entries =>
    let depth := stateDepth - (levels + 1)
    let (left, right) := partition entries depth
    let (term, path) := if bit key depth = 0 then descend key levels left else descend key levels right
    let sibling := if bit key depth = 0 then subtree sha256 levels right else subtree sha256 levels left
    (term, path ++ [⟨sibling⟩])

variable (map : StateMap)

def entries : List (MerkleHash × MerkleHash) := map.leaves.toList

def root : MerkleHash := subtree sha256 stateDepth map.entries

def inclusionProof (eventType stateKey eventId : String) : Option (List StateProofStep × MerkleHash) :=
  let key := stateKeyHash sha256 eventType stateKey
  if map.leaves[key]? ≠ some (stateLeafHash sha256 eventType stateKey eventId) then none
  else some ((descend sha256 key stateDepth map.entries).2, map.root sha256)

def nonInclusionProof (eventType stateKey : String) : Option (List StateProofStep × Nat × MerkleHash) :=
  let key := stateKeyHash sha256 eventType stateKey
  if map.leaves.contains key then none
  else
    let (depth, path) := descend sha256 key stateDepth map.entries
    some (path, depth, map.root sha256)

end StateMap

section

variable (sha256 : Sha256)

def climbStatePath (key : MerkleHash) : Nat → MerkleHash → List StateProofStep → MerkleHash
  | _, value, [] => value
  | depth, value, step :: path =>
    let above := depth - 1
    climbStatePath key above
      (if bit key above = 0 then stateNode sha256 above value step.hash else stateNode sha256 above step.hash value) path

def verify (key value : MerkleHash) (terminalDepth : Nat) (path : List StateProofStep) (root : MerkleHash) : Bool :=
  path.length = terminalDepth ∧ climbStatePath sha256 key terminalDepth value path = root

def verifyInclusion (eventType stateKey eventId : String) (path : List StateProofStep) (root : MerkleHash) : Bool :=
  verify sha256 (stateKeyHash sha256 eventType stateKey) (stateLeafHash sha256 eventType stateKey eventId) stateDepth
    path root

def verifyNonInclusion (eventType stateKey : String) (terminalDepth : Nat) (path : List StateProofStep)
    (root : MerkleHash) : Bool :=
  if stateDepth < terminalDepth then false
  else if path.length ≠ terminalDepth then false
  else if path.head?.any fun first => first.hash = stateEmptyTable sha256 terminalDepth then false
  else verify sha256 (stateKeyHash sha256 eventType stateKey) (stateEmptyTable sha256 terminalDepth) terminalDepth path root

end

open SparseTrie Json Basespec

variable (sha256 : Sha256)

def stateTurn (key : MerkleHash) (levels : Nat) : Bool := bit key (255 - levels) != 0

def stateJoin (levels : Nat) (left right : MerkleHash) : MerkleHash := stateNode sha256 (255 - levels) left right

def stateBlank : MerkleHash := stateEmptyBelow sha256 0

abbrev stateSubtree : Nat → List (MerkleHash × MerkleHash) → MerkleHash :=
  SparseTrie.subtree (stateJoin sha256) (stateBlank sha256) stateTurn

abbrev stateSiblings (key : MerkleHash) : Nat → Nat → List (MerkleHash × MerkleHash) → List MerkleHash :=
  siblings (stateJoin sha256) (stateBlank sha256) stateTurn key

variable {sha256}

theorem state_void_eq : void (stateJoin sha256) (stateBlank sha256) levels = stateEmptyBelow sha256 levels := by
  induction levels with
  | zero => rfl
  | succ levels ih =>
    rw [void, ih]
    show stateNode sha256 (255 - levels) _ _ = stateNode sha256 (stateDepth - (levels + 1)) _ _
    rw [show stateDepth - (levels + 1) = 255 - levels from by unfold stateDepth; omega]

theorem stateSubtree_nil : stateSubtree sha256 levels [] = stateEmptyBelow sha256 levels := subtree_nil.trans state_void_eq

theorem stateEmptyTable_sub (small : levels ≤ stateDepth) :
    stateEmptyTable sha256 (stateDepth - levels) = stateEmptyBelow sha256 levels := by
  unfold stateEmptyTable
  rw [Nat.sub_sub_self small]

theorem partition_eq : StateMap.partition entries (stateDepth - (levels + 1)) =
    (side stateTurn levels false entries, side stateTurn levels true entries) := by
  unfold StateMap.partition side
  rw [partition_eq_filter_filter, show stateDepth - (levels + 1) = 255 - levels from by unfold stateDepth; omega]
  have same (key : MerkleHash) : (stateTurn key levels == false) = decide (bit key (255 - levels) = 0) ∧
      (stateTurn key levels == true) = !decide (bit key (255 - levels) = 0) := by
    unfold stateTurn
    by_cases zero : bit key (255 - levels) = 0 <;> simp [zero]
  exact Prod.ext (filter_congr fun entry _ => (same entry.1).1.symm) (filter_congr fun entry _ => (same entry.1).2.symm)

theorem subtree_eq (small : levels ≤ stateDepth) :
    StateMap.subtree sha256 levels entries = stateSubtree sha256 levels entries := by
  induction levels generalizing entries with
  | zero =>
    cases entries with
    | nil => rfl
    | cons first rest => rfl
  | succ levels ih =>
    cases entries with
    | nil =>
      rw [StateMap.subtree, stateEmptyTable_sub small]
      exact stateSubtree_nil.symm
    | cons first rest =>
      rw [StateMap.subtree, partition_eq]
      · dsimp only
        rw [ih (by omega), ih (by omega)]
        show stateNode sha256 (stateDepth - (levels + 1)) _ _ = stateNode sha256 (255 - levels) _ _
        rw [show stateDepth - (levels + 1) = 255 - levels from by unfold stateDepth; omega]
      · exact cons_ne_nil _ _

theorem stateTurn_eq_false_iff : stateTurn key levels = false ↔ bit key (stateDepth - (levels + 1)) = 0 := by
  unfold stateTurn
  rw [show stateDepth - (levels + 1) = 255 - levels from by unfold stateDepth; omega]
  simp

theorem descend_eq (small : levels ≤ stateDepth) : StateMap.descend sha256 key levels entries =
    (stateDepth - (SparseTrie.descend (stateJoin sha256) (stateBlank sha256) stateTurn key levels entries).1,
      (SparseTrie.descend (stateJoin sha256) (stateBlank sha256) stateTurn key levels entries).2.map StateProofStep.mk) := by
  induction levels generalizing entries with
  | zero =>
    cases entries with
    | nil => rfl
    | cons first rest => rfl
  | succ levels ih =>
    cases entries with
    | nil => rfl
    | cons first rest =>
      rw [StateMap.descend, partition_eq, descend_succ (cons_ne_nil _ _)]
      · dsimp only
        cases turn : stateTurn key levels with
        | false =>
          rw [if_pos (stateTurn_eq_false_iff.mp turn), if_pos (stateTurn_eq_false_iff.mp turn), ih (by omega),
            subtree_eq (by omega), map_append]
          rfl
        | true =>
          have one : ¬ bit key (stateDepth - (levels + 1)) = 0 := by
            rw [← stateTurn_eq_false_iff, turn]
            exact Bool.noConfusion
          rw [if_neg one, if_neg one, ih (by omega), subtree_eq (by omega), map_append]
          rfl
      · exact cons_ne_nil _ _

theorem climbStatePath_eq (short : path.length ≤ depth) (shallow : depth ≤ stateDepth) :
    climbStatePath sha256 key depth value path =
      climb (stateJoin sha256) stateTurn key (stateDepth - depth) value (path.map StateProofStep.hash) := by
  induction path generalizing depth value with
  | nil => rfl
  | cons step path ih =>
    rw [length_cons] at short
    have above : depth - 1 = stateDepth - (stateDepth - depth + 1) := by omega
    have place : 255 - (stateDepth - depth) = depth - 1 := by
      unfold stateDepth at shallow ⊢
      omega
    have joined : (if bit key (depth - 1) = 0 then stateNode sha256 (depth - 1) value step.hash
        else stateNode sha256 (depth - 1) step.hash value) =
          join (stateJoin sha256) stateTurn key (stateDepth - depth) value step.hash := by
      unfold join ordered stateJoin
      rw [place]
      cases turn : stateTurn key (stateDepth - depth) with
      | false =>
        rw [above, if_pos (stateTurn_eq_false_iff.mp turn)]
        rfl
      | true =>
        have one : ¬ bit key (depth - 1) = 0 := by
          rw [above, ← stateTurn_eq_false_iff, turn]
          exact Bool.noConfusion
        rw [if_neg one]
        rfl
    show climbStatePath sha256 key (depth - 1) (if bit key (depth - 1) = 0 then stateNode sha256 (depth - 1) value step.hash
      else stateNode sha256 (depth - 1) step.hash value) path = _
    rw [joined, ih (by omega) (by omega), above, Nat.sub_sub_self (by omega)]
    rfl

end Rezzy.Merkle
