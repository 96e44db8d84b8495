import Mathlib.Data.List.GetD
import Mathlib.Data.List.Nodup
import Mathlib.Data.List.Perm.Basic
import Mathlib.Data.List.Perm.Lattice
import Rezzy.Hamt.Codec
import Rezzy.Lib.Packed

namespace Rezzy.Hamt

open Nat

section

abbrev KeyPathHash := StructuralHash

def hamtBranchBits : Nat := 5
def hamtBranchFactor : Nat := 32
def hamtMaxDepth : Nat := 52

def byteAt (hash : KeyPathHash) (index : Nat) : Nat := (hash.toList.getD index 0).toNat

/-- The slot of a path hash at a depth below the maximal one; the second of the two bytes is missing at the end of the
    hash. -/
def bucketIndex (hash : KeyPathHash) (depth : Nat) : Nat :=
  let bitOffset := depth * hamtBranchBits
  let word := byteAt hash (bitOffset / 8) ||| (byteAt hash (bitOffset / 8 + 1) <<< 8)
  (word >>> (bitOffset % 8)) &&& 0b11111

theorem bucketIndex_lt (hash : KeyPathHash) (depth : Nat) : bucketIndex hash depth < 32 :=
  @Nat.and_lt_two_pow _ 31 5 (by decide)

def hashBit (hash : KeyPathHash) (position : Nat) : Bool := (byteAt hash (position / 8)).testBit (position % 8)

theorem testBit_byteAt (hash : KeyPathHash) (index : Nat) (high : 8 ≤ i) : (byteAt hash index).testBit i = false := by
  have small : byteAt hash index < 2 ^ 8 := UInt8.toNat_lt _
  exact testBit_lt_two_pow (Nat.lt_of_lt_of_le small (Nat.pow_le_pow_right (by decide) high))

theorem testBit_bucketIndex (hash : KeyPathHash) (depth : Nat) (low : i < 5) :
    (bucketIndex hash depth).testBit i = hashBit hash (depth * 5 + i) := by
  have mask : testBit 0b11111 i = true := by
    rw [show 0b11111 = 2 ^ 5 - 1 from rfl, testBit_two_pow_sub_one]
    exact decide_eq_true low
  unfold bucketIndex hashBit hamtBranchBits
  rw [testBit_and, mask, Bool.and_true, testBit_shiftRight, testBit_or, testBit_shiftLeft]
  by_cases first : depth * 5 % 8 + i < 8
  · have byte : (depth * 5 + i) / 8 = depth * 5 / 8 := by omega
    have bit : (depth * 5 + i) % 8 = depth * 5 % 8 + i := by omega
    rw [byte, bit, decide_eq_false (by omega), Bool.false_and, Bool.or_false]
  · have byte : (depth * 5 + i) / 8 = depth * 5 / 8 + 1 := by omega
    have bit : (depth * 5 + i) % 8 = depth * 5 % 8 + i - 8 := by omega
    rw [byte, bit, testBit_byteAt _ _ (by omega), Bool.false_or, decide_eq_true (by omega), Bool.true_and]

theorem hash_ext (same : ∀ depth < hamtMaxDepth, bucketIndex left depth = bucketIndex right depth) : left = right := by
  have bits : ∀ position < 256, hashBit left position = hashBit right position := by
    intro position inside
    have split : position = position / 5 * 5 + position % 5 := by omega
    have below : position / 5 < hamtMaxDepth := by
      unfold hamtMaxDepth
      omega
    rw [split, ← testBit_bucketIndex left _ (mod_lt _ (by decide)),
      ← testBit_bucketIndex right _ (mod_lt _ (by decide)), same _ below]
  have bytes : ∀ index < 32, byteAt left index = byteAt right index := by
    intro index inside
    apply eq_of_testBit_eq
    intro i
    by_cases low : i < 8
    · have bit := bits (index * 8 + i) (by omega)
      unfold hashBit at bit
      rwa [show (index * 8 + i) / 8 = index by omega, show (index * 8 + i) % 8 = i by omega] at bit
    · rw [testBit_byteAt _ _ (by omega), testBit_byteAt _ _ (by omega)]
  apply Vector.toList_inj.mp
  apply List.ext_getElem
  · simp
  · intro index insideLeft insideRight
    have small : index < 32 := by simpa using insideLeft
    have equal := bytes index small
    unfold byteAt at equal
    rw [List.getD_eq_getElem _ _ insideLeft, List.getD_eq_getElem _ _ insideRight] at equal
    exact UInt8.toNat_inj.mp equal

mutual

inductive HamtNode (K V H : Type) where
  | mk (datamap nodemap : BitVec 32) (leaves : List (K × V)) (children : List (NodeRef K V H))
    (structuralHash : H)

inductive NodeRef (K V H : Type) where
  | resolved (node : HamtNode K V H)
  | lazy (hash : H)

end

variable {K V H E : Type}

namespace HamtNode

def datamap : HamtNode K V H → BitVec 32
  | mk datamap _ _ _ _ => datamap

def nodemap : HamtNode K V H → BitVec 32
  | mk _ nodemap _ _ _ => nodemap

def leaves : HamtNode K V H → List (K × V)
  | mk _ _ leaves _ _ => leaves

def children : HamtNode K V H → List (NodeRef K V H)
  | mk _ _ _ children _ => children

def structuralHash : HamtNode K V H → H
  | mk _ _ _ _ structuralHash => structuralHash

end HamtNode

def NodeRef.structuralHash : NodeRef K V H → H
  | resolved node => node.structuralHash
  | lazy hash => hash

/-- The structural hash as a function of what it commits to: the bitmaps, the leaves and the child
    hashes. -/
abbrev Hasher (K V H : Type) := BitVec 32 → BitVec 32 → List (K × V) → List H → H

def computeStructuralHash (hasher : Hasher K V H) (datamap nodemap : BitVec 32) (leaves : List (K × V))
    (children : List (NodeRef K V H)) : H :=
  hasher datamap nodemap leaves (children.map NodeRef.structuralHash)

def rebuildNode (hasher : Hasher K V H) (datamap nodemap : BitVec 32) (leaves : List (K × V))
    (children : List (NodeRef K V H)) : HamtNode K V H :=
  ⟨datamap, nodemap, leaves, children, computeStructuralHash hasher datamap nodemap leaves children⟩

def lowerSlotMasks : List (BitVec 32) :=
  [0x00000000, 0x00000001, 0x00000003, 0x00000007, 0x0000000f, 0x0000001f, 0x0000003f, 0x0000007f,
    0x000000ff, 0x000001ff, 0x000003ff, 0x000007ff, 0x00000fff, 0x00001fff, 0x00003fff, 0x00007fff,
    0x0000ffff, 0x0001ffff, 0x0003ffff, 0x0007ffff, 0x000fffff, 0x001fffff, 0x003fffff, 0x007fffff,
    0x00ffffff, 0x01ffffff, 0x03ffffff, 0x07ffffff, 0x0fffffff, 0x1fffffff, 0x3fffffff, 0x7fffffff]

def lowerSlotMask (slot : Nat) : BitVec 32 := lowerSlotMasks[slot]?.getD (.allOnes 32)

def mapIndex (bitmap : BitVec 32) (slot : Nat) : Nat := countOnes (bitmap &&& lowerSlotMask slot)

def slotBit (slot : Nat) : BitVec 32 := 1 <<< slot

inductive Slot (K V H : Type) where
  | leaf (entry : K × V)
  | child (ref : NodeRef K V H)
  | empty
  /-- A taken bit without an item: the source indexes out of bounds. -/
  | corrupt

def HamtNode.slotAt (node : HamtNode K V H) (pathHash : KeyPathHash) (depth : Nat) : Slot K V H :=
  let slot := bucketIndex pathHash depth
  let bit := slotBit slot
  if node.datamap &&& bit ≠ 0 then
    match node.leaves[mapIndex node.datamap slot]? with
    | some entry => .leaf entry
    | none => .corrupt
  else if node.nodemap &&& bit ≠ 0 then
    match node.children[mapIndex node.nodemap slot]? with
    | some ref => .child ref
    | none => .corrupt
  else .empty

inductive LookupFault (E : Type) where
  | resolve (error : E)
  /-- The panic at a corrupt slot. -/
  | outOfBounds

abbrev Resolver (K V H E : Type) := H → Except E (HamtNode K V H)

def depthOf (levels : Nat) : Nat := hamtMaxDepth - levels

section

variable [DecidableEq K]

def getByPathHashInner (key : K) (pathHash : KeyPathHash) :
    Nat → HamtNode K V H → Except (LookupFault Empty) (Option V)
  | 0, _ => .ok none
  | levels + 1, node =>
    match node.slotAt pathHash (depthOf (levels + 1)) with
    | .leaf entry => .ok (if entry.1 = key then some entry.2 else none)
    | .child (.resolved child) => getByPathHashInner key pathHash levels child
    | .child (.lazy _) | .empty => .ok none
    | .corrupt => .error .outOfBounds

def HamtNode.get (node : HamtNode K V H) (keyHash : K → KeyPathHash) (key : K) :
    Except (LookupFault Empty) (Option V) :=
  getByPathHashInner key (keyHash key) hamtMaxDepth node

def searchByPathHash (key : K) (pathHash : KeyPathHash) (resolver : Resolver K V H E) :
    Nat → HamtNode K V H → Except (LookupFault E) (Option V)
  | 0, _ => .ok none
  | levels + 1, node =>
    match node.slotAt pathHash (depthOf (levels + 1)) with
    | .leaf entry => .ok (if entry.1 = key then some entry.2 else none)
    | .child (.resolved child) => searchByPathHash key pathHash resolver levels child
    | .child (.lazy hash) => do
      let child ← (resolver hash).mapError .resolve
      searchByPathHash key pathHash resolver levels child
    | .empty => .ok none
    | .corrupt => .error .outOfBounds

def HamtNode.search (node : HamtNode K V H) (keyHash : K → KeyPathHash) (key : K)
    (resolver : Resolver K V H E) : Except (LookupFault E) (Option V) :=
  searchByPathHash key (keyHash key) resolver hamtMaxDepth node

end

inductive HamtBuildError where
  | hashCollision (depth bucketSize : Nat)
deriving DecidableEq, Repr

structure BuildEntry (K V : Type) where
  key : K
  value : V
  pathHash : KeyPathHash

structure NodeParts (K V H : Type) where
  datamap : BitVec 32
  nodemap : BitVec 32
  leaves : List (K × V)
  children : List (NodeRef K V H)

def NodeParts.empty : NodeParts K V H := ⟨0, 0, [], []⟩

def placeBucket (buildChild : List (BuildEntry K V) → Except HamtBuildError (HamtNode K V H)) (depth : Nat)
    (parts : NodeParts K V H) (slot : Nat) (bucket : List (BuildEntry K V)) :
    Except HamtBuildError (NodeParts K V H) :=
  match bucket with
  | [] => .ok parts
  | [entry] => .ok { parts with
      datamap := parts.datamap ||| slotBit slot, leaves := parts.leaves ++ [(entry.key, entry.value)] }
  | bucket =>
    if hamtMaxDepth ≤ depth + 1 then .error (.hashCollision depth bucket.length)
    else do
      let child ← buildChild bucket
      return { parts with
        nodemap := parts.nodemap ||| slotBit slot, children := parts.children ++ [.resolved child] }

def bucketOf (depth : Nat) (entries : List (BuildEntry K V)) (slot : Nat) : List (BuildEntry K V) :=
  entries.filter fun entry => bucketIndex entry.pathHash depth = slot

def buildNode (hasher : Hasher K V H) : Nat → List (BuildEntry K V) → Except HamtBuildError (HamtNode K V H)
  | 0, entries => .error (.hashCollision hamtMaxDepth entries.length)
  | levels + 1, entries => do
    let depth := depthOf (levels + 1)
    let parts ← (List.range hamtBranchFactor).foldlM (fun parts slot =>
      placeBucket (buildNode hasher levels) depth parts slot (bucketOf depth entries slot)) .empty
    return rebuildNode hasher parts.datamap parts.nodemap parts.leaves parts.children

def buildHamt (hasher : Hasher K V H) (keyHash : K → KeyPathHash) (entries : List (K × V)) :
    Except HamtBuildError (HamtNode K V H) :=
  buildNode hasher hamtMaxDepth (entries.map fun entry => ⟨entry.1, entry.2, keyHash entry.1⟩)

end

open Packed

variable {K V H E : Type}

section

theorem lowerSlotMask_bit (inside : slot < 32) : ∀ i < 32, (lowerSlotMask slot).getLsbD i = decide (i < slot) := by
  have all : ∀ slot : Fin 32, ∀ i : Fin 32, (lowerSlotMask slot).getLsbD i = decide (i < slot) := by
    decide
  intro i small
  exact all ⟨slot, inside⟩ ⟨i, small⟩

theorem slotBit_bit (inside : slot < 32) : ∀ i < 32, (slotBit slot).getLsbD i = decide (i = slot) := by
  have all : ∀ slot : Fin 32, ∀ i : Fin 32, (slotBit slot).getLsbD i = decide (i.val = slot.val) := by
    decide
  intro i small
  exact all ⟨slot, inside⟩ ⟨i, small⟩

theorem and_slotBit_ne_zero (inside : slot < 32) (bitmap : BitVec 32) :
    bitmap &&& slotBit slot ≠ 0 ↔ bitmap.getLsbD slot = true := by
  constructor
  · intro taken
    by_contra free
    apply taken
    apply BitVec.eq_of_getLsbD_eq
    intro i small
    rw [BitVec.getLsbD_and, slotBit_bit inside i small]
    by_cases same : i = slot
    · simpa [same] using free
    · simp [same]
  · intro set zero
    have bit := congrArg (BitVec.getLsbD · slot) zero
    simp only [BitVec.getLsbD_and, slotBit_bit inside slot inside, set, decide_true, Bool.and_true,
      BitVec.ofNat_eq_ofNat, BitVec.getLsbD_zero, reduceCtorEq] at bit

theorem packs_mapIndex (packs : Packs bitmap list slots) (inside : slot < 32) :
    mapIndex bitmap slot = rank slots slot := packs.rank inside (lowerSlotMask_bit inside)

theorem packs_taken (packs : Packs bitmap list slots) (inside : slot < 32) :
    bitmap &&& slotBit slot ≠ 0 ↔ (slots slot).isSome := by
  rw [and_slotBit_ne_zero inside, packs.bits slot inside]

end

def resolveChildRef (resolver : Resolver K V H E) : NodeRef K V H → Except E (HamtNode K V H)
  | .resolved child => .ok child
  | .lazy hash => resolver hash

def noStore : Resolver K V H Unit := fun _ => .error ()

structure HamtNode.Packed (hasher : Hasher K V H) (node : HamtNode K V H) (leafSlots : Nat → Option (K × V))
    (childSlots : Nat → Option (NodeRef K V H)) : Prop where
  leaves : Packs node.datamap node.leaves leafSlots
  children : Packs node.nodemap node.children childSlots
  hash : node.structuralHash = computeStructuralHash hasher node.datamap node.nodemap node.leaves node.children

def route (keyHash : K → KeyPathHash) (depth : Nat) (key : K) : Nat := bucketIndex (keyHash key) depth

def bucket (keyHash : K → KeyPathHash) (depth : Nat) (entries : List (K × V)) (slot : Nat) : List (K × V) :=
  entries.filter fun entry => route keyHash depth entry.1 = slot

/-- What a slot has to hold for its entries: nothing for none, a leaf for one, a child for more. -/
inductive SlotHolds (resolver : Resolver K V H E) (childHolds : HamtNode K V H → List (K × V) → Prop) :
    List (K × V) → Option (K × V) → Option (NodeRef K V H) → Prop where
  | empty : SlotHolds resolver childHolds [] none none
  | leaf (entry : K × V) : SlotHolds resolver childHolds [entry] (some entry) none
  | child {entries : List (K × V)} {ref : NodeRef K V H} {node : HamtNode K V H} (several : 2 ≤ entries.length)
      (resolves : resolveChildRef resolver ref = .ok node) (named : node.structuralHash = ref.structuralHash)
      (holds : childHolds node entries) : SlotHolds resolver childHolds entries none (some ref)

def Holds (hasher : Hasher K V H) (keyHash : K → KeyPathHash) (resolver : Resolver K V H E) :
    Nat → HamtNode K V H → List (K × V) → Prop
  | 0, _, _ => False
  | levels + 1, node, entries => ∃ leafSlots childSlots, node.Packed hasher leafSlots childSlots ∧
      ∀ slot < 32, SlotHolds resolver (Holds hasher keyHash resolver levels)
        (bucket keyHash (depthOf (levels + 1)) entries slot) (leafSlots slot) (childSlots slot)

theorem route_lt (keyHash : K → KeyPathHash) (depth : Nat) (key : K) : route keyHash depth key < 32 :=
  bucketIndex_lt _ _

theorem bucket_perm (same : left.Perm right) (slot : Nat) :
    (bucket keyHash depth left slot).Perm (bucket keyHash depth right slot) := same.filter _

theorem SlotHolds.perm {childHolds : HamtNode K V H → List (K × V) → Prop} {leaf : Option (K × V)}
    {child : Option (NodeRef K V H)} (same : left.Perm right)
    (keeps : ∀ node, childHolds node left → childHolds node right)
    (holds : SlotHolds resolver childHolds left leaf child) : SlotHolds resolver childHolds right leaf child := by
  cases holds with
  | empty => rw [List.nil_perm.mp same]; exact .empty
  | leaf entry => rw [← List.singleton_perm.mp same]; exact .leaf entry
  | child several resolves named holds =>
    exact .child (same.length_eq ▸ several) resolves named (keeps _ holds)

theorem Holds.perm (same : left.Perm right) (holds : Holds hasher keyHash resolver levels node left) :
    Holds hasher keyHash resolver levels node right := by
  induction levels generalizing node left right with
  | zero => exact holds
  | succ levels ih =>
    obtain ⟨leafSlots, childSlots, packed, slots⟩ := holds
    exact ⟨leafSlots, childSlots, packed, fun slot inside =>
      (slots slot inside).perm (bucket_perm same slot) fun _ => ih (bucket_perm same slot)⟩

theorem HamtNode.ext_parts {left right : HamtNode K V H} (datamap : left.datamap = right.datamap)
    (nodemap : left.nodemap = right.nodemap) (leaves : left.leaves = right.leaves)
    (children : left.children = right.children) (hash : left.structuralHash = right.structuralHash) :
    left = right := by
  cases left
  cases right
  cases datamap
  cases nodemap
  cases leaves
  cases children
  cases hash
  rfl

theorem SlotHolds.unique {childHolds : HamtNode K V H → List (K × V) → Prop} {leaf otherLeaf : Option (K × V)}
    {child otherChild : Option (NodeRef K V H)}
    (same : ∀ left right, childHolds left entries → childHolds right entries → left = right)
    (first : SlotHolds noStore childHolds entries leaf child)
    (second : SlotHolds noStore childHolds entries otherLeaf otherChild) : leaf = otherLeaf ∧ child = otherChild := by
  cases first with
  | empty =>
    cases second with
    | empty => exact ⟨rfl, rfl⟩
    | child several => simp at several
  | leaf entry =>
    cases second with
    | leaf => exact ⟨rfl, rfl⟩
    | child several => simp at several
  | @child entries ref node several resolves named holds =>
    cases second with
    | empty => simp at several
    | leaf => simp at several
    | @child _ otherRef otherNode _ otherResolves _ otherHolds =>
      have equal := same node otherNode holds otherHolds
      cases ref with
      | lazy hash => cases resolves
      | resolved own =>
        cases otherRef with
        | lazy hash => cases otherResolves
        | resolved other =>
          rw [Except.ok.inj resolves, Except.ok.inj otherResolves, equal]
          exact ⟨rfl, rfl⟩

theorem Holds.unique (first : Holds hasher keyHash noStore levels left entries)
    (second : Holds hasher keyHash noStore levels right entries) : left = right := by
  induction levels generalizing left right entries with
  | zero => exact first.elim
  | succ levels ih =>
    obtain ⟨leafSlots, childSlots, packed, slots⟩ := first
    obtain ⟨otherLeaves, otherChildren, otherPacked, otherSlots⟩ := second
    have same : ∀ slot < 32, leafSlots slot = otherLeaves slot ∧ childSlots slot = otherChildren slot :=
      fun slot inside => (slots slot inside).unique (fun _ _ => ih) (otherSlots slot inside)
    obtain ⟨datamap, leaves⟩ := packed.leaves.unique (otherPacked.leaves.congr fun slot inside => (same slot inside).1)
    obtain ⟨nodemap, children⟩ :=
      packed.children.unique (otherPacked.children.congr fun slot inside => (same slot inside).2)
    refine HamtNode.ext_parts datamap nodemap leaves children ?_
    rw [packed.hash, otherPacked.hash, datamap, nodemap, leaves, children]

end Rezzy.Hamt
