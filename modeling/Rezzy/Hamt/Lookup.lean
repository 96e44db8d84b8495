import Rezzy.Hamt.Node

namespace Rezzy.Hamt

open List

section

open Packed

variable {K V H : Type} {hasher : Hasher K V H} {keyHash : K → KeyPathHash}

theorem depthOf_succ (within : levels + 1 ≤ hamtMaxDepth) : depthOf levels = depthOf (levels + 1) + 1 := by
  unfold depthOf
  omega

/-- Entries that a node with this many levels left can tell apart: distinct keys and path hashes, which agree on the
    slots above. -/
structure Spread (keyHash : K → KeyPathHash) (levels : Nat) (entries : List (K × V)) : Prop where
  within : levels ≤ hamtMaxDepth
  distinct : (entries.map Prod.fst).Nodup
  injective : ∀ left ∈ entries, ∀ right ∈ entries, keyHash left.1 = keyHash right.1 → left.1 = right.1
  routed : ∀ left ∈ entries, ∀ right ∈ entries, ∀ depth < depthOf levels,
    route keyHash depth left.1 = route keyHash depth right.1

theorem Spread.perm (same : left.Perm right) (spread : Spread keyHash levels left) : Spread keyHash levels right where
  within := spread.within
  distinct := (same.map Prod.fst).nodup_iff.mp spread.distinct
  injective a inA b inB := spread.injective a (same.mem_iff.mpr inA) b (same.mem_iff.mpr inB)
  routed a inA b inB := spread.routed a (same.mem_iff.mpr inA) b (same.mem_iff.mpr inB)

theorem mem_bucket :
    entry ∈ bucket keyHash depth entries slot ↔ entry ∈ entries ∧ route keyHash depth entry.1 = slot := by
  rw [bucket, mem_filter, decide_eq_true_eq]

theorem Spread.bucket (spread : Spread keyHash (levels + 1) entries) (slot : Nat) :
    Spread keyHash levels (bucket keyHash (depthOf (levels + 1)) entries slot) where
  within := Nat.le_of_succ_le spread.within
  distinct := (filter_sublist.map Prod.fst).nodup spread.distinct
  injective a inA b inB := spread.injective a (mem_bucket.mp inA).1 b (mem_bucket.mp inB).1
  routed a inA b inB depth above := by
    obtain ⟨memberA, slotA⟩ := mem_bucket.mp inA
    obtain ⟨memberB, slotB⟩ := mem_bucket.mp inB
    rw [depthOf_succ spread.within] at above
    rcases Nat.lt_succ_iff_lt_or_eq.mp above with earlier | rfl
    · exact spread.routed a memberA b memberB depth earlier
    · rw [slotA, slotB]

theorem Spread.single (spread : Spread keyHash 0 entries) : entries.length ≤ 1 := by
  match entries, spread with
  | [], _ => simp
  | [_], _ => simp
  | first :: second :: rest, spread =>
    have same : keyHash first.1 = keyHash second.1 :=
      hash_ext fun depth below => spread.routed first (by simp) second (by simp) depth below
    have equal := spread.injective first (by simp) second (by simp) same
    have distinct := spread.distinct
    simp [equal] at distinct

def entryOf (keyHash : K → KeyPathHash) (entry : K × V) : BuildEntry K V :=
  ⟨entry.1, entry.2, keyHash entry.1⟩

theorem bucketOf_entries (depth slot : Nat) (entries : List (K × V)) :
    bucketOf depth (entries.map (entryOf keyHash)) slot =
      (bucket keyHash depth entries slot).map (entryOf keyHash) := by
  rw [bucketOf, filter_map, bucket]
  rfl

section

def leafOf (entries : List (K × V)) : Option (K × V) :=
  match entries with
  | [entry] => some entry
  | _ => none

def childOf (child : HamtNode K V H) (entries : List (K × V)) : Option (NodeRef K V H) :=
  if 2 ≤ entries.length then some (.resolved child) else none

structure Placed (leafSlots : Nat → Option (K × V)) (childSlots : Nat → Option (NodeRef K V H)) (stop : Nat)
    (parts : NodeParts K V H) : Prop where
  datamap : ∀ i < 32, parts.datamap.getLsbD i = (decide (i < stop) && (leafSlots i).isSome)
  nodemap : ∀ i < 32, parts.nodemap.getLsbD i = (decide (i < stop) && (childSlots i).isSome)
  leaves : parts.leaves = items stop leafSlots
  children : parts.children = items stop childSlots

theorem items_succ {α : Type} (stop : Nat) (slots : Nat → Option α) :
    items (stop + 1) slots = items stop slots ++ (slots stop).toList := by
  unfold items
  rw [range_succ, filterMap_append]
  cases found : slots stop <;> simp [found]

theorem below_succ (i stop : Nat) (taken : Bool) :
    (decide (i < stop + 1) && taken) = ((decide (i < stop) && taken) || (decide (i = stop) && taken)) := by
  rw [← Bool.and_or_distrib_right, ← Bool.decide_or]
  congr 2
  exact propext Nat.lt_succ_iff_lt_or_eq

theorem placeBucket_placed (inside : stop < 32) (placed : Placed leafSlots childSlots stop parts)
    (leaf : leafSlots stop = leafOf entries) (ref : childSlots stop = childOf child entries)
    (room : 2 ≤ entries.length → depth + 1 < hamtMaxDepth)
    (built : 2 ≤ entries.length → buildChild (entries.map (entryOf keyHash)) = .ok child) :
    ∃ next, placeBucket buildChild depth parts stop (entries.map (entryOf keyHash)) = .ok next ∧
      Placed leafSlots childSlots (stop + 1) next := by
  match entries with
  | [] =>
    refine ⟨parts, rfl, ?_⟩
    have noLeaf : leafSlots stop = none := leaf
    have noChild : childSlots stop = none := ref
    constructor
    · intro i small
      rw [placed.datamap i small, below_succ]
      by_cases same : i = stop <;> simp [same, noLeaf]
    · intro i small
      rw [placed.nodemap i small, below_succ]
      by_cases same : i = stop <;> simp [same, noChild]
    · rw [placed.leaves, items_succ, noLeaf, Option.toList_none, append_nil]
    · rw [placed.children, items_succ, noChild, Option.toList_none, append_nil]
  | [entry] =>
    refine ⟨_, rfl, ?_⟩
    have own : leafSlots stop = some entry := leaf
    have noChild : childSlots stop = none := ref
    constructor
    · intro i small
      rw [BitVec.getLsbD_or, placed.datamap i small, slotBit_bit inside i small, below_succ]
      by_cases same : i = stop <;> simp [same, own]
    · intro i small
      rw [placed.nodemap i small, below_succ]
      by_cases same : i = stop <;> simp [same, noChild]
    · show parts.leaves ++ [entry] = _
      rw [placed.leaves, items_succ, own, Option.toList_some]
    · rw [placed.children, items_succ, noChild, Option.toList_none, append_nil]
  | first :: second :: rest =>
    have several : 2 ≤ (first :: second :: rest).length := by simp
    have noLeaf : leafSlots stop = none := leaf
    have own : childSlots stop = some (.resolved child) := ref.trans (if_pos several)
    refine ⟨{ parts with
      nodemap := parts.nodemap ||| slotBit stop, children := parts.children ++ [.resolved child] }, ?_, ?_⟩
    · have small := room several
      show (if hamtMaxDepth ≤ depth + 1 then _ else _) = _
      rw [if_neg (by omega)]
      have run : buildChild (entryOf keyHash first :: (second :: rest).map (entryOf keyHash)) = .ok child :=
        built several
      rw [run]
      rfl
    · constructor
      · intro i small
        rw [placed.datamap i small, below_succ]
        by_cases same : i = stop <;> simp [same, noLeaf]
      · intro i small
        rw [BitVec.getLsbD_or, placed.nodemap i small, slotBit_bit inside i small, below_succ]
        by_cases same : i = stop <;> simp [same, own]
      · rw [placed.leaves, items_succ, noLeaf, Option.toList_none, append_nil]
      · rw [placed.children, items_succ, own, Option.toList_some]

theorem placeBuckets_placed {buckets : Nat → List (K × V)} {children : Nat → HamtNode K V H}
    (leaf : ∀ slot < 32, leafSlots slot = leafOf (buckets slot))
    (ref : ∀ slot < 32, childSlots slot = childOf (children slot) (buckets slot))
    (room : ∀ slot < 32, 2 ≤ (buckets slot).length → depth + 1 < hamtMaxDepth)
    (built : ∀ slot < 32, 2 ≤ (buckets slot).length →
      buildChild ((buckets slot).map (entryOf keyHash)) = .ok (children slot)) :
    ∀ stop ≤ 32, ∃ parts, (range stop).foldlM (fun parts slot =>
        placeBucket buildChild depth parts slot ((buckets slot).map (entryOf keyHash))) .empty = .ok parts ∧
      Placed leafSlots childSlots stop parts := by
  intro stop
  induction stop with
  | zero =>
    refine fun _ => ⟨_, rfl, ⟨fun i _ => ?_, fun i _ => ?_, rfl, rfl⟩⟩ <;> simp [NodeParts.empty]
  | succ stop ih =>
    intro inside
    obtain ⟨parts, run, placed⟩ := ih (by omega)
    obtain ⟨next, step, placedNext⟩ := placeBucket_placed (by omega) placed (leaf stop (by omega))
      (ref stop (by omega)) (room stop (by omega)) (built stop (by omega))
    refine ⟨next, ?_, placedNext⟩
    rw [range_succ, foldlM_append, run]
    simp only [bind, Except.bind, foldlM_cons, foldlM_nil, step, pure, Except.pure]

end

theorem Placed.packs (placed : Placed leafSlots childSlots 32 parts) :
    (rebuildNode hasher parts.datamap parts.nodemap parts.leaves parts.children).Packed hasher leafSlots
      childSlots where
  leaves := ⟨fun i small => by rw [← Bool.true_and (leafSlots i).isSome, ← decide_eq_true small]
                               exact placed.datamap i small, placed.leaves⟩
  children := ⟨fun i small => by rw [← Bool.true_and (childSlots i).isSome, ← decide_eq_true small]
                                 exact placed.nodemap i small, placed.children⟩
  hash := rfl

theorem Spread.levels_pos (spread : Spread keyHash levels entries) (several : 2 ≤ entries.length) : 0 < levels := by
  cases levels with
  | zero =>
    have single := spread.single
    omega
  | succ levels => exact Nat.succ_pos levels

theorem slotHolds_of {childHolds : HamtNode K V H → List (K × V) → Prop}
    (holds : 2 ≤ entries.length → childHolds child entries) :
    SlotHolds noStore childHolds entries (leafOf entries) (childOf child entries) := by
  match entries with
  | [] => exact .empty
  | [entry] => exact .leaf entry
  | first :: second :: rest =>
    have several : 2 ≤ (first :: second :: rest).length := by simp
    rw [childOf, if_pos several]
    exact .child several rfl rfl (holds several)

theorem buildNode_step (builds : ∀ entries : List (K × V), Spread keyHash levels entries → 2 ≤ entries.length →
      ∃ node, buildNode hasher levels (entries.map (entryOf keyHash)) = .ok node ∧
        Holds hasher keyHash noStore levels node entries) (spread : Spread keyHash (levels + 1) entries) :
    ∃ node, buildNode hasher (levels + 1) (entries.map (entryOf keyHash)) = .ok node ∧
      Holds hasher keyHash noStore (levels + 1) node entries := by
  have blank : HamtNode K V H := rebuildNode hasher 0 0 [] []
  have child : ∀ slot, ∃ node, 2 ≤ (bucket keyHash (depthOf (levels + 1)) entries slot).length →
      buildNode hasher levels ((bucket keyHash (depthOf (levels + 1)) entries slot).map (entryOf keyHash)) = .ok node ∧
        Holds hasher keyHash noStore levels node (bucket keyHash (depthOf (levels + 1)) entries slot) := by
    intro slot
    by_cases several : 2 ≤ (bucket keyHash (depthOf (levels + 1)) entries slot).length
    · obtain ⟨node, built, holds⟩ := builds _ (spread.bucket slot) several
      exact ⟨node, fun _ => ⟨built, holds⟩⟩
    · exact ⟨blank, fun more => absurd more several⟩
  choose children built using child
  have room : ∀ slot, 2 ≤ (bucket keyHash (depthOf (levels + 1)) entries slot).length →
      depthOf (levels + 1) + 1 < hamtMaxDepth := by
    intro slot several
    have positive := (spread.bucket slot).levels_pos several
    have within := spread.within
    unfold depthOf
    omega
  obtain ⟨parts, run, placed⟩ := placeBuckets_placed (fun _ _ => rfl) (fun _ _ => rfl) (fun slot _ => room slot)
    (fun slot _ several => (built slot several).1) 32 (Nat.le_refl _)
  refine ⟨rebuildNode hasher parts.datamap parts.nodemap parts.leaves parts.children, ?_, _, _, placed.packs,
    fun slot _ => slotHolds_of fun several => (built slot several).2⟩
  rw [buildNode]
  simp only [bucketOf_entries]
  rw [show hamtBranchFactor = 32 from rfl, run]
  rfl

theorem buildNode_several {levels : Nat} (entries : List (K × V)) (spread : Spread keyHash levels entries)
    (several : 2 ≤ entries.length) :
    ∃ node, buildNode hasher levels (entries.map (entryOf keyHash)) = .ok node ∧
      Holds hasher keyHash noStore levels node entries := by
  induction levels generalizing entries with
  | zero => exact absurd (spread.levels_pos several) (Nat.lt_irrefl 0)
  | succ levels ih => exact buildNode_step ih spread

theorem buildNode_holds (spread : Spread keyHash (levels + 1) entries) :
    ∃ node, buildNode hasher (levels + 1) (entries.map (entryOf keyHash)) = .ok node ∧
      Holds hasher keyHash noStore (levels + 1) node entries := buildNode_step buildNode_several spread

theorem Spread.root {entries : List (K × V)} (distinct : (entries.map Prod.fst).Nodup)
    (injective : ∀ left ∈ entries, ∀ right ∈ entries, keyHash left.1 = keyHash right.1 → left.1 = right.1) :
    Spread keyHash hamtMaxDepth entries where
  within := Nat.le_refl _
  distinct := distinct
  injective := injective
  routed _ _ _ _ depth below := by simp [depthOf] at below

theorem buildHamt_holds {entries : List (K × V)} (spread : Spread keyHash hamtMaxDepth entries) :
    ∃ root, buildHamt hasher keyHash entries = .ok root ∧
      Holds hasher keyHash noStore hamtMaxDepth root entries := buildNode_holds spread

end

open Packed

variable {K V H E : Type}

def Slot.of (leaf : Option (K × V)) (child : Option (NodeRef K V H)) : Slot K V H :=
  match leaf, child with
  | some entry, _ => .leaf entry
  | none, some ref => .child ref
  | none, none => .empty

theorem HamtNode.Packed.slotAt {node : HamtNode K V H} (packed : node.Packed hasher leafSlots childSlots)
    (pathHash : KeyPathHash) (depth : Nat) : node.slotAt pathHash depth =
      .of (leafSlots (bucketIndex pathHash depth)) (childSlots (bucketIndex pathHash depth)) := by
  have inside := bucketIndex_lt pathHash depth
  unfold HamtNode.slotAt
  cases leaf : leafSlots (bucketIndex pathHash depth) with
  | some entry =>
    rw [if_pos ((packs_taken packed.leaves inside).mpr (by rw [leaf]; rfl)), packs_mapIndex packed.leaves inside,
      packed.leaves.get inside leaf]
    rfl
  | none =>
    rw [if_neg (by rw [packs_taken packed.leaves inside, leaf]; simp)]
    cases child : childSlots (bucketIndex pathHash depth) with
    | some ref =>
      rw [if_pos ((packs_taken packed.children inside).mpr (by rw [child]; rfl)), packs_mapIndex packed.children inside,
        packed.children.get inside child]
      rfl
    | none =>
      rw [if_neg (by rw [packs_taken packed.children inside, child]; simp)]
      rfl

variable [DecidableEq K]

theorem lookup_bucket (depth : Nat) (entries : List (K × V)) (key : K) :
    (bucket keyHash depth entries (route keyHash depth key)).lookup key = entries.lookup key := by
  induction entries with
  | nil => rfl
  | cons entry entries ih =>
    unfold bucket at ih ⊢
    rw [lookup_cons]
    by_cases same : key = entry.1
    · subst same
      rw [filter_cons_of_pos (by simp), lookup_cons]
      simp
    · rw [beq_eq_false_iff_ne.mpr same]
      by_cases routed : route keyHash depth entry.1 = route keyHash depth key
      · rw [filter_cons_of_pos (by simpa using routed), lookup_cons, beq_eq_false_iff_ne.mpr same]
        exact ih
      · rw [filter_cons_of_neg (by simpa using routed)]
        exact ih

theorem lookup_singleton (entry : K × V) (key : K) :
    [entry].lookup key = if entry.1 = key then some entry.2 else none := by
  rw [lookup_cons, lookup_nil]
  by_cases same : entry.1 = key
  · simp [same]
  · rw [if_neg same, beq_eq_false_iff_ne.mpr (Ne.symm same)]

variable {levels : Nat} {node : HamtNode K V H}

theorem Holds.search {entries : List (K × V)} (holds : Holds hasher keyHash resolver levels node entries) (key : K) :
    searchByPathHash key (keyHash key) resolver levels node = .ok (entries.lookup key) := by
  induction levels generalizing node entries with
  | zero => exact holds.elim
  | succ levels ih =>
    obtain ⟨leafSlots, childSlots, packed, slots⟩ := holds
    rw [searchByPathHash, packed.slotAt, ← lookup_bucket (depthOf (levels + 1)) entries key]
    have slot := slots _ (bucketIndex_lt (keyHash key) (depthOf (levels + 1)))
    change SlotHolds _ _ (bucket keyHash _ entries (route keyHash _ key)) _ _ at slot
    revert slot
    generalize leafSlots _ = leaf, childSlots _ = child, bucket keyHash _ entries (route keyHash _ key) = shared
    intro slot
    cases slot with
    | empty => rfl
    | leaf entry => exact congrArg Except.ok (lookup_singleton entry key).symm
    | @child _ ref node several resolves named holds =>
      cases ref with
      | resolved own =>
        obtain rfl := Except.ok.inj resolves
        exact ih holds
      | lazy hash =>
        have loaded : resolver hash = .ok node := resolves
        show (do
          let child ← (resolver hash).mapError LookupFault.resolve
          searchByPathHash key (keyHash key) resolver levels child) = _
        rw [loaded]
        exact ih holds

theorem getByPathHashInner_of_search (found : searchByPathHash key pathHash noStore levels node = .ok value) :
    getByPathHashInner key pathHash levels node = .ok value := by
  induction levels generalizing node with
  | zero =>
    cases found
    rfl
  | succ levels ih =>
    rw [searchByPathHash] at found
    rw [getByPathHashInner]
    cases slot : node.slotAt pathHash (depthOf (levels + 1)) with
    | child ref =>
      rw [slot] at found
      cases ref with
      | resolved child => exact ih found
      | lazy hash => cases found
    | corrupt =>
      rw [slot] at found
      cases found
    | _ =>
      rw [slot] at found
      cases found
      rfl

theorem Holds.get (holds : Holds hasher keyHash noStore levels node entries) (key : K) :
    getByPathHashInner key (keyHash key) levels node = .ok (entries.lookup key) :=
  getByPathHashInner_of_search (holds.search key)

end Rezzy.Hamt
