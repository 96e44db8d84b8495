import Rezzy.Hamt.Gc

namespace Rezzy.Hamt

open List
open HamtNode (leaves)

section

variable {K V H E : Type}

structure EntryDelta (K V : Type) where
  added : List (K × V)
  removed : List (K × V)

namespace EntryDelta

def empty : EntryDelta K V := ⟨[], []⟩

def join (deltas : List (EntryDelta K V)) : EntryDelta K V :=
  ⟨deltas.flatMap EntryDelta.added, deltas.flatMap EntryDelta.removed⟩

end EntryDelta

def leafAt (node : HamtNode K V H) (slot : Nat) : Except (HamtTraversalError E) (K × V) :=
  match node.leaves[mapIndex node.datamap slot]? with
  | some entry => .ok entry
  | none => .error .outOfBounds

def subtreeLeaves (resolver : Resolver K V H E) (levels : Nat) (ref : NodeRef K V H) :
    Except (HamtTraversalError E) (List (K × V)) := do
  let child ← resolveNodeChecked resolver ref
  let nodes ← walkSubtree resolver levels child
  return nodes.flatMap leaves

section

variable (nodeA nodeB : HamtNode K V H)

def leafASubB : BitVec 32 := nodeA.datamap &&& nodeB.nodemap

def subALeafB : BitVec 32 := nodeA.nodemap &&& nodeB.datamap

def cross : BitVec 32 := leafASubB nodeA nodeB ||| subALeafB nodeA nodeB

def leafSlots : List Nat := setBits ((nodeA.datamap ||| nodeB.datamap) &&& ~~~cross nodeA nodeB)

def childSlots : List Nat :=
  setBits ((nodeA.nodemap &&& ~~~cross nodeA nodeB) ||| (nodeB.nodemap &&& ~~~cross nodeA nodeB))

end

variable [DecidableEq K] [DecidableEq V]

def diffLeaves (nodeA nodeB : HamtNode K V H) (slot : Nat) : Except (HamtTraversalError E) (EntryDelta K V) :=
  if nodeA.datamap &&& slotBit slot ≠ 0 ∧ nodeB.datamap &&& slotBit slot ≠ 0 then do
    let entryA ← leafAt nodeA slot
    let entryB ← leafAt nodeB slot
    if entryA.1 ≠ entryB.1 ∨ entryA.2 ≠ entryB.2 then return ⟨[entryB], [entryA]⟩ else return .empty
  else if nodeA.datamap &&& slotBit slot ≠ 0 then do
    let entryA ← leafAt nodeA slot
    return ⟨[], [entryA]⟩
  else do
    let entryB ← leafAt nodeB slot
    return ⟨[entryB], []⟩

abbrev againstLeaf (entry : K × V) (others : List (K × V)) : List (K × V) × List (K × V) :=
  (others.filter (· ≠ entry), if entry ∈ others then [] else [entry])

def diffLeafSubtree (resolver : Resolver K V H E) (levels : Nat) (leafNode subtreeNode : HamtNode K V H)
    (slot : Nat) : Except (HamtTraversalError E) (List (K × V) × List (K × V)) := do
  let entry ← leafAt leafNode slot
  let ref ← childRefAt subtreeNode slot
  let others ← subtreeLeaves resolver levels ref
  return againstLeaf entry others

variable [DecidableEq H]

def diffChildren (resolver : Resolver K V H E) (levels : Nat)
    (recurse : HamtNode K V H → HamtNode K V H → Except (HamtTraversalError E) (EntryDelta K V))
    (nodeA nodeB : HamtNode K V H) (slot : Nat) : Except (HamtTraversalError E) (EntryDelta K V) :=
  if nodeA.nodemap &&& slotBit slot ≠ 0 ∧ nodeB.nodemap &&& slotBit slot ≠ 0 then do
    let childA ← childRefAt nodeA slot
    let childB ← childRefAt nodeB slot
    if childA.structuralHash = childB.structuralHash then return .empty
    else
      let left ← resolveNodeChecked resolver childA
      let right ← resolveNodeChecked resolver childB
      recurse left right
  else if nodeA.nodemap &&& slotBit slot ≠ 0 then do
    let childA ← childRefAt nodeA slot
    return ⟨[], ← subtreeLeaves resolver levels childA⟩
  else do
    let childB ← childRefAt nodeB slot
    return ⟨← subtreeLeaves resolver levels childB, []⟩

def diffNodes (resolver : Resolver K V H E) :
    Nat → HamtNode K V H → HamtNode K V H → Except (HamtTraversalError E) (EntryDelta K V)
  | levels, nodeA, nodeB =>
    if nodeA.structuralHash = nodeB.structuralHash then .ok .empty
    else
      match levels with
      | 0 => .error (.maxDepthExceeded hamtMaxDepth)
      | levels + 1 => do
        let leaves ← (leafSlots nodeA nodeB).mapM (diffLeaves nodeA nodeB)
        let children ← (childSlots nodeA nodeB).mapM
          (diffChildren resolver levels (diffNodes resolver levels) nodeA nodeB)
        let grown ← (setBits (leafASubB nodeA nodeB)).mapM fun slot => do
          let (others, own) ← diffLeafSubtree resolver levels nodeA nodeB slot
          return ⟨others, own⟩
        let shrunk ← (setBits (subALeafB nodeA nodeB)).mapM fun slot => do
          let (others, own) ← diffLeafSubtree resolver levels nodeB nodeA slot
          return ⟨own, others⟩
        return .join (leaves ++ children ++ grown ++ shrunk)

def collectDelta (resolver : Resolver K V H E) (rootA rootB : HamtNode K V H) :
    Except (HamtTraversalError E) (EntryDelta K V) :=
  diffNodes resolver hamtMaxDepth rootA rootB

def isolateDelta {L : Type} [DecidableEq L] (resolver : Resolver K V H E) (rootA : HamtNode K V H) (latticeA : L)
    (rootB : HamtNode K V H) (latticeB : L) : Except (HamtTraversalError E) (EntryDelta K V) :=
  if latticeA = latticeB ∧ rootA.structuralHash = rootB.structuralHash then .ok .empty
  else collectDelta resolver rootA rootB

def diffHamtNodes (resolver : Resolver K V H E) (rootA rootB : HamtNode K V H) :
    Except (HamtTraversalError E) (EntryDelta K V) :=
  if rootA.structuralHash = rootB.structuralHash then .ok .empty else collectDelta resolver rootA rootB

end

open Packed

variable {K V H E : Type} {hasher : Hasher K V H} {keyHash : K → KeyPathHash} {resolver : Resolver K V H E}

section

inductive Shows (hasher : Hasher K V H) (keyHash : K → KeyPathHash) (resolver : Resolver K V H E) (levels : Nat)
    (node : HamtNode K V H) (slot : Nat) : List (K × V) → Prop where
  | empty (noLeaf : node.datamap.getLsbD slot = false) (noChild : node.nodemap.getLsbD slot = false) :
      Shows hasher keyHash resolver levels node slot []
  | leaf {entry : K × V} (leaf : node.datamap.getLsbD slot = true) (noChild : node.nodemap.getLsbD slot = false)
      (found : node.leaves[mapIndex node.datamap slot]? = some entry) :
      Shows hasher keyHash resolver levels node slot [entry]
  | child {entries : List (K × V)} {ref : NodeRef K V H} {below : HamtNode K V H}
      (noLeaf : node.datamap.getLsbD slot = false) (child : node.nodemap.getLsbD slot = true)
      (taken : node.childAt slot = some ref) (resolves : resolveChildRef resolver ref = .ok below)
      (named : below.structuralHash = ref.structuralHash) (member : ref ∈ node.children)
      (holds : Holds hasher keyHash resolver levels below entries) :
      Shows hasher keyHash resolver levels node slot entries

theorem Holds.shows (holds : Holds hasher keyHash resolver (levels + 1) node entries) (inside : slot < 32) :
    Shows hasher keyHash resolver levels node slot (bucket keyHash (depthOf (levels + 1)) entries slot) := by
  obtain ⟨leaves, children, packed, slots⟩ := holds
  have leafBit := packed.leaves.bits slot inside
  have childBit := packed.children.bits slot inside
  rcases (slots slot inside).inv with ⟨shared, leaf, child⟩ | ⟨entry, shared, leaf, child⟩ |
    ⟨ref, below, several, leaf, child, resolves, named, inner⟩
  · rw [shared]
    rw [leaf] at leafBit
    rw [child] at childBit
    exact .empty leafBit childBit
  · rw [shared]
    rw [leaf] at leafBit
    rw [child] at childBit
    exact .leaf leafBit childBit (packed.leaf_taken inside leaf).2
  · rw [leaf] at leafBit
    rw [child] at childBit
    exact .child leafBit childBit ((packed.childAt inside).trans child) resolves named
      (packed.children.list ▸ mem_items.mpr ⟨slot, inside, child⟩) inner

theorem leafAt_ok (found : node.leaves[mapIndex node.datamap slot]? = some entry) :
    (leafAt node slot : Except (HamtTraversalError E) _) = .ok entry := by
  rw [leafAt, found]

theorem mem_setBits : slot ∈ setBits bits ↔ slot < 32 ∧ bits.getLsbD slot = true := by
  rw [setBits, mem_filter, mem_range]

theorem walkSubtree_leaves (holds : Holds hasher keyHash resolver levels node entries) :
    ∃ nodes, walkSubtree resolver levels node = .ok nodes ∧ (nodes.flatMap leaves).Perm entries := by
  induction levels generalizing node entries with
  | zero => exact holds.elim
  | succ levels ih =>
    have each : ∀ ref, ∃ nodes, ∀ slot < 32, node.childAt slot = some ref →
        (resolveNodeChecked resolver ref >>= walkSubtree resolver levels) = .ok nodes ∧
        (nodes.flatMap leaves).Perm (bucket keyHash (depthOf (levels + 1)) entries slot) := by
      intro ref
      by_cases taken : ∃ slot < 32, node.childAt slot = some ref
      · obtain ⟨slot, inside, found⟩ := taken
        obtain ⟨child, resolves, -, -, -, inner⟩ := holds.childAt inside found
        obtain ⟨nodes, run, perm⟩ := ih inner
        refine ⟨nodes, fun other otherInside otherFound => ?_⟩
        obtain ⟨own, ownResolves, -, -, -, ownInner⟩ := holds.childAt otherInside otherFound
        obtain rfl := Except.ok.inj (resolves.symm.trans ownResolves)
        obtain ⟨again, rerun, ownPerm⟩ := ih ownInner
        obtain rfl := Except.ok.inj (run.symm.trans rerun)
        rw [resolveNodeChecked_ok resolves]
        exact ⟨run, ownPerm⟩
      · exact ⟨[], fun slot inside found => (taken ⟨slot, inside, found⟩).elim⟩
    choose walk spec using each
    refine ⟨node :: node.children.flatMap walk, ?_, ?_⟩
    · rw [walkSubtree, Outcome.mapM_ok (g := walk)]
      · rfl
      · intro ref member
        rw [holds.children_slots, mem_filterMap] at member
        obtain ⟨slot, small, found⟩ := member
        exact (spec ref slot (mem_range.mp small) found).1
    · have below : (node.children.flatMap walk).flatMap leaves =
          (List.range 32).flatMap fun slot => ((node.childAt slot).toList.flatMap walk).flatMap leaves := by
        conv_lhs => rw [holds.children_slots, filterMap_eq_flatMap_toList]
        simp only [flatMap_assoc]
      obtain ⟨leaves, children, packed, slots⟩ := holds
      have own : node.leaves = (List.range 32).flatMap fun slot => (leaves slot).toList := by
        rw [packed.leaves.list, items, filterMap_eq_flatMap_toList]
      rw [flatMap_cons, own, below]
      refine (flatMap_append_perm _ _ _).trans
        (List.Perm.trans ?_ (buckets_perm keyHash (depthOf (levels + 1)) entries))
      apply List.Perm.flatMap_left
      intro slot small
      have inside := mem_range.mp small
      rcases (slots slot inside).inv with ⟨shared, leaf, child⟩ | ⟨entry, shared, leaf, child⟩ |
        ⟨ref, lower, -, leaf, child, -⟩
      · rw [shared, leaf, packed.childAt inside, child]
        exact .refl _
      · rw [shared, leaf, packed.childAt inside, child]
        exact .refl _
      · rw [leaf, packed.childAt inside, child, Option.toList_some, flatMap_singleton]
        exact (spec ref slot inside ((packed.childAt inside).trans child)).2

theorem subtreeLeaves_perm (resolves : resolveChildRef resolver ref = .ok child)
    (holds : Holds hasher keyHash resolver levels child entries) :
    ∃ leaves, subtreeLeaves resolver levels ref = .ok leaves ∧ leaves.Perm entries := by
  obtain ⟨nodes, run, perm⟩ := walkSubtree_leaves holds
  refine ⟨nodes.flatMap leaves, ?_, perm⟩
  rw [subtreeLeaves, resolveNodeChecked_ok resolves]
  simp only [bind, Except.bind, run]
  rfl

end

def EntryDelta.Between (delta : EntryDelta K V) (before after : K × V → Prop) : Prop :=
  (⟨delta.removed, delta.added⟩ : NodeHashDelta (K × V)).Between before after

section

variable [DecidableEq K] [DecidableEq V]

theorem between_leaves (left right : K × V) : (if left.1 ≠ right.1 ∨ left.2 ≠ right.2 then
    (⟨[right], [left]⟩ : EntryDelta K V) else .empty).Between (· ∈ [left]) (· ∈ [right]) := by
  by_cases same : left = right
  · rw [same, if_neg (by simp)]
    exact .empty fun entry => Iff.rfl
  · rw [if_pos]
    · have apart : ∀ entry, entry = left → ¬entry = right := fun entry own other => same (own.symm.trans other)
      constructor
      · intro entry
        simp only [mem_singleton]
        exact ⟨fun own => ⟨own, apart entry own⟩, fun both => both.1⟩
      · intro entry
        simp only [mem_singleton]
        exact ⟨fun own => ⟨own, fun other => apart entry other own⟩, fun both => both.1⟩
      · exact nodup_singleton _
      · exact nodup_singleton _
    · by_contra equal
      push Not at equal
      exact same (Prod.ext equal.1 equal.2)

theorem between_leafSubtree {others entries : List (K × V)} (perm : others.Perm entries) (once : entries.Nodup) :
    (⟨others.filter (· ≠ entry), if entry ∈ others then [] else [entry]⟩ : EntryDelta K V).Between
      (· ∈ [entry]) (· ∈ entries) := by
  constructor
  · intro other
    rw [mem_singleton, ← perm.mem_iff]
    split
    · rename_i found
      refine ⟨fun none => (by cases none), ?_⟩
      rintro ⟨rfl, absent⟩
      exact absurd found absent
    · rename_i absent
      rw [mem_singleton]
      exact ⟨fun own => ⟨own, own ▸ absent⟩, fun both => both.1⟩
  · intro other
    rw [mem_filter, mem_singleton, perm.mem_iff, decide_eq_true_eq]
  · split
    · exact nodup_nil
    · exact nodup_singleton _
  · exact (perm.nodup_iff.mpr once).filter _

omit [DecidableEq K] [DecidableEq V] in
theorem EntryDelta.Between.swap {added removed : List (K × V)} {before after : K × V → Prop}
    (between : (⟨added, removed⟩ : EntryDelta K V).Between before after) :
    (⟨removed, added⟩ : EntryDelta K V).Between after before :=
  ⟨between.new, between.superseded, between.newOnce, between.supersededOnce⟩

inductive SlotKind where
  | vacant
  | leaves
  | children
  | grown
  | shrunk
deriving DecidableEq

def SlotKind.slots (left right : HamtNode K V H) : SlotKind → List Nat
  | .vacant => []
  | .leaves => leafSlots left right
  | .children => childSlots left right
  | .grown => setBits (leafASubB left right)
  | .shrunk => setBits (subALeafB left right)

def SlotKind.fits (leafA childA leafB childB : Bool) : SlotKind → Bool
  | .vacant => false
  | .leaves => (leafA || leafB) && !(leafA && childB || childA && leafB)
  | .children =>
    childA && !(leafA && childB || childA && leafB) || childB && !(leafA && childB || childA && leafB)
  | .grown => leafA && childB
  | .shrunk => childA && leafB

omit [DecidableEq K] [DecidableEq V] in
theorem SlotKind.mem_slots (inside : slot < 32) (kind : SlotKind) :
    slot ∈ kind.slots left right ↔ kind.fits (left.datamap.getLsbD slot) (left.nodemap.getLsbD slot)
      (right.datamap.getLsbD slot) (right.nodemap.getLsbD slot) = true := by
  cases kind with
  | vacant => simp [SlotKind.slots, SlotKind.fits]
  | _ =>
    simp only [SlotKind.slots, leafSlots, childSlots, leafASubB, subALeafB, cross, mem_setBits, inside, true_and,
      BitVec.getLsbD_and, BitVec.getLsbD_or, BitVec.getLsbD_not, decide_true, Bool.true_and, SlotKind.fits]

omit [DecidableEq K] [DecidableEq V] in
theorem Spread.nodup (spread : Spread keyHash levels entries) : entries.Nodup :=
  .of_map Prod.fst spread.distinct

variable [DecidableEq H]

def SlotKind.run (resolver : Resolver K V H E) (levels : Nat) (left right : HamtNode K V H) (slot : Nat) :
    SlotKind → Except (HamtTraversalError E) (EntryDelta K V)
  | .vacant => .ok .empty
  | .leaves => diffLeaves left right slot
  | .children => diffChildren resolver levels (diffNodes resolver levels) left right slot
  | .grown => (fun parts => ⟨parts.1, parts.2⟩) <$> diffLeafSubtree resolver levels left right slot
  | .shrunk => (fun parts => ⟨parts.2, parts.1⟩) <$> diffLeafSubtree resolver levels right left slot

def Isolates (resolver : Resolver K V H E) (play : HamtNode K V H → Prop) (hasher : Hasher K V H)
    (keyHash : K → KeyPathHash) (levels : Nat) : Prop :=
  ∀ {left right : HamtNode K V H} {entries otherEntries : List (K × V)}, play left → play right →
    Holds hasher keyHash resolver levels left entries → Holds hasher keyHash resolver levels right otherEntries →
    Spread keyHash levels entries → Spread keyHash levels otherEntries →
    ∃ delta, diffNodes resolver levels left right = .ok delta ∧ delta.Between (· ∈ entries) (· ∈ otherEntries)

structure Settles (resolver : Resolver K V H E) (levels : Nat) (left right : HamtNode K V H) (slot : Nat)
    (before after : List (K × V)) (kind : SlotKind) (delta : EntryDelta K V) : Prop where
  stands : ∀ other : SlotKind, slot ∈ other.slots left right ↔ other = kind ∧ kind ≠ .vacant
  vacant : kind = .vacant → before = [] ∧ after = []
  run : kind.run resolver levels left right slot = .ok delta
  between : delta.Between (· ∈ before) (· ∈ after)

section

variable {levels slot : Nat} {left right : HamtNode K V H} {before after : List (K × V)}
  {play : HamtNode K V H → Prop} (free : CollisionFree resolver play) (inside : slot < 32)

omit [DecidableEq H] in
theorem diffLeafSubtree_settles (found : left.leaves[mapIndex left.datamap slot]? = some entry)
    (taken : right.childAt slot = some ref) (resolves : resolveChildRef resolver ref = .ok below)
    (holds : Holds hasher keyHash resolver levels below entries) (once : entries.Nodup) :
    ∃ others own, diffLeafSubtree resolver levels left right slot = .ok (others, own) ∧
      (⟨others, own⟩ : EntryDelta K V).Between (· ∈ [entry]) (· ∈ entries) := by
  obtain ⟨leaves, run, perm⟩ := subtreeLeaves_perm resolves holds
  refine ⟨leaves.filter (· ≠ entry), if entry ∈ leaves then [] else [entry], ?_, between_leafSubtree perm once⟩
  rw [diffLeafSubtree, leafAt_ok found, (childRefAt_ok taken).2]
  simp only [bind, Except.bind, run]
  rfl

include inside

omit [DecidableEq K] [DecidableEq V] [DecidableEq H] in
theorem stands_of (leafA : left.datamap.getLsbD slot = a) (childA : left.nodemap.getLsbD slot = b)
    (leafB : right.datamap.getLsbD slot = c) (childB : right.nodemap.getLsbD slot = d)
    (fits : ∀ other : SlotKind, other.fits a b c d = true ↔ other = kind ∧ kind ≠ .vacant) (other : SlotKind) :
    slot ∈ other.slots left right ↔ other = kind ∧ kind ≠ .vacant := by
  rw [other.mem_slots inside, leafA, childA, leafB, childB]
  exact fits other

theorem empty_settles (noLeaf : left.datamap.getLsbD slot = false) (noChild : left.nodemap.getLsbD slot = false)
    (shown : Shows hasher keyHash resolver levels right slot after) (spread : Spread keyHash levels after) :
    ∃ kind delta, Settles resolver levels left right slot [] after kind delta := by
  cases shown with
  | empty noLeaf' noChild' =>
    refine ⟨.vacant, .empty, stands_of inside noLeaf noChild noLeaf' noChild' fun other => ?_, fun _ => ⟨rfl, rfl⟩, rfl,
      .empty fun entry => Iff.rfl⟩
    cases other <;> decide
  | @leaf entry leaf noChild' found =>
    refine ⟨.leaves, ⟨[entry], []⟩, stands_of inside noLeaf noChild leaf noChild' fun other => ?_,
      fun vacant => (by cases vacant), ?_,
      .onlyAfter (nodup_singleton _) (fun entry => Iff.rfl) fun entry => not_mem_nil⟩
    · cases other <;> decide
    · unfold SlotKind.run diffLeaves
      simp only [and_slotBit_ne_zero inside, noLeaf, leaf, leafAt_ok found]
      rfl
  | @child _ ref below noLeaf' child taken resolves named member holds =>
    obtain ⟨leaves, run, perm⟩ := subtreeLeaves_perm resolves holds
    refine ⟨.children, ⟨leaves, []⟩, stands_of inside noLeaf noChild noLeaf' child fun other => ?_,
      fun vacant => (by cases vacant), ?_,
      .onlyAfter (perm.nodup_iff.mpr spread.nodup) (fun entry => perm.mem_iff) fun entry => not_mem_nil⟩
    · cases other <;> decide
    · unfold SlotKind.run diffChildren
      simp only [and_slotBit_ne_zero inside, noChild, child, (childRefAt_ok taken).2, run, bind, Except.bind]
      rfl

theorem leaf_settles (leaf : left.datamap.getLsbD slot = true) (noChild : left.nodemap.getLsbD slot = false)
    (found : left.leaves[mapIndex left.datamap slot]? = some entry)
    (shown : Shows hasher keyHash resolver levels right slot after) (spread : Spread keyHash levels after) :
    ∃ kind delta, Settles resolver levels left right slot [entry] after kind delta := by
  cases shown with
  | empty noLeaf' noChild' =>
    refine ⟨.leaves, ⟨[], [entry]⟩, stands_of inside leaf noChild noLeaf' noChild' fun other => ?_,
      fun vacant => (by cases vacant), ?_,
      .onlyBefore (nodup_singleton _) (fun entry => Iff.rfl) fun entry => not_mem_nil⟩
    · cases other <;> decide
    · unfold SlotKind.run diffLeaves
      simp only [and_slotBit_ne_zero inside, noLeaf', leaf, leafAt_ok found]
      rfl
  | @leaf entry' leaf' noChild' found' =>
    refine ⟨.leaves, _, stands_of inside leaf noChild leaf' noChild' fun other => ?_,
      fun vacant => (by cases vacant), ?_, between_leaves entry entry'⟩
    · cases other <;> decide
    · unfold SlotKind.run diffLeaves
      simp only [and_slotBit_ne_zero inside, leaf, leaf', leafAt_ok found, leafAt_ok found', and_self, if_true,
        bind, Except.bind]
      split <;> rfl
  | @child _ ref below noLeaf' child taken resolves named member holds =>
    obtain ⟨others, own, run, between⟩ := diffLeafSubtree_settles found taken resolves holds spread.nodup
    refine ⟨.grown, ⟨others, own⟩, stands_of inside leaf noChild noLeaf' child fun other => ?_,
      fun vacant => (by cases vacant), ?_, between⟩
    · cases other <;> decide
    · unfold SlotKind.run
      rw [run]
      rfl

include free

theorem slot_settles (inLeft : play left) (inRight : play right)
    (shown : Shows hasher keyHash resolver levels left slot before)
    (shown' : Shows hasher keyHash resolver levels right slot after)
    (spread : Spread keyHash levels before) (spread' : Spread keyHash levels after)
    (recurse : Isolates resolver play hasher keyHash levels) :
    ∃ kind delta, Settles resolver levels left right slot before after kind delta := by
  cases shown with
  | empty noLeaf noChild => exact empty_settles inside noLeaf noChild shown' spread'
  | leaf leaf noChild found => exact leaf_settles inside leaf noChild found shown' spread'
  | @child _ ref below noLeaf child taken resolves named member holds =>
    cases shown' with
    | empty noLeaf' noChild' =>
      obtain ⟨leaves, run, perm⟩ := subtreeLeaves_perm resolves holds
      refine ⟨.children, ⟨[], leaves⟩, stands_of inside noLeaf child noLeaf' noChild' fun other => ?_,
        fun vacant => (by cases vacant), ?_,
        .onlyBefore (perm.nodup_iff.mpr spread.nodup) (fun entry => perm.mem_iff) fun entry => not_mem_nil⟩
      · cases other <;> decide
      · unfold SlotKind.run diffChildren
        simp only [and_slotBit_ne_zero inside, noChild', child, (childRefAt_ok taken).2, run, bind, Except.bind]
        rfl
    | @leaf entry' leaf' noChild' found' =>
      obtain ⟨others, own, run, between⟩ := diffLeafSubtree_settles found' taken resolves holds spread.nodup
      refine ⟨.shrunk, ⟨own, others⟩, stands_of inside noLeaf child leaf' noChild' fun other => ?_,
        fun vacant => (by cases vacant), ?_, between.swap⟩
      · cases other <;> decide
      · unfold SlotKind.run
        rw [run]
        rfl
    | @child _ ref' below' noLeaf' child' taken' resolves' named' member' holds' =>
      have inBelow := free.below _ inLeft _ (.child member resolves (.self below))
      have inBelow' := free.below _ inRight _ (.child member' resolves' (.self below'))
      have stands : ∀ other : SlotKind, slot ∈ other.slots left right ↔
          other = .children ∧ SlotKind.children ≠ .vacant := by
        apply stands_of inside noLeaf child noLeaf' child'
        intro other
        cases other <;> decide
      by_cases same : ref.structuralHash = ref'.structuralHash
      · refine ⟨.children, .empty, stands, fun vacant => (by cases vacant), ?_, .empty fun entry => ?_⟩
        · unfold SlotKind.run diffChildren
          simp only [and_slotBit_ne_zero inside, child, child', (childRefAt_ok taken).2, (childRefAt_ok taken').2,
            and_self, if_true, bind, Except.bind, same]
          rfl
        · exact holds.mem_of_same free inBelow inBelow' holds' (by rw [named, named', same]) entry
      · obtain ⟨delta, run, between⟩ := recurse inBelow inBelow' holds holds' spread spread'
        refine ⟨.children, delta, stands, fun vacant => (by cases vacant), ?_, between⟩
        unfold SlotKind.run diffChildren
        simp only [and_slotBit_ne_zero inside, child, child', (childRefAt_ok taken).2, (childRefAt_ok taken').2,
          and_self, if_true, bind, Except.bind, same, if_false, resolveNodeChecked_ok resolves,
          resolveNodeChecked_ok resolves', run]

end

section

variable {depth : Nat} {entries otherEntries : List (K × V)} {slots : List Nat}

omit [DecidableEq K] [DecidableEq V] [DecidableEq H]

theorem mem_joined (listed : ∀ slot ∈ slots, ∀ entry, entry ∈ side slot ↔
      entry ∈ bucket keyHash depth entries slot ∧ entry ∉ bucket keyHash depth otherEntries slot)
    (all : ∀ slot < 32, slot ∉ slots → bucket keyHash depth entries slot = []) (entry : K × V) :
    entry ∈ slots.flatMap side ↔ entry ∈ entries ∧ entry ∉ otherEntries := by
  rw [mem_flatMap]
  constructor
  · rintro ⟨slot, member, found⟩
    obtain ⟨own, absent⟩ := (listed slot member entry).mp found
    obtain ⟨inside, routed⟩ := mem_bucket.mp own
    exact ⟨inside, fun other => absent (mem_bucket.mpr ⟨other, routed⟩)⟩
  · rintro ⟨own, absent⟩
    have inBucket : entry ∈ bucket keyHash depth entries (route keyHash depth entry.1) := mem_bucket.mpr ⟨own, rfl⟩
    have member : route keyHash depth entry.1 ∈ slots := by
      by_contra vacant
      rw [all _ (route_lt ..) vacant] at inBucket
      cases inBucket
    exact ⟨_, member, (listed _ member entry).mpr ⟨inBucket, fun other => absent (mem_bucket.mp other).1⟩⟩

theorem nodup_joined (once : slots.Nodup) (nodup : ∀ slot ∈ slots, (side slot).Nodup)
    (listed : ∀ slot ∈ slots, ∀ entry ∈ side slot, entry ∈ bucket keyHash depth entries slot) :
    (slots.flatMap side).Nodup := by
  rw [nodup_flatMap]
  refine ⟨nodup, once.pairwise_of_forall_ne fun slot inSlots other inOther different => ?_⟩
  intro entry first second
  exact different ((mem_bucket.mp (listed slot inSlots entry first)).2.symm.trans
    (mem_bucket.mp (listed other inOther entry second)).2)

theorem between_join (once : slots.Nodup)
    (between : ∀ slot ∈ slots, (deltas slot).Between (· ∈ bucket keyHash depth entries slot)
      (· ∈ bucket keyHash depth otherEntries slot)) (vacant : ∀ slot < 32, slot ∉ slots →
      bucket keyHash depth entries slot = [] ∧ bucket keyHash depth otherEntries slot = []) :
    (EntryDelta.join (slots.map deltas)).Between (· ∈ entries) (· ∈ otherEntries) := by
  unfold EntryDelta.join EntryDelta.Between
  rw [flatMap_map, flatMap_map]
  constructor
  · exact mem_joined (fun slot member => (between slot member).superseded) fun slot small free => (vacant slot small free).1
  · exact mem_joined (fun slot member => (between slot member).new) fun slot small free => (vacant slot small free).2
  · exact nodup_joined once (fun slot member => (between slot member).supersededOnce) fun slot member entry listed =>
      (((between slot member).superseded entry).mp listed).1
  · exact nodup_joined once (fun slot member => (between slot member).newOnce) fun slot member entry listed =>
      (((between slot member).new entry).mp listed).1

end

def takenSlots (left right : HamtNode K V H) : List Nat :=
  leafSlots left right ++ childSlots left right ++ setBits (leafASubB left right) ++ setBits (subALeafB left right)

section

omit [DecidableEq K] [DecidableEq V] [DecidableEq H]

theorem nodup_setBits (bits : BitVec 32) : (setBits bits).Nodup := List.nodup_range.filter _

theorem mem_takenSlots : slot ∈ takenSlots left right ↔ ∃ kind : SlotKind, slot ∈ kind.slots left right := by
  constructor
  · intro member
    rcases mem_append.mp member with member | shrunk
    · rcases mem_append.mp member with member | grown
      · rcases mem_append.mp member with leaves | children
        · exact ⟨.leaves, leaves⟩
        · exact ⟨.children, children⟩
      · exact ⟨.grown, grown⟩
    · exact ⟨.shrunk, shrunk⟩
  · rintro ⟨kind, member⟩
    cases kind with
    | vacant => cases member
    | leaves => exact mem_append_left _ (mem_append_left _ (mem_append_left _ member))
    | children => exact mem_append_left _ (mem_append_left _ (mem_append_right _ member))
    | grown => exact mem_append_left _ (mem_append_right _ member)
    | shrunk => exact mem_append_right _ member

theorem nodup_takenSlots {kinds : Nat → SlotKind}
    (own : ∀ kind : SlotKind, ∀ slot ∈ kind.slots left right, kind = kinds slot) : (takenSlots left right).Nodup := by
  have apart : ∀ first second : SlotKind, first ≠ second →
      ∀ slot ∈ first.slots left right, ∀ other ∈ second.slots left right, slot ≠ other := by
    intro first second different slot inFirst other inSecond equal
    apply different
    rw [own first slot inFirst, own second other inSecond, equal]
  unfold takenSlots
  rw [nodup_append, nodup_append, nodup_append]
  refine ⟨⟨⟨nodup_setBits _, nodup_setBits _, ?_⟩, nodup_setBits _, ?_⟩, nodup_setBits _, ?_⟩
  · exact apart .leaves .children (by decide)
  · intro slot member
    rcases mem_append.mp member with leaves | children
    · exact apart .leaves .grown (by decide) slot leaves
    · exact apart .children .grown (by decide) slot children
  · intro slot member
    rcases mem_append.mp member with member | grown
    · rcases mem_append.mp member with leaves | children
      · exact apart .leaves .shrunk (by decide) slot leaves
      · exact apart .children .shrunk (by decide) slot children
    · exact apart .grown .shrunk (by decide) slot grown

end

theorem diffNodes_same (same : left.structuralHash = right.structuralHash) :
    diffNodes resolver levels left right = .ok .empty := by
  cases levels with
  | zero => rw [diffNodes, if_pos same]
  | succ levels => rw [diffNodes, if_pos same]

theorem diffNodes_step (different : left.structuralHash ≠ right.structuralHash)
    (runs : ∀ kind : SlotKind, ∀ slot ∈ kind.slots left right,
      kind.run resolver levels left right slot = .ok (deltas slot)) :
    diffNodes resolver (levels + 1) left right = .ok (.join ((takenSlots left right).map deltas)) := by
  have leaves := Outcome.mapM_ok (runs .leaves)
  have children := Outcome.mapM_ok (runs .children)
  unfold SlotKind.slots SlotKind.run at leaves children
  rw [diffNodes, if_neg different]
  rw [leaves, children, @Outcome.mapM_ok _ _ _ _ deltas (setBits (leafASubB left right)),
    @Outcome.mapM_ok _ _ _ _ deltas (setBits (subALeafB left right))]
  · unfold takenSlots
    rw [map_append, map_append, map_append]
    rfl
  · intro slot member
    have run := runs .shrunk slot member
    unfold SlotKind.run at run
    cases parts : diffLeafSubtree resolver levels right left slot with
    | error fault =>
      rw [parts] at run
      cases run
    | ok parts' =>
      rw [parts] at run
      exact run
  · intro slot member
    have run := runs .grown slot member
    unfold SlotKind.run at run
    cases parts : diffLeafSubtree resolver levels left right slot with
    | error fault =>
      rw [parts] at run
      cases run
    | ok parts' =>
      rw [parts] at run
      exact run

theorem diffNodes_spec {play : HamtNode K V H → Prop} (free : CollisionFree resolver play) (levels : Nat) :
    Isolates resolver play hasher keyHash levels := by
  induction levels with
  | zero => exact fun _ _ holds => holds.elim
  | succ levels ih =>
    intro left right entries otherEntries inLeft inRight holds otherHolds spread otherSpread
    by_cases same : left.structuralHash = right.structuralHash
    · refine ⟨.empty, ?_, .empty fun entry => holds.mem_of_same free inLeft inRight otherHolds same entry⟩
      rw [diffNodes_same same]
    have each : ∀ slot, ∃ kind delta, slot < 32 → Settles resolver levels left right slot
        (bucket keyHash (depthOf (levels + 1)) entries slot) (bucket keyHash (depthOf (levels + 1)) otherEntries slot)
        kind delta := by
      intro slot
      by_cases inside : slot < 32
      · obtain ⟨kind, delta, settles⟩ := slot_settles free inside inLeft inRight (holds.shows inside)
          (otherHolds.shows inside) (spread.bucket slot) (otherSpread.bucket slot) ih
        exact ⟨kind, delta, fun _ => settles⟩
      · exact ⟨.vacant, .empty, fun small => (inside small).elim⟩
    choose kinds deltas settles using each
    have small : ∀ kind : SlotKind, ∀ slot ∈ kind.slots left right, slot < 32 := by
      intro kind slot member
      cases kind with
      | vacant => cases member
      | _ => exact (mem_setBits.mp member).1
    have kindOf : ∀ kind : SlotKind, ∀ slot ∈ kind.slots left right, kind = kinds slot ∧ kinds slot ≠ .vacant :=
      fun kind slot member => ((settles slot (small kind slot member)).stands kind).mp member
    have ran := diffNodes_step same fun kind slot member => by
      rw [(kindOf kind slot member).1]
      exact (settles slot (small kind slot member)).run
    have between : ∀ slot ∈ takenSlots left right,
        (deltas slot).Between (· ∈ bucket keyHash (depthOf (levels + 1)) entries slot)
          (· ∈ bucket keyHash (depthOf (levels + 1)) otherEntries slot) := by
      intro slot member
      obtain ⟨kind, taken⟩ := mem_takenSlots.mp member
      exact (settles slot (small kind slot taken)).between
    have vacant : ∀ slot < 32, slot ∉ takenSlots left right → bucket keyHash (depthOf (levels + 1)) entries slot = [] ∧
          bucket keyHash (depthOf (levels + 1)) otherEntries slot = [] := by
      intro slot inside free
      have settled := settles slot inside
      apply settled.vacant
      by_contra taken
      exact free (mem_takenSlots.mpr ⟨kinds slot, (settled.stands (kinds slot)).mpr ⟨rfl, taken⟩⟩)
    exact ⟨_, ran, between_join (nodup_takenSlots fun kind slot member => (kindOf kind slot member).1) between vacant⟩

end

theorem collectDelta_between [DecidableEq K] [DecidableEq V] [DecidableEq H]
    (hamtA : IsHamt hasher keyHash resolver rootA) (hamtB : IsHamt hasher keyHash resolver rootB)
    (apart : RootsApart resolver [rootA, rootB]) :
    ∃ delta, collectDelta resolver rootA rootB = .ok delta ∧ delta.Between (Has resolver rootA) (Has resolver rootB) := by
  obtain ⟨entries, holds, spread⟩ := hamtA
  obtain ⟨otherEntries, otherHolds, otherSpread⟩ := hamtB
  obtain ⟨delta, run, between⟩ := diffNodes_spec apart.collisionFree hamtMaxDepth
    ⟨rootA, by simp, .self rootA⟩ ⟨rootB, by simp, .self rootB⟩ holds otherHolds spread otherSpread
  exact ⟨delta, run, NodeHashDelta.Between.congr between (fun entry => (holds.mem_iff entry).symm)
    fun entry => (otherHolds.mem_iff entry).symm⟩

/-- Both searches list the entries that only one of the tries has, each once, whatever the lattices are. -/
theorem isolateDelta_exact [DecidableEq K] [DecidableEq V] [DecidableEq H] {L : Type} [DecidableEq L]
    (rootA rootB : HamtNode K V H) (latticeA latticeB : L) (hamtA : IsHamt hasher keyHash resolver rootA)
    (hamtB : IsHamt hasher keyHash resolver rootB) (apart : RootsApart resolver [rootA, rootB]) :
    ∃ delta, diffHamtNodes resolver rootA rootB = .ok delta ∧
      isolateDelta resolver rootA latticeA rootB latticeB = .ok delta ∧
      (∀ entry, entry ∈ delta.added ↔ Has resolver rootB entry ∧ ¬Has resolver rootA entry) ∧
      (∀ entry, entry ∈ delta.removed ↔ Has resolver rootA entry ∧ ¬Has resolver rootB entry) ∧
      delta.added.Nodup ∧ delta.removed.Nodup := by
  obtain ⟨delta, run, between⟩ := collectDelta_between hamtA hamtB apart
  refine ⟨delta, ?_, ?_, between.new, between.superseded, between.newOnce, between.supersededOnce⟩
  · unfold diffHamtNodes
    split
    · rename_i same
      rw [← run, collectDelta, diffNodes_same same]
    · exact run
  · unfold isolateDelta
    split
    · rename_i both
      rw [← run, collectDelta, diffNodes_same both.2]
    · exact run

open Sample Classical in
theorem isolateDelta_exact_grown :
    ∃ first second delta, buildHamt Digest.digest byteHash [(1, 10)] = .ok first ∧
      buildHamt Digest.digest byteHash [(1, 10), (33, 30)] = .ok second ∧
      diffHamtNodes noStore first second = .ok delta ∧ isolateDelta noStore first 0 second 0 = .ok delta ∧
      (∀ entry, entry ∈ delta.added ↔ Has noStore second entry ∧ ¬Has noStore first entry) ∧
      (∀ entry, entry ∈ delta.removed ↔ Has noStore first entry ∧ ¬Has noStore second entry) ∧
      delta.added.Nodup ∧ delta.removed.Nodup := by
  obtain ⟨first, second, built, rebuilt, firstHamt, secondHamt, apart⟩ :=
    exists_byteHamts [(1, 10)] [(1, 10), (33, 30)] (by decide) (by decide)
  obtain ⟨delta, run, isolated, exact⟩ := isolateDelta_exact first second 0 0 firstHamt secondHamt apart
  exact ⟨first, second, delta, built, rebuilt, run, isolated, exact⟩

end Rezzy.Hamt
