import Rezzy.Hamt.Canonical

namespace Rezzy.Hamt

open Packed List

variable {K V H E : Type} {hasher : Hasher K V H} {keyHash : K → KeyPathHash} {resolver : Resolver K V H E}

structure SameContents (left right : HamtNode K V H) : Prop where
  datamap : left.datamap = right.datamap
  nodemap : left.nodemap = right.nodemap
  leaves : left.leaves = right.leaves
  children : left.children.map NodeRef.structuralHash = right.children.map NodeRef.structuralHash

structure CollisionFree (resolver : Resolver K V H E) (play : HamtNode K V H → Prop) : Prop where
  below : ∀ node, play node → ∀ target, Reaches resolver node target → play target
  apart : ∀ left right, play left → play right → left.structuralHash = right.structuralHash →
    SameContents left right

section

inductive Has (resolver : Resolver K V H E) : HamtNode K V H → K × V → Prop where
  | leaf {node : HamtNode K V H} {entry : K × V} (member : entry ∈ node.leaves) : Has resolver node entry
  | child {node child : HamtNode K V H} {ref : NodeRef K V H} {entry : K × V} (member : ref ∈ node.children)
      (resolves : resolveChildRef resolver ref = .ok child) (below : Has resolver child entry) :
      Has resolver node entry

theorem mem_items {α : Type} {n : Nat} {slots : Nat → Option α} {item : α} :
    item ∈ items n slots ↔ ∃ slot < n, slots slot = some item := by
  simp [items]

theorem Holds.mem_iff {levels : Nat} {node : HamtNode K V H} {entries : List (K × V)}
    (holds : Holds hasher keyHash resolver levels node entries) (entry : K × V) :
    entry ∈ entries ↔ Has resolver node entry := by
  induction levels generalizing node entries with
  | zero => exact holds.elim
  | succ levels ih =>
    constructor
    · obtain ⟨leafSlots, childSlots, packed, slots⟩ := holds
      intro mem
      have inside := route_lt keyHash (depthOf (levels + 1)) entry.1
      have own : entry ∈ bucket keyHash (depthOf (levels + 1)) entries (route keyHash (depthOf (levels + 1)) entry.1) :=
        mem_bucket.mpr ⟨mem, rfl⟩
      rcases (slots _ inside).inv with ⟨shared, -, -⟩ | ⟨existing, shared, leaf, -⟩ |
        ⟨ref, child, -, -, taken, resolves, -, inner⟩
      · rw [shared] at own
        cases own
      · rw [shared, mem_singleton] at own
        refine .leaf ?_
        rw [packed.leaves.list]
        exact mem_items.mpr ⟨_, inside, own ▸ leaf⟩
      · refine .child ?_ resolves ((ih inner).mp own)
        rw [packed.children.list]
        exact mem_items.mpr ⟨_, inside, taken⟩
    · intro has
      cases has with
      | leaf mem =>
        obtain ⟨leafSlots, childSlots, packed, slots⟩ := holds
        rw [packed.leaves.list] at mem
        obtain ⟨slot, inside, found⟩ := mem_items.mp mem
        have shared := (slots slot inside).of_leaf found
        exact (mem_bucket.mp (shared ▸ mem_singleton_self _)).1
      | child mem resolves below =>
        obtain ⟨own, slot, found, -, -, inner⟩ := holds.child mem
        obtain rfl := Except.ok.inj (found.symm.trans resolves)
        exact (mem_bucket.mp ((ih inner).mpr below)).1

end

theorem bucket_eq_self {entries : List (K × V)} (all : ∀ entry ∈ entries, route keyHash depth entry.1 = slot) :
    bucket keyHash depth entries slot = entries :=
  filter_eq_self.mpr fun entry mem => decide_eq_true (all entry mem)

section

variable {play : HamtNode K V H → Prop} (free : CollisionFree resolver play)

include free

theorem child_of_same (inLeft : play left) (inRight : play right)
    (holds : Holds hasher keyHash resolver (levels + 1) left entries)
    (otherHolds : Holds hasher keyHash resolver (otherLevels + 1) right otherEntries)
    (same : left.structuralHash = right.structuralHash) (mem : ref ∈ left.children)
    (resolves : resolveChildRef resolver ref = .ok child) :
    ∃ other otherRef slot otherSlot, otherRef ∈ right.children ∧ resolveChildRef resolver otherRef = .ok other ∧
      child.structuralHash = other.structuralHash ∧ play child ∧ play other ∧
      Holds hasher keyHash resolver levels child (bucket keyHash (depthOf (levels + 1)) entries slot) ∧
      Holds hasher keyHash resolver otherLevels other
        (bucket keyHash (depthOf (otherLevels + 1)) otherEntries otherSlot) := by
  have contents := free.apart left right inLeft inRight same
  have hash : ref.structuralHash ∈ right.children.map NodeRef.structuralHash := contents.children ▸ mem_map_of_mem mem
  obtain ⟨otherRef, otherMember, sameRef⟩ := mem_map.mp hash
  obtain ⟨own, slot, found, named, -, inner⟩ := holds.child mem
  obtain rfl := Except.ok.inj (found.symm.trans resolves)
  obtain ⟨other, otherSlot, otherFound, otherNamed, -, otherInner⟩ := otherHolds.child otherMember
  exact ⟨other, otherRef, slot, otherSlot, otherMember, otherFound, by rw [named, otherNamed, sameRef],
    free.below _ inLeft _ (.child mem found (.self own)),
    free.below _ inRight _ (.child otherMember otherFound (.self other)), inner, otherInner⟩

theorem Has.of_same (has : Has resolver left entry) (inLeft : play left) (inRight : play right)
    (holds : Holds hasher keyHash resolver levels left entries)
    (otherHolds : Holds hasher keyHash resolver otherLevels right otherEntries)
    (same : left.structuralHash = right.structuralHash) : Has resolver right entry := by
  induction has generalizing levels otherLevels right entries otherEntries with
  | leaf mem => exact .leaf ((free.apart _ _ inLeft inRight same).leaves ▸ mem)
  | child mem resolves below ih =>
    cases levels with
    | zero => exact holds.elim
    | succ levels =>
      cases otherLevels with
      | zero => exact otherHolds.elim
      | succ otherLevels =>
        obtain ⟨other, otherRef, slot, otherSlot, otherMember, found, sameChild, inChild, inOther, inner, otherInner⟩ :=
          child_of_same free inLeft inRight holds otherHolds same mem resolves
        exact .child otherMember found (ih inChild inOther inner otherInner sameChild)

theorem Reaches.of_same (reaches : Reaches resolver left target) (inLeft : play left) (inRight : play right)
    (holds : Holds hasher keyHash resolver levels left entries)
    (otherHolds : Holds hasher keyHash resolver otherLevels right otherEntries)
    (same : left.structuralHash = right.structuralHash) :
    ∃ other, Reaches resolver right other ∧ other.structuralHash = target.structuralHash := by
  induction reaches generalizing levels otherLevels right entries otherEntries with
  | self node => exact ⟨right, .self right, same.symm⟩
  | child mem resolves below ih =>
    cases levels with
    | zero => exact holds.elim
    | succ levels =>
      cases otherLevels with
      | zero => exact otherHolds.elim
      | succ otherLevels =>
        obtain ⟨other, otherRef, slot, otherSlot, otherMember, found, sameChild, inChild, inOther, inner, otherInner⟩ :=
          child_of_same free inLeft inRight holds otherHolds same mem resolves
        obtain ⟨last, reached, hash⟩ := ih inChild inOther inner otherInner sameChild
        exact ⟨last, .child otherMember found reached, hash⟩

variable {left right : HamtNode K V H} (inLeft : play left) (inRight : play right)
include inLeft inRight

theorem Holds.mem_of_same (holds : Holds hasher keyHash resolver levels left entries)
    (otherHolds : Holds hasher keyHash resolver otherLevels right otherEntries)
    (same : left.structuralHash = right.structuralHash) (entry : K × V) :
    entry ∈ entries ↔ entry ∈ otherEntries := by
  rw [holds.mem_iff, otherHolds.mem_iff]
  exact ⟨fun has => has.of_same free inLeft inRight holds otherHolds same,
    fun has => has.of_same free inRight inLeft otherHolds holds same.symm⟩

theorem slot_of_same (holds : Holds hasher keyHash resolver (levels + 1) left entries)
    (otherHolds : Holds hasher keyHash resolver (otherLevels + 1) right otherEntries)
    (same : left.structuralHash = right.structuralHash) {entry : K × V} (mem : entry ∈ entries) :
    route keyHash (depthOf (levels + 1)) entry.1 = route keyHash (depthOf (otherLevels + 1)) entry.1 ∧
    (2 ≤ (bucket keyHash (depthOf (levels + 1)) entries (route keyHash (depthOf (levels + 1)) entry.1)).length →
      ∃ child other, Reaches resolver left child ∧ Reaches resolver right other ∧
        child.structuralHash = other.structuralHash ∧
        Holds hasher keyHash resolver levels child
          (bucket keyHash (depthOf (levels + 1)) entries (route keyHash (depthOf (levels + 1)) entry.1)) ∧
        Holds hasher keyHash resolver otherLevels other (bucket keyHash (depthOf (otherLevels + 1)) otherEntries
            (route keyHash (depthOf (levels + 1)) entry.1))) := by
  have contents := free.apart left right inLeft inRight same
  obtain ⟨leafSlots, childSlots, packed, slots⟩ := holds
  obtain ⟨otherLeaves, otherChildren, otherPacked, otherSlots⟩ := otherHolds
  have inside := route_lt keyHash (depthOf (levels + 1)) entry.1
  have own : entry ∈ bucket keyHash (depthOf (levels + 1)) entries (route keyHash (depthOf (levels + 1)) entry.1) :=
    mem_bucket.mpr ⟨mem, rfl⟩
  rcases (slots _ inside).inv with ⟨shared, -, -⟩ | ⟨existing, shared, leaf, -⟩ |
    ⟨ref, child, -, -, taken, resolves, named, inner⟩
  · rw [shared] at own
    cases own
  · rw [shared] at own ⊢
    obtain rfl := mem_singleton.mp own
    refine ⟨?_, fun several => absurd several (by simp)⟩
    have leaves := (contents.datamap ▸ contents.leaves ▸ packed.leaves).slots_eq otherPacked.leaves inside
    have otherShared := (otherSlots _ inside).of_leaf (leaves.symm.trans leaf)
    exact (mem_bucket.mp (otherShared ▸ mem_singleton_self _)).2.symm
  · have hashes := (contents.nodemap ▸ contents.children ▸ packed.children.map NodeRef.structuralHash).slots_eq
      (otherPacked.children.map NodeRef.structuralHash) inside
    rw [taken, Option.map_some] at hashes
    obtain ⟨otherRef, otherTaken, sameRef⟩ := Option.map_eq_some_iff.mp hashes.symm
    obtain ⟨-, other, otherResolves, otherNamed, otherInner⟩ := (otherSlots _ inside).of_child otherTaken
    have inRef : ref ∈ left.children := packed.children.list ▸ mem_items.mpr ⟨_, inside, taken⟩
    have inOtherRef : otherRef ∈ right.children := otherPacked.children.list ▸ mem_items.mpr ⟨_, inside, otherTaken⟩
    have reached : Reaches resolver left child := .child inRef resolves (.self child)
    have otherReached : Reaches resolver right other := .child inOtherRef otherResolves (.self other)
    have sameChild : child.structuralHash = other.structuralHash := by rw [named, otherNamed, sameRef]
    have moved := ((inner.mem_of_same free (free.below _ inLeft _ reached) (free.below _ inRight _ otherReached)
      otherInner sameChild entry).mp own)
    exact ⟨(mem_bucket.mp moved).2.symm, fun _ => ⟨child, other, reached, otherReached, sameChild, inner, otherInner⟩⟩

theorem levels_of_same (holds : Holds hasher keyHash resolver levels left entries)
    (otherHolds : Holds hasher keyHash resolver otherLevels right otherEntries)
    (spread : Spread keyHash levels entries) (otherSpread : Spread keyHash otherLevels otherEntries)
    (same : left.structuralHash = right.structuralHash) (several : 2 ≤ entries.length) :
    levels = otherLevels := by
  induction levels generalizing otherLevels left right entries otherEntries with
  | zero => exact holds.elim
  | succ levels ih =>
    cases otherLevels with
    | zero => exact otherHolds.elim
    | succ otherLevels =>
      by_contra different
      have sameMembers := holds.mem_of_same free inLeft inRight otherHolds same
      have slots := fun entry (mem : entry ∈ entries) =>
        (slot_of_same free inLeft inRight holds otherHolds same mem).1
      have together : ∀ entry ∈ entries, ∀ other ∈ entries,
          route keyHash (depthOf (levels + 1)) entry.1 = route keyHash (depthOf (levels + 1)) other.1 := by
        intro entry mem other otherMember
        rcases Nat.lt_or_gt_of_ne different with fewer | more
        · -- The other node is higher up: there the entries still agree.
          rw [slots entry mem, slots other otherMember]
          exact spread.routed entry mem other otherMember _ (by
            have := otherSpread.within
            unfold depthOf
            omega)
        · exact otherSpread.routed entry ((sameMembers entry).mp mem) other ((sameMembers other).mp otherMember) _ (by
            have := spread.within
            unfold depthOf
            omega)
      obtain ⟨first, mem⟩ := exists_mem_of_length_pos (Nat.lt_of_lt_of_le Nat.zero_lt_two several)
      have whole : bucket keyHash (depthOf (levels + 1)) entries (route keyHash (depthOf (levels + 1)) first.1) =
          entries := bucket_eq_self fun entry inside => together entry inside first mem
      obtain ⟨child, other, reached, otherReached, sameChild, inner, otherInner⟩ :=
        (slot_of_same free inLeft inRight holds otherHolds same mem).2 (whole.symm ▸ several)
      have deeper := ih (free.below _ inLeft _ reached) (free.below _ inRight _ otherReached) inner otherInner
        (spread.bucket _) (otherSpread.bucket _) sameChild (whole.symm ▸ several)
      exact different (congrArg (· + 1) deeper)

end

def HamtNode.childAt (node : HamtNode K V H) (slot : Nat) : Option (NodeRef K V H) :=
  if node.nodemap &&& slotBit slot ≠ 0 then node.children[mapIndex node.nodemap slot]? else none

def Below (resolver : Resolver K V H E) (node : HamtNode K V H) (slot : Nat) (target : HamtNode K V H) : Prop :=
  ∃ ref child, node.childAt slot = some ref ∧ resolveChildRef resolver ref = .ok child ∧
    Reaches resolver child target

theorem HamtNode.Packed.childAt {node : HamtNode K V H} (packed : node.Packed hasher leafSlots childSlots)
    (inside : slot < 32) : node.childAt slot = childSlots slot := by
  unfold HamtNode.childAt
  cases child : childSlots slot with
  | none => rw [if_neg (packed.child_free inside child)]
  | some ref =>
    obtain ⟨taken, found⟩ := packed.child_taken inside child
    rw [if_pos taken, found]

section

variable {levels : Nat} {node : HamtNode K V H} {entries : List (K × V)}

theorem Holds.childAt {slot : Nat}
    {ref : NodeRef K V H} (holds : Holds hasher keyHash resolver (levels + 1) node entries) (inside : slot < 32)
    (taken : node.childAt slot = some ref) :
    ∃ child, resolveChildRef resolver ref = .ok child ∧ child.structuralHash = ref.structuralHash ∧
      ref ∈ node.children ∧ 2 ≤ (bucket keyHash (depthOf (levels + 1)) entries slot).length ∧
      Holds hasher keyHash resolver levels child (bucket keyHash (depthOf (levels + 1)) entries slot) := by
  obtain ⟨leafSlots, childSlots, packed, slots⟩ := holds
  rw [packed.childAt inside] at taken
  obtain ⟨several, child, resolves, named, inner⟩ := (slots slot inside).of_child taken
  exact ⟨child, resolves, named, packed.children.list ▸ mem_items.mpr ⟨slot, inside, taken⟩, several, inner⟩

theorem Holds.children_slots (holds : Holds hasher keyHash resolver (levels + 1) node entries) :
    node.children = (List.range 32).filterMap node.childAt := by
  obtain ⟨leafSlots, childSlots, packed, -⟩ := holds
  rw [packed.children.list, items]
  exact filterMap_congr fun slot mem => (packed.childAt (mem_range.mp mem)).symm

end

theorem Holds.reaches_iff (holds : Holds hasher keyHash resolver (levels + 1) node entries) :
    Reaches resolver node target ↔ target = node ∨ ∃ slot < 32, Below resolver node slot target := by
  constructor
  · intro reaches
    rcases reaches.cases_child with rfl | ⟨ref, mem, child, resolves, below⟩
    · exact .inl rfl
    · rw [holds.children_slots, mem_filterMap] at mem
      obtain ⟨slot, small, taken⟩ := mem
      exact .inr ⟨slot, mem_range.mp small, ref, child, taken, resolves, below⟩
  · rintro (rfl | ⟨slot, inside, ref, child, taken, resolves, below⟩)
    · exact .self _
    · obtain ⟨-, -, -, mem, -⟩ := holds.childAt inside taken
      exact .child mem resolves below

theorem Holds.reached {levels : Nat} {node target : HamtNode K V H} {entries : List (K × V)}
    (holds : Holds hasher keyHash resolver levels node entries) (spread : Spread keyHash levels entries)
    (reaches : Reaches resolver node target) :
    ∃ below part, Holds hasher keyHash resolver below target part ∧ Spread keyHash below part ∧
      (∀ entry ∈ part, entry ∈ entries) ∧
      (target = node ∧ below = levels ∧ part = entries ∨ below < levels ∧ 2 ≤ part.length) := by
  induction reaches generalizing levels entries with
  | self node => exact ⟨levels, entries, holds, spread, fun _ mem => mem, .inl ⟨rfl, rfl, rfl⟩⟩
  | child mem resolves _ ih =>
    cases levels with
    | zero => exact holds.elim
    | succ levels =>
      obtain ⟨own, slot, found, -, several, inner⟩ := holds.child mem
      obtain rfl := Except.ok.inj (found.symm.trans resolves)
      obtain ⟨below, part, partHolds, partSpread, subset, place⟩ := ih inner (spread.bucket slot)
      refine ⟨below, part, partHolds, partSpread, fun entry inPart => (mem_bucket.mp (subset entry inPart)).1, .inr ?_⟩
      rcases place with ⟨-, rfl, rfl⟩ | ⟨lower, more⟩
      · exact ⟨Nat.lt_succ_self _, several⟩
      · exact ⟨Nat.lt_succ_of_lt lower, more⟩

theorem Holds.below {levels slot : Nat} {node target : HamtNode K V H} {entries : List (K × V)}
    (holds : Holds hasher keyHash resolver (levels + 1) node entries) (spread : Spread keyHash (levels + 1) entries)
    (inside : slot < 32) (below : Below resolver node slot target) :
    ∃ lower part, lower ≤ levels ∧ Holds hasher keyHash resolver lower target part ∧ Spread keyHash lower part ∧
      2 ≤ part.length ∧ ∀ entry ∈ part, route keyHash (depthOf (levels + 1)) entry.1 = slot := by
  obtain ⟨ref, child, taken, resolves, reaches⟩ := below
  obtain ⟨own, found, -, -, several, inner⟩ := holds.childAt inside taken
  obtain rfl := Except.ok.inj (found.symm.trans resolves)
  obtain ⟨lower, part, partHolds, partSpread, subset, place⟩ := inner.reached (spread.bucket slot) reaches
  have routed : ∀ entry ∈ part, route keyHash (depthOf (levels + 1)) entry.1 = slot :=
    fun entry inPart => (mem_bucket.mp (subset entry inPart)).2
  rcases place with ⟨-, rfl, rfl⟩ | ⟨less, more⟩
  · exact ⟨_, _, Nat.le_refl _, partHolds, partSpread, several, routed⟩
  · exact ⟨_, _, Nat.le_of_lt less, partHolds, partSpread, more, routed⟩

variable {play : HamtNode K V H → Prop} (free : CollisionFree resolver play) {levels : Nat}
  {left right : HamtNode K V H} {entries otherEntries : List (K × V)} (inLeft : play left) (inRight : play right)
  (holds : Holds hasher keyHash resolver (levels + 1) left entries)
  (otherHolds : Holds hasher keyHash resolver (levels + 1) right otherEntries)
  (spread : Spread keyHash (levels + 1) entries) (otherSpread : Spread keyHash (levels + 1) otherEntries)

include free inLeft inRight holds otherHolds spread otherSpread

theorem below_slot (inside : slot < 32) (otherInside : otherSlot < 32) (below : Below resolver left slot target)
    (otherBelow : Below resolver right otherSlot other) (same : target.structuralHash = other.structuralHash) :
    slot = otherSlot := by
  obtain ⟨lower, part, -, partHolds, -, several, routed⟩ := holds.below spread inside below
  obtain ⟨otherLower, otherPart, -, otherPartHolds, -, -, otherRouted⟩ :=
    otherHolds.below otherSpread otherInside otherBelow
  obtain ⟨entry, mem⟩ := exists_mem_of_length_pos (Nat.lt_of_lt_of_le Nat.zero_lt_two several)
  have inTarget : play target := free.below _ inLeft _ (holds.reaches_iff.mpr (.inr ⟨slot, inside, below⟩))
  have inOther : play other :=
    free.below _ inRight _ (otherHolds.reaches_iff.mpr (.inr ⟨otherSlot, otherInside, otherBelow⟩))
  have moved := (partHolds.mem_of_same free inTarget inOther otherPartHolds same entry).mp mem
  exact (routed entry mem).symm.trans (otherRouted entry moved)

theorem below_ne (inside : slot < 32) (below : Below resolver left slot target) :
    target.structuralHash ≠ right.structuralHash := by
  intro same
  obtain ⟨lower, part, less, partHolds, partSpread, several, -⟩ := holds.below spread inside below
  have inTarget : play target := free.below _ inLeft _ (holds.reaches_iff.mpr (.inr ⟨slot, inside, below⟩))
  have equal := levels_of_same free inTarget inRight partHolds otherHolds partSpread otherSpread same several
  omega

end Rezzy.Hamt
