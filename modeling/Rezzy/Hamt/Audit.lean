import Rezzy.Auth.Roaring
import Rezzy.Bitmaps.Runs
import Rezzy.Hamt.Delta
import Rezzy.Lib.Fallible

namespace Rezzy.Hamt

open Auth Bitmaps List
open Finset (mem_insert mem_union)

section

variable {K V H E M : Type}

abbrev Mark (M H : Type) := M → H → Bool × M

def walkReachableChildren (resolver : Resolver K V H E) (mark : Mark M H) :
    Nat → HamtNode K V H → M → Except (HamtTraversalError E) M
  | 0, _, _ => .error (.maxDepthExceeded hamtMaxDepth)
  | levels + 1, node, marks =>
    node.children.foldlM (fun marks child =>
      if (mark marks child.structuralHash).1 then do
        let childNode ← resolveNodeChecked resolver child
        walkReachableChildren resolver mark levels childNode (mark marks child.structuralHash).2
      else .ok (mark marks child.structuralHash).2) marks

def walkReachableNodeHashes (resolver : Resolver K V H E) (mark : Mark M H) (root : HamtNode K V H) (marks : M) :
    Except (HamtTraversalError E) M :=
  if (mark marks root.structuralHash).1 then
    walkReachableChildren resolver mark hamtMaxDepth root (mark marks root.structuralHash).2
  else .ok (mark marks root.structuralHash).2

variable [DecidableEq H]

structure NodeReachabilityAudit (H : Type) where
  reachable : Finset H
  unreachable : List H

def markHash : Mark (Finset H) H := fun marked hash => (decide (hash ∉ marked), insert hash marked)

def auditHash (marked : Finset H) (audit : NodeReachabilityAudit H) (hash : H) : NodeReachabilityAudit H :=
  if hash ∈ marked then { audit with reachable := insert hash audit.reachable }
  else if hash ∈ audit.unreachable then audit
  else { audit with unreachable := audit.unreachable ++ [hash] }

def nodeReachabilityAudit (resolver : Resolver K V H E) (roots : List (HamtNode K V H)) (stored : List H) :
    Except (HamtTraversalError E) (NodeReachabilityAudit H) := do
  let marked ← roots.foldlM (fun marked root => walkReachableNodeHashes resolver markHash root marked) ∅
  return stored.foldl (auditHash marked) ⟨∅, []⟩

def u32Max : Nat := 2 ^ 32 - 1

def appendFresh (index : DenseIndex H) (item : H) (fresh : item ∉ index.items) : DenseIndex H where
  items := index.items ++ [item]
  distinct := index.nodup_push fresh

def tryBuildBounded (bound : Nat) (index : DenseIndex H) : List H → Except IndexTooLarge (DenseIndex H)
  | [] => .ok index
  | item :: rest =>
    if known : item ∈ index.items then tryBuildBounded bound index rest
    else if bound ≤ index.items.length then
      .error ⟨index.items.length + ((item :: rest).filter (· ∉ index.items)).dedup.length, false⟩
    else tryBuildBounded bound (appendFresh index item known) rest

structure IndexedUniverse (H : Type) where
  index : DenseIndex H

namespace IndexedUniverse

def tryBuild (stored : List H) : Except IndexTooLarge (IndexedUniverse H) :=
  (tryBuildBounded (u32Max + 1) .empty stored).map IndexedUniverse.mk

def len (indexed : IndexedUniverse H) : Nat := indexed.index.items.length

def toU32 (n : Nat) : Option U32 := if small : n < 1024 * 64 * (1024 * 64) then some ⟨n, small⟩ else none

def indexOf (indexed : IndexedUniverse H) (hash : H) : Option U32 := (indexed.index.indexOf hash).bind toU32

def hashAt (indexed : IndexedUniverse H) (idx : U32) : Option H := indexed.index.itemAt idx

end IndexedUniverse

structure BitmapNodeReachabilityAudit (H : Type) where
  indexed : IndexedUniverse H
  reachable : Bitmap
  unreachable : Bitmap

inductive BitmapAuditError (E : Type) where
  | universeTooLarge (reason : IndexTooLarge)
  | traversal (error : HamtTraversalError E)

def markIndex (indexed : IndexedUniverse H) : Mark (Bitmap × Finset H) H := fun marks hash =>
  match indexed.indexOf hash with
  | some idx => ((marks.1.insert idx).1, (marks.1.insert idx).2, marks.2)
  | none => (decide (hash ∉ marks.2), marks.1, insert hash marks.2)

/-- Without a result where the subtraction of the bitmaps panics. -/
def bitmapNodeReachabilityAudit (resolver : Resolver K V H E) (roots : List (HamtNode K V H)) (stored : List H) :
    Option (Except (BitmapAuditError E) (BitmapNodeReachabilityAudit H)) :=
  match IndexedUniverse.tryBuild stored with
  | .error reason => some (.error (.universeTooLarge reason))
  | .ok indexed =>
    match roots.foldlM (fun marks root => walkReachableNodeHashes resolver (markIndex indexed) root marks)
      (Bitmap.new, ∅) with
    | .error error => some (.error (.traversal error))
    | .ok marks =>
      if indexed.len ≤ u32Max then do
        let fullRange := Bitmap.new.extend ((List.range indexed.len).filterMap IndexedUniverse.toU32)
        let unreachable ← fullRange.sub marks.1
        return .ok ⟨indexed, marks.1, unreachable⟩
      else some (.error (.universeTooLarge ⟨indexed.len, false⟩))

end

open Fallible

variable {K V H E M N : Type}

section

def AnswerAlike (mark : Mark M H) (other : Mark N H) (related : M → N → Prop) : Prop :=
  ∀ marks others hash, related marks others →
    (mark marks hash).1 = (other others hash).1 ∧ related (mark marks hash).2 (other others hash).2

variable {related : M → N → Prop}

theorem walkReachableChildren_alike (answers : AnswerAlike mark other related) (levels : Nat) (node : HamtNode K V H)
    (start : related marks others) : Alike related (walkReachableChildren resolver mark levels node marks)
      (walkReachableChildren resolver other levels node others) := by
  induction levels generalizing node marks others with
  | zero => exact .error _
  | succ levels ih =>
    refine Alike.foldlM (fun child inside marks others now => ?_) start
    obtain ⟨same, next⟩ := answers marks others child.structuralHash now
    rw [same]
    by_cases fresh : (other others child.structuralHash).1 = true
    · rw [if_pos fresh, if_pos fresh]
      cases resolveNodeChecked resolver child with
      | error fault => exact .error fault
      | ok childNode => exact ih childNode next
    · rw [if_neg fresh, if_neg fresh]
      exact .ok next

theorem walkReachableNodeHashes_alike (answers : AnswerAlike mark other related) (root : HamtNode K V H)
    (start : related marks others) : Alike related (walkReachableNodeHashes resolver mark root marks)
      (walkReachableNodeHashes resolver other root others) := by
  obtain ⟨same, next⟩ := answers marks others root.structuralHash start
  unfold walkReachableNodeHashes
  rw [same]
  by_cases fresh : (other others root.structuralHash).1 = true
  · rw [if_pos fresh, if_pos fresh]
    exact walkReachableChildren_alike answers hamtMaxDepth root next
  · rw [if_neg fresh, if_neg fresh]
    exact .ok next

end

variable [DecidableEq H]

section

variable {indexed : IndexedUniverse H}

theorem idxOf?_iff {items : List H} (distinct : items.Nodup) (hash : H) (i : Nat) :
    items.idxOf? hash = some i ↔ items[i]? = some hash := by
  rw [idxOf?_eq_some_iff]
  constructor
  · rintro ⟨inside, found, -⟩
    rw [getElem?_eq_getElem inside, found]
  · intro found
    obtain ⟨inside, here⟩ := List.getElem?_eq_some_iff.mp found
    refine ⟨inside, here, fun j less => ?_⟩
    intro same
    have equal := distinct.getElem_inj_iff.mp (same.trans here.symm)
    omega

theorem toU32_eq_some : IndexedUniverse.toU32 n = some idx ↔ n = idx.val := by
  unfold IndexedUniverse.toU32
  constructor
  · intro some
    split at some
    · rw [← Option.some.inj some]
    · cases some
  · rintro rfl
    rw [dif_pos idx.isLt]

theorem IndexedUniverse.indexOf_iff (indexed : IndexedUniverse H) (hash : H) (idx : U32) :
    indexed.indexOf hash = some idx ↔ indexed.hashAt idx = some hash := by
  unfold IndexedUniverse.indexOf IndexedUniverse.hashAt DenseIndex.indexOf DenseIndex.itemAt
  rw [Option.bind_eq_some_iff, ← idxOf?_iff indexed.index.distinct]
  constructor
  · rintro ⟨i, found, fits⟩
    rw [← toU32_eq_some.mp fits]
    exact found
  · intro found
    exact ⟨idx, found, toU32_eq_some.mpr rfl⟩

theorem IndexedUniverse.indexOf_none (fits : indexed.len ≤ 1024 * 64 * (1024 * 64)) (hash : H) :
    indexed.indexOf hash = none ↔ hash ∉ indexed.index.items := by
  unfold IndexedUniverse.indexOf DenseIndex.indexOf
  cases found : indexed.index.items.idxOf? hash with
  | none => exact iff_of_true rfl (idxOf?_eq_none_iff.mp found)
  | some i =>
    have at' := (idxOf?_iff indexed.index.distinct hash i).mp found
    obtain ⟨inside, -⟩ := List.getElem?_eq_some_iff.mp at'
    have given : IndexedUniverse.toU32 i = some ⟨i, inside.trans_le fits⟩ := toU32_eq_some.mpr rfl
    rw [Option.bind_some, given]
    exact iff_of_false (Option.some_ne_none _) (not_not_intro (mem_of_getElem? at'))

theorem tryBuildBounded_spec (bound : Nat) (items : List H) (index : DenseIndex H)
    (within : index.items.length ≤ bound) :
    ((index.items.toFinset ∪ items.toFinset).card ≤ bound → ∃ built, tryBuildBounded bound index items = .ok built ∧
        built.items.toFinset = index.items.toFinset ∪ items.toFinset) ∧
    (bound < (index.items.toFinset ∪ items.toFinset).card →
      tryBuildBounded bound index items = .error ⟨(index.items.toFinset ∪ items.toFinset).card, false⟩) := by
  induction items generalizing index with
  | nil =>
    have all : index.items.toFinset ∪ ([] : List H).toFinset = index.items.toFinset := by simp
    rw [all, toFinset_card_of_nodup index.distinct]
    exact ⟨fun _ => ⟨index, rfl, rfl⟩, fun more => absurd within (Nat.not_le.mpr more)⟩
  | cons item rest ih =>
    unfold tryBuildBounded
    by_cases known : item ∈ index.items
    · rw [dif_pos known]
      have all : index.items.toFinset ∪ (item :: rest).toFinset = index.items.toFinset ∪ rest.toFinset := by
        ext hash
        simp only [mem_union, mem_toFinset, mem_cons]
        constructor
        · rintro (old | rfl | new)
          · exact .inl old
          · exact .inl known
          · exact .inr new
        · rintro (old | new)
          · exact .inl old
          · exact .inr (.inr new)
      rw [all]
      exact ih index within
    · rw [dif_neg known]
      by_cases full : bound ≤ index.items.length
      · rw [if_pos full]
        have fresh : ((item :: rest).filter (· ∉ index.items)).toFinset =
            (item :: rest).toFinset \ index.items.toFinset := by
          ext hash
          simp only [mem_toFinset, mem_filter, decide_eq_true_eq, Finset.mem_sdiff]
        have counted : (index.items.toFinset ∪ (item :: rest).toFinset).card =
            index.items.length + ((item :: rest).filter (· ∉ index.items)).dedup.length := by
          rw [← Finset.union_sdiff_self_eq_union, Finset.card_union_of_disjoint Finset.disjoint_sdiff, ← fresh,
            toFinset_card_of_nodup index.distinct, card_toFinset]
        have more : 0 < ((item :: rest).filter (· ∉ index.items)).dedup.length := by
          apply length_pos_of_mem (a := item)
          rw [mem_dedup, mem_filter]
          exact ⟨mem_cons_self, decide_eq_true known⟩
        rw [counted]
        exact ⟨fun small => by omega, fun _ => rfl⟩
      · rw [if_neg full]
        have all : index.items.toFinset ∪ (item :: rest).toFinset =
            (appendFresh index item known).items.toFinset ∪ rest.toFinset := by
          ext hash
          simp only [appendFresh, mem_union, mem_toFinset, mem_cons, mem_append, not_mem_nil, or_false, or_assoc]
        rw [all]
        apply ih
        simp only [appendFresh, length_append, length_singleton]
        omega

theorem IndexedUniverse.tryBuild_ok {stored : List H} (fits : stored.toFinset.card ≤ u32Max + 1) :
    ∃ indexed, IndexedUniverse.tryBuild stored = .ok indexed ∧ indexed.len = stored.toFinset.card ∧
      ∀ hash, hash ∈ indexed.index.items ↔ hash ∈ stored := by
  have spec := tryBuildBounded_spec (u32Max + 1) stored DenseIndex.empty (Nat.zero_le _)
  have all : (DenseIndex.empty : DenseIndex H).items.toFinset ∪ stored.toFinset = stored.toFinset := by
    simp [DenseIndex.empty]
  rw [all] at spec
  obtain ⟨built, made, same⟩ := spec.1 fits
  refine ⟨⟨built⟩, ?_, ?_, fun hash => ?_⟩
  · unfold IndexedUniverse.tryBuild
    rw [made]
    rfl
  · rw [← same, toFinset_card_of_nodup built.distinct, IndexedUniverse.len]
  · rw [← mem_toFinset, same, mem_toFinset]

theorem IndexedUniverse.tryBuild_error {stored : List H} (more : u32Max + 1 < stored.toFinset.card) :
    IndexedUniverse.tryBuild stored = .error ⟨stored.toFinset.card, false⟩ := by
  have spec := tryBuildBounded_spec (u32Max + 1) stored DenseIndex.empty (Nat.zero_le _)
  have all : (DenseIndex.empty : DenseIndex H).items.toFinset ∪ stored.toFinset = stored.toFinset := by
    simp [DenseIndex.empty]
  rw [all] at spec
  unfold IndexedUniverse.tryBuild
  rw [spec.2 more]
  rfl

structure SameMarks (indexed : IndexedUniverse H) (marked : Finset H) (marks : Bitmap × Finset H) : Prop where
  inside : marks.1.Holds fun idx => ∃ hash ∈ marked, indexed.indexOf hash = some idx
  outside : ∀ hash, hash ∈ marks.2 ↔ hash ∈ marked ∧ indexed.indexOf hash = none

theorem SameMarks.empty (indexed : IndexedUniverse H) : SameMarks indexed ∅ (Bitmap.new, ∅) where
  inside := Bitmap.new_holds.congr fun idx => by simp
  outside hash := by simp

theorem indexOf_injective (one : indexed.indexOf first = some idx) (two : indexed.indexOf second = some idx) :
    first = second := by
  rw [indexed.indexOf_iff] at one two
  exact Option.some.inj (one.symm.trans two)

theorem marks_answerAlike (indexed : IndexedUniverse H) :
    AnswerAlike markHash (markIndex indexed) (SameMarks indexed) := by
  intro marked _ hash same
  unfold markIndex markHash
  cases found : indexed.indexOf hash with
  | some idx =>
    obtain ⟨inserted, fresh⟩ := Bitmap.insert_holds same.inside idx
    have known : (∃ other ∈ marked, indexed.indexOf other = some idx) ↔ hash ∈ marked := by
      constructor
      · rintro ⟨other, mem, at'⟩
        rw [indexOf_injective found at']
        exact mem
      · exact fun mem => ⟨hash, mem, found⟩
    refine ⟨?_, inserted.congr fun v => ?_, fun other => ?_⟩
    · rw [Bool.eq_iff_iff, fresh, known, decide_eq_true_eq]
    · simp only [mem_insert, exists_eq_or_imp, found, Option.some.injEq, eq_comm (a := idx)]
    · rw [same.outside, mem_insert]
      constructor
      · exact fun given => ⟨.inr given.1, given.2⟩
      · rintro ⟨rfl | mem, none⟩
        · rw [found] at none
          cases none
        · exact ⟨mem, none⟩
  | none =>
    refine ⟨?_, same.inside.congr fun v => ?_, fun other => ?_⟩
    · rw [decide_eq_decide, same.outside]
      simp only [found, and_true]
    · simp only [mem_insert, exists_eq_or_imp, found, reduceCtorEq, false_or]
    · rw [mem_insert, mem_insert, same.outside]
      constructor
      · rintro (rfl | given)
        · exact ⟨.inl rfl, found⟩
        · exact ⟨.inr given.1, given.2⟩
      · rintro ⟨rfl | mem, none⟩
        · exact .inl rfl
        · exact .inr ⟨mem, none⟩

structure Divided (marked : Finset H) (seen : List H) (audit : NodeReachabilityAudit H) : Prop where
  reachable : ∀ hash, hash ∈ audit.reachable ↔ hash ∈ seen ∧ hash ∈ marked
  unreachable : ∀ hash, hash ∈ audit.unreachable ↔ hash ∈ seen ∧ hash ∉ marked
  once : audit.unreachable.Nodup

theorem Divided.step {marked : Finset H} {seen : List H} {audit : NodeReachabilityAudit H}
    (divided : Divided marked seen audit) (last : H) :
    Divided marked (seen ++ [last]) (auditHash marked audit last) := by
  have further : ∀ hash, hash ∈ seen ++ [last] ↔ hash ∈ seen ∨ hash = last := by simp
  unfold auditHash
  by_cases inMarked : last ∈ marked
  · rw [if_pos inMarked]
    refine ⟨fun hash => ?_, fun hash => ?_, divided.once⟩
    · rw [mem_insert, divided.reachable, further]
      grind
    · rw [divided.unreachable, further]
      grind
  · rw [if_neg inMarked]
    by_cases known : last ∈ audit.unreachable
    · rw [if_pos known]
      have before := (divided.unreachable last).mp known
      refine ⟨fun hash => ?_, fun hash => ?_, divided.once⟩
      · rw [divided.reachable, further]
        grind
      · rw [divided.unreachable, further]
        grind
    · rw [if_neg known]
      refine ⟨fun hash => ?_, fun hash => ?_, ?_⟩
      · rw [divided.reachable, further]
        grind
      · rw [mem_append, mem_singleton, divided.unreachable, further]
        grind
      · rw [nodup_append]
        refine ⟨divided.once, nodup_singleton last, fun hash mem other new => ?_⟩
        rw [mem_singleton.mp new]
        rintro rfl
        exact known mem

theorem divided (marked : Finset H) (stored : List H) :
    Divided marked stored (stored.foldl (auditHash marked) ⟨∅, []⟩) := by
  induction stored using reverseRecOn with
  | nil => exact ⟨fun hash => by simp, fun hash => by simp, nodup_nil⟩
  | append_singleton before last ih =>
    rw [foldl_concat]
    exact ih.step last

def Indicates (indexed : IndexedUniverse H) (bitmap : Bitmap) (hash : H) : Prop :=
  ∃ idx, indexed.hashAt idx = some hash ∧ bitmap.contains idx = true

structure SameReport (stored : List H) (audit : NodeReachabilityAudit H)
    (bitmaps : BitmapNodeReachabilityAudit H) : Prop where
  indexed : ∀ hash, (∃ idx, bitmaps.indexed.hashAt idx = some hash) ↔ hash ∈ stored
  reachable : ∀ hash, hash ∈ audit.reachable ↔ Indicates bitmaps.indexed bitmaps.reachable hash
  unreachable : ∀ hash, hash ∈ audit.unreachable ↔ Indicates bitmaps.indexed bitmaps.unreachable hash
  once : audit.unreachable.Nodup
  within : ∀ idx, bitmaps.reachable.contains idx = true ∨ bitmaps.unreachable.contains idx = true →
    ∃ hash, bitmaps.indexed.hashAt idx = some hash

theorem range_holds (n : Nat) :
    (Bitmap.new.extend ((range n).filterMap IndexedUniverse.toU32)).Holds fun idx => idx.val < n := by
  refine (Bitmap.extend_holds Bitmap.new_holds _).congr fun idx => ?_
  rw [or_false, mem_filterMap]
  constructor
  · rintro ⟨i, small, given⟩
    rw [← toU32_eq_some.mp given]
    exact mem_range.mp small
  · exact fun small => ⟨idx, mem_range.mpr small, toU32_eq_some.mpr rfl⟩

variable {indexed : IndexedUniverse H} {stored : List H}

theorem indicates_iff {P : U32 → Prop} (holds : bitmap.Holds P) (hash : H) :
    Indicates indexed bitmap hash ↔ ∃ idx, indexed.indexOf hash = some idx ∧ P idx := by
  constructor
  · rintro ⟨idx, at', set⟩
    exact ⟨idx, (indexed.indexOf_iff hash idx).mpr at', (Bitmap.contains_iff holds idx).mp set⟩
  · rintro ⟨idx, at', set⟩
    exact ⟨idx, (indexed.indexOf_iff hash idx).mp at', (Bitmap.contains_iff holds idx).mpr set⟩

theorem indexOf_lt {hash : H} (found : indexed.indexOf hash = some idx) : idx.val < indexed.len := by
  rw [indexed.indexOf_iff] at found
  obtain ⟨inside, -⟩ := List.getElem?_eq_some_iff.mp found
  exact inside

theorem SameReport.of_marks (complete : ∀ hash, hash ∈ indexed.index.items ↔ hash ∈ stored)
    (small : indexed.len ≤ u32Max) (same : SameMarks indexed marked marks) {unreachable : Bitmap}
    (rest : unreachable.Holds fun idx => idx.val < indexed.len ∧ ¬∃ hash ∈ marked, indexed.indexOf hash = some idx) :
    SameReport stored (stored.foldl (auditHash marked) ⟨∅, []⟩) ⟨indexed, marks.1, unreachable⟩ := by
  have fits : indexed.len ≤ 1024 * 64 * (1024 * 64) := small.trans (by decide)
  have known : ∀ hash, hash ∈ stored → ∃ idx, indexed.indexOf hash = some idx := by
    intro hash mem
    rw [← Option.isSome_iff_exists, Option.isSome_iff_ne_none]
    exact fun none => (indexed.indexOf_none fits hash).mp none ((complete hash).mpr mem)
  have own : ∀ hash idx, indexed.indexOf hash = some idx → hash ∈ stored := by
    intro hash idx found
    exact (complete hash).mp (mem_of_getElem? ((indexed.indexOf_iff hash idx).mp found))
  have parts := divided marked stored
  refine ⟨fun hash => ?_, fun hash => ?_, fun hash => ?_, parts.once, fun idx => ?_⟩
  · constructor
    · rintro ⟨idx, at'⟩
      exact own hash idx ((indexed.indexOf_iff hash idx).mpr at')
    · intro mem
      obtain ⟨idx, found⟩ := known hash mem
      exact ⟨idx, (indexed.indexOf_iff hash idx).mp found⟩
  · rw [parts.reachable, indicates_iff same.inside]
    constructor
    · rintro ⟨mem, inMarked⟩
      obtain ⟨idx, found⟩ := known hash mem
      exact ⟨idx, found, hash, inMarked, found⟩
    · rintro ⟨idx, found, other, inMarked, at'⟩
      obtain rfl := indexOf_injective found at'
      exact ⟨own hash idx found, inMarked⟩
  · rw [parts.unreachable, indicates_iff rest]
    constructor
    · rintro ⟨mem, unmarked⟩
      obtain ⟨idx, found⟩ := known hash mem
      refine ⟨idx, found, indexOf_lt found, ?_⟩
      rintro ⟨other, inMarked, at'⟩
      exact unmarked (indexOf_injective found at' ▸ inMarked)
    · rintro ⟨idx, found, -, unmarked⟩
      exact ⟨own hash idx found, fun inMarked => unmarked ⟨hash, inMarked, found⟩⟩
  · rintro (set | set)
    · obtain ⟨hash, -, found⟩ := (Bitmap.contains_iff same.inside idx).mp set
      exact ⟨hash, (indexed.indexOf_iff hash idx).mp found⟩
    · obtain ⟨inside, -⟩ := (Bitmap.contains_iff rest idx).mp set
      exact ⟨indexed.index.items[idx.val], getElem?_eq_getElem inside⟩

end

section

variable (resolver : Resolver K V H E) (roots : List (HamtNode K V H)) {stored : List H}

theorem marks_agree (indexed : IndexedUniverse H) :
    Alike (SameMarks indexed) (roots.foldlM (fun marks root => walkReachableNodeHashes resolver markHash root marks) ∅)
      (roots.foldlM (fun marks root => walkReachableNodeHashes resolver (markIndex indexed) root marks)
        (Bitmap.new, ∅)) :=
  Alike.foldlM (fun root _ _ _ now => walkReachableNodeHashes_alike (marks_answerAlike indexed) root now)
    (SameMarks.empty indexed)

theorem audits_agree (fits : stored.toFinset.card ≤ u32Max) :
    (∃ outcome, bitmapNodeReachabilityAudit resolver roots stored = some outcome ∧
      Alike (SameReport stored) ((nodeReachabilityAudit resolver roots stored).mapError BitmapAuditError.traversal)
        outcome) ∧
    ∃ indexed, IndexedUniverse.tryBuild stored = .ok indexed ∧
      Alike (fun marked marks => ∀ hash, hash ∈ marks.2 ↔ hash ∈ marked ∧ hash ∉ stored)
        (roots.foldlM (fun marks root => walkReachableNodeHashes resolver markHash root marks) ∅)
        (roots.foldlM (fun marks root => walkReachableNodeHashes resolver (markIndex indexed) root marks)
          (Bitmap.new, ∅)) := by
  obtain ⟨indexed, built, length, complete⟩ := IndexedUniverse.tryBuild_ok (fits.trans (Nat.le_succ u32Max))
  have small : indexed.len ≤ u32Max := length.trans_le fits
  have walks := marks_agree resolver roots indexed
  constructor
  · unfold bitmapNodeReachabilityAudit nodeReachabilityAudit
    rw [built]
    dsimp only
    revert walks
    generalize roots.foldlM (fun marks root => walkReachableNodeHashes resolver markHash root marks) ∅ = first
    generalize roots.foldlM (fun marks root => walkReachableNodeHashes resolver (markIndex indexed) root marks)
      (Bitmap.new, ∅) = second
    intro walks
    cases walks with
    | error fault => exact ⟨_, rfl, .error _⟩
    | @ok marked marks same =>
      obtain ⟨unreachable, made, rest⟩ :=
        Bitmap.mergeWith_holds false .sub (range_holds indexed.len) same.inside (fun impossible => nomatch impossible)
      have subtracted : (Bitmap.new.extend ((List.range indexed.len).filterMap IndexedUniverse.toU32)).sub marks.1 =
          some unreachable := made
      refine ⟨.ok ⟨indexed, marks.1, unreachable⟩, ?_, ?_⟩
      · dsimp only
        rw [if_pos small, subtracted]
        rfl
      · exact .ok (SameReport.of_marks complete small same rest)
  · refine ⟨indexed, built, ?_⟩
    have fits32 : indexed.len ≤ 1024 * 64 * (1024 * 64) := small.trans (by decide)
    refine walks.mono fun marked marks same hash => ?_
    rw [same.outside, indexed.indexOf_none fits32, complete]

theorem oversized_rejected (more : u32Max + 1 < stored.toFinset.card) :
    bitmapNodeReachabilityAudit resolver roots stored = some (.error (.universeTooLarge ⟨stored.toFinset.card, false⟩)) := by
  unfold bitmapNodeReachabilityAudit
  rw [IndexedUniverse.tryBuild_error more]

end

namespace Sample

def sharedNode : HamtNode Nat Nat Nat := ⟨1, 0, [(1, 10)], [], 5⟩

def firstRoot : HamtNode Nat Nat Nat := ⟨0, 1, [], [.lazy 5], 7⟩

def secondRoot : HamtNode Nat Nat Nat := ⟨0, 3, [], [.lazy 5, .resolved ⟨1, 0, [(2, 20)], [], 6⟩], 8⟩

def sharedStore : Resolver Nat Nat Nat Unit := fun hash => if hash = 5 then .ok sharedNode else .error ()

end Sample

open Sample

theorem audits_agree_shared :
    (∃ outcome, bitmapNodeReachabilityAudit sharedStore [firstRoot, secondRoot] [5, 9, 7, 9, 8, 4] = some outcome ∧
      Alike (SameReport [5, 9, 7, 9, 8, 4])
        ((nodeReachabilityAudit sharedStore [firstRoot, secondRoot] [5, 9, 7, 9, 8, 4]).mapError
          BitmapAuditError.traversal) outcome) ∧
    ∃ indexed, IndexedUniverse.tryBuild [5, 9, 7, 9, 8, 4] = .ok indexed ∧
      Alike (fun marked marks => ∀ hash, hash ∈ marks.2 ↔ hash ∈ marked ∧ hash ∉ [5, 9, 7, 9, 8, 4])
        ([firstRoot, secondRoot].foldlM
          (fun marks root => walkReachableNodeHashes sharedStore markHash root marks) ∅)
        ([firstRoot, secondRoot].foldlM
          (fun marks root => walkReachableNodeHashes sharedStore (markIndex indexed) root marks) (Bitmap.new, ∅)) :=
  audits_agree sharedStore [firstRoot, secondRoot] (by decide)

/-- No root and one stored hash more than an index can be given to: the first audit lists the hashes, the second
    fails. -/
theorem oversized_audits_differ :
    ¬∃ outcome, bitmapNodeReachabilityAudit (noStore : Resolver Nat Nat Nat Unit) []
        (List.range (2 ^ 32 + 1)) = some outcome ∧
      Alike (SameReport (List.range (2 ^ 32 + 1)))
        ((nodeReachabilityAudit (noStore : Resolver Nat Nat Nat Unit) [] (List.range (2 ^ 32 + 1))).mapError
          BitmapAuditError.traversal) outcome := by
  have card : (List.range (2 ^ 32 + 1)).toFinset.card = 2 ^ 32 + 1 := by
    rw [toFinset_card_of_nodup nodup_range, length_range]
  have more : u32Max + 1 < (List.range (2 ^ 32 + 1)).toFinset.card := by
    rw [card]
    decide
  generalize List.range (2 ^ 32 + 1) = stored at more
  rintro ⟨outcome, made, alike⟩
  rw [oversized_rejected noStore [] more] at made
  obtain rfl := Option.some.inj made
  cases alike

end Rezzy.Hamt
