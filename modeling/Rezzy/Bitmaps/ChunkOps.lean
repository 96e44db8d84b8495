import Rezzy.Bitmaps.ChunkSpec

namespace Rezzy.Bitmaps.Chunk

open Ascending WordBits List

section

theorem isSubset_iff (left : Tidy self) (right : Tidy other) :
    self.isSubset other = true ↔ ∀ x ∈ self.lows, x ∈ other.lows := by
  unfold isSubset
  cases mine : self.store with
  | array a =>
    rw [lows_array mine]
    cases theirs : other.store with
    | array b =>
      rw [all_eq_true]
      have found : ∀ x, (search id b x).isOk = true ↔ x ∈ other.lows := by
        intro x
        have contained := right.contains_iff x
        unfold contains at contained
        rw [theirs] at contained
        exact contained
      exact forall₂_congr fun x _ => found x
    | dense b =>
      rw [all_eq_true, lows_dense theirs]
      exact forall₂_congr fun x _ => mem_wordsToArray.symm
  | dense a =>
    cases theirs : other.store with
    | array b =>
      refine iff_of_false Bool.false_ne_true ?_
      intro within
      have more := (left.dense mine).2
      have few := (right.array theirs).2.2
      have shorter := (subperm_of_subset (left.ascends.imp ne_of_lt) within).length_le
      rw [lows_dense mine, length_wordsToArray, lows_array theirs] at shorter
      omega
    | dense b =>
      rw [zipWith_all_zero (fun x y => x &&& ~~~y), lows_dense mine, lows_dense theirs]
      apply forall_congr'
      intro x
      rw [testBit_andNot, mem_wordsToArray, mem_wordsToArray]
      cases testBit a x <;> simp

theorem isDisjoint_iff (left : Tidy self) (right : Tidy other) :
    self.isDisjoint other = true ↔ ∀ x ∈ self.lows, x ∉ other.lows := by
  unfold isDisjoint
  cases mine : self.store with
  | array a =>
    rw [lows_array mine]
    cases theirs : other.store with
    | array b =>
      rw [lows_array theirs, apartWalk_iff (f := id) (left.array mine).1 (right.array theirs).1]
      constructor
      · exact fun apart x mem inside => Bool.false_ne_true (apart x mem x inside rfl)
      · intro apart x mem y inside same
        have equal : x = y := same
        exact absurd (equal ▸ inside) (apart x mem)
    | dense b =>
      rw [all_eq_true, lows_dense theirs]
      exact forall₂_congr fun x _ => by rw [mem_wordsToArray, Bool.not_eq_true', Bool.not_eq_true]
  | dense b =>
    rw [lows_dense mine]
    cases theirs : other.store with
    | array a =>
      rw [all_eq_true, lows_array theirs]
      constructor
      · intro clear x set mem
        have bit := clear x mem
        rw [mem_wordsToArray.mp set] at bit
        cases bit
      · intro apart x mem
        rw [Bool.not_eq_true', Bool.eq_false_iff]
        exact fun set => apart x (mem_wordsToArray.mpr set) mem
    | dense a =>
      rw [zipWith_all_zero (· &&& ·), lows_dense theirs]
      apply forall_congr'
      intro x
      rw [testBit_and, mem_wordsToArray, mem_wordsToArray]
      cases testBit b x <;> simp

end

theorem union_holds (left : Tidy self) (right : Tidy other) :
    Holds self.key (fun x => x ∈ self.lows ∨ x ∈ other.lows) (self.union other) := by
  unfold union
  cases mine : self.store with
  | array a =>
    cases theirs : other.store with
    | array b =>
      rw [lows_array mine, lows_array theirs]
      exact (fromArray_holds _ (unionWalk_ascends (left.array mine).1 (right.array theirs).1)).congr (mem_unionWalk a b)
    | dense b =>
      rw [lows_array mine, lows_dense theirs]
      exact (fromWords_holds _ _).congr fun x => by rw [testBit_setBits, mem_wordsToArray]
  | dense a =>
    cases theirs : other.store with
    | array b =>
      rw [lows_dense mine, lows_array theirs]
      exact (fromWords_holds _ _).congr fun x => by rw [testBit_setBits, mem_wordsToArray, or_comm]
    | dense b =>
      rw [lows_dense mine, lows_dense theirs]
      exact (fromWords_holds _ _).congr fun x => by
        rw [testBit_or, Bool.or_eq_true, mem_wordsToArray, mem_wordsToArray]

theorem dense_holds {P : U16 → Prop} {key : U16} {len : Nat} {w : Words} (counted : len = popcount w)
    (many : arrayMax < popcount w) (bits : ∀ x, testBit w x = true ↔ P x) :
    Holds key P (some ⟨key, len, .dense w⟩) := by
  rw [counted]
  refine holds_of_canonical (canonical_dense many) rfl ?_
  intro _
  rw [(tidy_dense many).2, mem_wordsToArray, bits]

theorem unionAssign_holds (left : Tidy self) (right : Tidy other) :
    Holds self.key (fun x => x ∈ self.lows ∨ x ∈ other.lows) (self.unionAssign other) := by
  unfold unionAssign
  cases mine : self.store with
  | array a =>
    cases theirs : other.store with
    | array b => exact union_holds left right
    | dense b =>
      obtain ⟨counted, many⟩ := right.dense theirs
      have grown := popcount_setBits b a
      rw [lows_array mine, lows_dense theirs]
      apply dense_holds (w := (setBits b a).2)
      · show other.len + (setBits b a).1 = popcount (setBits b a).2
        omega
      · omega
      · intro x
        rw [testBit_setBits, mem_wordsToArray]
  | dense a =>
    obtain ⟨counted, many⟩ := left.dense mine
    cases theirs : other.store with
    | array b =>
      have grown := popcount_setBits a b
      rw [lows_dense mine, lows_array theirs]
      apply dense_holds (w := (setBits a b).2)
      · show self.len + (setBits a b).1 = popcount (setBits a b).2
        omega
      · omega
      · intro x
        rw [testBit_setBits, mem_wordsToArray, or_comm]
    | dense b =>
      have grown := popcount_or a b
      rw [lows_dense mine, lows_dense theirs]
      apply dense_holds
      · rw [counted, grown]
      · rw [grown]
        omega
      · intro x
        rw [testBit_or, Bool.or_eq_true, mem_wordsToArray, mem_wordsToArray]

theorem unionAssign_isSome (left : Canonical self) (right : Tidy other) : ∃ c, self.unionAssign other = some c := by
  obtain ⟨x, mem⟩ := exists_mem_of_ne_nil _ left.occupied
  exact (unionAssign_holds left.toTidy right).isSome x (.inl mem)

theorem intersection_holds (left : Tidy self) (right : Tidy other) :
    Holds self.key (fun x => x ∈ self.lows ∧ x ∈ other.lows) (self.intersection other) := by
  unfold intersection
  cases mine : self.store with
  | array a =>
    have ascends := (left.array mine).1
    rw [lows_array mine]
    cases theirs : other.store with
    | array b =>
      rw [lows_array theirs]
      exact (fromArray_holds _ (ascends.sublist (intersectionWalk_sublist a b))).congr
        (mem_intersectionWalk ascends (right.array theirs).1)
    | dense b =>
      rw [lows_dense theirs]
      exact (fromArray_holds _ (ascends.filter _)).congr fun x => by rw [mem_filter, mem_wordsToArray]
  | dense a =>
    rw [lows_dense mine]
    cases theirs : other.store with
    | array b =>
      rw [lows_array theirs]
      exact (fromArray_holds _ ((right.array theirs).1.filter _)).congr fun x => by
        rw [mem_filter, mem_wordsToArray, and_comm]
    | dense b =>
      rw [lows_dense theirs]
      exact (fromWords_holds _ _).congr fun x => by
        rw [testBit_and, Bool.and_eq_true, mem_wordsToArray, mem_wordsToArray]

theorem difference_holds (left : Tidy self) (right : Tidy other) :
    Holds self.key (fun x => x ∈ self.lows ∧ x ∉ other.lows) (self.difference other) := by
  unfold difference
  cases mine : self.store with
  | array a =>
    have ascends := (left.array mine).1
    rw [lows_array mine]
    cases theirs : other.store with
    | array b =>
      rw [lows_array theirs]
      exact (fromArray_holds _ (ascends.sublist (differenceWalk_sublist a b))).congr
        (mem_differenceWalk ascends (right.array theirs).1)
    | dense b =>
      rw [lows_dense theirs]
      exact (fromArray_holds _ (ascends.filter _)).congr fun x => by
        rw [mem_filter, mem_wordsToArray, Bool.not_eq_true', Bool.not_eq_true]
  | dense a =>
    rw [lows_dense mine]
    cases theirs : other.store with
    | array b =>
      rw [lows_array theirs]
      exact (fromWords_holds _ _).congr fun x => by rw [testBit_clearBits, mem_wordsToArray]
    | dense b =>
      rw [lows_dense theirs]
      exact (fromWords_holds _ _).congr fun x => by
        rw [testBit_andNot, Bool.and_eq_true, mem_wordsToArray, mem_wordsToArray, Bool.not_eq_true', Bool.not_eq_true]

end Rezzy.Bitmaps.Chunk
