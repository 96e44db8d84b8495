import Mathlib.Algebra.BigOperators.Group.List.Basic
import Mathlib.Data.Fin.Basic
import Rezzy.Lib.Ascending
import Rezzy.Lib.WordBits

namespace Rezzy.Bitmaps

open Ascending WordBits Fin
open Vector (ext getElem_zipWith zipWith)
open BitVec (getLsbD_and getLsbD_not getLsbD_or getLsbD_zero)

/-- Half of a 32-bit value. As a low half it is a word of a bitset (`lo >> 6`) and a bit in it (`lo & 63`). -/
abbrev U16 := Fin (1024 * 64)

def arrayMax : Nat := 4096

abbrev Words := Vector (BitVec 64) 1024

inductive Store where
  | array (values : List U16)
  | dense (words : Words)
deriving DecidableEq

structure Chunk where
  key : U16
  len : Nat
  store : Store
deriving DecidableEq

section

def emptyWords : Words := Vector.replicate 1024 0

def setWord (words : Words) (i : Fin 1024) (w : BitVec 64) : Words := words.set i w

def mask (lo : U16) : BitVec 64 := (1 : BitVec 64) <<< lo.modNat.val

def testBit (words : Words) (lo : U16) : Bool := (words.get lo.divNat >>> lo.modNat.val) &&& 1 != 0

def setBit (words : Words) (lo : U16) : Bool × Words :=
  let w := words.get lo.divNat
  (w &&& mask lo == 0, setWord words lo.divNat (w ||| mask lo))

def clearBit (words : Words) (lo : U16) : Bool × Words :=
  let w := words.get lo.divNat
  (w &&& mask lo != 0, setWord words lo.divNat (w &&& ~~~mask lo))

def popcount (words : Words) : Nat := (words.toList.map countOnes).sum

def wordsToArray (words : Words) : List U16 :=
  (List.finRange 1024).flatMap fun i => (drain (words.get i)).map fun offset => Fin.mkDivMod i offset

def countFresh (state : Nat × Words) (lo : U16) : Nat × Words :=
  let (fresh, words) := setBit state.2 lo
  (state.1 + fresh.toNat, words)

def setBits (words : Words) (values : List U16) : Nat × Words := values.foldl countFresh (0, words)

def arrayToWords (values : List U16) : Words := values.foldl (fun words lo => (setBit words lo).2) emptyWords

def unionWalk : List U16 → List U16 → List U16
  | a :: as, b :: bs =>
    if a < b then a :: unionWalk as (b :: bs)
    else if b < a then b :: unionWalk (a :: as) bs
    else a :: unionWalk as bs
  | [], bs => bs
  | as, [] => as
termination_by as bs => as.length + bs.length

def intersectionWalk : List U16 → List U16 → List U16
  | a :: as, b :: bs =>
    let rest := intersectionWalk (if a ≤ b then as else a :: as) (if b ≤ a then bs else b :: bs)
    if a = b then a :: rest else rest
  | _, _ => []
termination_by as bs => as.length + bs.length
decreasing_by
  rcases le_total a b with below | above
  · rw [dif_pos below, List.length_cons]
    split
    all_goals simp
    all_goals omega
  · rw [dif_pos above, List.length_cons]
    split
    all_goals simp
    all_goals omega

def differenceWalk : List U16 → List U16 → List U16
  | [], _ => []
  | x :: as, bs =>
    let bs := bs.dropWhile fun b => decide (b < x)
    if bs.head? = some x then differenceWalk as bs else x :: differenceWalk as bs

end

namespace Chunk

def fromArray (key : U16) (values : List U16) : Option Chunk :=
  if values.isEmpty then none
  else
    some ⟨key, values.length, if values.length > arrayMax then .dense (arrayToWords values) else .array values⟩

def fromCountedWords (key : U16) (words : Words) (len : Nat) : Option Chunk :=
  if len = 0 then none
  else some ⟨key, len, if len ≤ arrayMax then .array (wordsToArray words) else .dense words⟩

def fromWords (key : U16) (words : Words) : Option Chunk := fromCountedWords key words (popcount words)

def contains (self : Chunk) (lo : U16) : Bool :=
  match self.store with
  | .array v => (search id v lo).isOk
  | .dense w => testBit w lo

def grown (self : Chunk) (v : List U16) : Chunk :=
  { self with
    len := self.len + 1
    store := if v.length > arrayMax then .dense (arrayToWords v) else .array v }

def insert (self : Chunk) (lo : U16) : Bool × Chunk :=
  match self.store with
  | .array v =>
    if v.getLast?.all fun last => decide (last < lo) then (true, self.grown (v ++ [lo]))
    else
      match search id v lo with
      | .ok _ => (false, self)
      | .error pos => (true, self.grown (v.insertIdx pos lo))
  | .dense w =>
    let (fresh, w) := setBit w lo
    (fresh, { self with len := self.len + fresh.toNat, store := .dense w })

def remove (self : Chunk) (lo : U16) : Bool × Chunk :=
  match self.store with
  | .array v =>
    match search id v lo with
    | .error _ => (false, self)
    | .ok pos => (true, { self with len := self.len - 1, store := .array (v.eraseIdx pos) })
  | .dense w =>
    let (present, w) := clearBit w lo
    if present then
      (true, { self with
        len := self.len - 1
        store := if self.len - 1 ≤ arrayMax then .array (wordsToArray w) else .dense w })
    else (false, { self with store := .dense w })

def isSubset (self other : Chunk) : Bool :=
  match self.store, other.store with
  | .array a, .array b => a.all fun x => (search id b x).isOk
  | .array a, .dense b => a.all fun x => testBit b x
  | .dense _, .array _ => false
  | .dense a, .dense b => (zipWith (fun x y => x &&& ~~~y == 0) a b).all id

def isDisjoint (self other : Chunk) : Bool :=
  match self.store, other.store with
  | .array a, .array b => apartWalk id (fun _ _ => false) a b
  | .array a, .dense b => a.all fun x => !testBit b x
  | .dense b, .array a => a.all fun x => !testBit b x
  | .dense a, .dense b => (zipWith (fun x y => x &&& y == 0) a b).all id

/-- Without a result where the source panics: no value is left in the union. -/
def union (self other : Chunk) : Option Chunk :=
  match self.store, other.store with
  | .array a, .array b => fromArray self.key (unionWalk a b)
  | .dense a, .dense b => fromWords self.key (zipWith (· ||| ·) a b)
  | .dense d, .array v => fromWords self.key (setBits d v).2
  | .array v, .dense d => fromWords self.key (setBits d v).2

def unionAssign (self other : Chunk) : Option Chunk :=
  match self.store, other.store with
  | .dense a, .dense b =>
    let added := popcount (zipWith (fun x y => y &&& ~~~x) a b)
    some { self with len := self.len + added, store := .dense (zipWith (· ||| ·) a b) }
  | .dense a, .array b =>
    let (added, words) := setBits a b
    some { self with len := self.len + added, store := .dense words }
  | .array a, .dense b =>
    let (added, words) := setBits b a
    some { self with len := other.len + added, store := .dense words }
  | .array _, .array _ => union self other

def intersection (self other : Chunk) : Option Chunk :=
  match self.store, other.store with
  | .array a, .array b => fromArray self.key (intersectionWalk a b)
  | .dense a, .dense b =>
    let w := zipWith (· &&& ·) a b
    fromCountedWords self.key w (popcount w)
  | .array v, .dense d => fromArray self.key (v.filter (testBit d))
  | .dense d, .array v => fromArray self.key (v.filter (testBit d))

def difference (self other : Chunk) : Option Chunk :=
  match self.store, other.store with
  | .array a, .array b => fromArray self.key (differenceWalk a b)
  | .array a, .dense d => fromArray self.key (a.filter fun x => !testBit d x)
  | .dense a, .array b => fromWords self.key (b.foldl (fun w x => (clearBit w x).2) a)
  | .dense a, .dense b => fromWords self.key (zipWith (fun x y => x &&& ~~~y) a b)

end Chunk

variable {words other : Words} {lo x : U16}

section

theorem get_setWord (words : Words) (i j : Fin 1024) (w : BitVec 64) :
    (setWord words i w).get j = if i = j then w else words.get j := by
  have held : (words.set i w)[j.val] = if i.val = j.val then w else words[j.val] := Vector.getElem_set i.isLt j.isLt
  simp only [val_inj] at held
  exact held

theorem get_zipWith (f : BitVec 64 → BitVec 64 → BitVec 64) (a b : Words) (i : Fin 1024) :
    (zipWith f a b).get i = f (a.get i) (b.get i) := getElem_zipWith i.isLt

theorem testBit_eq (words : Words) (lo : U16) : testBit words lo = (words.get lo.divNat).getLsbD lo.modNat :=
  shifted_and_one _ lo.modNat.isLt

theorem testBit_at (at' : lo.divNat = i) : testBit words lo = (words.get i).getLsbD lo.modNat := by
  rw [testBit_eq]
  subst at'
  rfl

theorem testBit_mkDivMod (words : Words) (i : Fin 1024) (j : Fin 64) :
    testBit words (mkDivMod i j) = (words.get i).getLsbD j := by
  rw [testBit_at (divNat_mkDivMod i j), modNat_mkDivMod]

theorem getLsbD_mask (lo : U16) (i : Nat) : (mask lo).getLsbD i = decide (i = lo.modNat.val) :=
  getLsbD_bit lo.modNat.isLt i

theorem modNat_ne (differs : x ≠ lo) (same : x.divNat = lo.divNat) : x.modNat.val ≠ lo.modNat.val := by
  intro bits
  apply differs
  rw [← divNat_mkDivMod_modNat x, ← divNat_mkDivMod_modNat lo, same, Fin.ext bits]

theorem words_ext (same : ∀ lo, testBit words lo = testBit other lo) : words = other := by
  apply ext
  intro i inside
  apply BitVec.eq_of_getLsbD_eq
  intro j small
  have bit := same (mkDivMod ⟨i, inside⟩ ⟨j, small⟩)
  rw [testBit_mkDivMod, testBit_mkDivMod] at bit
  exact bit

theorem testBit_setWord (w : BitVec 64) (i : Fin 1024) (x : U16) :
    testBit (setWord words i w) x = if x.divNat = i then w.getLsbD x.modNat else testBit words x := by
  rw [testBit_eq, testBit_eq, get_setWord]
  by_cases same : x.divNat = i
  · rw [if_pos same, if_pos same.symm]
  · rw [if_neg same, if_neg (Ne.symm same)]

theorem setBit_fresh (words : Words) (lo : U16) : (setBit words lo).1 = !testBit words lo := by
  rw [testBit_eq]
  have clear : words.get lo.divNat &&& mask lo = 0 ↔ (words.get lo.divNat).getLsbD lo.modNat = false :=
    and_bit_eq_zero lo.modNat.isLt
  show (words.get lo.divNat &&& mask lo == 0) = _
  rw [Bool.eq_iff_iff, beq_iff_eq, clear, Bool.not_eq_true']

theorem testBit_setBit (words : Words) (lo x : U16) :
    testBit (setBit words lo).2 x = (decide (x = lo) || testBit words x) := by
  show testBit (setWord words lo.divNat (words.get lo.divNat ||| mask lo)) x = _
  rw [testBit_setWord]
  by_cases equal : x = lo
  · rw [equal, if_pos rfl, getLsbD_or, getLsbD_mask]
    simp
  · by_cases same : x.divNat = lo.divNat
    · rw [if_pos same, getLsbD_or, getLsbD_mask, decide_eq_false (modNat_ne equal same), testBit_at same,
        decide_eq_false equal, Bool.or_false, Bool.false_or]
    · rw [if_neg same, decide_eq_false equal, Bool.false_or]

theorem clearBit_present (words : Words) (lo : U16) : (clearBit words lo).1 = testBit words lo := by
  rw [testBit_eq]
  have clear : words.get lo.divNat &&& mask lo = 0 ↔ (words.get lo.divNat).getLsbD lo.modNat = false :=
    and_bit_eq_zero lo.modNat.isLt
  show (words.get lo.divNat &&& mask lo != 0) = _
  rw [Bool.eq_iff_iff, bne_iff_ne, ne_eq, clear, Bool.not_eq_false]

theorem testBit_clearBit (words : Words) (lo x : U16) :
    testBit (clearBit words lo).2 x = (testBit words x && decide (x ≠ lo)) := by
  show testBit (setWord words lo.divNat (words.get lo.divNat &&& ~~~mask lo)) x = _
  have inside : x.modNat.val < 64 := x.modNat.isLt
  rw [testBit_setWord]
  by_cases equal : x = lo
  · rw [equal, if_pos rfl, getLsbD_and, getLsbD_not, getLsbD_mask]
    simp
  · by_cases same : x.divNat = lo.divNat
    · rw [if_pos same, getLsbD_and, getLsbD_not, getLsbD_mask, decide_eq_false (modNat_ne equal same),
        testBit_at same, decide_eq_true inside, decide_eq_true equal]
      rfl
    · rw [if_neg same, decide_eq_true equal, Bool.and_true]

theorem clearBit_absent {words : Words} {lo : U16} (absent : testBit words lo = false) :
    (clearBit words lo).2 = words := by
  apply words_ext
  intro x
  rw [testBit_clearBit]
  by_cases same : x = lo
  · rw [same, absent, Bool.false_and]
  · rw [decide_eq_true same, Bool.and_true]

@[simp] theorem testBit_emptyWords (lo : U16) : testBit emptyWords lo = false := by
  have zero : emptyWords.get lo.divNat = 0 := Vector.getElem_replicate lo.divNat.isLt
  rw [testBit_eq, zero]
  exact getLsbD_zero

theorem testBit_zipWith (f : BitVec 64 → BitVec 64 → BitVec 64) (a b : Words) (lo : U16) :
    testBit (zipWith f a b) lo = (f (a.get lo.divNat) (b.get lo.divNat)).getLsbD lo.modNat := by
  rw [testBit_eq, get_zipWith]

theorem testBit_or (a b : Words) (lo : U16) : testBit (zipWith (· ||| ·) a b) lo = (testBit a lo || testBit b lo) := by
  rw [testBit_zipWith, getLsbD_or, testBit_eq, testBit_eq]

theorem testBit_and (a b : Words) (lo : U16) : testBit (zipWith (· &&& ·) a b) lo = (testBit a lo && testBit b lo) := by
  rw [testBit_zipWith, getLsbD_and, testBit_eq, testBit_eq]

theorem testBit_andNot (a b : Words) (lo : U16) :
    testBit (zipWith (fun x y => x &&& ~~~y) a b) lo = (testBit a lo && !testBit b lo) := by
  rw [testBit_zipWith, getLsbD_and, getLsbD_not, testBit_eq, testBit_eq,
    decide_eq_true (show lo.modNat.val < 64 from lo.modNat.isLt), Bool.true_and]

theorem zipWith_all_zero (f : BitVec 64 → BitVec 64 → BitVec 64) (a b : Words) :
    (zipWith (fun x y => f x y == 0) a b).all id = true ↔ ∀ lo, testBit (zipWith f a b) lo = false := by
  rw [Vector.all_eq_true]
  constructor
  · intro zero lo
    have word := zero lo.divNat.val lo.divNat.isLt
    rw [getElem_zipWith, id_eq, beq_iff_eq] at word
    have word' : f (a.get lo.divNat) (b.get lo.divNat) = 0 := word
    rw [testBit_zipWith, word']
    exact getLsbD_zero
  · intro clear i inside
    rw [getElem_zipWith, id_eq, beq_iff_eq]
    apply BitVec.eq_of_getLsbD_eq
    intro j small
    have bit := clear (mkDivMod ⟨i, inside⟩ ⟨j, small⟩)
    rw [testBit_mkDivMod, get_zipWith] at bit
    exact bit.trans BitVec.getLsbD_zero.symm

open List

theorem mkDivMod_lt {m n : Nat} {i j : Fin m} (less : i < j) (k l : Fin n) : mkDivMod i k < mkDivMod j l := by
  rw [lt_def, coe_mkDivMod, coe_mkDivMod]
  have bound : n * (i.val + 1) ≤ n * j.val := Nat.mul_le_mul_left n (Nat.succ_le_of_lt less)
  rw [Nat.mul_succ] at bound
  omega

theorem mkDivMod_lt_iff {m n : Nat} {i j : Fin m} {k l : Fin n} :
    Fin.mkDivMod i k < Fin.mkDivMod j l ↔ i < j ∨ i = j ∧ k < l := by
  rcases lt_trichotomy i j with less | same | more
  · exact iff_of_true (mkDivMod_lt less k l) (.inl less)
  · subst same
    rw [Fin.lt_def, Fin.coe_mkDivMod, Fin.coe_mkDivMod, Fin.lt_def]
    simp
  · refine iff_of_false (lt_asymm (mkDivMod_lt more l k)) ?_
    rintro (less | ⟨same, _⟩)
    · exact lt_asymm less more
    · exact more.ne' same

theorem mem_wordsToArray : lo ∈ wordsToArray words ↔ testBit words lo = true := by
  unfold wordsToArray
  rw [mem_flatMap]
  constructor
  · rintro ⟨i, _, mem⟩
    obtain ⟨offset, set, rfl⟩ := mem_map.mp mem
    rw [testBit_mkDivMod]
    exact mem_drain.mp set
  · intro set
    rw [testBit_eq] at set
    refine ⟨lo.divNat, mem_finRange _, ?_⟩
    rw [mem_map]
    exact ⟨lo.modNat, mem_drain.mpr set, divNat_mkDivMod_modNat lo⟩

variable (words : Words)

theorem wordsToArray_ascends : (wordsToArray words).Pairwise (· < ·) := by
  unfold wordsToArray
  rw [pairwise_flatMap]
  constructor
  · intro i _
    rw [pairwise_map]
    refine (drain_ascends _).imp ?_
    intro k l less
    exact mkDivMod_lt_iff.mpr (.inr ⟨rfl, less⟩)
  · apply (pairwise_lt_finRange 1024).imp
    intro i _ less _ first _ second
    obtain ⟨k, _, rfl⟩ := mem_map.mp first
    obtain ⟨l, _, rfl⟩ := mem_map.mp second
    exact mkDivMod_lt_iff.mpr (.inl less)

theorem wordsToArray_eq : wordsToArray words = (finRange (1024 * 64)).filter (testBit words) := by
  apply List.Pairwise.eq_of_mem_iff (wordsToArray_ascends words) ((pairwise_lt_finRange _).filter _)
  intro _
  rw [mem_wordsToArray, mem_filter]
  simp

theorem popcount_eq_sum : popcount words = ((finRange 1024).map fun i => countOnes (words.get i)).sum := by
  have listed : words.toList = (finRange 1024).map words.get := by
    apply ext_getElem
    · simp
    · intro _ _ _
      simp
      rfl
  rw [popcount, listed, map_map]
  rfl

theorem length_wordsToArray : (wordsToArray words).length = popcount words := by
  rw [popcount_eq_sum, wordsToArray, length_flatMap]
  apply congrArg sum
  apply map_congr_left
  intro _ _
  rw [length_map, length_drain]

theorem popcount_eq : popcount words = (finRange (1024 * 64)).countP (testBit words) := by
  rw [← length_wordsToArray, wordsToArray_eq, countP_eq_length_filter]

theorem popcount_setBit (lo : U16) : popcount (setBit words lo).2 = popcount words + (setBit words lo).1.toNat := by
  have bits : testBit (setBit words lo).2 = fun x => decide (x = lo) || testBit words x :=
    funext (testBit_setBit words lo)
  rw [popcount_eq, popcount_eq, bits, countP_insert _ (nodup_finRange _) (mem_finRange lo), setBit_fresh]
  cases testBit words lo <;> rfl

theorem popcount_clearBit (lo : U16) :
    popcount words = popcount (clearBit words lo).2 + (clearBit words lo).1.toNat := by
  have restored : popcount (setBit (clearBit words lo).2 lo).2 = popcount (clearBit words lo).2 + 1 := by
    rw [popcount_setBit, setBit_fresh, testBit_clearBit]
    simp
  rw [clearBit_present]
  cases present : testBit words lo with
  | false =>
    rw [clearBit_absent present]
    rfl
  | true =>
    have kept : (setBit (clearBit words lo).2 lo).2 = words := by
      apply words_ext
      intro x
      rw [testBit_setBit, testBit_clearBit]
      by_cases same : x = lo
      · simp [same, present]
      · simp [same]
    rw [kept] at restored
    exact restored

end

theorem popcount_or (a b : Words) :
    popcount (zipWith (· ||| ·) a b) = popcount a + popcount (zipWith (fun x y => y &&& ~~~x) a b) := by
  have words : ∀ i : Fin 1024, countOnes ((zipWith (· ||| ·) a b).get i) =
      countOnes (a.get i) + countOnes ((zipWith (fun x y => y &&& ~~~x) a b).get i) := by
    intro i
    rw [get_zipWith, get_zipWith]
    exact countOnes_or _ _
  rw [popcount_eq_sum, popcount_eq_sum, popcount_eq_sum, ← List.sum_map_add]
  exact congrArg List.sum (List.map_congr_left fun i _ => words i)

open List

theorem setBits_cons (words : Words) (lo : U16) (values : List U16) :
    setBits words (lo :: values) = ((setBit words lo).1.toNat + (setBits (setBit words lo).2 values).1,
      (setBits (setBit words lo).2 values).2) := by
  have moved : ∀ (values : List U16) (added : Nat) (words : Words),
      values.foldl countFresh (added, words) = (added + (setBits words values).1, (setBits words values).2) := by
    intro values
    induction values with
    | nil => exact fun _ _ => rfl
    | cons lo values ih =>
      intro added words
      unfold setBits
      rw [foldl_cons, foldl_cons, countFresh, ih, countFresh, ih]
      simp [Nat.add_assoc]
  conv_lhs => rw [setBits, foldl_cons, countFresh, moved]
  simp

theorem popcount_setBits (words : Words) (values : List U16) :
    popcount (setBits words values).2 = popcount words + (setBits words values).1 := by
  induction values generalizing words with
  | nil => rfl
  | cons lo values ih =>
    rw [setBits_cons, ih, popcount_setBit]
    omega

theorem testBit_setBits (words : Words) (values : List U16) (lo : U16) :
    testBit (setBits words values).2 lo = true ↔ lo ∈ values ∨ testBit words lo = true := by
  induction values generalizing words with
  | nil => simp [setBits]
  | cons first values ih =>
    rw [setBits_cons, ih, testBit_setBit, mem_cons, Bool.or_eq_true, decide_eq_true_iff]
    tauto

theorem arrayToWords_eq (values : List U16) : arrayToWords values = (setBits emptyWords values).2 := by
  unfold arrayToWords
  generalize emptyWords = words
  induction values generalizing words with
  | nil => rfl
  | cons lo values ih => rw [foldl_cons, ih, setBits_cons]

theorem testBit_arrayToWords (values : List U16) (lo : U16) : testBit (arrayToWords values) lo = true ↔ lo ∈ values := by
  rw [arrayToWords_eq, testBit_setBits, testBit_emptyWords]
  simp

theorem wordsToArray_arrayToWords (ascends : values.Pairwise (· < ·)) : wordsToArray (arrayToWords values) = values := by
  apply List.Pairwise.eq_of_mem_iff (wordsToArray_ascends _) ascends
  intro _
  rw [mem_wordsToArray, testBit_arrayToWords]

theorem testBit_clearBits (words : Words) (values : List U16) (lo : U16) :
    testBit (values.foldl (fun w x => (clearBit w x).2) words) lo = true ↔ testBit words lo = true ∧ lo ∉ values := by
  induction values generalizing words with
  | nil => simp
  | cons first values ih =>
    rw [foldl_cons, ih, testBit_clearBit, mem_cons, Bool.and_eq_true, decide_eq_true_iff]
    tauto

end Rezzy.Bitmaps
