import Mathlib.Algebra.BigOperators.Intervals
import Mathlib.Algebra.CharP.Two
import Mathlib.Algebra.Polynomial.Degree.Lemmas
import Mathlib.Data.BitVec
import Mathlib.FieldTheory.Finite.Extension

namespace BinaryPoly

open Finset
open BitVec (getLsbD_one getLsbD_setWidth getLsbD_ushiftRight)

variable {R : Type} [CommRing R] {w v : Nat}

section

def value (x : R) (a : BitVec w) : R := ∑ i ∈ range w, if a.getLsbD i then x ^ i else 0

variable (x : R)

theorem value_zero : value x (0 : BitVec w) = 0 := by
  apply sum_eq_zero
  intro _ _
  simp

theorem value_eq_sum (a : BitVec w) (wide : ∀ i, n ≤ i → a.getLsbD i = false) :
    value x a = ∑ i ∈ range n, if a.getLsbD i then x ^ i else 0 := by
  rcases Nat.le_total w n with more | less
  · apply sum_subset (range_subset_range.mpr more)
    intro i _ outside
    rw [BitVec.getLsbD_of_ge a i (not_lt.mp fun inside => outside (mem_range.mpr inside))]
    rfl
  · symm
    apply sum_subset (range_subset_range.mpr less)
    intro i _ outside
    rw [wide i (not_lt.mp fun inside => outside (mem_range.mpr inside))]
    rfl

theorem value_congr {a : BitVec w} {b : BitVec v} (same : ∀ i, a.getLsbD i = b.getLsbD i) : value x a = value x b := by
  rw [value_eq_sum x a (n := w + v), value_eq_sum x b (n := w + v)]
  · apply sum_congr rfl
    intro i _
    rw [same]
  · intro i above
    exact BitVec.getLsbD_of_ge b i (by omega)
  · intro i above
    exact BitVec.getLsbD_of_ge a i (by omega)

variable [CharP R 2]

theorem value_xor (a b : BitVec w) : value x (a ^^^ b) = value x a + value x b := by
  unfold value
  rw [← sum_add_distrib]
  apply sum_congr rfl
  intro i _
  rw [BitVec.getLsbD_xor]
  cases a.getLsbD i <;> cases b.getLsbD i <;> simp [CharTwo.add_self_eq_zero]

omit [CharP R 2] in
theorem value_mask (a : BitVec w) (set : Bool) : value x (if set then a else 0) = if set then value x a else 0 := by
  cases set
  · exact value_zero x
  · rfl

end

section

variable (x : R) (a : BitVec w)

theorem value_split (inside : k ≤ w) : value x a = value x (a.setWidth k) + x ^ k * value x (a >>> k) := by
  obtain ⟨m, rfl⟩ := Nat.exists_eq_add_of_le inside
  have low : value x (a.setWidth k) = ∑ i ∈ range k, if a.getLsbD i then x ^ i else 0 := by
    apply sum_congr rfl
    intro i small
    rw [getLsbD_setWidth, decide_eq_true (mem_range.mp small), Bool.true_and]
  have high : x ^ k * value x (a >>> k) = ∑ i ∈ range m, if a.getLsbD (k + i) then x ^ (k + i) else 0 := by
    rw [value_eq_sum x (a >>> k) (n := m), mul_sum]
    · apply sum_congr rfl
      intro i _
      rw [getLsbD_ushiftRight, mul_ite, mul_zero, pow_add]
    · intro i _
      rw [getLsbD_ushiftRight]
      exact BitVec.getLsbD_of_ge a _ (by omega)
  rw [low, high]
  exact sum_range_add _ k m

theorem value_setWidth (wide : w ≤ v) : value x (a.setWidth v) = value x a := by
  apply value_congr
  intro i
  rw [getLsbD_setWidth]
  by_cases small : i < v
  · rw [decide_eq_true small, Bool.true_and]
  · rw [BitVec.getLsbD_of_ge a i (by omega), Bool.and_false]

theorem value_shiftLeft (inside : k ≤ w) : value x (a <<< k) + x ^ w * value x (a >>> (w - k)) = x ^ k * value x a := by
  have kept : value x (a <<< k) = x ^ k * value x (a.setWidth (w - k)) := by
    unfold value
    have whole : w = k + (w - k) := by omega
    rw [show range w = range (k + (w - k)) from congrArg range whole, sum_range_add, mul_sum, sum_eq_zero, zero_add]
    · apply sum_congr rfl
      intro i small
      have inner := mem_range.mp small
      have shifted : (a <<< k).getLsbD (k + i) = (a.setWidth (w - k)).getLsbD i := by
        rw [BitVec.getLsbD_shiftLeft, getLsbD_setWidth, decide_eq_true (by omega : k + i < w),
          decide_eq_false (by omega : ¬k + i < k), decide_eq_true inner, Nat.add_sub_cancel_left, Bool.not_false,
          Bool.true_and, Bool.true_and]
      rw [shifted, mul_ite, mul_zero, pow_add]
    · intro i small
      rw [BitVec.getLsbD_shiftLeft, decide_eq_true (mem_range.mp small), Bool.not_true, Bool.and_false, Bool.false_and]
      rfl
  have exponent : x ^ w = x ^ k * x ^ (w - k) := by
    rw [← pow_add, Nat.add_sub_cancel' inside]
  rw [kept, value_split x a (Nat.sub_le w k), exponent]
  ring

theorem value_shiftLeft_of_small (inside : k ≤ w) (small : ∀ i, w - k ≤ i → a.getLsbD i = false) :
    value x (a <<< k) = x ^ k * value x a := by
  have gone : a >>> (w - k) = 0 := by
    apply BitVec.eq_of_getLsbD_eq
    intro _ _
    rw [getLsbD_ushiftRight, small _ (Nat.le_add_right _ _)]
    exact BitVec.getLsbD_zero.symm
  have shifted := value_shiftLeft x a inside
  rwa [gone, value_zero, mul_zero, add_zero] at shifted

omit a in
theorem value_one (positive : 0 < w) : value x (1 : BitVec w) = 1 := by
  have bits (i : Nat) : (1 : BitVec w).getLsbD i = decide (i = 0) := by
    show (1#w).getLsbD i = _
    rw [getLsbD_one, decide_eq_true positive, Bool.true_and]
  rw [value_eq_sum x (1 : BitVec w) (n := 1), sum_range_one, bits]
  · exact pow_zero x
  · intro i _
    rw [bits]
    exact decide_eq_false (by omega)

omit a in
theorem value_bit (inside : k < w) : value x ((1 : BitVec w) <<< k) = x ^ k := by
  rw [value_shiftLeft_of_small x 1 inside.le, value_one x (by omega), mul_one]
  intro i _
  show (1#w).getLsbD i = false
  rw [getLsbD_one, decide_eq_false (by omega : ¬i = 0), Bool.and_false]

theorem value_width_one (a : BitVec 1) : value x a = if a.getLsbD 0 then 1 else 0 := by
  unfold value
  rw [sum_range_one, pow_zero]

theorem value_succ (positive : 0 < w) : value x a = (if a.getLsbD 0 then 1 else 0 : R) + x * value x (a >>> 1) := by
  rw [value_split x a positive, value_width_one, getLsbD_setWidth, pow_one]
  rfl

theorem ushiftRight_top (positive : 0 < w) : a >>> (w - 1) = if a.getLsbD (w - 1) then 1 else 0 := by
  apply BitVec.eq_of_getLsbD_eq
  intro i _
  rw [getLsbD_ushiftRight]
  by_cases zero : i = 0
  · subst zero
    cases a.getLsbD (w - 1)
    · simp
    · show true = (1#w).getLsbD 0
      rw [getLsbD_one, decide_eq_true positive]
      rfl
  · rw [BitVec.getLsbD_of_ge a _ (by omega)]
    cases a.getLsbD (w - 1)
    · simp
    · show false = (1#w).getLsbD i
      rw [getLsbD_one, decide_eq_false zero, Bool.and_false]

theorem value_top (positive : 0 < w) : value x (a >>> (w - 1)) = if a.getLsbD (w - 1) then 1 else 0 := by
  rw [ushiftRight_top a positive, value_mask, value_one x positive]

theorem and_one (b : BitVec w) : b &&& 1 = if b.getLsbD 0 then 1 else 0 := by
  have low : b &&& 1#w = BitVec.setWidth w (BitVec.ofBool (b.getLsbD 0)) := BitVec.and_one_eq_setWidth_ofBool_getLsbD
  show b &&& 1#w = _
  rw [low]
  cases b.getLsbD 0
  · simp
  · apply BitVec.eq_of_toNat_eq
    simp

theorem and_neg_bit (set : Bool) : a &&& (0 - if set then 1 else 0) = if set then a else 0 := by
  cases set
  · simp
  · show a &&& (0#w - 1#w) = a
    rw [BitVec.zero_sub, BitVec.neg_one_eq_allOnes, BitVec.and_allOnes]

end

def clmul (v : Nat) (a b : BitVec w) : BitVec v :=
  (List.range w).foldl (fun acc i => acc ^^^ if b.getLsbD i then a.setWidth v <<< i else 0) 0

variable (x : R) [CharP R 2]

theorem value_clmul (a b : BitVec w) (wide : w + w ≤ v) : value x (clmul v a b) = value x a * value x b := by
  suffices partly : ∀ n ≤ w, value x ((List.range n).foldl
      (fun acc i => acc ^^^ if b.getLsbD i then a.setWidth v <<< i else 0) 0) =
      value x a * ∑ i ∈ range n, if b.getLsbD i then x ^ i else 0 from partly w le_rfl
  intro n
  induction n with
  | zero =>
    intro _
    rw [sum_range_zero, mul_zero]
    exact value_zero x
  | succ n ih =>
    intro _
    have shifted : value x (a.setWidth v <<< n) = x ^ n * value x a := by
      rw [value_shiftLeft_of_small x _ (by omega), value_setWidth x a (by omega)]
      intro i _
      rw [getLsbD_setWidth, BitVec.getLsbD_of_ge a i (by omega), Bool.and_false]
    rw [List.range_succ, List.foldl_append, List.foldl_cons, List.foldl_nil, value_xor, ih (by omega), value_mask, shifted,
      sum_range_succ]
    cases b.getLsbD n <;> simp
    ring

end BinaryPoly

namespace BinaryField

open BinaryPoly Polynomial

variable {w : Nat} (r : BitVec w)

noncomputable def modulus : (ZMod 2)[X] := X ^ w + value X r

abbrev Quotient := AdjoinRoot (modulus r)

noncomputable def element (a : BitVec w) : Quotient r := value (AdjoinRoot.root (modulus r)) a

section

variable (a : BitVec w)

theorem coeff_value (i : Nat) : (value X a : (ZMod 2)[X]).coeff i = if a.getLsbD i then 1 else 0 := by
  unfold value
  rw [finsetSum_coeff]
  have each (j : Nat) : (if a.getLsbD j then X ^ j else 0 : (ZMod 2)[X]).coeff i =
      if j = i then if a.getLsbD i then 1 else 0 else 0 := by
    by_cases same : j = i
    · subst same
      cases a.getLsbD j <;> simp
    · rw [if_neg same]
      cases a.getLsbD j
      · simp
      · simp [coeff_X_pow, Ne.symm same]
  simp only [each, Finset.sum_ite_eq', Finset.mem_range]
  by_cases inside : i < w
  · rw [if_pos inside]
  · rw [if_neg inside, BitVec.getLsbD_of_ge a i (not_lt.mp inside)]
    rfl

theorem value_injective : Function.Injective fun a : BitVec w => (value X a : (ZMod 2)[X]) := by
  intro a b same
  apply BitVec.eq_of_getLsbD_eq
  intro i _
  have coeffs := congrArg (fun p : (ZMod 2)[X] => p.coeff i) same
  simp only [coeff_value] at coeffs
  cases ha : a.getLsbD i <;> cases hb : b.getLsbD i <;> simp_all

theorem degree_value_lt : (value X a : (ZMod 2)[X]).degree < w := by
  rw [degree_lt_iff_coeff_zero]
  intro i above
  rw [coeff_value, BitVec.getLsbD_of_ge a i above]
  rfl

theorem modulus_monic : (modulus r).Monic := monic_X_pow_add (degree_value_lt r)

theorem modulus_degree : (modulus r).degree = w := by
  unfold modulus
  rw [degree_add_eq_left_of_degree_lt]
  · exact degree_X_pow w
  · rw [degree_X_pow]
    exact degree_value_lt r

theorem modulus_natDegree : (modulus r).natDegree = w := natDegree_eq_of_degree_eq_some (modulus_degree r)

end

section

theorem map_value {R S : Type} [CommRing R] [CommRing S] (f : R →+* S) (x : R) (a : BitVec w) :
    f (value x a) = value (f x) a := by
  unfold value
  rw [map_sum]
  apply Finset.sum_congr rfl
  intro i _
  cases a.getLsbD i <;> simp

theorem element_eq_mk (a : BitVec w) : element r a = AdjoinRoot.mk (modulus r) (value X a) := by
  rw [map_value, AdjoinRoot.mk_X]
  rfl

theorem element_injective : Function.Injective (element r) := by
  intro a b same
  rw [element_eq_mk, element_eq_mk, ← sub_eq_zero, ← map_sub, AdjoinRoot.mk_eq_zero] at same
  apply value_injective
  apply sub_eq_zero.mp
  apply eq_zero_of_dvd_of_degree_lt same
  rw [modulus_degree]
  exact (degree_sub_le _ _).trans_lt (max_lt (degree_value_lt a) (degree_value_lt b))

variable [NeZero w]

instance : Nontrivial (Quotient r) := by
  apply AdjoinRoot.nontrivial
  rw [modulus_degree]
  exact Nat.cast_ne_zero.mpr (NeZero.ne w)

instance : CharP (Quotient r) 2 := charP_of_injective_algebraMap (algebraMap (ZMod 2) (Quotient r)).injective 2

theorem root_pow : AdjoinRoot.root (modulus r) ^ w = element r r := by
  have vanishes : AdjoinRoot.mk (modulus r) (X ^ w + value X r) = 0 := AdjoinRoot.mk_self
  rw [map_add, map_pow, AdjoinRoot.mk_X, ← element_eq_mk] at vanishes
  exact CharTwo.add_eq_zero.mp vanishes

theorem element_double (a : BitVec w) : element r ((a <<< 1) ^^^ if a.getLsbD (w - 1) then r else 0) =
    AdjoinRoot.root (modulus r) * element r a := by
  have positive : 0 < w := Nat.pos_of_ne_zero (NeZero.ne w)
  have shifted := value_shiftLeft (AdjoinRoot.root (modulus r)) a positive
  rw [value_top _ a positive, root_pow, pow_one, mul_ite, mul_one, mul_zero] at shifted
  unfold element at shifted ⊢
  rw [value_xor, value_mask]
  exact shifted

omit [NeZero w] in
theorem natCard_quotient : Nat.card (Quotient r) = 2 ^ w := by
  have finite : Module.Finite (ZMod 2) (Quotient r) := (AdjoinRoot.powerBasis' (modulus_monic r)).finite
  rw [Module.natCard_eq_pow_finrank (K := ZMod 2), Nat.card_zmod]
  congr 1
  exact finrank_quotient_span_eq_natDegree.trans (modulus_natDegree r)

omit [NeZero w] in
theorem finite_quotient : Finite (Quotient r) := by
  apply Nat.finite_of_card_ne_zero
  rw [natCard_quotient]
  exact pow_ne_zero _ two_ne_zero

end

theorem irreducible_of_frobenius {k : Nat} {r : BitVec (2 ^ (k + 1))}
    (fixed : AdjoinRoot.root (modulus r) ^ 2 ^ 2 ^ (k + 1) = AdjoinRoot.root (modulus r))
    {inverse : Quotient r} (moved : (AdjoinRoot.root (modulus r) ^ 2 ^ 2 ^ k - AdjoinRoot.root (modulus r)) * inverse = 1) :
    Irreducible (modulus r) := by
  have small : (modulus r).natDegree ≠ 0 := by
    rw [modulus_natDegree]
    exact pow_ne_zero _ two_ne_zero
  obtain ⟨g, irreducible, divides⟩ := exists_irreducible_of_natDegree_ne_zero small
  have frobenius (n : Nat) : AdjoinRoot.mk (modulus r) (X ^ 2 ^ n - X) =
      AdjoinRoot.root (modulus r) ^ 2 ^ n - AdjoinRoot.root (modulus r) := by
    rw [map_sub, map_pow, AdjoinRoot.mk_X]
  have card : Nat.card (ZMod 2) = 2 := Nat.card_zmod 2
  have degree : g.natDegree ∣ 2 ^ (k + 1) := by
    apply irreducible.natDegree_dvd_of_dvd_X_pow_card_pow_sub_X
    rw [card]
    apply divides.trans
    rw [← AdjoinRoot.mk_eq_zero, frobenius, fixed, sub_self]
  obtain ⟨j, within, exact⟩ := (Nat.dvd_prime_pow Nat.prime_two).mp degree
  rcases Nat.lt_or_ge k j with whole | part
  · obtain rfl : j = k + 1 := by omega
    have same := associated_of_dvd_of_natDegree_le divides (modulus_monic r).ne_zero (by rw [modulus_natDegree, exact])
    exact same.irreducible irreducible
  · -- A factor of a lower degree divides what has an inverse.
    have factor : g ∣ X ^ 2 ^ 2 ^ k - X := by
      have low := irreducible.natDegree_dvd_iff_dvd_X_pow_card_pow_sub_X (n := 2 ^ k)
      rw [card] at low
      exact low.mp (exact ▸ pow_dvd_pow 2 part)
    obtain ⟨p, rfl⟩ := AdjoinRoot.mk_surjective inverse
    rw [← frobenius, ← map_mul, ← map_one (AdjoinRoot.mk (modulus r)), ← sub_eq_zero, ← map_sub,
      AdjoinRoot.mk_eq_zero] at moved
    have unit : g ∣ 1 := (dvd_sub_right (factor.mul_right p)).mp (divides.trans moved)
    exact absurd (isUnit_of_dvd_one unit) irreducible.not_isUnit

end BinaryField
