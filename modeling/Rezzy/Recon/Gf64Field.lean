import Rezzy.Recon.Gf64

namespace Rezzy.Recon.Gf64

open BinaryPoly BinaryField Polynomial

variable (a b c : U64)

section

theorem modulus_eq : modulus reduction = X ^ 64 + X ^ 4 + X ^ 3 + X + 1 := by
  unfold modulus
  rw [value_reduction]
  ring

theorem mulBitwise_eq_modByMonic : (value X (mulBitwise a b) : (ZMod 2)[X]) =
    (value X a * value X b) %ₘ (X ^ 64 + X ^ 4 + X ^ 3 + X + 1) := by
  have same := element_mulBitwise a b
  rw [element_eq_mk, element_eq_mk, element_eq_mk, ← map_mul, AdjoinRoot.mk_eq_mk] at same
  have small : (value X (mulBitwise a b) : (ZMod 2)[X]).degree < (modulus reduction).degree := by
    rw [modulus_degree]
    exact degree_value_lt _
  rw [← modulus_eq, ← modByMonic_eq_of_dvd_sub (modulus_monic reduction) same]
  exact ((modByMonic_eq_self_iff (modulus_monic reduction)).mpr small).symm

def square (a : U64) : U64 := mulBitwise a a

theorem element_one : element reduction 1 = 1 := value_one root (by decide)

theorem element_two : element reduction 2 = root := by
  have bit : (2 : U64) = (1 : U64) <<< 1 := by decide
  unfold element
  rw [bit, value_bit _ (by decide), pow_one]

theorem element_squares (n : Nat) : element reduction (square^[n] 2) = root ^ 2 ^ n := by
  induction n with
  | zero => rw [Function.iterate_zero, id, element_two, pow_zero, pow_one]
  | succ n ih =>
    rw [Function.iterate_succ_apply', square, element_mulBitwise, ih, ← pow_add, ← two_mul, ← pow_succ']

theorem modulus_irreducible : Irreducible (modulus reduction) := by
  have fixed : root ^ 2 ^ 64 = root := by
    have back : square^[64] 2 = 2 := by decide +kernel
    rw [← element_squares, back, element_two]
  have moved : (root ^ 2 ^ 32 - root) * element reduction 6037868468195985863 = 1 := by
    have half : square^[32] 2 = 6656922126492271877 := by decide +kernel
    have inverse : mulBitwise (6656922126492271877 ^^^ 2) 6037868468195985863 = 1 := by decide
    have shifted : root ^ 2 ^ 32 - root = element reduction (6656922126492271877 ^^^ 2) := by
      rw [CharTwo.sub_eq_add, ← element_squares, half, ← element_two]
      exact (value_xor root _ _).symm
    rw [shifted, ← element_mulBitwise, inverse, element_one]
  exact @irreducible_of_frobenius 5 reduction fixed _ moved

theorem mulBitwise_comm : mulBitwise a b = mulBitwise b a := by
  apply element_injective reduction
  rw [element_mulBitwise, element_mulBitwise, mul_comm]

theorem mulBitwise_assoc : mulBitwise (mulBitwise a b) c = mulBitwise a (mulBitwise b c) := by
  apply element_injective reduction
  rw [element_mulBitwise, element_mulBitwise, element_mulBitwise, element_mulBitwise, mul_assoc]

theorem element_xor : element reduction (a ^^^ b) = element reduction a + element reduction b := value_xor root a b

theorem mulBitwise_xor : mulBitwise a (b ^^^ c) = mulBitwise a b ^^^ mulBitwise a c := by
  apply element_injective reduction
  rw [element_xor, element_mulBitwise, element_mulBitwise, element_mulBitwise, element_xor, mul_add]

theorem mulBitwise_one : mulBitwise a 1 = a := by
  apply element_injective reduction
  rw [element_mulBitwise, element_one, mul_one]

variable {a} (pclmulqdq : Bool)

def exponent : Nat := 2 ^ 64 - 2

theorem exponent_bit : ∀ bit < 64, decide ((BitVec.allOnes 64 - 1 : U64) &&& ((1 : U64) <<< bit) ≠ 0) = exponent.testBit bit := by
  decide

theorem invRound_eq (inside : bit < 64)
    (power : element reduction result = element reduction a ^ (exponent / 2 ^ (bit + 1))) : ∃ next,
    invRound pclmulqdq a result bit = some next ∧ element reduction next = element reduction a ^ (exponent / 2 ^ bit) := by
  have squared : element reduction (mulBitwise result result) = element reduction a ^ (2 * (exponent / 2 ^ (bit + 1))) := by
    rw [element_mulBitwise, power, ← pow_add, ← two_mul]
  have halves : exponent / 2 ^ bit = 2 * (exponent / 2 ^ (bit + 1)) + (exponent.testBit bit).toNat := by
    rw [Nat.toNat_testBit, pow_succ, ← Nat.div_div_eq_div_mul]
    omega
  have tested := exponent_bit bit inside
  unfold invRound
  rw [mul_eq]
  show ∃ next, (if (BitVec.allOnes 64 - 1 : U64) &&& ((1 : U64) <<< bit) ≠ 0 then
    mul pclmulqdq (mulBitwise result result) a else some (mulBitwise result result)) = some next ∧ _
  by_cases set : (BitVec.allOnes 64 - 1 : U64) &&& ((1 : U64) <<< bit) ≠ 0
  · rw [decide_eq_true set] at tested
    refine ⟨mulBitwise (mulBitwise result result) a, ?_, ?_⟩
    · rw [if_pos set, mul_eq]
    · rw [element_mulBitwise, squared, halves, ← tested, Bool.toNat_true]
      exact (pow_succ _ _).symm
  · rw [decide_eq_false set] at tested
    refine ⟨mulBitwise result result, if_neg set, ?_⟩
    rw [squared, halves, ← tested, Bool.toNat_false, add_zero]

theorem invRounds_eq (inside : n ≤ 64) (power : element reduction result = element reduction a ^ (exponent / 2 ^ n)) :
    ∃ last,
    (List.range n).reverse.foldlM (invRound pclmulqdq a) result = some last ∧
      element reduction last = element reduction a ^ exponent := by
  induction n generalizing result with
  | zero =>
    rw [pow_zero, Nat.div_one] at power
    exact ⟨result, rfl, power⟩
  | succ n ih =>
    obtain ⟨next, ran, raised⟩ := invRound_eq pclmulqdq inside power
    obtain ⟨last, finished, whole⟩ := ih (Nat.le_of_succ_le inside) raised
    refine ⟨last, ?_, whole⟩
    rw [List.range_succ, List.reverse_append, List.reverse_singleton, List.singleton_append, List.foldlM_cons, ran]
    exact finished

theorem element_pow (nonzero : a ≠ 0) : element reduction a ^ (2 ^ 64 - 1) = 1 := by
  have irreducible : Fact (Irreducible (modulus reduction)) := ⟨modulus_irreducible⟩
  have elementNonzero : element reduction a ≠ 0 := by
    intro zero
    apply nonzero
    apply element_injective reduction
    exact zero.trans (value_zero root).symm
  have finite := finite_quotient reduction
  have counted : Fintype (Quotient reduction) := Fintype.ofFinite _
  have card : Fintype.card (Quotient reduction) = 2 ^ 64 := by
    rw [Fintype.card_eq_nat_card]
    exact natCard_quotient reduction
  have power := FiniteField.pow_card_sub_one_eq_one _ elementNonzero
  rwa [card] at power

theorem gf64Inv_eq (nonzero : a ≠ 0) : ∃ inverse, gf64Inv pclmulqdq a = some inverse ∧ mulBitwise inverse a = 1 := by
  have start : element reduction 1 = element reduction a ^ (exponent / 2 ^ 64) := by
    rw [element_one]
    exact (pow_zero _).symm
  obtain ⟨last, ran, power⟩ := invRounds_eq pclmulqdq le_rfl start
  refine ⟨last, (if_neg nonzero).trans ran, ?_⟩
  apply element_injective reduction
  rw [element_mulBitwise, power, ← pow_succ, element_one]
  exact element_pow nonzero

end

/-- Every way to multiply gives the product of the polynomials modulo an irreducible one, so that words are a field. -/
theorem products_agree :
    (∀ a b, (value X (mulBitwise a b) : (ZMod 2)[X]) = (value X a * value X b) %ₘ (X ^ 64 + X ^ 4 + X ^ 3 + X + 1)) ∧
    (∀ a b, mulPclmul a b = some (mulBitwise a b)) ∧
    (∀ a b i, gf64MulX4Avx512 a b i = if i.val % 2 = 0 then mulBitwise (a i) (b i) else 0) ∧
    (∀ a b, mulBitwise a b = mulBitwise b a) ∧
    (∀ a b c, mulBitwise (mulBitwise a b) c = mulBitwise a (mulBitwise b c)) ∧
    (∀ a b c, mulBitwise a (b ^^^ c) = mulBitwise a b ^^^ mulBitwise a c) ∧
    (∀ a, mulBitwise a 1 = a) ∧
    (∀ pclmulqdq a, a ≠ 0 → ∃ inverse, gf64Inv pclmulqdq a = some inverse ∧ mulBitwise inverse a = 1) ∧
    Irreducible (X ^ 64 + X ^ 4 + X ^ 3 + X + 1 : (ZMod 2)[X]) :=
  ⟨mulBitwise_eq_modByMonic, mulPclmul_eq, gf64MulX4Avx512_eq, mulBitwise_comm, mulBitwise_assoc, mulBitwise_xor,
    mulBitwise_one, fun pclmulqdq _ nonzero => gf64Inv_eq pclmulqdq nonzero, modulus_eq ▸ modulus_irreducible⟩

end Rezzy.Recon.Gf64
