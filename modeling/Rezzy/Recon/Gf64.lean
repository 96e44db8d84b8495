import Rezzy.Lib.BinaryPoly

namespace Rezzy.Recon.Gf64

open BinaryPoly (clmul)
open BitVec (getLsbD_of_ge getLsbD_setWidth getLsbD_ushiftRight getLsbD_xor)

abbrev U64 := BitVec 64
abbrev U128 := BitVec 128

def reduction : U64 := 0x1b

section

def mulLoop : Nat → U64 → U64 → U64 → U64
  | 0, _, _, product => product
  | rounds + 1, left, right, product =>
    let product := product ^^^ (left &&& (0 - (right &&& 1)))
    let carry := left >>> 63
    mulLoop rounds ((left <<< 1) ^^^ (reduction &&& (0 - carry))) (right >>> 1) product

def mulBitwise (left right : U64) : U64 := mulLoop 64 left right 0

def foldBit (product : U128) (bit : Nat) : U128 :=
  if (product >>> bit) &&& 1 ≠ 0 then product ^^^ ((1 : U128) <<< bit) ^^^ (reduction.setWidth 128 <<< (bit - 64)) else product

def reducePclmul (low : U128) : Option U64 :=
  let high := (low >>> 64).setWidth 64
  let wide : U128 := high.setWidth 128
  let product := (low.setWidth 64).setWidth 128 ^^^ wide <<< 4 ^^^ wide <<< 3 ^^^ wide <<< 1 ^^^ wide
  let product := [67, 66, 65, 64].foldl foldBit product
  if product.toNat < 2 ^ 64 then some (product.setWidth 64) else none

def mulPclmul (left right : U64) : Option U64 := reducePclmul (clmul 128 left right)

def mul (pclmulqdq : Bool) (left right : U64) : Option U64 :=
  if pclmulqdq then mulPclmul left right else some (mulBitwise left right)

abbrev M512i := Fin 8 → U64

def low (i : Fin 8) : Fin 8 := ⟨i / 2 * 2, by omega⟩
def high (i : Fin 8) : Fin 8 := ⟨i / 2 * 2 + 1, by omega⟩

def clmulepi64Epi128 (a b : M512i) : M512i := fun i =>
  let product : U128 := clmul 128 (a (low i)) (b (low i))
  if i.val % 2 = 0 then product.setWidth 64 else (product >>> 64).setWidth 64

def bsrliEpi128 (a : M512i) : M512i := fun i => if i.val % 2 = 0 then a (high i) else 0

def xorSi512 (a b : M512i) : M512i := fun i => a i ^^^ b i
def andSi512 (a b : M512i) : M512i := fun i => a i &&& b i
def slliEpi64 (k : Nat) (a : M512i) : M512i := fun i => a i <<< k
def srliEpi64 (k : Nat) (a : M512i) : M512i := fun i => a i >>> k

def lowMask : M512i := fun i => if i.val % 2 = 0 then -1 else 0

def gf64MulX4Avx512 (a b : M512i) : M512i :=
  let product := clmulepi64Epi128 a b
  let high := bsrliEpi128 product
  let reduced := xorSi512 product high
  let reduced := xorSi512 reduced (slliEpi64 1 high)
  let reduced := xorSi512 reduced (slliEpi64 3 high)
  let reduced := xorSi512 reduced (slliEpi64 4 high)
  let overflow := xorSi512 (xorSi512 (srliEpi64 63 high) (srliEpi64 61 high)) (srliEpi64 60 high)
  let correction := xorSi512 overflow (slliEpi64 1 overflow)
  let correction := xorSi512 correction (slliEpi64 3 overflow)
  let correction := xorSi512 correction (slliEpi64 4 overflow)
  andSi512 (xorSi512 reduced correction) lowMask

end

def invRound (pclmulqdq : Bool) (value : U64) (result : U64) (bit : Nat) : Option U64 := do
  let exponent : U64 := BitVec.allOnes 64 - 1
  let result ← mul pclmulqdq result result
  if exponent &&& ((1 : U64) <<< bit) ≠ 0 then mul pclmulqdq result value else some result

def gf64Inv (pclmulqdq : Bool) (value : U64) : Option U64 :=
  if value = 0 then none else (List.range 64).reverse.foldlM (invRound pclmulqdq value) 1

open BinaryPoly BinaryField

noncomputable abbrev root : Quotient reduction := AdjoinRoot.root (modulus reduction)

variable (left right product : U64) (x : Quotient reduction)

section

theorem mask_low : left &&& (0 - (right &&& 1)) = if right.getLsbD 0 then left else 0 := by
  rw [and_one, and_neg_bit]

theorem mask_high : reduction &&& ((0 : U64) - left >>> 63) = if left.getLsbD 63 then reduction else 0 := by
  have carry : left >>> 63 = if left.getLsbD 63 then 1 else 0 := ushiftRight_top left (by decide)
  rw [carry, and_neg_bit]

theorem element_mulLoop (short : ∀ i, rounds ≤ i → right.getLsbD i = false) :
    element reduction (mulLoop rounds left right product) =
      element reduction product + element reduction left * element reduction right := by
  induction rounds generalizing left right product with
  | zero =>
    have none : right = 0 := by
      apply BitVec.eq_of_getLsbD_eq
      intro i _
      rw [short i (Nat.zero_le i)]
      exact BitVec.getLsbD_zero.symm
    have nothing : element reduction (0 : U64) = 0 := value_zero _
    rw [mulLoop, none, nothing, mul_zero, add_zero]
  | succ rounds ih =>
    have shorter (i : Nat) (above : rounds ≤ i) : (right >>> 1).getLsbD i = false := by
      rw [getLsbD_ushiftRight]
      exact short _ (by omega)
    have doubled := element_double reduction left
    have bits : element reduction right =
        (if right.getLsbD 0 then 1 else 0 : Quotient reduction) + root * element reduction (right >>> 1) :=
      value_succ _ right (by decide)
    have added : element reduction (product ^^^ if right.getLsbD 0 then left else 0) =
        element reduction product + if right.getLsbD 0 then element reduction left else 0 := by
      unfold element
      rw [value_xor, value_mask]
    rw [mulLoop, ih _ _ _ shorter, mask_low, mask_high, doubled, added, bits]
    cases right.getLsbD 0 <;> simp <;> ring

theorem element_mulBitwise : element reduction (mulBitwise left right) = element reduction left * element reduction right := by
  have nothing : element reduction (0 : U64) = 0 := value_zero _
  rw [mulBitwise, element_mulLoop left right 0 fun i above => getLsbD_of_ge right i above, nothing, zero_add]

theorem value_reduction {R : Type} [CommRing R] [CharP R 2] (x : R) : value x reduction = x ^ 4 + x ^ 3 + x + 1 := by
  have bits : reduction = (1 : U64) <<< 4 ^^^ (1 : U64) <<< 3 ^^^ (1 : U64) <<< 1 ^^^ 1 := by decide
  rw [bits, value_xor, value_xor, value_xor, value_bit x (by decide), value_bit x (by decide), value_bit x (by decide),
    value_one x (by decide), pow_one]

theorem root_leading : root ^ 64 = value root reduction := root_pow reduction

theorem foldBit_eq (product : U128) (bit : Nat) : foldBit product bit = product ^^^
    if product.getLsbD bit then ((1 : U128) <<< bit) ^^^ (reduction.setWidth 128 <<< (bit - 64)) else 0 := by
  have tested : (product >>> bit) &&& 1 = if product.getLsbD bit then 1 else 0 := by
    rw [and_one, getLsbD_ushiftRight, add_zero]
  unfold foldBit
  rw [tested]
  cases product.getLsbD bit
  · simp
  · simp [BitVec.xor_assoc]

theorem value_foldBit (product : U128) (above : 64 ≤ bit) (below : bit < 68) :
    value root (foldBit product bit) = value root product := by
  have small (i : Nat) (high : 128 - (bit - 64) ≤ i) : (reduction.setWidth 128).getLsbD i = false := by
    rw [getLsbD_setWidth, getLsbD_of_ge reduction i (by omega), Bool.and_false]
  have same : value root ((1 : U128) <<< bit ^^^ (reduction.setWidth 128 <<< (bit - 64))) = 0 := by
    rw [value_xor, value_bit root (by omega), value_shiftLeft_of_small root _ (by omega) small,
      value_setWidth root _ (by decide), ← root_leading, ← pow_add, Nat.sub_add_cancel above]
    exact CharTwo.add_self_eq_zero _
  rw [foldBit_eq, value_xor, value_mask, same, ite_self, add_zero]

theorem foldBit_short (product : U128) (above : 64 ≤ bit) (below : bit < 68)
    (short : ∀ i, bit < i → product.getLsbD i = false) : ∀ i, bit ≤ i → (foldBit product bit).getLsbD i = false := by
  intro i high
  have low : (reduction.setWidth 128 <<< (bit - 64)).getLsbD i = false := by
    rw [BitVec.getLsbD_shiftLeft, getLsbD_setWidth, getLsbD_of_ge reduction _ (by omega), Bool.and_false,
      Bool.and_false]
  rw [foldBit_eq, getLsbD_xor]
  rcases Nat.eq_or_lt_of_le high with rfl | higher
  · cases set : product.getLsbD bit
    · simp
    · simp [low]
      omega
  · rw [short i higher]
    cases product.getLsbD bit
    · simp
    · simp [low]
      omega

theorem value_halves (product : U128) : value root product =
    value root (product.setWidth 64) + root ^ 64 * value root ((product >>> 64).setWidth 64) := by
  have upper : value root (product >>> 64) = value root ((product >>> 64).setWidth 64) := by
    apply value_congr
    intro i
    rw [getLsbD_setWidth, getLsbD_ushiftRight]
    by_cases small : i < 64
    · rw [decide_eq_true small, Bool.true_and]
    · rw [decide_eq_false small, Bool.false_and]
      exact getLsbD_of_ge product _ (by omega)
  rw [value_split root product (by decide : 64 ≤ 128), upper]

theorem reducePclmul_eq (low : U128) : ∃ reduced, reducePclmul low = some reduced ∧ element reduction reduced = value root low := by
  have low_eq := value_halves low
  generalize lowWord : low.setWidth 64 = lower at low_eq
  generalize highWord : (low >>> 64).setWidth 64 = upper at low_eq
  have shifted (k : Nat) (small : k ≤ 4) : value root (upper.setWidth 128 <<< k) = root ^ k * value root upper := by
    rw [value_shiftLeft_of_small root _ (by omega), value_setWidth root _ (by decide)]
    intro i above
    rw [getLsbD_setWidth, getLsbD_of_ge upper i (by omega), Bool.and_false]
  unfold reducePclmul
  rw [lowWord, highWord]
  dsimp only
  generalize start : lower.setWidth 128 ^^^ upper.setWidth 128 <<< 4 ^^^ upper.setWidth 128 <<< 3 ^^^
    upper.setWidth 128 <<< 1 ^^^ upper.setWidth 128 = product
  have product_eq : value root product = value root low := by
    rw [← start, value_xor, value_xor, value_xor, value_xor, shifted 4 (by decide), shifted 3 (by decide),
      shifted 1 (by decide), value_setWidth root _ (by decide), value_setWidth root _ (by decide), low_eq,
      root_leading, value_reduction root]
    ring
  have short : ∀ i, 67 < i → product.getLsbD i = false := by
    intro i above
    rw [← start]
    simp only [getLsbD_xor, BitVec.getLsbD_shiftLeft, getLsbD_setWidth]
    rw [getLsbD_of_ge lower i (by omega), getLsbD_of_ge upper (i - 4) (by omega),
      getLsbD_of_ge upper (i - 3) (by omega), getLsbD_of_ge upper (i - 1) (by omega),
      getLsbD_of_ge upper i (by omega)]
    simp
  obtain ⟨folded, cleared⟩ : value root ([67, 66, 65, 64].foldl foldBit product) = value root product ∧
      ∀ i, 64 ≤ i → ([67, 66, 65, 64].foldl foldBit product).getLsbD i = false := by
    simp only [List.foldl_cons, List.foldl_nil]
    constructor
    · rw [value_foldBit _ (by decide) (by decide), value_foldBit _ (by decide) (by decide),
        value_foldBit _ (by decide) (by decide), value_foldBit _ (by decide) (by decide)]
    · apply foldBit_short _ (by decide) (by decide)
      apply foldBit_short _ (by decide) (by decide)
      apply foldBit_short _ (by decide) (by decide)
      exact foldBit_short _ (by decide) (by decide) short
  generalize [67, 66, 65, 64].foldl foldBit product = result at folded cleared ⊢
  have narrow : result.toNat < 2 ^ 64 := Nat.lt_pow_two_of_testBit _ cleared
  refine ⟨result.setWidth 64, if_pos narrow, ?_⟩
  rw [← product_eq, ← folded]
  apply value_congr
  intro i
  rw [getLsbD_setWidth]
  by_cases small : i < 64
  · rw [decide_eq_true small, Bool.true_and]
  · rw [decide_eq_false small, Bool.false_and, cleared i (by omega)]

theorem mulPclmul_eq : mulPclmul left right = some (mulBitwise left right) := by
  obtain ⟨reduced, same, value⟩ := reducePclmul_eq (clmul 128 left right)
  rw [value_clmul root left right (by decide)] at value
  rw [mulPclmul, same, element_injective reduction (value.trans (element_mulBitwise left right).symm)]

theorem mul_eq (pclmulqdq : Bool) : mul pclmulqdq left right = some (mulBitwise left right) := by
  cases pclmulqdq
  · rfl
  · exact mulPclmul_eq left right

end

def reduceLane (lower upper : U64) : U64 :=
  let overflow := upper >>> 63 ^^^ upper >>> 61 ^^^ upper >>> 60
  (lower ^^^ upper ^^^ upper <<< 1 ^^^ upper <<< 3 ^^^ upper <<< 4) ^^^
    (overflow ^^^ overflow <<< 1 ^^^ overflow <<< 3 ^^^ overflow <<< 4)

theorem gf64MulX4Avx512_low (a b : M512i) (even : i.val % 2 = 0) : gf64MulX4Avx512 a b i =
    reduceLane ((clmul 128 (a i) (b i)).setWidth 64) ((clmul 128 (a i) (b i) >>> 64).setWidth 64) := by
  have own : low i = i := Fin.ext (by show i.val / 2 * 2 = i.val; omega)
  have ownHigh : low (high i) = i := Fin.ext (by show (i.val / 2 * 2 + 1) / 2 * 2 = i.val; omega)
  have odd : ¬(high i).val % 2 = 0 := by
    show ¬(i.val / 2 * 2 + 1) % 2 = 0
    omega
  have lower : clmulepi64Epi128 a b i = (clmul 128 (a i) (b i)).setWidth 64 := by
    unfold clmulepi64Epi128
    rw [own, if_pos even]
  have upper : bsrliEpi128 (clmulepi64Epi128 a b) i = (clmul 128 (a i) (b i) >>> 64).setWidth 64 := by
    unfold bsrliEpi128 clmulepi64Epi128
    rw [if_pos even, ownHigh, if_neg odd]
  unfold gf64MulX4Avx512 andSi512 lowMask
  rw [if_pos even]
  simp only [xorSi512, slliEpi64, srliEpi64, lower, upper]
  exact BitVec.and_allOnes

theorem gf64MulX4Avx512_high (a b : M512i) (odd : ¬i.val % 2 = 0) : gf64MulX4Avx512 a b i = 0 := by
  unfold gf64MulX4Avx512 andSi512 lowMask
  rw [if_neg odd]
  exact BitVec.and_zero

theorem value_reduceLane (lower upper : U64) :
    value root (reduceLane lower upper) = value root lower + root ^ 64 * value root upper := by
  unfold reduceLane
  generalize held : upper >>> 63 ^^^ upper >>> 61 ^^^ upper >>> 60 = overflow
  have overflow_eq : value root overflow = value root (upper >>> 63) + value root (upper >>> 61) + value root (upper >>> 60) := by
    rw [← held, value_xor, value_xor]
  have small (i : Nat) (above : 4 ≤ i) : overflow.getLsbD i = false := by
    rw [← held, getLsbD_xor, getLsbD_xor, getLsbD_ushiftRight, getLsbD_ushiftRight,
      getLsbD_ushiftRight, getLsbD_of_ge upper _ (by omega), getLsbD_of_ge upper _ (by omega),
      getLsbD_of_ge upper _ (by omega)]
    rfl
  have correction (k : Nat) (short : k ≤ 4) : value root (overflow <<< k) = root ^ k * value root overflow :=
    value_shiftLeft_of_small root overflow (by omega) fun i above => small i (by omega)
  have one := value_shiftLeft root upper (by decide : 1 ≤ 64)
  have three := value_shiftLeft root upper (by decide : 3 ≤ 64)
  have four := value_shiftLeft root upper (by decide : 4 ≤ 64)
  have leading := root_leading.trans (value_reduction root)
  simp only [value_xor, correction 1 (by decide), correction 3 (by decide), correction 4 (by decide)]
  linear_combination one + three + four - (value root upper + value root overflow) * leading + root ^ 64 * overflow_eq

theorem gf64MulX4Avx512_eq (a b : M512i) (i : Fin 8) :
    gf64MulX4Avx512 a b i = if i.val % 2 = 0 then mulBitwise (a i) (b i) else 0 := by
  by_cases even : i.val % 2 = 0
  · rw [if_pos even, gf64MulX4Avx512_low a b even]
    apply element_injective reduction
    rw [element_mulBitwise]
    unfold element
    rw [value_reduceLane, ← value_halves, value_clmul root _ _ (by decide)]
  · rw [if_neg even, gf64MulX4Avx512_high a b even]

end Rezzy.Recon.Gf64
