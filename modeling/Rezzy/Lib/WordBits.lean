import Mathlib.Data.Finset.Card
import Mathlib.Data.List.Sort
import Mathlib.Data.Nat.Bitwise

namespace WordBits

open List Nat

variable {w : Nat}

theorem testBit_clear_lowest (lowest : n.testBit c = true) (below : ∀ i < c, n.testBit i = false) (i : Nat) :
    (n &&& (n - 1)).testBit i = (n.testBit i && decide (i ≠ c)) := by
  have split : n = 2 ^ (c + 1) * (n / 2 ^ (c + 1)) + 2 ^ c := by
    have rest : n % 2 ^ (c + 1) = 2 ^ c := by
      apply eq_of_testBit_eq
      intro i
      rw [testBit_mod_two_pow, testBit_two_pow]
      rcases lt_trichotomy i c with less | same | more
      · simp [below i less, less.ne']
      · simp [same, lowest]
      · simp [more.ne, not_lt.mpr (succ_le_of_lt more)]
    rw [← rest]
    exact (div_add_mod _ _).symm
  have small : 2 ^ c < 2 ^ (c + 1) := Nat.pow_lt_pow_right (by decide) c.lt_succ_self
  have less : n - 1 = 2 ^ (c + 1) * (n / 2 ^ (c + 1)) + (2 ^ c - 1) := by omega
  have whole : n.testBit i = if i < c + 1 then (2 ^ c).testBit i else (n / 2 ^ (c + 1)).testBit (i - (c + 1)) := by
    rw [← testBit_two_pow_mul_add _ small, ← split]
  rw [testBit_and, less, testBit_two_pow_mul_add _ (by omega), whole, testBit_two_pow, testBit_two_pow_sub_one]
  split
  · by_cases same : i = c
    · simp [same]
    · simp [same, Ne.symm same]
  · have differs : i ≠ c := by omega
    simp [differs]

theorem getLsbD_clear_lowest {x : BitVec w} (nonzero : x ≠ 0) (i : Nat) :
    (x &&& (x - 1)).getLsbD i = (x.getLsbD i && decide (i ≠ x.ctz.toNat)) := by
  have lowest := BitVec.getLsbD_true_ctz_of_ne_zero nonzero
  have positive : 1 ≤ x.toNat := Nat.pos_of_ne_zero fun zero => nonzero (BitVec.eq_of_toNat_eq zero)
  have pred : (x - 1).toNat = x.toNat - 1 := by
    have wide : 1 < 2 ^ w := lt_of_le_of_lt positive x.isLt
    have one : (1 : BitVec w).toNat = 1 := mod_eq_of_lt wide
    rw [BitVec.toNat_sub_of_le (BitVec.le_def.mpr (one.trans_le positive)), one]
  rw [BitVec.getLsbD, BitVec.toNat_and, pred]
  exact testBit_clear_lowest lowest (fun i less => BitVec.getLsbD_false_of_lt_ctz less) i

theorem ctz_lt {x : BitVec w} (nonzero : x ≠ 0) : x.ctz.toNat < w := by
  by_contra beyond
  have set := BitVec.getLsbD_true_ctz_of_ne_zero nonzero
  rw [BitVec.getLsbD_of_ge x _ (not_lt.mp beyond)] at set
  cases set

theorem clear_lowest_lt {x : BitVec w} (nonzero : x ≠ 0) : (x &&& (x - 1)).toNat < x.toNat := by
  apply lt_of_le_of_ne
  · rw [BitVec.toNat_and]
    exact and_le_left
  · intro same
    have kept := getLsbD_clear_lowest nonzero x.ctz.toNat
    rw [BitVec.eq_of_toNat_eq same, BitVec.getLsbD_true_ctz_of_ne_zero nonzero] at kept
    simp at kept

def drain (x : BitVec w) : List (Fin w) :=
  if nonzero : x ≠ 0 then ⟨x.ctz.toNat, ctz_lt nonzero⟩ :: drain (x &&& (x - 1)) else []
termination_by x.toNat
decreasing_by exact clear_lowest_lt nonzero

theorem mem_drain : i ∈ drain x ↔ x.getLsbD i = true := by
  fun_induction drain x with
  | case1 x nonzero ih =>
    rw [mem_cons, ih, getLsbD_clear_lowest nonzero, Bool.and_eq_true, decide_eq_true_iff, Fin.ext_iff]
    constructor
    · rintro (same | ⟨set, _⟩)
      · rw [same]
        exact BitVec.getLsbD_true_ctz_of_ne_zero nonzero
      · exact set
    · intro set
      by_cases same : i.val = x.ctz.toNat
      · exact .inl same
      · exact .inr ⟨set, same⟩
  | case2 x zero =>
    rw [not_not.mp zero]
    simp

theorem drain_ascends (x : BitVec w) : (drain x).Pairwise (· < ·) := by
  fun_induction drain x with
  | case1 x nonzero ih =>
    refine pairwise_cons.mpr ⟨?_, ih⟩
    intro _ mem
    have set := mem_drain.mp mem
    rw [getLsbD_clear_lowest nonzero, Bool.and_eq_true, decide_eq_true_iff] at set
    by_contra above
    apply set.2
    refine le_antisymm (not_lt.mp above) ?_
    by_contra less
    rw [BitVec.getLsbD_false_of_lt_ctz (not_le.mp less)] at set
    exact Bool.false_ne_true set.1
  | case2 x zero => exact List.Pairwise.nil

theorem drain_eq (x : BitVec w) : drain x = (List.finRange w).filter fun i => x.getLsbD i.val := by
  apply List.Pairwise.eq_of_mem_iff (drain_ascends x) ((pairwise_lt_finRange w).filter _)
  intro _
  rw [mem_drain, mem_filter]
  simp

def countOnes (x : BitVec w) : Nat := (List.finRange w).countP fun i => x.getLsbD i.val

theorem length_drain (x : BitVec w) : (drain x).length = countOnes x := by
  rw [drain_eq, countOnes, countP_eq_length_filter]

theorem countP_or {α : Type} (p q : α → Bool) (list : List α) :
    list.countP (fun a => p a || q a) = list.countP p + list.countP fun a => q a && !p a := by
  induction list with
  | nil => rfl
  | cons a list ih =>
    simp only [countP_cons, ih]
    cases p a <;> cases q a <;> simp <;> omega

theorem countOnes_or (x y : BitVec w) : countOnes (x ||| y) = countOnes x + countOnes (y &&& ~~~x) := by
  unfold countOnes
  simp only [BitVec.getLsbD_or]
  rw [countP_or]
  congr 1
  apply countP_congr
  intro _ _
  simp

theorem countP_insert {α : Type} [DecidableEq α] (p : α → Bool) {list : List α} (nodup : list.Nodup) {a : α}
    (mem : a ∈ list) :
    list.countP (fun b => decide (b = a) || p b) = list.countP p + (if p a then 0 else 1) := by
  have swapped : (fun b => decide (b = a) || p b) = fun b => p b || decide (b = a) := by
    funext b
    exact Bool.or_comm _ _
  rw [swapped, countP_or]
  congr 1
  induction list with
  | nil => cases mem
  | cons b list ih =>
    obtain ⟨absent, nodup⟩ := nodup_cons.mp nodup
    rw [countP_cons]
    rcases mem_cons.mp mem with rfl | later
    · have none : list.countP (fun c => decide (c = a) && !p c) = 0 := by
        rw [countP_eq_zero]
        intro c inside
        have differs : c ≠ a := fun same => absent (same ▸ inside)
        simp [differs]
      rw [none]
      cases p a <;> simp
    · have differs : b ≠ a := fun same => absent (same ▸ later)
      rw [ih nodup later]
      simp [differs]

section

variable {x : BitVec w} {i k : Nat}

theorem getLsbD_bit (inside : k < w) (i : Nat) : ((1 : BitVec w) <<< k).getLsbD i = decide (i = k) := by
  show (1#w <<< k).getLsbD i = _
  rw [BitVec.getLsbD_shiftLeft, BitVec.getLsbD_one]
  by_cases same : i = k
  · simp [same, inside]
    omega
  · by_cases below : i < k
    · simp [below, same]
    · have above : i - k ≠ 0 := by omega
      simp [above, same]

theorem and_bit_eq_zero (inside : k < w) : x &&& ((1 : BitVec w) <<< k) = 0 ↔ x.getLsbD k = false := by
  constructor
  · intro zero
    have bit : (x &&& ((1 : BitVec w) <<< k)).getLsbD k = (0 : BitVec w).getLsbD k := congrArg (BitVec.getLsbD · k) zero
    rw [BitVec.getLsbD_and, getLsbD_bit inside, decide_eq_true rfl, Bool.and_true] at bit
    exact bit.trans BitVec.getLsbD_zero
  · intro clear
    apply BitVec.eq_of_getLsbD_eq
    intro i _
    rw [BitVec.getLsbD_and, getLsbD_bit inside]
    by_cases same : i = k
    · simp [same, clear]
    · simp [same]

theorem shifted_and_one (x : BitVec w) (inside : k < w) : ((x >>> k) &&& 1 != 0) = x.getLsbD k := by
  have zero : (x >>> k) &&& 1 = 0 ↔ x.getLsbD k = false := by
    have unshifted := and_bit_eq_zero (x := x >>> k) (k := 0) (by omega)
    rw [BitVec.shiftLeft_zero] at unshifted
    rw [unshifted, BitVec.getLsbD_ushiftRight, Nat.add_zero]
  cases bit : x.getLsbD k with
  | false => rw [zero.mpr bit, bne_self_eq_false]
  | true =>
    rw [bne_iff_ne]
    intro clear
    rw [zero.mp clear] at bit
    cases bit

end

def places (x : BitVec w) : Finset Nat := (Finset.range w).filter fun i => x.getLsbD i = true

theorem mem_places : i ∈ places x ↔ x.getLsbD i = true := by
  rw [places, Finset.mem_filter, Finset.mem_range]
  exact and_iff_right_of_imp fun set => BitVec.lt_of_getLsbD set

@[simp] theorem places_zero : places (0 : BitVec w) = ∅ := by
  ext i
  simp [mem_places]

theorem places_or (x y : BitVec w) : places (x ||| y) = places x ∪ places y := by
  ext i
  simp [mem_places]

theorem places_bit (inside : k < w) : places ((1 : BitVec w) <<< k) = {k} := by
  ext i
  rw [mem_places, getLsbD_bit inside, Finset.mem_singleton, decide_eq_true_iff]

theorem places_inj : places x = places y ↔ x = y := by
  constructor
  · intro same
    apply BitVec.eq_of_getLsbD_eq
    intro _ _
    rw [Bool.eq_iff_iff, ← mem_places, ← mem_places, same]
  · exact congrArg places

theorem and_eq_right_iff : x &&& y = y ↔ places y ⊆ places x := by
  have both : places (x &&& y) = places x ∩ places y := by
    ext i
    simp [mem_places]
  rw [← places_inj, both, Finset.inter_eq_right]

theorem or_eq_left_iff : x ||| y = x ↔ places y ⊆ places x := by
  rw [← places_inj, places_or, Finset.union_eq_left]

theorem places_card (x : BitVec w) : (places x).card = countOnes x := by
  have drained : places x = ((drain x).map Fin.val).toFinset := by
    ext i
    rw [mem_places, mem_toFinset, mem_map]
    constructor
    · intro set
      exact ⟨⟨i, BitVec.lt_of_getLsbD set⟩, mem_drain.mpr set, rfl⟩
    · rintro ⟨j, set, rfl⟩
      exact mem_drain.mp set
  have nodup : (drain x).Nodup := (drain_ascends x).imp fun less => Fin.ne_of_lt less
  rw [drained, toFinset_card_of_nodup (nodup.map Fin.val_injective), length_map, length_drain]

end WordBits
