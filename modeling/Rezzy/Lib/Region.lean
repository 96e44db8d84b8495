import Mathlib

namespace Rezzy.Region

abbrev Node := Nat × Nat

def Within (outer inner : Node) : Prop := outer.1 ≤ inner.1 ∧ inner.2 / 2 ^ (inner.1 - outer.1) = outer.2

instance (outer inner : Node) : Decidable (Within outer inner) := inferInstanceAs (Decidable (_ ∧ _))

def Apart (a b : Node) : Prop := ¬ Within a b ∧ ¬ Within b a

def Holds (width : Nat) (node : Node) (key : Nat) : Prop := key / 2 ^ (width - node.1) = node.2

variable {width : Nat} {a b c : Node}

@[refl] theorem Within.refl (a : Node) : Within a a := by
  simp [Within]

theorem Within.trans (outer : Within a b) (inner : Within b c) : Within a c := by
  obtain ⟨ab, atB⟩ := outer
  obtain ⟨bc, atC⟩ := inner
  refine ⟨ab.trans bc, ?_⟩
  have split : c.1 - a.1 = (c.1 - b.1) + (b.1 - a.1) := by omega
  rw [split, pow_add, ← Nat.div_div_eq_div_mul, atC, atB]

theorem Within.antisymm (outer : Within a b) (inner : Within b a) : a = b := by
  obtain ⟨ab, atB⟩ := outer
  obtain ⟨ba, _⟩ := inner
  have depth : a.1 = b.1 := le_antisymm ab ba
  rw [depth, Nat.sub_self, pow_zero, Nat.div_one] at atB
  exact Prod.ext depth atB.symm

theorem Within.holds (inside : Within a b) (depth : b.1 ≤ width) (holds : Holds width b key) : Holds width a key := by
  obtain ⟨ab, atB⟩ := inside
  unfold Holds at holds ⊢
  have split : width - a.1 = (width - b.1) + (b.1 - a.1) := by omega
  rw [split, pow_add, ← Nat.div_div_eq_div_mul, holds, atB]

theorem within_of_common (shallower : a.1 ≤ b.1) (depth : b.1 ≤ width) (left : Holds width a key)
    (right : Holds width b key) : Within a b := by
  refine ⟨shallower, ?_⟩
  have split : width - a.1 = (width - b.1) + (b.1 - a.1) := by omega
  rw [← right, Nat.div_div_eq_div_mul, ← pow_add, ← split, left]

theorem within_of_within (shallower : a.1 ≤ b.1) (left : Within a c) (right : Within b c) : Within a b := by
  refine ⟨shallower, ?_⟩
  have split : c.1 - a.1 = (c.1 - b.1) + (b.1 - a.1) := by have := right.1; omega
  rw [← right.2, Nat.div_div_eq_div_mul, ← pow_add, ← split, left.2]

theorem Apart.symm (apart : Apart a b) : Apart b a := And.symm apart

theorem Apart.mono (apart : Apart a b) (left : Within a a') (right : Within b b') : Apart a' b' := by
  have nested : ∀ {a b a' b' : Node}, Apart a b → Within a a' → Within b b' → ¬ Within a' b' := by
    intro a b a' b' apart left right inside
    have both : Within a b' := left.trans inside
    rcases Nat.le_total a.1 b.1 with shallower | shallower
    · exact apart.1 (within_of_within shallower both right)
    · exact apart.2 (within_of_within shallower right both)
  exact ⟨nested apart left right, nested apart.symm right left⟩

theorem Apart.ne (apart : Apart a b) : a ≠ b := by
  rintro rfl
  exact apart.1 (.refl a)

theorem Apart.not_common (apart : Apart a b) (left : a.1 ≤ width) (right : b.1 ≤ width) (holds : Holds width a key) :
    ¬ Holds width b key := by
  intro other
  rcases Nat.le_total a.1 b.1 with shallower | shallower
  · exact apart.1 (within_of_common shallower right holds other)
  · exact apart.2 (within_of_common shallower left other holds)

section

def child (node : Node) (jump suffix : Nat) : Node := (node.1 + jump, node.2 * 2 ^ jump + suffix)

theorem within_child (small : suffix < 2 ^ jump) : Within a (child a jump suffix) := by
  refine ⟨Nat.le_add_right _ _, ?_⟩
  show (a.2 * 2 ^ jump + suffix) / 2 ^ (a.1 + jump - a.1) = a.2
  rw [Nat.add_sub_cancel_left, Nat.mul_comm, Nat.mul_add_div (by positivity), Nat.div_eq_of_lt small, Nat.add_zero]

theorem child_apart (different : s ≠ t) : Apart (child a jump s) (child a jump t) := by
  have one : ∀ s t, s ≠ t → ¬ Within (child a jump s) (child a jump t) := by
    rintro s t different ⟨_, same⟩
    simp only [child, Nat.sub_self, pow_zero, Nat.div_one] at same
    omega
  exact ⟨one s t different, one t s different.symm⟩

theorem holds_child (depth : a.1 + jump ≤ width) (holds : Holds width a key) :
    ∃ suffix < 2 ^ jump, Holds width (child a jump suffix) key := by
  unfold Holds at holds
  have split : width - a.1 = (width - (a.1 + jump)) + jump := by omega
  rw [split, pow_add, ← Nat.div_div_eq_div_mul] at holds
  refine ⟨key / 2 ^ (width - (a.1 + jump)) % 2 ^ jump, Nat.mod_lt _ (by positivity), ?_⟩
  show key / 2 ^ (width - (a.1 + jump)) = a.2 * 2 ^ jump + _
  rw [← holds, Nat.mul_comm, Nat.div_add_mod]

end

def start (width : Nat) (node : Node) : Nat := node.2 * 2 ^ (width - node.1)

def stop (width : Nat) (node : Node) : Nat := (node.2 + 1) * 2 ^ (width - node.1)

theorem start_lt_stop (width : Nat) (node : Node) : start width node < stop width node := by
  exact Nat.mul_lt_mul_of_pos_right (Nat.lt_succ_self _) (by positivity)

theorem holds_iff_interval : Holds width a key ↔ start width a ≤ key ∧ key < stop width a := by
  unfold Holds start stop
  rw [Nat.div_eq_iff (by positivity), Nat.add_one_mul]
  have := Nat.pos_of_ne_zero (pow_ne_zero (width - a.1) (by decide : (2 : Nat) ≠ 0))
  omega

theorem Apart.stop_le (apart : Apart a b) (left : a.1 ≤ width) (right : b.1 ≤ width)
    (first : start width a ≤ start width b) : stop width a ≤ start width b := by
  by_contra beyond
  have inside : Holds width a (start width b) := holds_iff_interval.mpr ⟨first, by omega⟩
  have own : Holds width b (start width b) := holds_iff_interval.mpr ⟨le_refl _, start_lt_stop width b⟩
  exact apart.not_common left right inside own

theorem apart_of_stop_le (left : a.1 ≤ width) (right : b.1 ≤ width) (before : stop width a ≤ start width b) :
    Apart a b := by
  have first : Holds width a (start width a) := holds_iff_interval.mpr ⟨le_refl _, start_lt_stop width a⟩
  have second : Holds width b (start width b) := holds_iff_interval.mpr ⟨le_refl _, start_lt_stop width b⟩
  constructor
  · intro inside
    have := (holds_iff_interval.mp (inside.holds right second)).2
    omega
  · intro inside
    have := (holds_iff_interval.mp (inside.holds left first)).1
    have := start_lt_stop width a
    omega

theorem Apart.start_ne (apart : Apart a b) (left : a.1 ≤ width) (right : b.1 ≤ width) :
    start width a ≠ start width b := by
  intro same
  have := apart.stop_le left right (le_of_eq same)
  have := start_lt_stop width a
  omega

end Rezzy.Region
