import Mathlib.Data.Set.Basic

namespace Alternate

variable {α : Type} {partner : α → α → Prop} {flip : α → α}

structure Pairing (partner : α → α → Prop) (flip : α → α) : Prop where
  symm : ∀ a b, partner a b → partner b a
  unique : ∀ a b c, partner a b → partner a c → b = c
  apart : ∀ a, ¬partner a a
  flip_flip : ∀ a, flip (flip a) = a
  flip_apart : ∀ a, flip a ≠ a

def Walks (partner : α → α → Prop) (flip : α → α) (walk : Nat → α) (n : Nat) : Prop :=
  ∀ k < n, partner (walk k) (flip (walk (k + 1)))

variable {walk : Nat → α} {n : Nat}

theorem Walks.not_flipped (walks : Walks partner flip walk n) (pairing : Pairing partner flip) (order : a ≤ b)
    (within : b ≤ n) : walk b ≠ flip (walk a) := by
  obtain ⟨d, rfl⟩ := Nat.exists_eq_add_of_le order
  induction d using Nat.strong_induction_on generalizing a with
  | _ d ih =>
    intro met
    rcases d with _ | _ | d
    · exact pairing.flip_apart (walk a) met.symm
    · have step := walks a (by omega)
      rw [met, pairing.flip_flip] at step
      exact pairing.apart _ step
    · have first := walks a (by omega)
      have last := walks (a + 1 + d) (by omega)
      have again : walk (a + 1 + d + 1) = flip (walk a) := by
        rw [← met]
        congr 1
        omega
      rw [again, pairing.flip_flip] at last
      exact ih d (by omega) (Nat.le_add_right (a + 1) d) (by omega) (pairing.unique _ _ _ (pairing.symm _ _ last) first)

theorem Walks.injective (walks : Walks partner flip walk n) (pairing : Pairing partner flip)
    (first : ∀ k, 0 < k → k < n → walk k ≠ walk 0) (order : a < b) (within : b < n) : walk a ≠ walk b := by
  induction a generalizing b with
  | zero => exact fun same => first b order within same.symm
  | succ a ih =>
    intro same
    obtain ⟨b, rfl⟩ := Nat.exists_eq_succ_of_ne_zero (Nat.ne_zero_of_lt order)
    have one := walks a (by omega)
    have two := walks b (by omega)
    rw [same] at one
    exact ih (by omega) (by omega) (pairing.unique _ _ _ (pairing.symm _ _ one) (pairing.symm _ _ two))

end Alternate
