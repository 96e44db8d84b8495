import Mathlib.Data.List.Forall2
import Mathlib.Logic.Relation

namespace Linked

open Relation

variable {α β : Type} {links : α → α → Prop} {l other : List α}

def Link (links : α → α → Prop) (l : List α) (i j : Nat) : Prop :=
  ∃ a b, l[i]? = some a ∧ l[j]? = some b ∧ links a b

def Connected (links : α → α → Prop) (l : List α) : Prop :=
  ∀ i < l.length, ∀ j < l.length, ReflTransGen (Link links l) i j

theorem connected_iff (symm : ∀ a b, links a b → links b a) (filled : 0 < l.length) :
    Connected links l ↔ ∀ j < l.length, ReflTransGen (Link links l) 0 j := by
  have back : Std.Symm (Link links l) := by
    refine ⟨?_⟩
    rintro i j ⟨a, b, here, there, linked⟩
    exact ⟨b, a, there, here, symm a b linked⟩
  constructor
  · exact fun connected => connected 0 filled
  · intro from_first i inside j within
    exact (ReflTransGen.stdSymm.symm _ _ (from_first i inside)).trans (from_first j within)

theorem exists_places (perm : l.Perm other) : ∃ place : Nat → Nat,
    (∀ i < l.length, other[place i]? = l[i]?) ∧ ∀ j < other.length, ∃ i < l.length, place i = j := by
  induction perm with
  | nil => exact ⟨id, nofun, nofun⟩
  | @cons a l other _ ih =>
    obtain ⟨place, same, onto⟩ := ih
    refine ⟨fun i => if i = 0 then 0 else place (i - 1) + 1, fun i inside => ?_, fun j within => ?_⟩
    · rcases i with _ | i
      · rfl
      · exact same i (Nat.lt_of_succ_lt_succ inside)
    · rcases j with _ | j
      · exact ⟨0, Nat.succ_pos _, rfl⟩
      · obtain ⟨i, small, here⟩ := onto j (Nat.lt_of_succ_lt_succ within)
        refine ⟨i + 1, Nat.succ_lt_succ small, ?_⟩
        simp [here]
  | swap a b rest =>
    refine ⟨fun i => if i = 0 then 1 else if i = 1 then 0 else i, fun i _ => ?_, fun j within => ?_⟩
    · rcases i with _ | _ | i <;> rfl
    · rcases j with _ | _ | j
      · exact ⟨1, by simp, rfl⟩
      · exact ⟨0, by simp, rfl⟩
      · exact ⟨j + 2, within, rfl⟩
  | @trans first second third perm _ ih ih' =>
    obtain ⟨place, same, onto⟩ := ih
    obtain ⟨place', same', onto'⟩ := ih'
    refine ⟨fun i => place' (place i), fun i inside => ?_, fun j within => ?_⟩
    · have fits : place i < second.length := by
        by_contra past
        have found := same i inside
        rw [List.getElem?_eq_none (Nat.not_lt.mp past), List.getElem?_eq_getElem inside] at found
        cases found
      rw [same' _ fits, same i inside]
    · obtain ⟨k, small, rfl⟩ := onto' j within
      obtain ⟨i, small', rfl⟩ := onto k small
      exact ⟨i, small', rfl⟩

theorem Connected.perm (perm : l.Perm other) (connected : Connected links l) : Connected links other := by
  obtain ⟨place, same, onto⟩ := exists_places perm
  have taken : ∀ i j, Link links l i j → Link links other (place i) (place j) := by
    rintro i j ⟨a, b, here, there, linked⟩
    refine ⟨a, b, ?_, ?_, linked⟩
    · rw [same i (List.getElem?_eq_some_iff.mp here).1, here]
    · rw [same j (List.getElem?_eq_some_iff.mp there).1, there]
  intro i inside j within
  obtain ⟨i, small, rfl⟩ := onto i inside
  obtain ⟨j, small', rfl⟩ := onto j within
  exact (connected i small j small').lift place taken

theorem Connected.forall₂ {links' : β → β → Prop} {same : α → β → Prop} (each : List.Forall₂ same l others)
    (keeps : ∀ a a' b b', same a a' → same b b' → links a b → links' a' b') (connected : Connected links l) :
    Connected links' others := by
  have size := each.length_eq
  have entry : ∀ (i : Nat) (a : α), l[i]? = some a → ∃ a', others[i]? = some a' ∧ same a a' := by
    intro i a here
    obtain ⟨inside, rfl⟩ := List.getElem?_eq_some_iff.mp here
    exact ⟨others[i], List.getElem?_eq_getElem (size ▸ inside), each.get inside (size ▸ inside)⟩
  intro i inside j within
  refine (connected i (size ▸ inside) j (size ▸ within)).lift id ?_
  rintro i j ⟨a, b, here, there, linked⟩
  obtain ⟨a', here', left⟩ := entry i a here
  obtain ⟨b', there', right⟩ := entry j b there
  exact ⟨a', b', here', there', keeps a a' b b' left right linked⟩

end Linked
