import Mathlib.Data.BitVec
import Mathlib.Data.List.InsertIdx
import Mathlib.Logic.Function.Basic
import Mathlib.Tactic.Common

namespace Packed

open List Function

variable {α : Type} {n : Nat}

def items (n : Nat) (slots : Nat → Option α) : List α := (List.range n).filterMap slots

structure Packs (bitmap : BitVec n) (list : List α) (slots : Nat → Option α) : Prop where
  bits : ∀ slot < n, bitmap.getLsbD slot = (slots slot).isSome
  list : list = items n slots

def ones (bitmap : BitVec n) : Nat := (List.range n).countP bitmap.getLsbD

def rank (slots : Nat → Option α) (slot : Nat) : Nat := (items slot slots).length

theorem items_split (slots : Nat → Option α) (inside : slot < n) :
    ∃ after, items n slots = items slot slots ++ ((slots slot).toList ++ after) ∧
      ∀ other, (∀ s, s ≠ slot → other s = slots s) →
        items n other = items slot slots ++ ((other slot).toList ++ after) := by
  obtain ⟨rest, rfl⟩ := Nat.exists_eq_add_of_lt inside
  have range : List.range (slot + rest + 1) = List.range slot ++ (slot :: (List.range rest).map (slot + 1 + ·)) := by
    rw [Nat.add_assoc, range_add, range_succ_eq_map, map_cons, map_map, Nat.add_zero]
    congr 3
    funext i
    simp only [Function.comp]
    omega
  have parts : ∀ other : Nat → Option α, items (slot + rest + 1) other =
      items slot other ++ ((other slot).toList ++ ((List.range rest).map (slot + 1 + ·)).filterMap other) := by
    intro other
    unfold items
    rw [range, filterMap_append, filterMap_cons]
    cases other slot <;> rfl
  refine ⟨_, parts slots, fun other same => ?_⟩
  rw [parts other]
  congr 1
  · exact filterMap_congr fun s mem => same s (mem_range.mp mem).ne
  · congr 1
    refine filterMap_congr fun s mem => same s ?_
    obtain ⟨i, _, rfl⟩ := mem_map.mp mem
    omega

theorem insertIdx_length_append (before after : List α) (item : α) :
    (before ++ after).insertIdx before.length item = before ++ item :: after := by
  induction before with
  | nil => simp
  | cons first before ih =>
    rw [cons_append, length_cons, insertIdx_succ_cons, ih, cons_append]

theorem length_items (slots : Nat → Option α) (n : Nat) :
    (items n slots).length = (range n).countP fun slot => (slots slot).isSome := by
  rw [items, length_filterMap_eq_countP]

variable {bitmap : BitVec n} {list : List α} {slots : Nat → Option α}

section

variable (packs : Packs bitmap list slots)
include packs

theorem Packs.length : list.length = ones bitmap := by
  rw [packs.list, length_items, ones]
  exact countP_congr fun slot mem => by rw [packs.bits slot (mem_range.mp mem)]

theorem Packs.rank (inside : slot < n)
    (lower : ∀ i < n, mask.getLsbD i = decide (i < slot)) : ones (bitmap &&& mask) = rank slots slot := by
  unfold ones Packed.rank
  rw [length_items]
  have range : List.range n = List.range slot ++ (List.range (n - slot)).map (slot + ·) := by
    rw [← range_add]
    congr 1
    omega
  rw [range, countP_append]
  have below : (List.range slot).countP (bitmap &&& mask).getLsbD =
      (List.range slot).countP fun s => (slots s).isSome := by
    refine countP_congr fun s mem => ?_
    have small := mem_range.mp mem
    rw [BitVec.getLsbD_and, packs.bits s (by omega), lower s (by omega), decide_eq_true small, Bool.and_true]
  have above : ((List.range (n - slot)).map (slot + ·)).countP (bitmap &&& mask).getLsbD = 0 := by
    rw [countP_eq_zero]
    intro s mem
    obtain ⟨i, small, rfl⟩ := mem_map.mp mem
    have := mem_range.mp small
    rw [BitVec.getLsbD_and, lower _ (by omega), decide_eq_false (by omega), Bool.and_false]
    exact Bool.false_ne_true
  rw [below, above, Nat.add_zero]

theorem Packs.get (inside : slot < n) (taken : slots slot = some item) : list[Packed.rank slots slot]? = some item := by
  obtain ⟨after, split, -⟩ := items_split slots inside
  rw [packs.list, split, taken, Packed.rank, getElem?_append_right (Nat.le_refl _), Nat.sub_self]
  rfl

theorem Packs.rank_le (inside : slot < n) : Packed.rank slots slot ≤ list.length := by
  obtain ⟨after, split, -⟩ := items_split slots inside
  rw [packs.list, split, length_append]
  exact Nat.le_add_right _ _

end

theorem Packs.empty : Packs (0 : BitVec n) ([] : List α) fun _ => none where
  bits slot _ := by simp
  list := by simp [items]

theorem Packs.unique (left : Packs bitmap list slots) (right : Packs other otherList slots) :
    bitmap = other ∧ list = otherList := by
  refine ⟨?_, left.list.trans right.list.symm⟩
  apply BitVec.eq_of_getLsbD_eq
  intro slot inside
  rw [left.bits slot inside, right.bits slot inside]

theorem Packs.slots_eq (left : Packs bitmap list slots) (right : Packs bitmap list other) (inside : slot < n) :
    slots slot = other slot := by
  have taken : (slots slot).isSome = (other slot).isSome := by
    rw [← left.bits slot inside, right.bits slot inside]
  have ranks : Packed.rank slots slot = Packed.rank other slot := by
    unfold Packed.rank
    rw [length_items, length_items]
    apply countP_congr
    intro s mem
    have small := mem_range.mp mem
    rw [← left.bits s (by omega), right.bits s (by omega)]
  cases own : slots slot with
  | none =>
    rw [own] at taken
    exact (Option.not_isSome_iff_eq_none.mp (by rw [← taken]; exact Bool.false_ne_true)).symm
  | some item =>
    rw [own] at taken
    obtain ⟨found, same⟩ := Option.isSome_iff_exists.mp taken.symm
    have first := left.get inside own
    rw [ranks, right.get inside same] at first
    rw [same, first]

theorem Packs.map {β : Type} (packs : Packs bitmap list slots) (f : α → β) :
    Packs bitmap (list.map f) fun slot => (slots slot).map f where
  bits slot inside := by rw [packs.bits slot inside, Option.isSome_map]
  list := by rw [packs.list, items, map_filterMap]; rfl

variable (packs : Packs bitmap list slots)
include packs

theorem Packs.congr (same : ∀ s < n, other s = slots s) : Packs bitmap list other where
  bits s inside := by rw [same s inside]; exact packs.bits s inside
  list := packs.list.trans (filterMap_congr fun s mem => (same s (mem_range.mp mem)).symm)

theorem Packs.keep (own : slots slot = item) : Packs bitmap list (update slots slot item) := by
  rw [← own, update_eq_self]
  exact packs

theorem Packs.insert (inside : slot < n)
    (single : ∀ i < n, bit.getLsbD i = decide (i = slot)) (free : slots slot = none) (item : α) :
    Packs (bitmap ||| bit) (list.insertIdx (Packed.rank slots slot) item) (update slots slot (some item)) where
  bits s small := by
    rw [BitVec.getLsbD_or, packs.bits s small, single s small]
    by_cases same : s = slot <;> simp [same]
  list := by
    obtain ⟨after, split, updated⟩ := items_split slots inside
    rw [packs.list, split, updated _ (fun s other => update_of_ne other _ _), free,
      update_self, Packed.rank, Option.toList_none, nil_append, insertIdx_length_append]
    rfl

theorem Packs.erase (inside : slot < n)
    (single : ∀ i < n, bit.getLsbD i = decide (i = slot)) (taken : slots slot = some item) :
    Packs (bitmap &&& ~~~bit) (list.eraseIdx (Packed.rank slots slot)) (update slots slot none) where
  bits s small := by
    rw [BitVec.getLsbD_and, packs.bits s small, BitVec.getLsbD_not, single s small]
    by_cases same : s = slot <;> simp [same, small, inside]
  list := by
    obtain ⟨after, split, updated⟩ := items_split slots inside
    rw [packs.list, split, updated _ (fun s other => update_of_ne other _ _), taken,
      update_self, Packed.rank, eraseIdx_append_of_length_le (Nat.le_refl _), Nat.sub_self]
    rfl

theorem Packs.set (inside : slot < n) (taken : slots slot = some old) (item : α) :
    Packs bitmap (list.set (Packed.rank slots slot) item) (update slots slot (some item)) where
  bits s small := by
    rw [packs.bits s small]
    by_cases same : s = slot <;> simp [same, taken]
  list := by
    obtain ⟨after, split, updated⟩ := items_split slots inside
    rw [packs.list, split, updated _ (fun s other => update_of_ne other _ _), taken,
      update_self, Packed.rank, set_append_right _ _ (Nat.le_refl _), Nat.sub_self]
    rfl

end Packed
