import Mathlib.Algebra.BigOperators.Finsupp.Basic
import Mathlib.Algebra.BigOperators.Group.List.Basic
import Std.Data.ExtTreeMap

namespace MapTotal

open List Std.ExtTreeMap

variable {κ ν γ : Type} {cmp : κ → κ → Ordering} [Std.TransCmp cmp] [Std.LawfulEqCmp cmp] [AddCommGroup γ]

def total (weight : κ → ν → γ) (m : Std.ExtTreeMap κ ν cmp) : γ :=
  m.toList.foldl (fun sum entry => sum + weight entry.1 entry.2) 0

def share (weight : κ → ν → γ) (m : Std.ExtTreeMap κ ν cmp) (key : κ) : γ :=
  match m[key]? with
  | some value => weight key value
  | none => 0

omit [Std.LawfulEqCmp cmp] in
theorem total_eq_sum (weight : κ → ν → γ) (m : Std.ExtTreeMap κ ν cmp) :
    total weight m = (m.toList.map fun entry => weight entry.1 entry.2).sum := by
  have shifted : ∀ (entries : List (κ × ν)) (start : γ),
      entries.foldl (fun sum entry => sum + weight entry.1 entry.2) start =
        start + (entries.map fun entry => weight entry.1 entry.2).sum := by
    intro entries
    induction entries with
    | nil => simp
    | cons entry entries ih =>
      intro start
      rw [foldl_cons, ih, map_cons, sum_cons, add_assoc]
  rw [total, shifted, zero_add]

theorem nodup_toList (m : Std.ExtTreeMap κ ν cmp) : m.toList.Nodup := by
  refine distinct_keys_toList.imp fun differ same => differ ?_
  rw [same]
  exact Std.ReflCmp.compare_self

theorem getElem?_erase_of_eq (m : Std.ExtTreeMap κ ν cmp) (key other : κ) [DecidableEq κ] :
    (m.erase key)[other]? = if other = key then none else m[other]? := by
  rw [getElem?_erase]
  by_cases same : other = key
  · rw [if_pos same, if_pos (same ▸ Std.ReflCmp.compare_self)]
  · rw [if_neg same, if_neg fun equal => same (Std.LawfulEqCmp.eq_of_compare equal).symm]

section

variable [DecidableEq κ] (weight : κ → ν → γ) (m : Std.ExtTreeMap κ ν cmp) (key : κ)

theorem total_erase : total weight (m.erase key) = total weight m - share weight m key := by
  unfold share
  cases held : m[key]? with
  | none =>
    have same : m.erase key = m := by
      apply Std.ExtTreeMap.ext_getElem?
      intro other
      rw [getElem?_erase_of_eq]
      split
      · rename_i equal
        rw [equal, held]
      · rfl
    rw [same, sub_zero]
  | some value =>
    have listed : m.toList.Perm ((key, value) :: (m.erase key).toList) := by
      have fresh : (key, value) ∉ (m.erase key).toList := by
        rw [mem_toList_iff_getElem?_eq_some, getElem?_erase_of_eq, if_pos rfl]
        simp
      apply (perm_ext_iff_of_nodup (nodup_toList m) (nodup_cons.mpr ⟨fresh, nodup_toList _⟩)).mpr
      rintro ⟨other, -⟩
      rw [mem_cons, mem_toList_iff_getElem?_eq_some, mem_toList_iff_getElem?_eq_some, getElem?_erase_of_eq]
      by_cases same : other = key
      · subst same
        simp [held, eq_comm]
      · simp [same]
    rw [total_eq_sum, total_eq_sum weight m, (listed.map _).sum_eq, map_cons, sum_cons, add_sub_cancel_left]

theorem total_insert (value : ν) :
    total weight (m.insert key value) = total weight m - share weight m key + weight key value := by
  have erased : (m.insert key value).erase key = m.erase key := by
    apply Std.ExtTreeMap.ext_getElem?
    intro _
    rw [getElem?_erase_of_eq, getElem?_erase_of_eq]
    split
    · rfl
    · rename_i differ
      rw [Std.ExtTreeMap.getElem?_insert, if_neg fun equal => differ (Std.LawfulEqCmp.eq_of_compare equal).symm]
  have own : share weight (m.insert key value) key = weight key value := by
    unfold share
    rw [getElem?_insert_self]
  have before := total_erase weight (m.insert key value) key
  rw [erased, total_erase, own] at before
  rw [before, sub_add_cancel]

end

open Finsupp (single single_apply sum_zero_index sum_add_index' sum_single_index)

variable {α : Type}

noncomputable def weigh (weight : α → γ) (net : α →₀ ℤ) : γ := net.sum fun element times => times • weight element

@[simp]
theorem weigh_zero (weight : α → γ) : weigh weight 0 = 0 := sum_zero_index

theorem weigh_add (weight : α → γ) (first second : α →₀ ℤ) :
    weigh weight (first + second) = weigh weight first + weigh weight second :=
  sum_add_index' (fun _ => zero_zsmul _) fun _ _ _ => add_zsmul _ _ _

theorem weigh_single (weight : α → γ) (element : α) (times : ℤ) :
    weigh weight (single element times) = times • weight element := sum_single_index (zero_zsmul _)

noncomputable def tally (elements : List α) : α →₀ ℤ := (elements.map (Finsupp.single · 1)).sum

theorem weigh_tally (weight : α → γ) (elements : List α) :
    weigh weight (tally elements) = (elements.map weight).sum := by
  induction elements with
  | nil => exact weigh_zero weight
  | cons element elements ih =>
    unfold tally at ih ⊢
    rw [map_cons, sum_cons, weigh_add, weigh_single, one_zsmul, ih, map_cons, sum_cons]

theorem tally_apply [DecidableEq α] (nodup : elements.Nodup) (element : α) :
    tally elements element = if element ∈ elements then 1 else 0 := by
  induction elements with
  | nil => rfl
  | cons first elements ih =>
    obtain ⟨fresh, nodup⟩ := nodup_cons.mp nodup
    have counted := ih nodup
    unfold tally at counted ⊢
    rw [map_cons, sum_cons, Finsupp.add_apply, counted, single_apply]
    by_cases same : first = element
    · subst same
      simp [fresh]
    · simp [same, Ne.symm same]

theorem total_eq_weigh [DecidableEq κ] [DecidableEq ν] (weight : κ → ν → γ) (m : Std.ExtTreeMap κ ν cmp)
    (held : ∀ key value, net (key, value) = if m[key]? = some value then 1 else 0) :
    weigh (fun entry => weight entry.1 entry.2) net = total weight m := by
  have entries : net = tally m.toList := by
    ext ⟨key, value⟩
    rw [held, tally_apply (nodup_toList m)]
    simp only [mem_toList_iff_getElem?_eq_some]
  rw [entries, weigh_tally, total_eq_sum]

end MapTotal
