import Rezzy.Hamt.Lookup

namespace Rezzy.Hamt

open Packed List Function

variable {K V H E F : Type} {keyHash : K → KeyPathHash}

section

variable [DecidableEq K]

def without (entries : List (K × V)) (key : K) : List (K × V) := entries.filter fun entry => entry.1 ≠ key

def assign (entries : List (K × V)) (key : K) (value : Option V) : List (K × V) :=
  without entries key ++ value.toList.map (Prod.mk key)

section

variable {entries : List (K × V)} {key : K}

theorem mem_without {entry : K × V} : entry ∈ without entries key ↔ entry ∈ entries ∧ entry.1 ≠ key := by
  rw [without, mem_filter, decide_eq_true_eq]

theorem without_absent (absent : ∀ entry ∈ entries, entry.1 ≠ key) : without entries key = entries :=
  filter_eq_self.mpr fun entry mem => decide_eq_true (absent entry mem)

theorem lookup_eq_none : entries.lookup key = none ↔ ∀ entry ∈ entries, entry.1 ≠ key := by
  rw [lookup_eq_none_iff]
  exact forall₂_congr fun entry _ => bne_iff_ne.trans ⟨Ne.symm, Ne.symm⟩

end

section

variable (entries : List (K × V))

theorem lookup_without (key other : K) :
    (without entries key).lookup other = if other = key then none else entries.lookup other := by
  induction entries with
  | nil => simp [without]
  | cons entry entries ih =>
    unfold without at ih ⊢
    by_cases gone : entry.1 = key
    · rw [filter_cons_of_neg (by simpa using gone), ih, lookup_cons]
      by_cases same : other = key
      · simp [same]
      · rw [beq_eq_false_iff_ne.mpr (gone ▸ same)]
    · rw [filter_cons_of_pos (by simpa using gone), lookup_cons, lookup_cons, ih]
      by_cases same : other = key
      · subst same
        rw [beq_eq_false_iff_ne.mpr (Ne.symm gone)]
      · simp [same]

theorem lookup_assign (key other : K) (value : Option V) :
    (assign entries key value).lookup other = if other = key then value else entries.lookup other := by
  rw [assign, lookup_append, lookup_without]
  by_cases same : other = key
  · subst same
    cases value with
    | none => simp
    | some value => simp
  · cases value with
    | none => simp [same]
    | some value =>
      rw [if_neg same, if_neg same, Option.toList_some, map_singleton, lookup_singleton, if_neg (Ne.symm same),
        Option.or_none]

theorem bucket_assign_other (value : Option V) (other : route keyHash depth key ≠ slot) :
    bucket keyHash depth (assign entries key value) slot = bucket keyHash depth entries slot := by
  unfold bucket assign without
  rw [filter_append, filter_filter]
  have gone : (value.toList.map (Prod.mk key)).filter (fun entry => decide (route keyHash depth entry.1 = slot)) =
      [] := by
    cases value <;> simp [other]
  rw [gone, append_nil]
  apply filter_congr
  intro entry _
  by_cases same : entry.1 = key
  · simp [same, other]
  · simp [same]

theorem bucket_assign_own (key : K) (value : Option V) :
    bucket keyHash depth (assign entries key value) (route keyHash depth key) =
      assign (bucket keyHash depth entries (route keyHash depth key)) key value := by
  unfold bucket assign without
  rw [filter_append, filter_filter, filter_filter]
  congr 1
  · exact filter_congr fun entry _ => Bool.and_comm ..
  · cases value <;> simp

variable {entries} (distinct : (entries.map Prod.fst).Nodup) (key : K)
include distinct

theorem length_without : entries.length ≤ (without entries key).length + 1 := by
  induction entries with
  | nil => simp
  | cons entry entries ih =>
    rw [map_cons, nodup_cons] at distinct
    unfold without at ih ⊢
    by_cases gone : entry.1 = key
    · have rest : without entries key = entries := by
        apply without_absent
        intro other mem same
        exact distinct.1 (mem_map.mpr ⟨other, mem, same.trans gone.symm⟩)
      unfold without at rest
      rw [filter_cons_of_neg (by simpa using gone), rest, length_cons]
    · rw [filter_cons_of_pos (by simpa using gone), length_cons, length_cons]
      exact Nat.succ_le_succ (ih distinct.2)

theorem length_le_assign (value : V) : entries.length ≤ (assign entries key (some value)).length := by
  simpa [assign] using length_without distinct key

theorem distinct_without : ((without entries key).map Prod.fst).Nodup := (filter_sublist.map Prod.fst).nodup distinct

theorem distinct_assign (value : Option V) : ((assign entries key value).map Prod.fst).Nodup := by
  rw [assign, map_append, nodup_append]
  refine ⟨distinct_without distinct key, ?_, ?_⟩
  · cases value <;> simp
  · intro own mem other last
    obtain ⟨entry, inside, rfl⟩ := mem_map.mp mem
    have same : other = key := by
      cases value with
      | none => simp at last
      | some value => simpa using last
    rw [same]
    exact (mem_without.mp inside).2

end

theorem Spread.bucket_assign (spread : Spread keyHash (levels + 1) (assign entries key value)) :
    Spread keyHash levels (assign
      (Hamt.bucket keyHash (depthOf (levels + 1)) entries (route keyHash (depthOf (levels + 1)) key)) key value) :=
  bucket_assign_own entries key value ▸ spread.bucket _

end

section

def Resolver.Within (small : Resolver K V H E) (large : Resolver K V H F) : Prop :=
  ∀ hash node, small hash = .ok node → large hash = .ok node

theorem noStore_within (resolver : Resolver K V H F) : noStore.Within resolver := by
  intro _ _ found
  cases found

theorem Resolver.Within.resolveChildRef (within : small.Within large) (found : resolveChildRef small ref = .ok node) :
    resolveChildRef large ref = .ok node := by
  cases ref with
  | resolved child => exact congrArg Except.ok (Except.ok.inj found)
  | lazy hash => exact within hash node found

theorem Holds.within (within : small.Within large) (holds : Holds hasher keyHash small levels node entries) :
    Holds hasher keyHash large levels node entries := by
  induction levels generalizing node entries with
  | zero => exact holds
  | succ levels ih =>
    obtain ⟨leafSlots, childSlots, packed, slots⟩ := holds
    refine ⟨leafSlots, childSlots, packed, fun slot inside => ?_⟩
    have shown := slots slot inside
    revert shown
    generalize leafSlots slot = leaf, childSlots slot = child, bucket keyHash _ entries slot = shared
    intro shown
    cases shown with
    | empty => exact .empty
    | leaf entry => exact .leaf entry
    | child several resolves named holds => exact .child several (within.resolveChildRef resolves) named (ih holds)

variable {resolver : Resolver K V H E} {childHolds : HamtNode K V H → List (K × V) → Prop} {entries : List (K × V)}
  {leaf : Option (K × V)} {child : Option (NodeRef K V H)} (shown : SlotHolds resolver childHolds entries leaf child)
include shown

theorem SlotHolds.inv : (entries = [] ∧ leaf = none ∧ child = none) ∨
    (∃ entry, entries = [entry] ∧ leaf = some entry ∧ child = none) ∨
    ∃ ref node, 2 ≤ entries.length ∧ leaf = none ∧ child = some ref ∧ resolveChildRef resolver ref = .ok node ∧
      node.structuralHash = ref.structuralHash ∧ childHolds node entries := by
  cases shown with
  | empty => exact .inl ⟨rfl, rfl, rfl⟩
  | leaf entry => exact .inr (.inl ⟨entry, rfl, rfl, rfl⟩)
  | child several resolves named holds => exact .inr (.inr ⟨_, _, several, rfl, rfl, resolves, named, holds⟩)

theorem SlotHolds.of_leaf (taken : leaf = some entry) : entries = [entry] := by
  subst taken
  cases shown
  rfl

theorem SlotHolds.of_child (taken : child = some ref) :
    2 ≤ entries.length ∧ ∃ node, resolveChildRef resolver ref = .ok node ∧ node.structuralHash = ref.structuralHash ∧
      childHolds node entries := by
  subst taken
  cases shown with
  | child several resolves named holds => exact ⟨several, _, resolves, named, holds⟩

end

variable [DecidableEq K]

theorem holds_update (home : route keyHash (depthOf (levels + 1)) key = slot)
    (slots : ∀ slot < 32, SlotHolds resolver (Holds hasher keyHash resolver levels)
      (bucket keyHash (depthOf (levels + 1)) entries slot) (leafSlots slot) (childSlots slot)) (leaf : Option (K × V))
    (child : Option (NodeRef K V H)) (own : SlotHolds resolver (Holds hasher keyHash resolver levels)
      (assign (bucket keyHash (depthOf (levels + 1)) entries slot) key value) leaf child)
    (packed : node.Packed hasher (update leafSlots slot leaf) (update childSlots slot child)) :
    Holds hasher keyHash resolver (levels + 1) node (assign entries key value) := by
  subst home
  refine ⟨_, _, packed, fun slot inside => ?_⟩
  by_cases same : slot = route keyHash (depthOf (levels + 1)) key
  · rw [same, update_self, update_self, bucket_assign_own]
    exact own
  · rw [update_of_ne same, update_of_ne same, bucket_assign_other entries value (Ne.symm same)]
    exact slots slot inside

end Rezzy.Hamt
