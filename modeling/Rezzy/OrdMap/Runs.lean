import Mathlib.Data.List.Forall2
import Rezzy.OrdMap.Map

namespace Rezzy.OrdMap

open Sorted Option

variable {K V : Type}

/-- An operation on the live maps. The oracle of a removal says which nodes on its path are
    unshared. -/
inductive Op (K V : Type) where
  | insert (slot : Nat) (key : K) (value : V)
  | remove (slot : Nat) (unique : Nat → Bool) (key : K)
  | clone (slot : Nat)
  | fromIter (items : List (K × V))

def Op.target : Op K V → Option Nat
  | insert slot _ _ | remove slot _ _ => some slot
  | clone _ | fromIter _ => none

variable [LinearOrder K]

def step (live : List (PersistentOrdMap K V)) : Op K V → Option (Option V × List (PersistentOrdMap K V))
  | .insert slot key value =>
    match live[slot]? with
    | none => some (none, live)
    | some map => do
      let (old, map) ← map.insert key value
      some (old, live.set slot map)
  | .remove slot unique key =>
    match live[slot]? with
    | none => some (none, live)
    | some map => do
      let (removed, map) ← map.remove unique key
      some (removed, live.set slot map)
  | .clone slot => some (none, live ++ live[slot]?.toList)
  | .fromIter items => do
    let map ← fromIter items
    some (none, live ++ [map])

def run (live : List (PersistentOrdMap K V)) : List (Op K V) → Option (List (Option V) × List (PersistentOrdMap K V))
  | [] => some ([], live)
  | op :: ops => do
    let (result, live) ← step live op
    let (results, live) ← run live ops
    some (result :: results, live)

abbrev Reference (K V : Type) [LinearOrder K] := Std.ExtTreeMap K V compare

def refStep (live : List (Reference K V)) : Op K V → Option V × List (Reference K V)
  | .insert slot key value =>
    match live[slot]? with
    | none => (none, live)
    | some map => (map[key]?, live.set slot (map.insert key value))
  | .remove slot _ key =>
    match live[slot]? with
    | none => (none, live)
    | some map => (map[key]?, live.set slot (map.erase key))
  | .clone slot => (none, live ++ live[slot]?.toList)
  | .fromIter items => (none, live ++ [items.foldl (fun map e => map.insert e.1 e.2) ∅])

def refRun (live : List (Reference K V)) : List (Op K V) → List (Option V) × List (Reference K V)
  | [] => ([], live)
  | op :: ops =>
    let (result, live) := refStep live op
    let (results, live) := refRun live ops
    (result :: results, live)

structure Represents (map : PersistentOrdMap K V) (reference : Reference K V) : Prop where
  formed : WellFormed map
  entries : map.root.entries = reference.toList

namespace Represents

variable {map : PersistentOrdMap K V} {reference : Reference K V}

variable (represents : Represents map reference)
include represents

theorem get (key : K) : map.get key = reference[key]? := by
  rw [represents.formed.get, represents.entries, getElem?_eq_lookup]

theorem containsKey (key : K) : map.containsKey key = reference.contains key := by
  rw [PersistentOrdMap.containsKey, represents.get, Std.ExtTreeMap.isSome_getElem?_eq_contains]

theorem len : map.len = reference.size := by
  rw [represents.formed.len, represents.entries, Std.ExtTreeMap.length_toList]

theorem iter : map.iter.collect = reference.toList := by
  rw [collect_iter, represents.entries]

theorem insert (key : K) (value : V) :
    ∃ after, map.insert key value = some (reference[key]?, after) ∧ Represents after (reference.insert key value) := by
  obtain ⟨after, computed, formed, contents⟩ := represents.formed.insert key value
  rw [represents.entries, ← getElem?_eq_lookup] at computed
  exact ⟨after, computed, formed, by rw [contents, represents.entries, toList_insert]⟩

theorem remove (unique : Nat → Bool) (key : K) :
    ∃ after, map.remove unique key = some (reference[key]?, after) ∧ Represents after (reference.erase key) := by
  obtain ⟨after, computed, formed, contents⟩ := represents.formed.remove unique key
  rw [represents.entries, ← getElem?_eq_lookup] at computed
  exact ⟨after, computed, formed, by rw [contents, represents.entries, toList_erase]⟩

end Represents

theorem fromIter_represents (items : List (K × V)) :
    ∃ map, fromIter items = some map ∧ Represents map (items.foldl (fun map e => map.insert e.1 e.2) ∅) := by
  obtain ⟨map, built, formed, contents⟩ := fromIter_spec items
  exact ⟨map, built, formed, by rw [contents, toList_foldl_insert]⟩

omit [LinearOrder K] in
theorem slot_cases {α β : Type} {R : α → β → Prop} {left : List α} {right : List β}
    (related : List.Forall₂ R left right) (slot : Nat) :
    (left[slot]? = none ∧ right[slot]? = none) ∨ ∃ a b, left[slot]? = some a ∧ right[slot]? = some b ∧ R a b ∧
        ∀ a' b', R a' b' → List.Forall₂ R (left.set slot a') (right.set slot b') := by
  induction related generalizing slot with
  | nil => exact .inl ⟨rfl, rfl⟩
  | @cons a b left right first rest ih =>
    cases slot with
    | zero => exact .inr ⟨a, b, rfl, rfl, first, fun _ _ new => .cons new rest⟩
    | succ slot =>
      rcases ih slot with free | ⟨a, b, inLeft, inRight, same, put⟩
      · exact .inl free
      · exact .inr ⟨a, b, inLeft, inRight, same, fun _ _ new => .cons first (put _ _ new)⟩

variable {live : List (PersistentOrdMap K V)}

theorem step_represents (related : List.Forall₂ Represents live references) (op : Op K V) :
    ∃ after, step live op = some ((refStep references op).1, after) ∧
      List.Forall₂ Represents after (refStep references op).2 := by
  cases op with
  | insert slot key value =>
    rcases slot_cases related slot with ⟨left, right⟩ | ⟨map, reference, left, right, represents, put⟩
    · exact ⟨live, by simp [step, refStep, left, right], by simpa [refStep, right] using related⟩
    · obtain ⟨after, computed, represents⟩ := represents.insert key value
      refine ⟨live.set slot after, ?_, ?_⟩
      · simp [step, refStep, left, right, computed]
      · simpa [refStep, right] using put _ _ represents
  | remove slot unique key =>
    rcases slot_cases related slot with ⟨left, right⟩ | ⟨map, reference, left, right, represents, put⟩
    · exact ⟨live, by simp [step, refStep, left, right], by simpa [refStep, right] using related⟩
    · obtain ⟨after, computed, represents⟩ := represents.remove unique key
      refine ⟨live.set slot after, ?_, ?_⟩
      · simp [step, refStep, left, right, computed]
      · simpa [refStep, right] using put _ _ represents
  | clone slot =>
    refine ⟨_, rfl, List.rel_append related ?_⟩
    rcases slot_cases related slot with ⟨left, right⟩ | ⟨map, reference, left, right, represents, _⟩
    · rw [left, right]
      exact .nil
    · rw [left, right]
      exact .cons represents .nil
  | fromIter items =>
    obtain ⟨map, built, represents⟩ := fromIter_represents items
    refine ⟨live ++ [map], by simp [step, refStep, built], ?_⟩
    exact List.rel_append related (.cons represents .nil)

theorem run_represents (related : List.Forall₂ Represents live references) (ops : List (Op K V)) :
    ∃ after, run live ops = some ((refRun references ops).1, after) ∧
      List.Forall₂ Represents after (refRun references ops).2 := by
  induction ops generalizing live references with
  | nil => exact ⟨live, rfl, related⟩
  | cons op ops ih =>
    obtain ⟨between, first, related⟩ := step_represents related op
    obtain ⟨after, rest, related⟩ := ih related
    refine ⟨after, ?_, related⟩
    simp only [run, first, bind_eq_bind, bind_some, rest]
    rfl

omit [LinearOrder K] in
theorem getElem?_append_of_some {α : Type} {items : List α} {slot : Nat} {item : α} (more : List α)
    (found : items[slot]? = some item) : (items ++ more)[slot]? = some item := by
  obtain ⟨inside, _⟩ := List.getElem?_eq_some_iff.mp found
  rw [List.getElem?_append_left inside, found]

theorem step_keeps (other : op.target ≠ some slot) (held : live[slot]? = some map)
    (stepped : step live op = some (result, after)) : after[slot]? = some map := by
  cases op with
  | insert target key value =>
    have apart : target ≠ slot := fun same => other (congrArg some same)
    rw [step] at stepped
    cases found : live[target]? with
    | none => simp_all
    | some written =>
      rw [found] at stepped
      obtain ⟨⟨old, map⟩, _, stepped⟩ := bind_eq_some_iff.mp stepped
      cases stepped
      rw [List.getElem?_set_ne apart, held]
  | remove target unique key =>
    have apart : target ≠ slot := fun same => other (congrArg some same)
    rw [step] at stepped
    cases found : live[target]? with
    | none => simp_all
    | some written =>
      rw [found] at stepped
      obtain ⟨⟨removed, map⟩, _, stepped⟩ := bind_eq_some_iff.mp stepped
      cases stepped
      rw [List.getElem?_set_ne apart, held]
  | clone source =>
    cases stepped
    exact getElem?_append_of_some _ held
  | fromIter items =>
    obtain ⟨built, _, stepped⟩ := bind_eq_some_iff.mp stepped
    cases stepped
    exact getElem?_append_of_some _ held

theorem run_keeps (others : ∀ op ∈ ops, op.target ≠ some slot) (held : live[slot]? = some map)
    (ran : run live ops = some (results, after)) : after[slot]? = some map := by
  induction ops generalizing live results with
  | nil => cases ran; exact held
  | cons op ops ih =>
    obtain ⟨other, others⟩ := List.forall_mem_cons.mp others
    obtain ⟨⟨result, between⟩, first, ran⟩ := bind_eq_some_iff.mp ran
    obtain ⟨⟨rest, last⟩, later, ran⟩ := bind_eq_some_iff.mp ran
    cases ran
    exact ih others (step_keeps other held first) later

theorem run_append (live : List (PersistentOrdMap K V)) (first second : List (Op K V)) :
    run live (first ++ second) = (run live first).bind fun (results, between) =>
      (run between second).map fun (more, after) => (results ++ more, after) := by
  induction first generalizing live with
  | nil => simp [run]
  | cons op first ih =>
    rw [List.cons_append, run, run]
    cases step live op with
    | none => rfl
    | some stepped =>
      obtain ⟨-, between⟩ := stepped
      simp only [bind_eq_bind, bind_some, ih]
      cases run between first with
      | none => rfl
      | some middle =>
        obtain ⟨-, middle⟩ := middle
        simp only [bind_some]
        cases run middle second <;> rfl

/-- Every sequence of operations returns what a finite ordered map returns and leaves maps that read like one and keep
    the invariant; a clone that is not written keeps its tree. -/
theorem run_refines (ops : List (Op K V)) :
    ∃ live, run [] ops = some ((refRun [] ops).1, live) ∧ live.length = (refRun [] ops).2.length ∧
      (∀ (slot : Nat) (map : PersistentOrdMap K V) (reference : Reference K V), live[slot]? = some map →
        (refRun [] ops).2[slot]? = some reference →
        WellFormed map ∧ SortedKeys map.root.entries ∧ (∀ key, map.get key = reference[key]?) ∧
        (∀ key, map.containsKey key = reference.contains key) ∧ map.len = reference.size ∧
        map.iter.collect = reference.toList) ∧
      ∀ later slot, (∀ op ∈ later, op.target ≠ some slot) → ∀ map : PersistentOrdMap K V, live[slot]? = some map →
        ∃ results after, run [] (ops ++ later) = some (results, after) ∧ after[slot]? = some map := by
  obtain ⟨live, ran, related⟩ := run_represents .nil ops
  refine ⟨live, ran, related.length_eq, fun slot map reference held known => ?_, fun later slot others map held => ?_⟩
  · have represents : Represents map reference := by
      rcases slot_cases related slot with ⟨free, _⟩ | ⟨a, b, left, right, represents, _⟩
      · rw [free] at held
        cases held
      · rw [left] at held
        rw [right] at known
        cases held
        cases known
        exact represents
    exact ⟨represents.formed, represents.formed.sorted, represents.get, represents.containsKey, represents.len,
      represents.iter⟩
  · obtain ⟨after, rest, _⟩ := run_represents related later
    refine ⟨(refRun [] ops).1 ++ (refRun (refRun [] ops).2 later).1, after, ?_, run_keeps others held rest⟩
    simp only [run_append, ran, Option.bind_some, rest, Option.map_some]

end Rezzy.OrdMap
