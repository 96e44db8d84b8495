import Rezzy.OrdMap.Runs

namespace Rezzy.OrdMap

open List

section

variable {K V : Type} [LinearOrder K]

inductive Bound (K : Type) where
  | unbounded
  | included (key : K)
  | excluded (key : K)

def Bound.above : Bound K → K → Bool
  | .unbounded, _ => true
  | .included start, key => start ≤ key
  | .excluded start, key => start < key

def Bound.below : Bound K → K → Bool
  | .unbounded, _ => true
  | .included stop, key => key ≤ stop
  | .excluded stop, key => key < stop

def Iter.empty : Iter K V := ⟨[], [], 0⟩

def Iter.seek (key : K) (inclusive : Bool) (stack : List (List (Node K V) × Nat)) : Node K V → Option (Iter K V)
  | .leaf entries =>
    let before := fun (entry : K × V) => if inclusive then decide (entry.1 < key) else decide (entry.1 ≤ key)
    some ⟨stack, entries, partitionPoint before entries⟩
  | .internal keys children =>
    if children.isEmpty then some ⟨stack, [], 0⟩
    else
      let idx := childIndex keys key
      match _found : children[idx]? with
      | none => none
      | some child => seek key inclusive ((children, idx + 1) :: stack) child
termination_by node => node
decreasing_by exact Node.sizeOf_child _found

structure Range (K V : Type) where
  iter : Iter K V
  stop : Bound K

namespace Range

def next (range : Range K V) : Option (K × V) × Range K V :=
  match range.iter.next with
  | none => (none, range)
  | some (entry, rest) =>
    if range.stop.below entry.1 then (some entry, { range with iter := rest })
    else (none, { range with iter := .empty })

theorem next_shorter {range rest : Range K V} (step : range.next = (some entry, rest)) :
    rest.iter.pending.length < range.iter.pending.length := by
  unfold next at step
  split at step
  · cases step
  · rename_i found
    split at step
    · cases step
      rw [(Iter.next_spec range.iter).2 _ _ found]
      exact Nat.lt_succ_self _
    · cases step

def collect (range : Range K V) : List (K × V) :=
  match _step : range.next with
  | (none, _) => []
  | (some entry, rest) => entry :: rest.collect
termination_by range.iter.pending.length
decreasing_by exact next_shorter _step

end Range

def PersistentOrdMap.range (map : PersistentOrdMap K V) (start stop : Bound K) : Option (Range K V) := do
  let iter ← match start with
    | .unbounded => some map.iter
    | .included key => Iter.seek key true [] map.root
    | .excluded key => Iter.seek key false [] map.root
  return ⟨iter, stop⟩

end

open Fenced Sorted

variable {K V : Type} [LinearOrder K]

section

variable {entries : List (K × V)}

variable (sorted : SortedKeys entries) {test : K → Bool}
  (closed : ∀ less more, less < more → test more = true → test less = true)
include sorted closed

theorem takeWhile_sorted : entries.takeWhile (fun e => test e.1) = entries.filter fun e => test e.1 := by
  induction entries with
  | nil => rfl
  | cons e rest ih =>
    obtain ⟨above, sorted⟩ := pairwise_cons.mp sorted
    cases pass : test e.1 with
    | true => rw [takeWhile_cons_of_pos (by simpa using pass), filter_cons_of_pos (by simpa using pass), ih sorted]
    | false =>
      rw [takeWhile_cons_of_neg (by simp [pass]), filter_cons_of_neg (by simp [pass])]
      symm
      rw [filter_eq_nil_iff]
      intro later mem passes
      have earlier := closed _ _ (above later mem) passes
      rw [pass] at earlier
      cases earlier

theorem dropWhile_sorted :
    entries.drop (partitionPoint (fun e => test e.1) entries) = entries.filter fun e => !test e.1 := by
  induction entries with
  | nil => rfl
  | cons e rest ih =>
    obtain ⟨above, sorted⟩ := pairwise_cons.mp sorted
    unfold partitionPoint at ih ⊢
    cases pass : test e.1 with
    | true =>
      rw [takeWhile_cons_of_pos (by simpa using pass), length_cons, drop_succ_cons, ih sorted,
        filter_cons_of_neg (by simp [pass])]
    | false =>
      rw [takeWhile_cons_of_neg (by simp [pass]), length_nil, drop_zero]
      symm
      rw [filter_eq_self]
      intro later mem
      rcases mem_cons.mp mem with rfl | mem
      · simp [pass]
      · cases passes : test later.1 with
        | false => rfl
        | true =>
          have earlier := closed _ _ (above later mem) passes
          rw [pass] at earlier
          cases earlier

end

def comesBefore (key : K) (inclusive : Bool) (other : K) : Bool :=
  if inclusive then decide (other < key) else decide (other ≤ key)

theorem comesBefore_closed (key : K) (inclusive : Bool) (less more : K) (order : less < more)
    (before : comesBefore key inclusive more = true) : comesBefore key inclusive less = true := by
  cases inclusive with
  | true => exact decide_eq_true (order.trans (of_decide_eq_true before))
  | false => exact decide_eq_true (order.le.trans (of_decide_eq_true before))

theorem comesBefore_of_lt {key other : K} (inclusive : Bool) (less : other < key) :
    comesBefore key inclusive other = true := by
  cases inclusive with
  | true => exact decide_eq_true less
  | false => exact decide_eq_true less.le

theorem comesBefore_of_gt {key other : K} (inclusive : Bool) (more : key < other) :
    comesBefore key inclusive other = false := by
  cases inclusive with
  | true => exact decide_eq_false (not_lt.mpr more.le)
  | false => exact decide_eq_false (not_le.mpr more)

theorem Valid.seek (inclusive : Bool) (valid : Valid height lo hi node) (within : Within lo hi key)
    (stack : List (List (Node K V) × Nat)) : ∃ iter, Iter.seek key inclusive stack node = some iter ∧
      iter.pending = (node.entries.filter fun e => !comesBefore key inclusive e.1) ++ Iter.stackEntries stack := by
  induction height generalizing lo hi node stack with
  | zero =>
    cases node with
    | leaf entries =>
      refine ⟨_, by rw [Iter.seek], ?_⟩
      rw [Iter.pending, Node.entries_leaf]
      congr 1
      exact dropWhile_sorted valid.1 (comesBefore_closed key inclusive)
    | internal keys children => exact valid.elim
  | succ height ih =>
    cases node with
    | leaf entries => exact valid.elim
    | internal keys children =>
      obtain ⟨leftKeys, rightKeys, left, child, right, low, high, rfl, rfl, index, inner, hole, below, above⟩ :=
        valid.descend within
      obtain ⟨iter, found, pending⟩ := ih inner hole.within ((left ++ child :: right, left.length + 1) :: stack)
      have here : (left ++ child :: right)[left.length]? = some child := by simp
      refine ⟨iter, ?_, ?_⟩
      · rw [Iter.seek, if_neg (by simp), index]
        dsimp only
        split
        · rename_i missing
          rw [here] at missing
          cases missing
        · rename_i own taken
          rw [here] at taken
          rw [← Option.some.inj taken]
          exact found
      · have passed : ((left.map Node.entries).flatten.filter fun e => !comesBefore key inclusive e.1) = [] := by
          rw [filter_eq_nil_iff]
          intro e mem
          simp [comesBefore_of_lt inclusive (below e mem)]
        have ahead : ((right.map Node.entries).flatten.filter fun e => !comesBefore key inclusive e.1) =
            (right.map Node.entries).flatten := by
          rw [filter_eq_self]
          intro e mem
          simp [comesBefore_of_gt inclusive (above e mem)]
        have rest : (left ++ child :: right).drop (left.length + 1) = right := by simp
        rw [pending, Iter.stackEntries_cons, rest, Node.entries_split, filter_append, filter_append, passed,
          ahead, nil_append, append_assoc, flatMap_def]

theorem WellFormed.seek {map : PersistentOrdMap K V} (formed : WellFormed map) (key : K) (inclusive : Bool) :
    ∃ iter, Iter.seek key inclusive [] map.root = some iter ∧
      iter.pending = map.root.entries.filter fun e => !comesBefore key inclusive e.1 := by
  rcases formed.tree with valid | ⟨empty, _⟩
  · obtain ⟨iter, found, pending⟩ := valid.seek inclusive ⟨fun _ known => (by cases known), fun _ known => (by cases known)⟩ []
    exact ⟨iter, found, by rw [pending]; exact append_nil _⟩
  · rw [empty, Iter.seek]
    exact ⟨_, rfl, by simp [Iter.pending, Iter.stackEntries]⟩

theorem Bound.below_closed (stop : Bound K) (less more : K) (order : less < more) (inside : stop.below more = true) :
    stop.below less = true := by
  cases stop with
  | unbounded => rfl
  | included key => exact decide_eq_true (order.le.trans (of_decide_eq_true inside))
  | excluded key => exact decide_eq_true (order.trans (of_decide_eq_true inside))

theorem Range.collect_eq (range : Range K V) :
    range.collect = range.iter.pending.takeWhile fun e => range.stop.below e.1 := by
  fun_induction Range.collect range with
  | case1 range ended step =>
    unfold Range.next at step
    split at step
    · rename_i done
      rw [(Iter.next_spec range.iter).1 done]
      rfl
    · rename_i entry rest found
      split at step
      · cases step
      · rename_i behind
        rw [(Iter.next_spec range.iter).2 _ _ found,
          takeWhile_cons_of_neg (p := fun e : K × V => range.stop.below e.1) behind]
  | case2 range entry rest step ih =>
    unfold Range.next at step
    split at step
    · cases step
    · rename_i entry' rest' found
      split at step
      · rename_i inside
        cases step
        rw [(Iter.next_spec range.iter).2 _ _ found,
          takeWhile_cons_of_pos (p := fun e : K × V => range.stop.below e.1) inside, ih]
      · cases step

theorem WellFormed.range {map : PersistentOrdMap K V} (formed : WellFormed map) (start stop : Bound K) :
    ∃ range, map.range start stop = some range ∧
      range.collect = map.root.entries.filter fun e => start.above e.1 && stop.below e.1 := by
  have bounded : ∀ {iter : Iter K V}, iter.pending = (map.root.entries.filter fun e => start.above e.1) →
      Range.collect ⟨iter, stop⟩ = map.root.entries.filter fun e => start.above e.1 && stop.below e.1 := by
    intro iter pending
    have sorted : SortedKeys (map.root.entries.filter fun e => start.above e.1) := List.Pairwise.filter _ formed.sorted
    rw [Range.collect_eq, pending, takeWhile_sorted sorted stop.below_closed, filter_filter]
    exact filter_congr fun e _ => Bool.and_comm _ _
  cases start with
  | unbounded =>
    refine ⟨_, rfl, bounded ?_⟩
    rw [← Iter.collect_eq_pending, collect_iter]
    exact (filter_eq_self.mpr fun e _ => rfl).symm
  | included key =>
    obtain ⟨iter, found, pending⟩ := formed.seek key true
    refine ⟨⟨iter, stop⟩, by rw [PersistentOrdMap.range, found]; rfl, bounded ?_⟩
    rw [pending]
    apply filter_congr
    intro e _
    rw [Bool.eq_iff_iff]
    simp [comesBefore, Bound.above]
  | excluded key =>
    obtain ⟨iter, found, pending⟩ := formed.seek key false
    refine ⟨⟨iter, stop⟩, by rw [PersistentOrdMap.range, found]; rfl, bounded ?_⟩
    rw [pending]
    apply filter_congr
    intro e _
    rw [Bool.eq_iff_iff]
    simp [comesBefore, Bound.above]

/-- A range of a map yields its entries between the bounds, in key order and each of them once. -/
theorem range_exact (map : PersistentOrdMap K V) (formed : WellFormed map) (start stop : Bound K) :
    ∃ range, map.range start stop = some range ∧ SortedKeys range.collect ∧
      ∀ key value, (key, value) ∈ range.collect ↔
        map.get key = some value ∧ start.above key = true ∧ stop.below key = true := by
  obtain ⟨range, made, collected⟩ := formed.range start stop
  refine ⟨range, made, ?_, fun key value => ?_⟩
  · rw [collected]
    exact List.Pairwise.filter _ formed.sorted
  · rw [collected, mem_filter, formed.get, mem_iff_lookup formed.sorted, Bool.and_eq_true]

theorem range_exact_excluded :
    ∃ map : PersistentOrdMap Nat Nat, fromIter [(3, 30), (1, 10), (5, 50)] = some map ∧ WellFormed map ∧
      ∃ range, map.range (.excluded 1) (.included 5) = some range ∧ SortedKeys range.collect ∧
        ∀ key value, (key, value) ∈ range.collect ↔ map.get key = some value ∧
          (Bound.excluded 1).above key = true ∧ (Bound.included 5).below key = true := by
  obtain ⟨map, built, formed, -⟩ := fromIter_spec [(3, 30), (1, 10), (5, 50)]
  exact ⟨map, built, formed, range_exact map formed (.excluded 1) (.included 5)⟩

end Rezzy.OrdMap
