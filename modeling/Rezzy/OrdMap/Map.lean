import Rezzy.OrdMap.Insert

namespace Rezzy.OrdMap

open List Node

section

variable {K V : Type}

/-- An ordered iterator: the ancestors with the next child of each, innermost first, and a position
    in the current leaf. -/
structure Iter (K V : Type) where
  stack : List (List (Node K V) × Nat)
  leaf : List (K × V)
  pos : Nat

def Node.count : Node K V → Nat
  | leaf _ => 1
  | internal _ children => (children.map count).sum + 1

namespace Iter

def descendLeftmost (stack : List (List (Node K V) × Nat)) : Node K V → Iter K V
  | .leaf entries => ⟨stack, entries, 0⟩
  | .internal _ children =>
    match _found : children[0]? with
    | none => ⟨stack, [], 0⟩
    | some first => descendLeftmost ((children, 1) :: stack) first
termination_by node => node
decreasing_by exact Node.sizeOf_child _found

def advance : List (List (Node K V) × Nat) → Option (Iter K V)
  | [] => none
  | (children, idx) :: stack =>
    match children[idx]? with
    | some child => some (descendLeftmost ((children, idx + 1) :: stack) child)
    | none => advance stack

def stackEntries (stack : List (List (Node K V) × Nat)) : List (K × V) :=
  stack.flatMap fun frame => (frame.1.drop frame.2).flatMap Node.entries

def stackCount (stack : List (List (Node K V) × Nat)) : Nat :=
  (stack.map fun frame => ((frame.1.drop frame.2).map Node.count).sum).sum

def pending (iter : Iter K V) : List (K × V) := iter.leaf.drop iter.pos ++ stackEntries iter.stack

section

variable (children : List (Node K V)) (idx : Nat) (stack : List (List (Node K V) × Nat))

theorem stackEntries_cons :
    stackEntries ((children, idx) :: stack) = (children.drop idx).flatMap Node.entries ++ stackEntries stack := rfl

theorem stackCount_cons :
    stackCount ((children, idx) :: stack) = ((children.drop idx).map Node.count).sum + stackCount stack := rfl

end

theorem drop_of_getElem? {α : Type} {items : List α} {idx : Nat} {item : α} (found : items[idx]? = some item) :
    items.drop idx = item :: items.drop (idx + 1) := by
  obtain ⟨inside, rfl⟩ := List.getElem?_eq_some_iff.mp found
  exact drop_eq_getElem_cons inside

theorem descendLeftmost_spec (stack : List (List (Node K V) × Nat)) (node : Node K V) :
    (descendLeftmost stack node).pending = node.entries ++ stackEntries stack ∧
      stackCount (descendLeftmost stack node).stack < stackCount stack + node.count := by
  induction node using byChildren generalizing stack with
  | leaf entries =>
    rw [descendLeftmost, entries_leaf, Node.count]
    exact ⟨rfl, Nat.lt_succ_self _⟩
  | internal keys children ih =>
    rw [descendLeftmost, entries_internal, Node.count]
    split
    · rename_i missing
      have none : children = [] := eq_nil_of_length_eq_zero (by simpa using missing)
      rw [none]
      exact ⟨rfl, Nat.lt_succ_self _⟩
    · rename_i first found
      obtain ⟨entries, fewer⟩ := ih first (mem_of_getElem? found) ((children, 1) :: stack)
      have split := drop_of_getElem? found
      rw [drop_zero, Nat.zero_add] at split
      constructor
      · rw [entries, stackEntries_cons, split]
        simp [flatMap_def]
      · have total := congrArg (fun nodes => (nodes.map Node.count).sum) split
        simp only [map_cons, sum_cons] at total
        rw [stackCount_cons] at fewer
        omega

theorem advance_spec (stack : List (List (Node K V) × Nat)) : (advance stack = none → stackEntries stack = []) ∧
      ∀ iter, advance stack = some iter → iter.pending = stackEntries stack ∧ stackCount iter.stack < stackCount stack := by
  induction stack with
  | nil => exact ⟨fun _ => rfl, fun _ found => nomatch found⟩
  | cons frame stack ih =>
    obtain ⟨children, idx⟩ := frame
    rw [advance]
    cases found : children[idx]? with
    | none =>
      have nothing : children.drop idx = [] := drop_eq_nil_iff.mpr (List.getElem?_eq_none_iff.mp found)
      rw [stackEntries_cons, stackCount_cons, nothing]
      simpa using ih
    | some child =>
      refine ⟨fun stuck => (nomatch stuck), fun iter moved => ?_⟩
      cases moved
      obtain ⟨entries, fewer⟩ := descendLeftmost_spec ((children, idx + 1) :: stack) child
      have split := drop_of_getElem? found
      constructor
      · rw [entries, stackEntries_cons, stackEntries_cons, split, flatMap_cons, append_assoc]
      · rw [stackCount_cons, split, map_cons, sum_cons]
        rw [stackCount_cons] at fewer
        omega

def next (iter : Iter K V) : Option ((K × V) × Iter K V) :=
  match iter.leaf[iter.pos]? with
  | some entry => some (entry, { iter with pos := iter.pos + 1 })
  | none =>
    match _moved : advance iter.stack with
    | none => none
    | some moved => moved.next
termination_by stackCount iter.stack
decreasing_by exact ((advance_spec _).2 _ _moved).2

theorem next_spec (iter : Iter K V) : (iter.next = none → iter.pending = []) ∧
      ∀ entry rest, iter.next = some (entry, rest) → iter.pending = entry :: rest.pending := by
  fun_induction next iter with
  | case1 iter entry found =>
    refine ⟨fun stuck => (nomatch stuck), fun _ _ same => ?_⟩
    cases same
    rw [pending, drop_of_getElem? found]
    rfl
  | case2 iter missing stuck =>
    refine ⟨fun _ => ?_, fun _ _ found => nomatch found⟩
    rw [pending, drop_eq_nil_iff.mpr (List.getElem?_eq_none_iff.mp missing), (advance_spec _).1 stuck]
    rfl
  | case3 iter missing moved found ih =>
    have same : iter.pending = moved.pending := by
      rw [pending, drop_eq_nil_iff.mpr (List.getElem?_eq_none_iff.mp missing), ((advance_spec _).2 _ found).1]
      rfl
    rw [same]
    exact ih

def collect (iter : Iter K V) : List (K × V) :=
  match _step : iter.next with
  | none => []
  | some (entry, rest) => entry :: rest.collect
termination_by iter.pending.length
decreasing_by
  rw [(next_spec iter).2 _ _ _step]
  exact Nat.lt_succ_self _

theorem collect_eq_pending (iter : Iter K V) : iter.collect = iter.pending := by
  fun_induction collect iter with
  | case1 iter done => exact ((next_spec iter).1 done).symm
  | case2 iter entry rest step ih => rw [ih, (next_spec iter).2 _ _ step]

end Iter

def PersistentOrdMap.iter (map : PersistentOrdMap K V) : Iter K V := Iter.descendLeftmost [] map.root

theorem collect_iter (map : PersistentOrdMap K V) : map.iter.collect = map.root.entries := by
  rw [PersistentOrdMap.iter, Iter.collect_eq_pending, (Iter.descendLeftmost_spec [] map.root).1]
  exact append_nil _

end

open Fenced Sorted

variable {K V : Type}

def collapse : Node K V → Nat → Option (Node K V × Nat)
  | .internal _ [only], height => if height = 0 then none else collapse only (height - 1)
  | node, height => some (node, height)
termination_by node => node
decreasing_by
  simp only [Node.internal.sizeOf_spec, List.cons.sizeOf_spec, List.nil.sizeOf_spec]
  omega

theorem collapse_of_isEmpty (empty : root.isEmpty = true) : collapse root height = some (root, height) := by
  rw [OrdMap.collapse]
  rintro keys only rfl
  simp [Node.isEmpty] at empty

namespace PersistentOrdMap

variable [LinearOrder K]

def get (map : PersistentOrdMap K V) (key : K) : Option V := map.root.get key

def containsKey (map : PersistentOrdMap K V) (key : K) : Bool := (map.get key).isSome

def insert (map : PersistentOrdMap K V) (key : K) (value : V) : Option (Option V × PersistentOrdMap K V) := do
  let inserted ← insertRec key value map.root
  let len := if inserted.old.isNone then map.len + 1 else map.len
  match inserted.split with
  | none => some (inserted.old, ⟨inserted.node, map.height, len⟩)
  | some (separator, right) =>
    some (inserted.old, ⟨.internal [separator] [inserted.node, right], map.height + 1, len⟩)

def remove (map : PersistentOrdMap K V) (unique : Nat → Bool) (key : K) :
    Option (Option V × PersistentOrdMap K V) := do
  match ← removeRec unique key map.root with
  | none => some (none, map)
  | some (root, removed) =>
    if map.len = 0 then none
    else
      let len := map.len - 1
      let (root, height) ← collapse root map.height
      some (some removed, if len = 0 then new else ⟨root, height, len⟩)

end PersistentOrdMap

variable [LinearOrder K]

theorem Valid.collapse {height : Nat} {root : Node K V} (valid : Valid height none none root) :
    ∃ top level, collapse root height = some (top, level) ∧ Valid level none none top ∧ top.entries = root.entries := by
  induction height generalizing root with
  | zero =>
    cases root with
    | leaf entries => exact ⟨.leaf entries, 0, by rw [OrdMap.collapse]; simp, valid, rfl⟩
    | internal keys children => exact valid.elim
  | succ height ih =>
    cases root with
    | leaf entries => exact valid.elim
    | internal keys children =>
      by_cases single : ∃ only, children = [only]
      · obtain ⟨only, rfl⟩ := single
        cases valid.2 with
        | last inner =>
          obtain ⟨top, level, computed, shape, contents⟩ := ih inner
          refine ⟨top, level, ?_, shape, ?_⟩
          · rw [OrdMap.collapse, if_neg (Nat.succ_ne_zero height), Nat.add_sub_cancel, computed]
          · rw [contents, entries_internal]
            simp
        | link _ rest => cases rest
      · refine ⟨_, _, ?_, valid, rfl⟩
        rw [OrdMap.collapse]
        rintro _ only same
        cases same
        exact single ⟨only, rfl⟩

variable {map : PersistentOrdMap K V}

variable (formed : WellFormed map)
include formed

theorem WellFormed.get (key : K) : map.get key = lookup map.root.entries key := by
  rcases formed.tree with valid | ⟨empty, _⟩
  · exact valid.get (.none key)
  · rw [PersistentOrdMap.get, empty, Node.get, entries_leaf]
    rfl

theorem WellFormed.insertRec (key : K) (value : V) : ∃ inserted, insertRec key value map.root = some inserted ∧
      Inserts map.height none none map.root.entries key value inserted := by
  rcases formed.tree with valid | ⟨empty, level⟩
  · exact insertRec_spec valid (.none key) value
  · rw [empty, level, OrdMap.insertRec, entries_leaf]
    exact insertLeaf_spec List.Pairwise.nil (by simp) (by simp) (.none key)

theorem WellFormed.insert (key : K) (value : V) :
    ∃ after, map.insert key value = some (lookup map.root.entries key, after) ∧ WellFormed after ∧
      after.root.entries = assign map.root.entries key value := by
  obtain ⟨⟨old, node, split⟩, computed, inserts⟩ := formed.insertRec key value
  have same : old = lookup map.root.entries key := inserts.old
  have len : (if old.isNone then map.len + 1 else map.len) = (assign map.root.entries key value).length := by
    rw [assign_length formed.sorted, ← same, formed.len]
    cases old <;> simp
  have row := inserts.row
  have contents := inserts.entries
  cases split with
  | none =>
    cases row with
    | last valid =>
      have whole : node.entries = assign map.root.entries key value := by
        simpa [Inserted.nodes] using contents
      refine ⟨⟨node, map.height, if old.isNone then map.len + 1 else map.len⟩, ?_, ⟨.inl valid, ?_⟩, whole⟩
      · rw [PersistentOrdMap.insert, computed, ← same]
        rfl
      · rw [len, whole]
  | some half =>
    obtain ⟨separator, right⟩ := half
    have whole : (internal [separator] [node, right]).entries = assign map.root.entries key value := by
      rw [entries_internal]
      exact contents
    refine ⟨⟨.internal [separator] [node, right], map.height + 1, if old.isNone then map.len + 1 else map.len⟩, ?_,
      ⟨.inl ⟨by simp [maxFanout], row⟩, ?_⟩, whole⟩
    · rw [PersistentOrdMap.insert, computed, ← same]
      rfl
    · rw [len, whole]

theorem WellFormed.remove (unique : Nat → Bool) (key : K) :
    ∃ after, map.remove unique key = some (lookup map.root.entries key, after) ∧ WellFormed after ∧
      after.root.entries = erase map.root.entries key := by
  rw [PersistentOrdMap.remove, removeRec_eq_removeCopied]
  rcases formed.tree with valid | ⟨empty, _⟩
  · obtain ⟨result, computed, absent, present⟩ := removeCopied_spec valid (.none key)
    rw [computed]
    cases result with
    | none => exact ⟨map, by rw [absent rfl]; rfl, formed, (erase_of_absent (absent rfl)).symm⟩
    | some result =>
      obtain ⟨root, removed⟩ := result
      have removes := present root removed rfl
      have fewer := erase_length formed.sorted removes.removed
      have counted := formed.len
      rw [removes.removed]
      by_cases cleared : map.len - 1 = 0
      · have nothing : erase map.root.entries key = [] := eq_nil_of_length_eq_zero (by omega)
        obtain ⟨top, level, collapsed⟩ : ∃ top level, OrdMap.collapse root map.height = some (top, level) := by
          rcases removes.shape with inner | hollow
          · obtain ⟨top, level, collapsed, _⟩ := inner.collapse
            exact ⟨top, level, collapsed⟩
          · exact ⟨_, _, collapse_of_isEmpty hollow⟩
        refine ⟨.new, ?_, .new, ?_⟩
        · simp [collapsed, cleared, show map.len ≠ 0 by omega]
        · rw [nothing, PersistentOrdMap.new, entries_leaf]
      · have inner := removes.shape.resolve_right fun hollow => by
          have nothing := removes.entries.symm.trans (entries_of_isEmpty hollow)
          rw [nothing, length_nil] at fewer
          omega
        obtain ⟨top, level, collapsed, shape, contents⟩ := inner.collapse
        refine ⟨⟨top, level, map.len - 1⟩, ?_, ⟨.inl shape, ?_⟩, ?_⟩
        · simp [collapsed, cleared, show map.len ≠ 0 by omega]
        · change map.len - 1 = top.entries.length
          rw [contents, removes.entries]
          omega
        · rw [contents, removes.entries]
  · have nothing : map.root.entries = [] := by rw [empty, entries_leaf]
    refine ⟨map, ?_, formed, ?_⟩
    · rw [empty, removeCopied, entries_leaf]
      rfl
    · rw [nothing]
      rfl

end Rezzy.OrdMap
