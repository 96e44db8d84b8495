import Rezzy.OrdMap.Map

namespace Rezzy.OrdMap

open List

variable {K V : Type}

inductive DiffItem (K V : Type) where
  | add (key : K) (value : V)
  | update (old new : K × V)
  | remove (key : K) (value : V)

inductive Head (K V : Type) where
  | node (node : Node K V)
  | entry (key : K) (value : V)

inductive Frame (K V : Type) where
  | nodes (items : List (Node K V)) (idx height : Nat)
  | entries (items : List (K × V)) (idx : Nat)

abbrev Cursor (K V : Type) := List (Frame K V)

namespace Cursor

def new (root : Node K V) (height : Nat) : Cursor K V := [.nodes [root] 0 height]

def head : Cursor K V → Option (Head K V) × Cursor K V
  | [] => (none, [])
  | .nodes items idx height :: stack =>
    match items[idx]? with
    | some node => (some (.node node), .nodes items idx height :: stack)
    | none => head stack
  | .entries items idx :: stack =>
    match items[idx]? with
    | some (key, value) => (some (.entry key value), .entries items idx :: stack)
    | none => head stack

def skip : Cursor K V → Cursor K V
  | [] => []
  | .nodes items idx height :: stack => .nodes items (idx + 1) height :: stack
  | .entries items idx :: stack => .entries items (idx + 1) :: stack

def expand : Cursor K V → Cursor K V
  | .nodes items idx height :: stack =>
    match items[idx]? with
    | none => .nodes items idx height :: stack
    | some (.leaf entries) => .entries entries 0 :: .nodes items (idx + 1) height :: stack
    | some (.internal _ children) => .nodes children 0 (height - 1) :: .nodes items (idx + 1) height :: stack
  | stack => stack

def frameHeight : Cursor K V → Nat
  | .nodes _ _ height :: _ => height
  | _ => 0

end Cursor

def Node.weight : Node K V → Nat
  | leaf entries => entries.length + 1
  | internal _ children => (children.map weight).sum + 1

namespace Frame

def remaining : Frame K V → List (K × V)
  | nodes items idx _ => (items.drop idx).flatMap Node.entries
  | entries items idx => items.drop idx

def weight : Frame K V → Nat
  | nodes items idx _ => ((items.drop idx).map Node.weight).sum
  | entries items idx => (items.drop idx).length

end Frame

namespace Cursor

def remaining (cursor : Cursor K V) : List (K × V) := cursor.flatMap Frame.remaining

def weight (cursor : Cursor K V) : Nat := (cursor.map Frame.weight).sum

inductive Stands : Head K V → Cursor K V → Prop
  | node {items : List (Node K V)} {idx height : Nat} {stack : Cursor K V} {node : Node K V}
    (found : items[idx]? = some node) : Stands (.node node) (.nodes items idx height :: stack)
  | entry {items : List (K × V)} {idx : Nat} {stack : Cursor K V} {key : K} {value : V}
    (found : items[idx]? = some (key, value)) : Stands (.entry key value) (.entries items idx :: stack)

theorem remaining_cons (frame : Frame K V) (stack : Cursor K V) :
    remaining (frame :: stack) = frame.remaining ++ stack.remaining := rfl

theorem weight_cons (frame : Frame K V) (stack : Cursor K V) :
    weight (frame :: stack) = frame.weight + stack.weight := rfl

theorem head_spec (cursor : Cursor K V) :
    cursor.head.2.remaining = cursor.remaining ∧ cursor.head.2.weight ≤ cursor.weight ∧
      (cursor.head.1 = none → cursor.remaining = [] ∧ cursor.head.2 = []) ∧
      ∀ item, cursor.head.1 = some item → Stands item cursor.head.2 := by
  induction cursor with
  | nil => exact ⟨rfl, Nat.le_refl _, fun _ => ⟨rfl, rfl⟩, fun _ found => nomatch found⟩
  | cons frame stack ih =>
    cases frame with
    | nodes items idx height =>
      rw [head]
      cases found : items[idx]? with
      | some node =>
        refine ⟨rfl, Nat.le_refl _, fun missing => (nomatch missing), fun item same => ?_⟩
        cases same
        exact .node found
      | none =>
        have nothing : items.drop idx = [] := drop_eq_nil_iff.mpr (List.getElem?_eq_none_iff.mp found)
        simpa [remaining_cons, weight_cons, Frame.remaining, Frame.weight, nothing] using ih
    | entries items idx =>
      rw [head]
      cases found : items[idx]? with
      | some entry =>
        refine ⟨rfl, Nat.le_refl _, fun missing => (nomatch missing), fun item same => ?_⟩
        cases same
        exact .entry found
      | none =>
        have nothing : items.drop idx = [] := drop_eq_nil_iff.mpr (List.getElem?_eq_none_iff.mp found)
        simpa [remaining_cons, weight_cons, Frame.remaining, Frame.weight, nothing] using ih

theorem head_suffix (cursor : Cursor K V) : cursor.head.2 <:+ cursor := by
  induction cursor with
  | nil => exact suffix_rfl
  | cons frame stack ih =>
    cases frame with
    | nodes items idx height =>
      rw [head]
      split
      · exact suffix_rfl
      · exact ih.trans (suffix_cons ..)
    | entries items idx =>
      rw [head]
      split
      · exact suffix_rfl
      · exact ih.trans (suffix_cons ..)

theorem Stands.skip_entry (stands : Stands (.entry key value) cursor) :
    cursor.remaining = (key, value) :: cursor.skip.remaining ∧ cursor.skip.weight < cursor.weight := by
  cases stands with
  | entry found =>
    have split := Iter.drop_of_getElem? found
    rw [skip, remaining_cons, remaining_cons, weight_cons, weight_cons, Frame.remaining, Frame.remaining,
      Frame.weight, Frame.weight, split, length_cons]
    exact ⟨rfl, by omega⟩

theorem Stands.skip_node {node : Node K V} (stands : Stands (.node node) cursor) :
    cursor.remaining = node.entries ++ cursor.skip.remaining ∧ cursor.skip.weight < cursor.weight := by
  cases stands with
  | node found =>
    have split := Iter.drop_of_getElem? found
    have some_ : 0 < node.weight := by cases node <;> rw [Node.weight] <;> omega
    rw [skip, remaining_cons, remaining_cons, weight_cons, weight_cons, Frame.remaining, Frame.remaining,
      Frame.weight, Frame.weight, split, flatMap_cons, append_assoc, map_cons, sum_cons]
    exact ⟨rfl, by omega⟩

theorem Stands.expand {node : Node K V} (stands : Stands (.node node) cursor) :
    cursor.expand.remaining = cursor.remaining ∧ cursor.expand.weight < cursor.weight := by
  cases stands with
  | @node items idx height stack node found =>
    have split := Iter.drop_of_getElem? found
    cases node with
    | leaf entries =>
      simp only [Cursor.expand, found, remaining_cons, weight_cons, Frame.remaining, Frame.weight, split,
        flatMap_cons, map_cons, sum_cons, Node.entries_leaf, Node.weight, drop_zero]
      exact ⟨(append_assoc ..).symm, by omega⟩
    | internal keys children =>
      simp only [Cursor.expand, found, remaining_cons, weight_cons, Frame.remaining, Frame.weight, split,
        flatMap_cons, map_cons, sum_cons, Node.entries_internal, Node.weight, drop_zero]
      exact ⟨by rw [append_assoc, flatMap_def, flatMap_def], by omega⟩

end Cursor

structure DiffWalker (K V : Type) where
  left : Cursor K V
  right : Cursor K V
  expansions : Nat

inductive Turn (K V : Type) where
  | done
  | emit (item : DiffItem K V) (walker : DiffWalker K V)
  | again (walker : DiffWalker K V)

abbrev PtrEq (K V : Type) := Cursor K V → Cursor K V → Bool

variable [LinearOrder K] (ptrEq : PtrEq K V)

def advanceNodes (left right : Cursor K V) (ln rn : Node K V) : Cursor K V × Cursor K V × Nat :=
  if ptrEq left right then (left.skip, right.skip, 0)
  else
    match ln.firstKey, rn.firstKey with
    | none, _ => (left.skip, right, 0)
    | some _, none => (left, right.skip, 0)
    | some lk, some rk =>
      if lk < rk then (left.expand, right, 1)
      else if rk < lk then (left, right.expand, 1)
      else
        -- the taller side first, so that subtrees realign; both when level
        let leftTaller := decide (right.frameHeight ≤ left.frameHeight)
        let rightTaller := decide (left.frameHeight ≤ right.frameHeight)
        (if leftTaller then left.expand else left, if rightTaller then right.expand else right,
          leftTaller.toNat + rightTaller.toNat)

variable [DecidableEq V]

def DiffWalker.turn (walker : DiffWalker K V) : Turn K V :=
  let (leftHead, left) := walker.left.head
  let (rightHead, right) := walker.right.head
  let opened := walker.expansions
  match leftHead, rightHead with
  | none, none => .done
  | some (.entry key value), none => .emit (.remove key value) ⟨left.skip, right, opened⟩
  | none, some (.entry key value) => .emit (.add key value) ⟨left, right.skip, opened⟩
  | some (.node _), none => .again ⟨left.expand, right, opened + 1⟩
  | none, some (.node _) => .again ⟨left, right.expand, opened + 1⟩
  | some (.entry lk lv), some (.entry rk rv) =>
    if lk < rk then .emit (.remove lk lv) ⟨left.skip, right, opened⟩
    else if rk < lk then .emit (.add rk rv) ⟨left, right.skip, opened⟩
    else if lv ≠ rv then .emit (.update (lk, lv) (rk, rv)) ⟨left.skip, right.skip, opened⟩
    else .again ⟨left.skip, right.skip, opened⟩
  | some (.node ln), some (.node rn) =>
    let (left, right, more) := advanceNodes ptrEq left right ln rn
    .again ⟨left, right, opened + more⟩
  | some (.node ln), some (.entry rk rv) =>
    match ln.firstKey with
    | none => .again ⟨left.skip, right, opened⟩
    | some lk =>
      if rk < lk then .emit (.add rk rv) ⟨left, right.skip, opened⟩
      else .again ⟨left.expand, right, opened + 1⟩
  | some (.entry lk lv), some (.node rn) =>
    match rn.firstKey with
    | none => .again ⟨left, right.skip, opened⟩
    | some rk =>
      if lk < rk then .emit (.remove lk lv) ⟨left.skip, right, opened⟩
      else .again ⟨left, right.expand, opened + 1⟩

def DiffWalker.weight (walker : DiffWalker K V) : Nat := walker.left.weight + walker.right.weight

inductive Beyond (key : K) (cursor : Cursor K V) : Prop
  | finished (nothing : cursor.remaining = [])
  | entry {other : K} {value : V} (stands : cursor.Stands (.entry other value)) (less : key < other)
  | node {node : Node K V} {first : K} (stands : cursor.Stands (.node node)) (least : node.firstKey = some first)
    (less : key < first)

inductive Step (left right : Cursor K V) : Turn K V → Prop
  | finish (leftDone : left.remaining = []) (rightDone : right.remaining = []) : Step left right .done
  | remove {key : K} {value : V} {opened : Nat} (stands : left.Stands (.entry key value)) (beyond : Beyond key right) :
    Step left right (.emit (.remove key value) ⟨left.skip, right, opened⟩)
  | add {key : K} {value : V} {opened : Nat} (stands : right.Stands (.entry key value)) (beyond : Beyond key left) :
    Step left right (.emit (.add key value) ⟨left, right.skip, opened⟩)
  | update {key : K} {old new : V} {opened : Nat} (leftStands : left.Stands (.entry key old))
    (rightStands : right.Stands (.entry key new)) (differ : old ≠ new) :
    Step left right (.emit (.update (key, old) (key, new)) ⟨left.skip, right.skip, opened⟩)
  | agree {key : K} {value : V} {opened : Nat} (leftStands : left.Stands (.entry key value))
    (rightStands : right.Stands (.entry key value)) : Step left right (.again ⟨left.skip, right.skip, opened⟩)
  | shared {ln rn : Node K V} {opened : Nat} (leftStands : left.Stands (.node ln))
    (rightStands : right.Stands (.node rn)) (same : ptrEq left right = true) :
    Step left right (.again ⟨left.skip, right.skip, opened⟩)
  | hollowLeft {node : Node K V} {opened : Nat} (stands : left.Stands (.node node)) (empty : node.firstKey = none) :
    Step left right (.again ⟨left.skip, right, opened⟩)
  | hollowRight {node : Node K V} {opened : Nat} (stands : right.Stands (.node node)) (empty : node.firstKey = none) :
    Step left right (.again ⟨left, right.skip, opened⟩)
  | openLeft {node : Node K V} {opened : Nat} (stands : left.Stands (.node node)) :
    Step left right (.again ⟨left.expand, right, opened⟩)
  | openRight {node : Node K V} {opened : Nat} (stands : right.Stands (.node node)) :
    Step left right (.again ⟨left, right.expand, opened⟩)
  | openBoth {ln rn : Node K V} {opened : Nat} (leftStands : left.Stands (.node ln))
    (rightStands : right.Stands (.node rn)) : Step left right (.again ⟨left.expand, right.expand, opened⟩)

omit [DecidableEq V] in
theorem advanceNodes_step (leftStands : left.Stands (.node ln)) (rightStands : right.Stands (.node rn)) (opened : Nat) :
    Step ptrEq left right (.again ⟨(advanceNodes ptrEq left right ln rn).1, (advanceNodes ptrEq left right ln rn).2.1,
      opened⟩) := by
  unfold advanceNodes
  split
  · exact .shared leftStands rightStands ‹_›
  split
  · exact .hollowLeft leftStands ‹_›
  · exact .hollowRight rightStands ‹_›
  split
  · exact .openLeft leftStands
  split
  · exact .openRight rightStands
  rcases lt_trichotomy left.frameHeight right.frameHeight with less | same | more
  · rw [decide_eq_false less.not_ge, decide_eq_true less.le]
    exact .openRight rightStands
  · rw [decide_eq_true same.ge, decide_eq_true same.le]
    exact .openBoth leftStands rightStands
  · rw [decide_eq_true more.le, decide_eq_false more.not_ge]
    exact .openLeft leftStands

theorem DiffWalker.turn_step (walker : DiffWalker K V) :
    Step ptrEq walker.left.head.2 walker.right.head.2 (walker.turn ptrEq) := by
  obtain ⟨leftSame, _, leftDone, leftStands⟩ := walker.left.head_spec
  obtain ⟨rightSame, _, rightDone, rightStands⟩ := walker.right.head_spec
  rw [turn]
  generalize walker.left.head = leftHead at *
  generalize walker.right.head = rightHead at *
  obtain ⟨leftItem, left⟩ := leftHead
  obtain ⟨rightItem, right⟩ := rightHead
  have leftFinished : leftItem = none → left.remaining = [] := fun none => leftSame.trans (leftDone none).1
  have rightFinished : rightItem = none → right.remaining = [] := fun none => rightSame.trans (rightDone none).1
  rcases leftItem with _ | ⟨ln⟩ | ⟨lk, lv⟩
  · rcases rightItem with _ | ⟨rn⟩ | ⟨rk, rv⟩
    · exact .finish (leftFinished rfl) (rightFinished rfl)
    · exact .openRight (rightStands _ rfl)
    · exact .add (rightStands _ rfl) (.finished (leftFinished rfl))
  · have leftHere := leftStands _ rfl
    rcases rightItem with _ | ⟨rn⟩ | ⟨rk, rv⟩
    · exact .openLeft leftHere
    · exact advanceNodes_step ptrEq leftHere (rightStands _ rfl) _
    · dsimp only
      split
      · exact .hollowLeft leftHere ‹_›
      split
      · exact .add (rightStands _ rfl) (.node leftHere ‹_› ‹_›)
      · exact .openLeft leftHere
  · have leftHere := leftStands _ rfl
    rcases rightItem with _ | ⟨rn⟩ | ⟨rk, rv⟩
    · exact .remove leftHere (.finished (rightFinished rfl))
    · dsimp only
      split
      · exact .hollowRight (rightStands _ rfl) ‹_›
      split
      · exact .remove leftHere (.node (rightStands _ rfl) ‹_› ‹_›)
      · exact .openRight (rightStands _ rfl)
    · have rightHere := rightStands _ rfl
      dsimp only
      split
      · exact .remove leftHere (.entry rightHere ‹_›)
      split
      · exact .add rightHere (.entry leftHere ‹_›)
      have same : rk = lk := le_antisymm (not_lt.mp ‹_›) (not_lt.mp ‹_›)
      subst same
      split
      · exact .update leftHere rightHere ‹_›
      · rename_i equal
        rw [not_not.mp equal] at leftHere
        exact .agree leftHere rightHere

def Turn.walker? : Turn K V → Option (DiffWalker K V)
  | done => none
  | emit _ walker | again walker => some walker

omit [DecidableEq V] in
theorem Step.weight (step : Step ptrEq left right turn) :
    ∀ after ∈ turn.walker?, after.weight < left.weight + right.weight := by
  intro _ moved
  cases step with
  | finish => cases moved
  | remove stands => cases moved; exact Nat.add_lt_add_right stands.skip_entry.2 _
  | add stands => cases moved; exact Nat.add_lt_add_left stands.skip_entry.2 _
  | update leftStands rightStands => cases moved; exact Nat.add_lt_add leftStands.skip_entry.2 rightStands.skip_entry.2
  | agree leftStands rightStands => cases moved; exact Nat.add_lt_add leftStands.skip_entry.2 rightStands.skip_entry.2
  | shared leftStands rightStands => cases moved; exact Nat.add_lt_add leftStands.skip_node.2 rightStands.skip_node.2
  | hollowLeft stands => cases moved; exact Nat.add_lt_add_right stands.skip_node.2 _
  | hollowRight stands => cases moved; exact Nat.add_lt_add_left stands.skip_node.2 _
  | openLeft stands => cases moved; exact Nat.add_lt_add_right stands.expand.2 _
  | openRight stands => cases moved; exact Nat.add_lt_add_left stands.expand.2 _
  | openBoth leftStands rightStands => cases moved; exact Nat.add_lt_add leftStands.expand.2 rightStands.expand.2

theorem DiffWalker.turn_weight (walker : DiffWalker K V) :
    ∀ after ∈ (walker.turn ptrEq).walker?, after.weight < walker.weight := by
  intro after moved
  have lighter := (walker.turn_step ptrEq).weight ptrEq after moved
  exact lighter.trans_le (Nat.add_le_add walker.left.head_spec.2.1 walker.right.head_spec.2.1)

def DiffWalker.nextItem (walker : DiffWalker K V) : Option (DiffItem K V × DiffWalker K V) :=
  match _turn : walker.turn ptrEq with
  | .done => none
  | .emit item after => some (item, after)
  | .again after => after.nextItem
termination_by walker.weight
decreasing_by
  apply walker.turn_weight ptrEq
  rw [_turn]
  rfl

theorem DiffWalker.nextItem_weight {walker after : DiffWalker K V} (next : walker.nextItem ptrEq = some (item, after)) :
    after.weight < walker.weight := by
  fun_induction nextItem ptrEq walker with
  | case1 walker done => cases next
  | case2 walker item after turn =>
    cases next
    exact walker.turn_weight ptrEq _ (by rw [turn]; rfl)
  | case3 walker between turn ih => exact (ih next).trans (walker.turn_weight ptrEq _ (by rw [turn]; rfl))

def DiffWalker.items (walker : DiffWalker K V) : List (DiffItem K V) :=
  match _next : walker.nextItem ptrEq with
  | none => []
  | some (item, after) => item :: after.items
termination_by walker.weight
decreasing_by exact nextItem_weight ptrEq _next

namespace PersistentOrdMap

def diffWalker (old new : PersistentOrdMap K V) : DiffWalker K V :=
  ⟨.new old.root old.height, .new new.root new.height, 0⟩

def diff (old new : PersistentOrdMap K V) : List (DiffItem K V) := (diffWalker old new).items ptrEq

/-- The source's `PartialEq`: the same root, or equal lengths and no first difference. -/
def eq (left right : PersistentOrdMap K V) : Bool :=
  ptrEq (.new left.root left.height) (.new right.root right.height) ||
    (left.len == right.len && ((diffWalker left right).nextItem ptrEq).isNone)

end PersistentOrdMap

end Rezzy.OrdMap
