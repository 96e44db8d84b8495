import Rezzy.Lib.Packed
import Rezzy.OrdMap.Node

namespace Rezzy.OrdMap

open List Option
open Node (entries_leaf entries_split internal isEmpty sizeOf_child)

section

open Fenced Sorted

variable {K V : Type}

def dropIfEmpty (keys : List K) (children : List (Node K V)) (idx : Nat) : Option (Node K V) := do
  let child ← children[idx]?
  if child.isEmpty then
    if keys.isEmpty then some (.internal keys (children.eraseIdx idx))
    else if idx - 1 < keys.length then some (.internal (keys.eraseIdx (idx - 1)) (children.eraseIdx idx))
    else none
  else
    some (.internal keys children)

theorem Node.entries_of_isEmpty {node : Node K V} (empty : node.isEmpty = true) : node.entries = [] := by
  cases node with
  | leaf entries => simpa [isEmpty] using empty
  | internal keys children =>
    have none : children = [] := by simpa [isEmpty] using empty
    rw [Node.entries_internal, none]
    rfl

section

variable [LinearOrder K]

-- outer `none`: an index out of bounds, where the source panics; inner `none`: the key is absent
def removeCopied (key : K) : Node K V → Option (Option (Node K V × V))
  | .leaf entries =>
    match binarySearch entries key with
    | .error _ => some none
    | .ok i => do
      let (_, removed) ← entries[i]?
      some (some (.leaf (entries.take i ++ entries.drop (i + 1)), removed))
  | .internal keys children =>
    let idx := childIndex keys key
    match _found : children[idx]? with
    | none => none
    | some child => do
      match ← removeCopied key child with
      | none => some none
      | some (rebuilt, removed) =>
        let node ← dropIfEmpty keys (children.set idx rebuilt) idx
        some (some (node, removed))
termination_by node => node
decreasing_by exact sizeOf_child _found

/-- Removal below a node. The oracle says, level by level, whether the node is unshared: then it is edited in place,
    else its path is rebuilt. -/
def removeRec (unique : Nat → Bool) (key : K) (node : Node K V) : Option (Option (Node K V × V)) :=
  if unique 0 then
    match node with
    | .leaf entries =>
      match binarySearch entries key with
      | .error _ => some none
      | .ok i => do
        let (_, removed) ← entries[i]?
        some (some (.leaf (entries.eraseIdx i), removed))
    | .internal keys children =>
      let idx := childIndex keys key
      match _found : children[idx]? with
      | none => none
      | some child => do
        match ← removeRec (fun level => unique (level + 1)) key child with
        | none => some none
        | some (edited, removed) =>
          let node ← dropIfEmpty keys (children.set idx edited) idx
          some (some (node, removed))
  else
    removeCopied key node
termination_by node
decreasing_by exact sizeOf_child _found

end

variable [LinearOrder K]

theorem removeRec_eq_removeCopied (unique : Nat → Bool) (key : K) (node : Node K V) :
    removeRec unique key node = removeCopied key node := by
  induction node using Node.byChildren generalizing unique with
  | leaf entries =>
    rw [removeRec.eq_def]
    by_cases alone : unique 0 = true
    · rw [if_pos alone, removeCopied]
      simp only [eraseIdx_eq_take_drop_succ]
    · rw [if_neg alone]
  | internal keys children ih =>
    rw [removeRec.eq_def]
    by_cases alone : unique 0 = true
    · rw [if_pos alone, removeCopied]
      dsimp only
      split
      · rfl
      · rename_i child found
        rw [ih child (mem_of_getElem? found)]
    · rw [if_neg alone]

structure Removes (height : Nat) (lo hi : Option K) (entries : List (K × V)) (key : K) (node : Node K V)
    (removed : V) : Prop where
  removed : lookup entries key = some removed
  entries : node.entries = erase entries key
  shape : Valid height lo hi node ∨ node.isEmpty = true

variable {height : Nat} {lo hi : Option K} {key : K} {node : Node K V}

theorem Valid.isEmpty (valid : Valid height lo hi node) : node.isEmpty = false := by
  rw [Bool.eq_false_iff]
  exact fun empty => valid.fills.ne_nil (Node.entries_of_isEmpty empty)

theorem removeLeaf_spec (valid : Valid 0 lo hi (.leaf entries)) :
    ∃ result, removeCopied key (.leaf entries) = some result ∧ (result = none → lookup entries key = none) ∧
      ∀ node removed, result = some (node, removed) → Removes 0 lo hi entries key node removed := by
  obtain ⟨sorted, _, few, inside⟩ := valid
  obtain ⟨before, after, below, above, ⟨rfl, search⟩ | ⟨old, rfl, search⟩⟩ := binarySearch_spec sorted key
  · refine ⟨none, by rw [removeCopied, search], fun _ => lookup_middle [] below above, ?_⟩
    exact fun _ _ found => nomatch found
  · have here : (before ++ (key, old) :: after)[before.length]? = some (key, old) := by simp
    have rest : (before ++ (key, old) :: after).take before.length ++
        (before ++ (key, old) :: after).drop (before.length + 1) = before ++ after := by simp
    have erased : erase (before ++ (key, old) :: after) key = before ++ after := by
      simpa using erase_middle [(key, old)] below above
    refine ⟨some (.leaf (before ++ after), old), ?_, fun absent => (nomatch absent), fun node removed same => ?_⟩
    · rw [removeCopied, search]
      simp only [here, rest]
      rfl
    · cases same
      refine ⟨?_, by rw [entries_leaf, erased], ?_⟩
      · exact (lookup_middle [(key, old)] below above).trans lookup_singleton
      · by_cases nothing : before ++ after = []
        · exact .inr (by rw [nothing]; rfl)
        · refine .inl ⟨erased ▸ sorted.erase key, nothing, ?_, fun e mem => inside e ?_⟩
          · simp only [length_append, length_cons] at few ⊢
            omega
          · rcases mem_append.mp mem with mem | mem
            · exact mem_append_left _ mem
            · exact mem_append_right _ (mem_cons_of_mem _ mem)

theorem dropIfEmpty_spec {child : Node K V}
    (valid : Valid (height + 1) lo hi (.internal (leftKeys ++ rightKeys) (left ++ child :: right)))
    (hole : Hole (Valid height) lo hi key leftKeys rightKeys left right low high)
    (shape : Valid height low high rebuilt ∨ rebuilt.isEmpty = true) :
    ∃ node, dropIfEmpty (leftKeys ++ rightKeys) (left ++ rebuilt :: right) left.length = some node ∧
      node.entries = (internal (leftKeys ++ rightKeys) (left ++ rebuilt :: right)).entries ∧
      (Valid (height + 1) lo hi node ∨ node.isEmpty = true) := by
  obtain ⟨few, row⟩ := valid
  rcases shape with inner | empty
  · refine ⟨.internal (leftKeys ++ rightKeys) (left ++ rebuilt :: right), ?_, rfl, .inl ⟨?_, ?_⟩⟩
    · simp [dropIfEmpty, inner.isEmpty]
    · simpa using few
    · exact hole.plug (.last inner)
  · have erased : ∀ child : Node K V, (left ++ child :: right).eraseIdx left.length = left ++ right := by
      intro child
      rw [eraseIdx_append_of_length_le (Nat.le_refl _), Nat.sub_self]
      rfl
    refine ⟨.internal (if (leftKeys ++ rightKeys).isEmpty then leftKeys ++ rightKeys
      else (leftKeys ++ rightKeys).eraseIdx (left.length - 1)) (left ++ right), ?_, ?_, ?_⟩
    · have count := row.length
      rw [length_append, length_cons] at count
      by_cases bare : (leftKeys ++ rightKeys).isEmpty = true
      · simp [dropIfEmpty, empty, erased, bare]
      · have some := length_pos_iff.mpr (mt isEmpty_iff.mpr bare)
        have here : left.length - 1 < (leftKeys ++ rightKeys).length := by omega
        simp only [dropIfEmpty, length_append] at here ⊢
        simp [empty, erased, bare, here]
    · rw [entries_split, Node.entries_of_isEmpty empty, Node.entries_internal]
      simp
    · by_cases alone : left ++ right = []
      · exact .inr (by rw [alone]; rfl)
      · have count : (left ++ child :: right).length = (left ++ right).length + 1 := by
          simp only [length_append, length_cons]
          omega
        have others := length_pos_iff.mpr alone
        have separators : (leftKeys ++ rightKeys).isEmpty = false := by
          have := row.length
          rw [isEmpty_eq_false_iff]
          intro none
          rw [none, length_nil] at this
          omega
        rw [separators]
        refine .inl ⟨by omega, ?_⟩
        have inside : left.length < (left ++ child :: right).length := by simp
        have dropped := Row.drop (P := Valid height) (fun _ _ _ => Valid.ranged) (fun _ _ _ _ _ => Valid.widen) row
          inside (by omega)
        rwa [erased] at dropped

theorem removeCopied_spec (valid : Valid height lo hi node) (within : Within lo hi key) :
    ∃ result, removeCopied key node = some result ∧ (result = none → lookup node.entries key = none) ∧
      ∀ rest removed, result = some (rest, removed) → Removes height lo hi node.entries key rest removed := by
  induction height generalizing lo hi node with
  | zero =>
    cases node with
    | leaf entries =>
      rw [entries_leaf]
      exact removeLeaf_spec valid
    | internal keys children => exact valid.elim
  | succ height ih =>
    cases node with
    | leaf entries => exact valid.elim
    | internal keys children =>
      obtain ⟨leftKeys, rightKeys, left, child, right, low, high, rfl, rfl, index, inner, hole, below, above⟩ :=
        valid.descend within
      obtain ⟨result, computed, absent, present⟩ := ih inner hole.within
      have found : (left ++ child :: right)[left.length]? = some child := by simp
      rw [removeCopied, index]
      split
      · rename_i missing
        rw [found] at missing
        cases missing
      rename_i c same
      rw [found] at same
      cases same
      rw [computed]
      cases result with
      | none =>
        refine ⟨none, rfl, fun _ => ?_, fun _ _ found => nomatch found⟩
        rw [entries_split, lookup_middle _ below above]
        exact absent rfl
      | some result =>
        obtain ⟨rebuilt, removed⟩ := result
        have removes := present rebuilt removed rfl
        have placed : (left ++ child :: right).set left.length rebuilt = left ++ rebuilt :: right := by simp
        obtain ⟨node, dropped, contents, shape⟩ := dropIfEmpty_spec valid hole removes.shape
        refine ⟨some (node, removed), ?_, fun absent => (nomatch absent), fun rest value same => ?_⟩
        · simp only [placed, dropped, Option.bind_eq_bind, Option.bind_some]
        · cases same
          refine ⟨?_, ?_, shape⟩
          · rw [entries_split, lookup_middle _ below above, removes.removed]
          · rw [contents, entries_split, entries_split, erase_middle _ below above, removes.entries]

end

open Fenced Sorted

variable {K V : Type}

/-- What inserting below a node leaves: the value replaced, the node, and the separator and right
    half of a node that overflowed. -/
structure Inserted (K V : Type) where
  old : Option V
  node : Node K V
  split : Option (K × Node K V)

namespace Inserted

def keys (inserted : Inserted K V) : List K := (inserted.split.map Prod.fst).toList

def nodes (inserted : Inserted K V) : List (Node K V) := inserted.node :: (inserted.split.map Prod.snd).toList

end Inserted

section

variable [LinearOrder K]

-- `none` throughout: an index out of bounds, where the source panics
def insertLeaf (entries : List (K × V)) (key : K) (value : V) : Option (Inserted K V) :=
  match binarySearch entries key with
  | .ok i => do
    let (k, old) ← entries[i]?
    some ⟨some old, .leaf (entries.set i (k, value)), none⟩
  | .error i =>
    let entries := entries.insertIdx i (key, value)
    if entries.length > maxFanout then do
      let splitAt := entries.length / 2
      let right := entries.drop splitAt
      let (separator, _) ← right[0]?
      some ⟨none, .leaf (entries.take splitAt), some (separator, .leaf right)⟩
    else
      some ⟨none, .leaf entries, none⟩

def insertChild (keys : List K) (children : List (Node K V)) (idx : Nat) (below : Inserted K V) :
    Option (Inserted K V) :=
  let children := children.set idx below.node
  match below.split with
  | none => some ⟨below.old, .internal keys children, none⟩
  | some (separator, right) =>
    let keys := keys.insertIdx idx separator
    let children := children.insertIdx (idx + 1) right
    if children.length ≤ maxFanout then
      some ⟨below.old, .internal keys children, none⟩
    else do
      let mid := children.length / 2
      let rightChildren := children.drop mid
      let rightKeys := keys.drop (mid - 1)
      let promoted ← rightKeys[0]?
      some ⟨below.old, .internal (keys.take (mid - 1)) (children.take mid),
        some (promoted, .internal rightKeys.tail rightChildren)⟩

def insertRec (key : K) (value : V) : Node K V → Option (Inserted K V)
  | .leaf entries => insertLeaf entries key value
  | .internal keys children =>
    let idx := childIndex keys key
    match _found : children[idx]? with
    | none => none
    | some child => do
      let below ← insertRec key value child
      insertChild keys children idx below
termination_by node => node
decreasing_by exact sizeOf_child _found

end

variable [LinearOrder K]

structure Inserts (height : Nat) (lo hi : Option K) (entries : List (K × V)) (key : K) (value : V)
    (inserted : Inserted K V) : Prop where
  old : inserted.old = lookup entries key
  row : Row (Valid height) lo hi inserted.keys inserted.nodes
  entries : (inserted.nodes.map Node.entries).flatten = assign entries key value

variable {height : Nat} {lo hi : Option K} {entries : List (K × V)} {key : K} {value : V}

theorem within_assign (value : V) (inside : ∀ e ∈ entries, Within lo hi e.1) (within : Within lo hi key) :
    ∀ e ∈ assign entries key value, Within lo hi e.1 := by
  intro e mem
  rcases mem_assign.mp mem with rfl | ⟨mem, _⟩
  · exact within
  · exact inside e mem

theorem valid_halves (sorted : SortedKeys entries) (within : ∀ e ∈ entries, Within lo hi e.1) (some_left : 0 < mid)
    (left_few : mid ≤ maxFanout) (some_right : mid < entries.length) (right_few : entries.length ≤ mid + maxFanout) :
    ∃ separator value, (entries.drop mid)[0]? = some (separator, value) ∧
      Row (Valid 0) lo hi [separator] [.leaf (entries.take mid), .leaf (entries.drop mid)] := by
  obtain ⟨⟨separator, v⟩, rest, split⟩ := exists_cons_of_ne_nil (drop_eq_nil_iff.not.mpr (not_le.mpr some_right))
  have parts : SortedKeys (entries.take mid ++ entries.drop mid) := by rwa [take_append_drop]
  obtain ⟨left, right, apart⟩ := sorted_append_iff.mp parts
  have first : (separator, v) ∈ entries.drop mid := by rw [split]; exact mem_cons_self ..
  have low : ∀ e ∈ entries.take mid, Within lo (some separator) e.1 := fun e mem =>
    (within e (mem_of_mem_take mem)).cap (apart e mem _ first)
  have high : ∀ e ∈ entries.drop mid, Within (some separator) hi e.1 := by
    intro e mem
    refine (within e (mem_of_mem_drop mem)).raise ?_
    rw [split] at mem right
    rcases mem_cons.mp mem with rfl | mem
    · exact le_rfl
    · exact ((pairwise_cons.mp right).1 e mem).le
  refine ⟨separator, v, by rw [split]; rfl, .link ⟨left, ?_, ?_, low⟩ (.last ⟨right, ?_, ?_, high⟩)⟩
  · exact ne_nil_of_length_pos (by rw [length_take]; omega)
  · rw [length_take]
    omega
  · rw [split]
    exact cons_ne_nil _ _
  · rw [length_drop]
    omega

theorem insertLeaf_spec (sorted : SortedKeys entries) (few : entries.length ≤ maxFanout)
    (inside : ∀ e ∈ entries, Within lo hi e.1) (within : Within lo hi key) :
    ∃ inserted, insertLeaf entries key value = some inserted ∧ Inserts 0 lo hi entries key value inserted := by
  have ordered := sorted.assign key value
  have kept := within_assign value inside within
  obtain ⟨before, after, below, above, ⟨rfl, search⟩ | ⟨old, rfl, search⟩⟩ := binarySearch_spec sorted key
  · have found : lookup (before ++ after) key = none := lookup_middle [] below above
    have assigned : assign (before ++ after) key value = before ++ (key, value) :: after :=
      assign_middle [] below above value
    have length : (before ++ (key, value) :: after).length = (before ++ after).length + 1 := by
      simp only [length_append, length_cons]
      omega
    simp only [insertLeaf, search, Packed.insertIdx_length_append]
    rw [assigned] at ordered kept
    generalize before ++ (key, value) :: after = entries at *
    by_cases full : entries.length > maxFanout
    · unfold maxFanout at *
      obtain ⟨separator, v, first, row⟩ := valid_halves ordered kept
        (by omega : 0 < entries.length / 2) (by unfold maxFanout; omega) (by omega) (by unfold maxFanout; omega)
      refine ⟨⟨none, .leaf (entries.take (entries.length / 2)),
        some (separator, .leaf (entries.drop (entries.length / 2)))⟩, ?_, ⟨found.symm, row, ?_⟩⟩
      · rw [if_pos full, first]
        rfl
      · simp [Inserted.nodes, assigned]
    · have filled : entries ≠ [] := ne_nil_of_length_pos (by omega)
      refine ⟨⟨none, .leaf entries, none⟩, if_neg full, ⟨found.symm, .last ⟨ordered, filled, not_lt.mp full, kept⟩, ?_⟩⟩
      simp [Inserted.nodes, assigned]
  · have found : lookup (before ++ (key, old) :: after) key = some old := 
      (lookup_middle [(key, old)] below above).trans lookup_singleton
    have assigned : assign (before ++ (key, old) :: after) key value = before ++ (key, value) :: after := by
      simpa using assign_middle [(key, old)] below above value
    have length : (before ++ (key, value) :: after).length = (before ++ (key, old) :: after).length := by simp
    rw [assigned] at ordered kept
    refine ⟨⟨some old, .leaf (before ++ (key, value) :: after), none⟩, ?_,
      ⟨found.symm, .last ⟨ordered, by simp, length ▸ few, kept⟩, ?_⟩⟩
    · simp [insertLeaf, search]
    · simp [Inserted.nodes, assigned]

theorem insertChild_spec (hole : Hole (Valid height) lo hi key leftKeys rightKeys left right low high)
    (few : (left ++ child :: right).length ≤ maxFanout) (below : Below (left.map Node.entries).flatten key)
    (above : Above (right.map Node.entries).flatten key) {inner : Inserted K V}
    (inserts : Inserts height low high child.entries key value inner) :
    ∃ inserted, insertChild (leftKeys ++ rightKeys) (left ++ child :: right) left.length inner = some inserted ∧
      Inserts (height + 1) lo hi (internal (leftKeys ++ rightKeys) (left ++ child :: right)).entries key value
        inserted := by
  have old : inner.old = lookup (internal (leftKeys ++ rightKeys) (left ++ child :: right)).entries key := by
    rw [entries_split, lookup_middle _ below above, inserts.old]
  have row := hole.plug inserts.row
  have contents : ((left ++ (inner.nodes ++ right)).map Node.entries).flatten =
      assign (internal (leftKeys ++ rightKeys) (left ++ child :: right)).entries key value := by
    rw [entries_split, assign_middle _ below above, ← inserts.entries]
    simp
  obtain ⟨innerOld, node, split⟩ := inner
  have placed : (left ++ child :: right).set left.length node = left ++ node :: right := by simp
  cases split with
  | none =>
    refine ⟨⟨innerOld, .internal (leftKeys ++ rightKeys) (left ++ node :: right), none⟩, ?_, ⟨old, .last ⟨?_, row⟩, ?_⟩⟩
    · simp only [insertChild, placed]
    · simpa using few
    · simpa [Inserted.nodes, Node.entries_internal] using contents
  | some half =>
    obtain ⟨separator, half⟩ := half
    have keysPlaced : (leftKeys ++ rightKeys).insertIdx left.length separator = leftKeys ++ separator :: rightKeys := by
      rw [← hole.length_eq]
      exact Packed.insertIdx_length_append leftKeys rightKeys separator
    have childPlaced : (left ++ node :: right).insertIdx (left.length + 1) half = left ++ node :: half :: right := by
      have next := Packed.insertIdx_length_append (left ++ [node]) right half
      simpa using next
    have more : (left ++ node :: half :: right).length = (left ++ child :: right).length + 1 := by
      simp only [length_append, length_cons]
      omega
    have row : Row (Valid height) lo hi (leftKeys ++ separator :: rightKeys) (left ++ node :: half :: right) := row
    have contents : ((left ++ node :: half :: right).map Node.entries).flatten = _ := contents
    simp only [insertChild, placed, keysPlaced, childPlaced]
    generalize left ++ node :: half :: right = children at *
    generalize leftKeys ++ separator :: rightKeys = keys at *
    by_cases fits : children.length ≤ maxFanout
    · refine ⟨⟨innerOld, .internal keys children, none⟩, if_pos fits, ⟨old, .last ⟨fits, row⟩, ?_⟩⟩
      simpa [Inserted.nodes, Node.entries_internal] using contents
    · rw [if_neg fits]
      unfold maxFanout at few fits
      obtain ⟨promoted, taken, lower, upper⟩ := row.cut (by omega : 0 < children.length / 2) (by omega)
      refine ⟨⟨innerOld, .internal (keys.take (children.length / 2 - 1)) (children.take (children.length / 2)),
        some (promoted, .internal (keys.drop (children.length / 2)) (children.drop (children.length / 2)))⟩, ?_,
        ⟨old, .link ⟨?_, lower⟩ (.last ⟨?_, upper⟩), ?_⟩⟩
      · rw [taken]
        rfl
      · rw [length_take, maxFanout]
        omega
      · rw [length_drop, maxFanout]
        omega
      · rw [← contents]
        simp only [Inserted.nodes, map_some, toList_some, map_cons, map_nil,
          Node.entries_internal, flatten_cons, flatten_nil, append_nil]
        rw [← flatten_append, ← map_append, take_append_drop]

theorem insertRec_spec (valid : Valid height lo hi node) (within : Within lo hi key) (value : V) :
    ∃ inserted, insertRec key value node = some inserted ∧ Inserts height lo hi node.entries key value inserted := by
  induction height generalizing lo hi node with
  | zero =>
    cases node with
    | leaf entries =>
      obtain ⟨sorted, _, few, inside⟩ := valid
      rw [insertRec, entries_leaf]
      exact insertLeaf_spec sorted few inside within
    | internal keys children => exact valid.elim
  | succ height ih =>
    cases node with
    | leaf entries => exact valid.elim
    | internal keys children =>
      obtain ⟨leftKeys, rightKeys, left, child, right, low, high, rfl, rfl, index, inner, hole, below, above⟩ :=
        valid.descend within
      obtain ⟨result, computed, inserts⟩ := ih inner hole.within
      have found : (left ++ child :: right)[left.length]? = some child := by simp
      rw [insertRec, index]
      split
      · rename_i missing
        rw [found] at missing
        cases missing
      · rename_i c same
        rw [found] at same
        cases same
        rw [computed]
        exact insertChild_spec hole valid.1 below above inserts

end Rezzy.OrdMap
