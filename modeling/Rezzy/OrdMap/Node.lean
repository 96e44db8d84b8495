import Rezzy.Lib.Fenced
import Rezzy.Lib.Sorted

namespace Rezzy.OrdMap

open List Prod Option

section

open Fenced Sorted

def maxFanout : Nat := 24

def bulkFill : Nat := maxFanout - maxFanout / 4

inductive Node (K V : Type) where
  | leaf (entries : List (K × V))
  | internal (keys : List K) (children : List (Node K V))

variable {K V α : Type}

theorem Node.sizeOf_child {keys : List K} {children : List (Node K V)} {idx : Nat} {child : Node K V}
    (found : children[idx]? = some child) : sizeOf child < sizeOf (Node.internal keys children) := by
  have := sizeOf_lt_of_mem (mem_of_getElem? found)
  simp only [Node.internal.sizeOf_spec]
  omega

theorem Node.byChildren {motive : Node K V → Prop} (leaf : ∀ entries, motive (.leaf entries))
    (internal : ∀ keys children, (∀ child ∈ children, motive child) → motive (.internal keys children)) :
    ∀ node, motive node
  | .leaf entries => leaf entries
  | .internal keys children => internal keys children fun child _ => Node.byChildren leaf internal child

namespace Node

def entries : Node K V → List (K × V)
  | leaf entries => entries
  | internal _ children => (children.map entries).flatten

def isEmpty : Node K V → Bool
  | leaf entries => entries.isEmpty
  | internal _ children => children.isEmpty

def firstKey : Node K V → Option K
  | leaf entries => entries.head?.map Prod.fst
  | internal _ children =>
    match _found : children[0]? with
    | none => none
    | some first => first.firstKey
termination_by node => node
decreasing_by exact sizeOf_child _found

end Node

/-- `slice::partition_point`: how many items come before the first that fails the test. -/
def partitionPoint (test : α → Bool) (items : List α) : Nat := (items.takeWhile test).length

section

variable [LinearOrder K]

/-- `slice::binary_search_by`: the place of a key, or the place where it would be put. -/
def binarySearch (entries : List (K × V)) (key : K) : Except Nat Nat :=
  let i := partitionPoint (fun e => decide (e.1 < key)) entries
  match entries[i]? with
  | some e => if e.1 = key then .ok i else .error i
  | none => .error i

def childIndex (keys : List K) (key : K) : Nat := partitionPoint (fun k => decide (k ≤ key)) keys

def Node.get (key : K) : Node K V → Option V
  | .leaf entries =>
    match binarySearch entries key with
    | .ok i => entries[i]?.map Prod.snd
    | .error _ => none
  | .internal keys children =>
    match _found : children[childIndex keys key]? with
    | none => none
    | some child => child.get key
termination_by node => node
decreasing_by exact Node.sizeOf_child _found

/-- A subtree for the keys from `lo` up to `hi`: its leaves stand at one depth, strictly sorted; no node is empty or
    over the fanout; each child keeps to the keys between its separators. -/
def Valid : Nat → Option K → Option K → Node K V → Prop
  | 0, lo, hi, .leaf entries =>
    SortedKeys entries ∧ entries ≠ [] ∧ entries.length ≤ maxFanout ∧ ∀ e ∈ entries, Within lo hi e.1
  | height + 1, lo, hi, .internal keys children =>
    children.length ≤ maxFanout ∧ Row (Valid height) lo hi keys children
  | _, _, _, _ => False

end

@[simp] theorem Node.entries_leaf (entries : List (K × V)) : (Node.leaf entries).entries = entries := by
  rw [Node.entries]

theorem Node.entries_internal (keys : List K) (children : List (Node K V)) :
    (Node.internal keys children).entries = (children.map Node.entries).flatten := by
  rw [Node.entries]

theorem Node.entries_split (keys : List K) (left : List (Node K V)) (child : Node K V) (right : List (Node K V)) :
    (Node.internal keys (left ++ child :: right)).entries =
      (left.map Node.entries).flatten ++ (child.entries ++ (right.map Node.entries).flatten) := by
  rw [Node.entries_internal, map_append, map_cons, flatten_append, flatten_cons]

theorem partitionPoint_append (pass : ∀ x ∈ left, test x = true) (fail : ∀ x ∈ right, test x = false) :
    partitionPoint test (left ++ right) = left.length := by
  rw [partitionPoint, takeWhile_append_of_pos pass]
  have none : right.takeWhile test = [] := by
    cases right with
    | nil => rfl
    | cons x _ => exact takeWhile_cons_of_neg (by simp [fail x])
  rw [none, append_nil]

variable [LinearOrder K]

theorem binarySearch_spec (sorted : SortedKeys entries) (key : K) :
    ∃ before after, Below before key ∧ Above after key ∧
      ((entries = before ++ after ∧ binarySearch entries key = .error before.length) ∨
        ∃ value, entries = before ++ (key, value) :: after ∧ binarySearch entries key = .ok before.length) := by
  obtain ⟨before, middle, after, split, below, above, shape, taken⟩ := sorted.place key
  have here : partitionPoint (fun e => decide (e.1 < key)) entries = before.length := by
    rw [partitionPoint, taken]
  refine ⟨before, after, below, above, ?_⟩
  rw [binarySearch, here]
  rcases shape with rfl | ⟨value, rfl⟩
  · rw [nil_append] at split
    refine .inl ⟨split, ?_⟩
    cases after with
    | nil => simp [split]
    | cons e after =>
      have other : e.1 ≠ key := (above e (mem_cons_self ..)).ne'
      simp [split, other]
  · refine .inr ⟨value, split, ?_⟩
    simp [split]

structure Fills (lo hi : Option K) (entries : List (K × V)) : Prop where
  sorted : SortedKeys entries
  ne_nil : entries ≠ []
  within : ∀ e ∈ entries, Within lo hi e.1

variable {height : Nat} {lo hi : Option K} {keys : List K} {children : List (Node K V)} {node : Node K V} {key : K}

theorem Fills.ranged (fills : Fills lo hi entries) : ∃ key, Within lo hi key := by
  obtain ⟨e, mem⟩ := exists_mem_of_ne_nil _ fills.ne_nil
  exact ⟨e.1, fills.within e mem⟩

theorem fills_row {read : α → List (K × V)} (row : Row (fun lo hi item => Fills lo hi (read item)) lo hi keys items) :
    Fills lo hi (items.map read).flatten := by
  induction row with
  | last fills => simpa using fills
  | @link lo hi key keys item items fills rest ih =>
    rw [map_cons, flatten_cons]
    obtain ⟨e, mem⟩ := exists_mem_of_ne_nil _ fills.ne_nil
    have lower : ∀ low ∈ lo, low ≤ key := fun low known =>
      ((fills.within e mem).1 low known).trans (fills.within e mem).below.le
    obtain ⟨f, later⟩ := exists_mem_of_ne_nil _ ih.ne_nil
    have upper : ∀ high ∈ hi, key < high := fun high known =>
      (ih.within f later).above.trans_lt ((ih.within f later).2 high known)
    constructor
    · refine sorted_append_iff.mpr ⟨fills.sorted, ih.sorted, fun a first b second => ?_⟩
      exact (fills.within a first).below.trans_le (ih.within b second).above
    · exact append_ne_nil_of_left_ne_nil fills.ne_nil _
    · intro a mem
      rcases mem_append.mp mem with first | second
      · have within := fills.within a first
        exact ⟨within.1, fun high known => within.below.trans (upper high known)⟩
      · have within := ih.within a second
        exact ⟨fun low known => (lower low known).trans within.above, within.2⟩

namespace Valid

theorem fills (valid : Valid height lo hi node) : Fills lo hi node.entries := by
  induction height generalizing lo hi node with
  | zero =>
    cases node with
    | leaf entries =>
      obtain ⟨sorted, some_, _, within⟩ := valid
      rw [Node.entries_leaf]
      exact ⟨sorted, some_, within⟩
    | internal keys children => exact valid.elim
  | succ height ih =>
    cases node with
    | leaf entries => exact valid.elim
    | internal keys children =>
      rw [Node.entries_internal]
      exact fills_row (valid.2.imp fun _ _ _ child => ih child)

theorem ranged (valid : Valid height lo hi node) : ∃ key, Within lo hi key := valid.fills.ranged

theorem widen (wider : ∀ key, Within lo hi key → Within lo' hi' key) (valid : Valid height lo hi node) :
    Valid height lo' hi' node := by
  induction height generalizing lo hi lo' hi' node with
  | zero =>
    cases node with
    | leaf entries =>
      obtain ⟨sorted, some_, few, within⟩ := valid
      exact ⟨sorted, some_, few, fun e mem => wider _ (within e mem)⟩
    | internal keys children => exact valid.elim
  | succ height ih =>
    cases node with
    | leaf entries => exact valid.elim
    | internal keys children =>
      obtain ⟨few, row⟩ := valid
      exact ⟨few, Row.extend (P := Valid height) (fun _ _ _ => ranged) (fun _ _ _ _ _ => ih) row wider⟩

end Valid

theorem childIndex_hole (hole : Hole (Valid height) lo hi key leftKeys rightKeys left right low high) :
    childIndex (leftKeys ++ rightKeys) key = left.length := by
  rw [childIndex, partitionPoint_append, hole.length_eq]
  · exact fun k mem => decide_eq_true (hole.passed k mem)
  · exact fun k mem => decide_eq_false (hole.ahead k mem).not_ge

theorem Valid.descend (valid : Valid (height + 1) lo hi (.internal keys children)) (within : Within lo hi key) :
    ∃ leftKeys rightKeys left child right low high, keys = leftKeys ++ rightKeys ∧
      children = left ++ child :: right ∧ childIndex keys key = left.length ∧ Valid height low high child ∧
      Hole (Valid height) lo hi key leftKeys rightKeys left right low high ∧
      Below (left.map Node.entries).flatten key ∧ Above (right.map Node.entries).flatten key := by
  obtain ⟨leftKeys, rightKeys, left, child, right, low, high, rfl, rfl, inner, hole⟩ :=
    valid.2.hole (fun _ _ _ => Valid.ranged) within
  refine ⟨leftKeys, rightKeys, left, child, right, low, high, rfl, rfl, childIndex_hole hole, inner, hole, ?_, ?_⟩
  · intro e mem
    obtain ⟨_, listed, mem⟩ := mem_flatten.mp mem
    obtain ⟨sibling, sits, rfl⟩ := List.mem_map.mp listed
    obtain ⟨_, stop, inner, passed⟩ := hole.before sibling sits
    exact (inner.fills.within e mem).below.trans_le passed
  · intro e mem
    obtain ⟨_, listed, mem⟩ := mem_flatten.mp mem
    obtain ⟨sibling, sits, rfl⟩ := List.mem_map.mp listed
    obtain ⟨start, _, inner, ahead⟩ := hole.after sibling sits
    exact ahead.trans_le (inner.fills.within e mem).above

theorem Valid.get (valid : Valid height lo hi node) (within : Within lo hi key) :
    node.get key = lookup node.entries key := by
  induction height generalizing lo hi node with
  | zero =>
    cases node with
    | leaf entries =>
      obtain ⟨before, after, below, above, ⟨rfl, search⟩ | ⟨value, rfl, search⟩⟩ := binarySearch_spec valid.1 key
      · have split := lookup_middle [] below above
        rw [Node.get, search, Node.entries_leaf]
        exact split.symm
      · have split := lookup_middle [(key, value)] below above
        rw [Node.get, search, Node.entries_leaf]
        simpa using split.symm
    | internal keys children => exact valid.elim
  | succ height ih =>
    cases node with
    | leaf entries => exact valid.elim
    | internal keys children =>
      obtain ⟨leftKeys, rightKeys, left, child, right, low, high, rfl, rfl, index, inner, hole, below, above⟩ :=
        valid.descend within
      rw [Node.get, index, Node.entries_split, lookup_middle _ below above, ← ih inner hole.within]
      split
      · simp_all
      · simp_all

end

open Fenced Sorted

variable {K V : Type}

structure PersistentOrdMap (K V : Type) where
  root : Node K V
  height : Nat
  len : Nat

def PersistentOrdMap.new : PersistentOrdMap K V := ⟨.leaf [], 0, 0⟩

/-- Sizes of near-equal groups of `n` items. -/
def evenChunks (n : Nat) : List Nat :=
  let groups := max ((n + bulkFill - 1) / bulkFill) 1
  let base := n / groups
  let extra := n % groups
  (List.range groups).map fun i => base + if i < extra then 1 else 0

def makeLeaf (chunk : List (K × V)) : Option (K × Node K V) := do
  let (min, _) ← chunk[0]?
  some (min, .leaf chunk)

def makeInternal (group : List (K × Node K V)) : Option (K × Node K V) := do
  let (min, _) ← group[0]?
  some (min, .internal (group.tail.map Prod.fst) (group.map Prod.snd))

theorem length_evenChunks (n : Nat) : (evenChunks n).length = max ((n + bulkFill - 1) / bulkFill) 1 := by
  rw [evenChunks, length_map, length_range]

theorem fewer_chunks (more : 1 < n) : (evenChunks n).length < n := by
  rw [length_evenChunks, bulkFill, maxFanout]
  omega

def buildLevels (level : List (K × Node K V)) (height : Nat) : Option (Node K V × Nat) :=
  if 1 < level.length then
    match _next : chunked makeInternal (evenChunks level.length) level with
    | none => none
    | some next => buildLevels next (height + 1)
  else do
    let (_, root) ← level.getLast?
    some (root, height)
termination_by level.length
decreasing_by
  rw [length_chunked _next]
  exact fewer_chunks ‹_›

def fromSorted (entries : List (K × V)) : Option (PersistentOrdMap K V) :=
  if entries.length = 0 then
    some .new
  else do
    let level ← chunked makeLeaf (evenChunks entries.length) entries
    let (root, height) ← buildLevels level 0
    some ⟨root, height, entries.length⟩

section

variable [LinearOrder K]

def pushLast (deduped : List (K × V)) (entry : K × V) : List (K × V) :=
  match deduped.getLast? with
  | some last => if last.1 = entry.1 then deduped.dropLast ++ [entry] else deduped ++ [entry]
  | none => deduped ++ [entry]

def fromIter (items : List (K × V)) : Option (PersistentOrdMap K V) :=
  let entries := items.mergeSort fun a b => decide (a.1 ≤ b.1)
  fromSorted (entries.foldl pushLast [])

end

theorem sum_evenChunks (n : Nat) : (evenChunks n).sum = n := by
  have sums : ∀ groups base extra, ((range groups).map fun i => base + if i < extra then 1 else 0).sum =
      groups * base + min extra groups := by
    intro groups base extra
    induction groups with
    | zero => simp
    | succ groups ih =>
      rw [range_succ, map_append, sum_append, ih, map_singleton, sum_singleton, Nat.succ_mul]
      split <;> omega
  have groups : 0 < max ((n + bulkFill - 1) / bulkFill) 1 := by omega
  have small := Nat.mod_lt n groups
  have whole := Nat.div_add_mod n (max ((n + bulkFill - 1) / bulkFill) 1)
  rw [evenChunks, sums, min_eq_left small.le]
  exact whole

theorem evenChunks_bounds {n : Nat} (some_ : 0 < n) : ∀ size ∈ evenChunks n, 0 < size ∧ size ≤ maxFanout := by
  intro _ mem
  obtain ⟨-, _, rfl⟩ := List.mem_map.mp mem
  have groups : max ((n + bulkFill - 1) / bulkFill) 1 = (n + 17) / 18 := by
    rw [bulkFill, maxFanout]
    omega
  have base : 0 < n / ((n + 17) / 18) := Nat.div_pos (by omega) (by omega)
  have cap : n / ((n + 17) / 18) ≤ 18 := Nat.div_le_of_le_mul (by omega)
  rw [groups, maxFanout]
  split <;> omega

theorem flatten_singletons {α : Type} (items : List α) : (items.map fun item => [item]).flatten = items := by
  rw [← flatMap_def, flatMap_singleton']

variable [LinearOrder K]

theorem row_of_sorted (lo : Option K) (sorted : SortedKeys (first :: rest)) (lower : ∀ low ∈ lo, low ≤ first.1) :
    Row (fun lo hi (e : K × V) => Fills lo hi [e]) lo none (rest.map fst) (first :: rest) := by
  induction rest generalizing lo first with
  | nil => exact .last ⟨pairwise_singleton .., by simp, by simpa [Within] using lower⟩
  | cons second rest ih =>
    obtain ⟨ahead, later⟩ := pairwise_cons.mp sorted
    have less : first.1 < second.1 := ahead second (mem_cons_self ..)
    refine .link ⟨pairwise_singleton .., by simp, ?_⟩ (ih _ later fun low known => ?_)
    · simpa [Within, less] using lower
    · exact (mem_some.mp known).ge

theorem makeLeaf_spec (lo hi : Option K) (first : K × V) (group : List (K × V))
    (few : (first :: group).length ≤ maxFanout)
    (row : Row (fun lo hi (e : K × V) => Fills lo hi [e]) lo hi (group.map fst) (first :: group)) :
    ∃ made, makeLeaf (first :: group) = some made ∧ made.1 = first.1 ∧ Valid 0 lo hi made.2 := by
  have fills := fills_row row
  rw [flatten_singletons] at fills
  exact ⟨(first.1, .leaf (first :: group)), rfl, rfl, fills.sorted, fills.ne_nil, few, fills.within⟩

theorem makeInternal_spec (lo hi : Option K) (first : K × Node K V) (group : List (K × Node K V))
    (few : (first :: group).length ≤ maxFanout)
    (row : Row (fun lo hi (item : K × Node K V) => Valid height lo hi item.2) lo hi (group.map fst) (first :: group)) :
    ∃ made, makeInternal (first :: group) = some made ∧ made.1 = first.1 ∧ Valid (height + 1) lo hi made.2 := by
  refine ⟨(first.1, .internal (group.map fst) ((first :: group).map snd)), rfl, rfl, ?_, ?_⟩
  · rwa [length_map]
  · exact row.map snd fun _ _ _ valid => valid

theorem foldl_pushLast {items : List (K × V)} (ordered : items.Pairwise fun a b => a.1 ≤ b.1) :
    items.foldl pushLast [] = assignAll items ∧ (assignAll items).getLast? = items.getLast? := by
  induction items using reverseRecOn with
  | nil => exact ⟨rfl, rfl⟩
  | append_singleton items e ih =>
    obtain ⟨ordered, _, most⟩ := pairwise_append.mp ordered
    obtain ⟨folded, final⟩ := ih ordered
    have sorted := assignAll_sorted items
    rw [foldl_append, folded, assignAll_append, getLast?_concat, foldl_cons, foldl_nil, pushLast, final]
    cases end_ : items.getLast? with
    | none =>
      rw [getLast?_eq_none_iff.mp end_]
      exact ⟨rfl, rfl⟩
    | some last =>
      rw [end_] at final
      have split : assignAll items = (assignAll items).dropLast ++ [last] := (dropLast_append_getLast? last final).symm
      have smaller : Below (assignAll items).dropLast last.1 := by
        rw [split] at sorted
        exact fun a mem => (sorted_append_iff.mp sorted).2.2 a mem last (mem_singleton_self last)
      have above : Above ([] : List (K × V)) e.1 := fun _ mem => absurd mem not_mem_nil
      by_cases same : last.1 = e.1
      · have assigned : assign (assignAll items) e.1 e.2 = (assignAll items).dropLast ++ [e] := by
          have placed := assign_middle [last] (same ▸ smaller) above e.2
          rw [← same] at placed ⊢
          rw [append_nil, ← split] at placed
          rw [placed]
          simp [assign, same]
        rw [assigned]
        exact ⟨if_pos same, getLast?_concat⟩
      · have less : last.1 < e.1 := lt_of_le_of_ne (most last (mem_of_getLast? end_) e (mem_singleton_self e)) same
        have below : Below (assignAll items) e.1 := by
          rw [split]
          intro a mem
          rcases mem_append.mp mem with mem | mem
          · exact (smaller a mem).trans less
          · exact mem_singleton.mp mem ▸ less
        have assigned : assign (assignAll items) e.1 e.2 = assignAll items ++ [e] := by
          have placed := assign_middle [] below above e.2
          simpa using placed
        rw [assigned]
        exact ⟨if_neg same, getLast?_concat⟩

/-- The representation invariant of a map: the empty leaf, or a valid tree of its height over all
    keys; and the cached length. -/
structure WellFormed (map : PersistentOrdMap K V) : Prop where
  tree : Valid map.height none none map.root ∨ map.root = .leaf [] ∧ map.height = 0
  len : map.len = map.root.entries.length

theorem WellFormed.new : WellFormed (.new : PersistentOrdMap K V) where
  tree := .inr ⟨rfl, rfl⟩
  len := by rw [PersistentOrdMap.new, Node.entries_leaf]; rfl

theorem WellFormed.sorted {map : PersistentOrdMap K V} (formed : WellFormed map) : SortedKeys map.root.entries := by
  rcases formed.tree with valid | ⟨empty, _⟩
  · exact valid.fills.sorted
  · rw [empty, Node.entries_leaf]
    exact List.Pairwise.nil

theorem buildLevels_spec (split : level = first :: rest)
    (row : Row (fun lo hi (item : K × Node K V) => Valid height lo hi item.2) none none (rest.map fst)
      (first :: rest)) : ∃ root top, buildLevels level height = some (root, top) ∧ Valid top none none root ∧
      root.entries = (level.map fun item => item.2.entries).flatten := by
  induction count : level.length using Nat.strong_induction_on generalizing level height first rest with
  | _ n ih =>
    by_cases more : 1 < level.length
    · have total := sum_evenChunks level.length
      rw [split] at total
      obtain ⟨head, tail, computed, _, above⟩ := row.chunked makeInternal_spec
        (evenChunks_bounds (n := (first :: rest).length) (by simp)) total
      rw [← split] at computed total
      have fewer : (head :: tail).length < n := by
        rw [length_chunked computed, ← count]
        exact fewer_chunks more
      obtain ⟨root, top, built, valid, contents⟩ := ih _ fewer rfl above rfl
      refine ⟨root, top, ?_, valid, ?_⟩
      · rw [buildLevels, if_pos more]
        split
        · rename_i failed
          rw [computed] at failed
          cases failed
        · rename_i next same
          rw [computed] at same
          cases same
          exact built
      · rw [contents]
        refine flatten_chunked (fun group item made => ?_) total computed
        obtain ⟨⟨_, _⟩, _, made⟩ := bind_eq_some_iff.mp made
        cases made
        rw [Node.entries_internal, List.map_map]
        rfl
    · subst split
      have alone : rest = [] := eq_nil_of_length_eq_zero (by rw [length_cons] at more; omega)
      subst alone
      refine ⟨first.2, height, ?_, ?_, ?_⟩
      · rw [buildLevels, if_neg more]
        rfl
      · cases row with
        | last valid => exact valid
      · simp

theorem fromSorted_spec {entries : List (K × V)} (sorted : SortedKeys entries) :
    ∃ map, fromSorted entries = some map ∧ WellFormed map ∧ map.root.entries = entries := by
  cases entries with
  | nil => exact ⟨.new, rfl, .new, Node.entries_leaf []⟩
  | cons first rest =>
    have total := sum_evenChunks (first :: rest).length
    obtain ⟨head, tail, computed, _, row⟩ := (row_of_sorted none sorted (by simp)).chunked makeLeaf_spec
      (evenChunks_bounds (n := (first :: rest).length) (by simp)) total
    obtain ⟨root, top, built, valid, contents⟩ := buildLevels_spec rfl row
    have whole : root.entries = first :: rest := by
      rw [contents]
      refine (flatten_chunked ?_ total computed).trans (flatten_singletons _)
      intro group item made
      obtain ⟨⟨_, _⟩, _, made⟩ := bind_eq_some_iff.mp made
      cases made
      rw [Node.entries_leaf, flatten_singletons]
    refine ⟨⟨root, top, (first :: rest).length⟩, ?_, ⟨.inl valid, by rw [whole]⟩, whole⟩
    rw [fromSorted, if_neg (by simp), computed, bind_eq_bind, bind_some, built]
    rfl

theorem fromIter_spec (items : List (K × V)) :
    ∃ map, fromIter items = some map ∧ WellFormed map ∧ map.root.entries = assignAll items := by
  have ordered : (items.mergeSort fun a b => decide (a.1 ≤ b.1)).Pairwise fun a b => a.1 ≤ b.1 := by
    have sorted := @List.pairwise_mergeSort (K × V) (fun a b => decide (a.1 ≤ b.1))
      (fun a b c ab bc => by simp at *; exact ab.trans bc) (fun a b => by simpa using le_total a.1 b.1) items
    exact sorted.imp fun le => of_decide_eq_true le
  have folded := (foldl_pushLast ordered).1
  rw [assignAll_mergeSort] at folded
  obtain ⟨map, built, formed, contents⟩ := fromSorted_spec (assignAll_sorted items)
  exact ⟨map, by rw [fromIter, folded, built], formed, contents⟩

end Rezzy.OrdMap
