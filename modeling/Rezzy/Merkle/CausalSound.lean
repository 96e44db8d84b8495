import Rezzy.Merkle.CausalProofs

namespace Rezzy.Merkle

open SparseTrie CausalSet List Set CausalProofStep Or
open Std.ExtTreeSet (length_toList mem_toList)

variable {sha256 : Sha256} {set : CausalSet} {key : Hash} {keys : List Hash} {levels d bottom steps : Nat}

section

abbrev NodeInput := Nat × (Hash × UInt64) × (Hash × UInt64)

def nodeString (input : NodeInput) : Json.Bytes :=
  [causalNodeDst, toBeBytes 2 (depthU16 (255 - input.1)), input.2.1.1.toList, toBeBytes 8 input.2.1.2.toNat,
    input.2.2.1.toList, toBeBytes 8 input.2.2.2.toNat].flatten

def leafString (key : Hash) : Json.Bytes := [causalLeafDst, key.toList].flatten

def emptyLeafString : Json.Bytes := [causalEmptyLeafDst].flatten

def trieNodes (sha256 : Sha256) (keys : List Hash) : Set NodeInput :=
  inputs (causalJoin sha256) (causalBlank sha256) causalTurn causalDepth (causalEntries sha256 keys) ∪
    inputs (causalJoin sha256) (causalBlank sha256) causalTurn causalDepth []

def pathNodes (sha256 : Sha256) (key : Hash) (terminal : Hash × UInt64) (path : List CausalProofStep) : Set NodeInput :=
  climbInputs (causalJoin sha256) causalTurn key (causalDepth - path.length) terminal (path.map CausalProofStep.value)

def setStrings (sha256 : Sha256) (set : CausalSet) : Set Json.Bytes :=
  nodeString '' trieNodes sha256 set.keys.toList ∪ (leafString '' {key | key ∈ set.keys} ∪ {emptyLeafString})

theorem nodeString_inj (same : nodeString (levels, one) = nodeString (levels, other)) : one = other := by
  have count (a b : UInt64) (equal : toBeBytes 8 a.toNat = toBeBytes 8 b.toNat) : a = b :=
    UInt64.toNat_inj.mp (toBeBytes_inj a.toNat_lt b.toNat_lt equal)
  obtain ⟨⟨leftHash, leftCount⟩, rightHash, rightCount⟩ := one
  obtain ⟨⟨leftHash', leftCount'⟩, rightHash', rightCount'⟩ := other
  unfold nodeString at same
  simp only [flatten_cons, flatten_nil, append_nil, append_cancel_left_eq] at same
  obtain ⟨left, same⟩ := fields_inj (by simp) same
  obtain ⟨leftCounts, same⟩ := fields_inj (by rw [toBeBytes_length, toBeBytes_length]) same
  obtain ⟨right, rightCounts⟩ := fields_inj (by simp) same
  rw [digest_inj left, digest_inj right, count _ _ leftCounts, count _ _ rightCounts]

theorem causal_binding (free : Set.InjOn sha256 strings) (inside : nodeString '' hashed ⊆ strings) :
    Binding (causalJoin sha256) Prod.fst hashed := by
  intro _ _ _ oneIn otherIn same
  exact nodeString_inj (free (inside ⟨_, oneIn, rfl⟩) (inside ⟨_, otherIn, rfl⟩) same)

theorem leafString_ne : leafString key ≠ emptyLeafString := by
  intro same
  have lengths := congrArg length same
  have long : (leafString key).length = 61 := by
    unfold leafString
    rw [flatten_cons, flatten_cons, flatten_nil, append_nil, length_append, Vector.length_toList]
    rfl
  rw [long] at lengths
  exact absurd lengths (by decide)

theorem causalAlong_above (key : Hash) (bottom above : Nat) (keys : List Hash) :
    causalAlong key bottom (above + 1) keys = keySide key bottom true (causalAlong key (bottom + 1) above keys) := by
  have entries (keys : List Hash) : (causalEntries (fun _ => zeroPrefix) keys).map Prod.fst = keys := by
    unfold causalEntries
    rw [map_map]
    exact map_id keys
  have same := @along_above Hash (Hash × UInt64) causalTurn key (causalEntries (fun _ => zeroPrefix) keys) bottom above
  rw [along_causalEntries, along_causalEntries, side_own] at same
  rw [← entries (causalAlong key bottom (above + 1) keys), same, entries]

theorem causalSiblings_head (key : Hash) (bottom above : Nat) (keys : List Hash) :
    (causalSiblings sha256 key bottom (above + 1) keys).head? =
      some (causalSubtree sha256 bottom (keySide key bottom false (causalAlong key (bottom + 1) above keys))) := by
  unfold causalSiblings
  rw [siblings_head, along_causalEntries, side_other]
  rfl

theorem Distinct.along (distinct : Distinct (bottom + steps) keys) : Distinct bottom (causalAlong key bottom steps keys) := by
  induction steps generalizing keys with
  | zero =>
    have all : causalAlong key bottom 0 keys = keys := filter_eq_self.mpr fun _ _ => rfl
    rwa [all]
  | succ steps ih =>
    rw [causalAlong_succ]
    exact ih (Distinct.keySide distinct true)

theorem causalSubtree_empty_iff (distinct : Distinct levels keys) : (causalSubtree sha256 levels keys).2 = 0 ↔ keys = [] := by
  rw [← UInt64.toNat_inj, causalSubtree_count sha256 distinct, ← length_eq_zero_iff]
  show min _ _ = 0 ↔ _
  omega

theorem mem_causalAlong_whole : other ∈ causalAlong key 0 causalDepth keys ↔ other = key ∧ key ∈ keys := by
  rw [mem_causalAlong]
  constructor
  · rintro ⟨mem, agree⟩
    have bare (key : Hash) : hasPrefix 0 zeroPrefix key = true := rfl
    obtain rfl : other = key := by
      apply key_of_prefix (bare other) (bare key)
      intro level small
      rw [← Nat.zero_add level]
      exact agree level small
    exact ⟨rfl, mem⟩
  · rintro ⟨rfl, mem⟩
    exact ⟨mem, fun level small => rfl⟩

theorem causalSubtree_whole (mem : key ∈ keys) :
    causalSubtree sha256 0 (causalAlong key 0 causalDepth keys) = (causalLeaf sha256 key, 1) := by
  cases whole : causalAlong key 0 causalDepth keys with
  | nil =>
    have own := mem_causalAlong_whole.mpr ⟨rfl, mem⟩
    rw [whole] at own
    cases own
  | cons first rest =>
    have own : first ∈ causalAlong key 0 causalDepth keys := whole ▸ mem_cons_self
    obtain ⟨rfl, -⟩ := mem_causalAlong_whole.mp own
    rfl

end

namespace CausalSet

def Reachable (sha256 : Sha256) (set : CausalSet) : Prop := ∃ history : History, history.run sha256 = set

theorem Reachable.cached (reachable : Reachable sha256 set) : Cached sha256 set := by
  obtain ⟨history, rfl⟩ := reachable
  exact (history.run_spec sha256).1

section

theorem keysAt_whole : keysAt set causalDepth zeroPrefix = set.keys.toList := filter_eq_self.mpr fun _ _ => rfl

theorem mem_keys_iff : key ∈ set.keys.toList ↔ key ∈ set.keys := mem_toList

theorem whole_padded : Padded (causalDepth - causalDepth) zeroPrefix := zeroPrefix_padded

theorem isEmpty_iff_keys : set.keys.isEmpty = true ↔ set.keys.toList = [] := by
  rw [← Std.ExtTreeSet.isEmpty_toList, List.isEmpty_iff]

theorem inclusionProof_eq (cached : Cached sha256 set) (mem : key ∈ set.keys) : set.inclusionProof sha256 key =
    some ((causalSiblings sha256 key 0 causalDepth set.keys.toList).map asStep, set.root sha256, set.count) := by
  unfold inclusionProof
  rw [if_neg, pathFrom_eq cached (le_refl _) whole_padded, keysAt_whole]
  rw [Bool.or_eq_true, not_or, isEmpty_iff_keys, Bool.not_eq_true', Bool.not_eq_false]
  exact ⟨fun none => (ne_nil_of_mem (mem_keys_iff.mpr mem)) none, Std.ExtTreeSet.contains_iff_mem.mpr mem⟩

theorem inclusionProof_none (absent : key ∉ set.keys) : set.inclusionProof sha256 key = none := by
  unfold inclusionProof
  rw [if_pos]
  rw [Bool.or_eq_true, Bool.not_eq_true', ← Bool.not_eq_true, Std.ExtTreeSet.contains_iff_mem]
  exact inr absent

theorem nonInclusionProof_none (cached : Cached sha256 set) (mem : key ∈ set.keys) :
    set.nonInclusionProof sha256 key = none := by
  unfold nonInclusionProof
  have arrived : causalAlong key 0 causalDepth (keysAt set causalDepth zeroPrefix) ≠ [] := by
    rw [keysAt_whole]
    exact ne_nil_of_mem (mem_causalAlong_whole.mpr ⟨rfl, mem_keys_iff.mpr mem⟩)
  rw [if_neg, missingFrom_member cached (le_refl _) whole_padded arrived]
  · rfl
  · rw [isEmpty_iff_keys]
    exact ne_nil_of_mem (mem_keys_iff.mpr mem)

structure Leaves (key : Hash) (keys : List Hash) (bottom steps : Nat) : Prop where
  whole : bottom + steps = causalDepth
  gone : causalAlong key bottom steps keys = []
  last : ∀ above, steps = above + 1 → causalAlong key (bottom + 1) above keys ≠ []

theorem exists_leaves (absent : key ∉ keys) : ∃ bottom steps, Leaves key keys bottom steps := by
  have gone : along causalTurn key 0 causalDepth (causalEntries (fun _ => zeroPrefix) keys) = [] := by
    rw [along_causalEntries, causalEntries_eq_nil]
    apply eq_nil_iff_forall_not_mem.mpr
    intro _ mem
    exact absent (mem_causalAlong_whole.mp mem).2
  obtain ⟨bottom, steps, whole, left, last⟩ := exists_leave gone
  rw [along_causalEntries, causalEntries_eq_nil] at left
  refine ⟨bottom, steps, whole, left, ?_⟩
  intro above same
  have held := last above same
  rwa [along_causalEntries, ne_eq, causalEntries_eq_nil] at held

theorem nonInclusionProof_eq (cached : Cached sha256 set) (leaves : Leaves key set.keys.toList bottom steps) :
    set.nonInclusionProof sha256 key = some ((causalSiblings sha256 key bottom steps set.keys.toList).map asStep, steps,
      set.root sha256, set.count) := by
  obtain ⟨whole, gone, last⟩ := leaves
  have depth : causalDepth - bottom = steps := by omega
  unfold nonInclusionProof
  cases steps with
  | zero =>
    have all : causalAlong key bottom 0 set.keys.toList = set.keys.toList := filter_eq_self.mpr fun _ _ => rfl
    have none : set.keys.isEmpty = true := isEmpty_iff_keys.mpr (all.symm.trans gone)
    rw [if_pos none]
    unfold root count
    rw [if_pos none, ← length_toList, isEmpty_iff_keys.mp none]
    rfl
  | succ above =>
    have some : set.keys.toList ≠ [] := by
      intro none
      apply last above rfl
      rw [none]
      rfl
    have found := @missingFrom_leaves sha256 set key bottom (above + 1) zeroPrefix cached whole.le
      (by rw [whole]; exact whole_padded)
    rw [whole, keysAt_whole] at found
    rw [if_neg (mt isEmpty_iff_keys.mp some), found some gone last, depth]
    rfl

variable {terminalHash : Hash} {terminalCount : UInt64} {terminalDepth : Nat} {path : List CausalProofStep} {root : Hash}
  {count : UInt64}

theorem verifyCausalPath_iff :
    verifyCausalPath sha256 terminalHash terminalCount terminalDepth key path root count = true ↔
      path.length = terminalDepth ∧
        ∃ top, climbCausalPath sha256 key terminalDepth terminalHash terminalCount path = some top ∧ top.1 = root ∧
          top.2 = count := by
  unfold verifyCausalPath
  rw [decide_eq_true_iff]
  apply and_congr_right
  intro _
  cases climbCausalPath sha256 key terminalDepth terminalHash terminalCount path <;> simp

theorem siblings_length' : ((causalSiblings sha256 key bottom steps keys).map asStep).length = steps := by
  rw [length_map]
  exact siblings_length

theorem size_le (fits : set.keys.size ≤ usizeMax) : set.keys.toList.length ≤ usizeMax := by
  rwa [length_toList]

theorem honest_path (sha256 : Sha256) (key : Hash) (fits : set.keys.size ≤ usizeMax) (whole : bottom + steps = causalDepth) :
    verifyCausalPath sha256 (causalSubtree sha256 bottom (causalAlong key bottom steps set.keys.toList)).1
      (causalSubtree sha256 bottom (causalAlong key bottom steps set.keys.toList)).2 steps key
      ((causalSiblings sha256 key bottom steps set.keys.toList).map asStep)
      (causalSubtree sha256 causalDepth set.keys.toList).1 set.count = true := by
  have distinct : Distinct (bottom + steps) set.keys.toList := whole ▸ keys_distinct set.keys
  have climbed := climbCausalPath_honest sha256 key whole.le distinct (size_le fits)
  rw [show causalDepth - bottom = steps from by omega, whole] at climbed
  exact verifyCausalPath_iff.mpr ⟨siblings_length', _, climbed, rfl, total_count sha256 fits⟩

theorem inclusion_accepted (cached : Cached sha256 set) (fits : set.keys.size ≤ usizeMax) (mem : key ∈ set.keys) :
    verifyCausalInclusion sha256 key ((causalSiblings sha256 key 0 causalDepth set.keys.toList).map asStep)
      (set.root sha256) set.count = true := by
  have honest := honest_path sha256 key fits (Nat.zero_add causalDepth)
  rw [causalSubtree_whole (mem_keys_iff.mpr mem)] at honest
  rw [root_eq cached]
  exact honest

theorem nonInclusion_accepted (cached : Cached sha256 set) (fits : set.keys.size ≤ usizeMax)
    (leaves : Leaves key set.keys.toList bottom steps) :
    verifyCausalNonInclusion sha256 key steps ((causalSiblings sha256 key bottom steps set.keys.toList).map asStep)
      (set.root sha256) set.count = true := by
  obtain ⟨whole, gone, last⟩ := leaves
  have honest := honest_path sha256 key fits whole
  have below : causalDepth - steps = bottom := by omega
  rw [gone, causalSubtree_nil] at honest
  unfold verifyCausalNonInclusion emptyTable
  rw [root_eq cached, below, if_neg (by omega), if_neg (not_not.mpr siblings_length'), if_neg]
  · exact honest
  · intro bare
    rw [head?_map] at bare
    cases steps with
    | zero => cases bare
    | succ above =>
      rw [causalSiblings_head] at bare
      have zero : (causalSubtree sha256 bottom
          (keySide key bottom false (causalAlong key (bottom + 1) above set.keys.toList))).2 = 0 := by
        simp only [Option.map_some, Option.any_some, decide_eq_true_eq] at bare
        exact bare.1
      have distinct : Distinct (bottom + 1 + above) set.keys.toList := by
        rw [Nat.add_right_comm, Nat.add_assoc, whole]
        exact keys_distinct set.keys
      have other := (causalSubtree_empty_iff (Distinct.keySide distinct.along false)).mp zero
      rw [causalAlong_above] at gone
      have none := keySide_length key bottom (causalAlong key (bottom + 1) above set.keys.toList)
      rw [gone, other] at none
      exact last above rfl (length_eq_zero_iff.mp none.symm)

theorem accepted_path (free : Set.InjOn sha256 strings)
    (built : nodeString '' trieNodes sha256 set.keys.toList ⊆ strings)
    (climbed : nodeString '' pathNodes sha256 key (terminalHash, terminalCount) path ⊆ strings)
    (shallow : terminalDepth ≤ causalDepth) (steps : path ≠ []) (cached : Cached sha256 set)
    (fits : set.keys.size ≤ usizeMax)
    (accepted : verifyCausalPath sha256 terminalHash terminalCount terminalDepth key path (set.root sha256) count = true) :
    (terminalHash, terminalCount) = causalSubtree sha256 (causalDepth - terminalDepth)
        (causalAlong key (causalDepth - terminalDepth) terminalDepth set.keys.toList) ∧
      path = (causalSiblings sha256 key (causalDepth - terminalDepth) terminalDepth set.keys.toList).map asStep ∧
        count = set.count := by
  obtain ⟨length, top, ran, rooted, counted⟩ := verifyCausalPath_iff.mp accepted
  have levels : causalDepth - terminalDepth + (path.map value).length = causalDepth := by
    rw [length_map, length]
    omega
  have inside : nodeString '' (trieNodes sha256 set.keys.toList ∪ pathNodes sha256 key (terminalHash, terminalCount) path) ⊆
      strings := by
    rw [image_union]
    exact union_subset built climbed
  have binding := causal_binding free inside
  have inPath : climbInputs (causalJoin sha256) causalTurn key (causalDepth - terminalDepth) (terminalHash, terminalCount)
      (path.map value) ⊆ trieNodes sha256 set.keys.toList ∪
        pathNodes sha256 key (terminalHash, terminalCount) path := by
    unfold pathNodes
    rw [length]
    exact subset_union_right
  have inTrie : inputs (causalJoin sha256) (causalBlank sha256) causalTurn
      (causalDepth - terminalDepth + (path.map value).length) (causalEntries sha256 set.keys.toList) ⊆
        trieNodes sha256 set.keys.toList ∪ pathNodes sha256 key (terminalHash, terminalCount) path := by
    rw [levels]
    exact subset_union_of_subset_left subset_union_left _
  have made := climbCausalPath_some length.le shallow ran
  rw [made, root_eq cached] at rooted
  have same := climb_marked binding (mt map_eq_nil_iff.mp steps) inPath inTrie (by
    rw [rooted, levels]
    rfl)
  obtain ⟨below, beside⟩ := climb_exact binding inPath inTrie same
  rw [length_map, length] at below beside
  refine ⟨?_, ?_, ?_⟩
  · rw [below, along_causalEntries]
    rfl
  · rw [← map_asStep_value path, beside]
    rfl
  · rw [← counted, made, same, levels]
    exact total_count sha256 fits

theorem inclusion_sound (cached : Cached sha256 set) (fits : set.keys.size ≤ usizeMax)
    (free : Set.InjOn sha256 (setStrings sha256 set ∪
      (nodeString '' pathNodes sha256 key (causalLeaf sha256 key, 1) path ∪ {leafString key})))
    (accepted : verifyCausalInclusion sha256 key path (set.root sha256) count = true) :
    key ∈ set.keys ∧ count = set.count := by
  have built : nodeString '' trieNodes sha256 set.keys.toList ⊆ setStrings sha256 set ∪
      (nodeString '' pathNodes sha256 key (causalLeaf sha256 key, 1) path ∪ {leafString key}) :=
    subset_union_of_subset_left subset_union_left _
  have climbed : nodeString '' pathNodes sha256 key (causalLeaf sha256 key, 1) path ⊆ setStrings sha256 set ∪
      (nodeString '' pathNodes sha256 key (causalLeaf sha256 key, 1) path ∪ {leafString key}) :=
    subset_union_of_subset_right subset_union_left _
  have length : path.length = causalDepth := (verifyCausalPath_iff.mp accepted).1
  have steps : path ≠ [] := by
    rintro rfl
    cases length
  obtain ⟨leaf, -, counted⟩ := accepted_path free built climbed (le_refl _) steps cached fits accepted
  refine ⟨?_, counted⟩
  rw [Nat.sub_self] at leaf
  cases whole : causalAlong key 0 causalDepth set.keys.toList with
  | nil =>
    rw [whole] at leaf
    have one : (1 : UInt64) = 0 := congrArg Prod.snd leaf
    exact absurd one (by decide)
  | cons first rest =>
    have own : first ∈ causalAlong key 0 causalDepth set.keys.toList := whole ▸ mem_cons_self
    exact mem_keys_iff.mp (mem_causalAlong_whole.mp own).2

theorem empty_of_root (cached : Cached sha256 set) (free : Set.InjOn sha256 strings)
    (built : setStrings sha256 set ⊆ strings) (rooted : emptyTable sha256 0 = set.root sha256) :
    set.keys.toList = [] := by
  have inside : nodeString '' trieNodes sha256 set.keys.toList ⊆ strings := subset_union_left.trans built
  have leaves : leafString '' {key | key ∈ set.keys} ⊆ strings :=
    (subset_union_of_subset_right subset_union_left _).trans built
  have bare : emptyLeafString ∈ strings := built (inr (inr rfl))
  apply causalEntries_eq_nil.mp
  refine void_exact (causal_binding free inside) subset_union_right subset_union_left ?_ ?_
  · intro _ mem same
    obtain ⟨key, held, rfl⟩ := mem_map.mp mem
    have leaf : leafString key ∈ strings := leaves ⟨key, mem_keys_iff.mp held, rfl⟩
    exact leafString_ne (free leaf bare same)
  · rw [void_eq]
    rw [root_eq cached] at rooted
    exact rooted

theorem nonInclusion_sound (cached : Cached sha256 set) (fits : set.keys.size ≤ usizeMax)
    (free : Set.InjOn sha256 (setStrings sha256 set ∪
      nodeString '' pathNodes sha256 key (emptyTable sha256 terminalDepth, 0) path))
    (accepted : verifyCausalNonInclusion sha256 key terminalDepth path (set.root sha256) count = true) :
    Leaves key set.keys.toList (causalDepth - terminalDepth) terminalDepth ∧
      path = (causalSiblings sha256 key (causalDepth - terminalDepth) terminalDepth set.keys.toList).map asStep ∧
        count = set.count := by
  have built : setStrings sha256 set ⊆ setStrings sha256 set ∪
      nodeString '' pathNodes sha256 key (emptyTable sha256 terminalDepth, 0) path := Set.subset_union_left
  unfold verifyCausalNonInclusion at accepted
  split at accepted
  · cases accepted
  rename_i shallow
  split at accepted
  · cases accepted
  rename_i length
  split at accepted
  · cases accepted
  rename_i minimal
  rw [not_not] at length
  rw [not_lt] at shallow
  cases terminalDepth with
  | zero =>
    obtain rfl := length_eq_zero_iff.mp length
    obtain ⟨-, top, ran, rooted, counted⟩ := verifyCausalPath_iff.mp accepted
    obtain rfl := Option.some.inj ran
    have none := empty_of_root cached free built rooted
    have all : causalAlong key (causalDepth - 0) 0 set.keys.toList = set.keys.toList :=
      filter_eq_self.mpr fun _ _ => rfl
    refine ⟨⟨rfl, all.trans none, fun above one => nomatch one⟩, rfl, ?_⟩
    have total := total_count sha256 fits
    rw [none, causalSubtree_nil] at total
    exact counted.symm.trans total
  | succ above =>
    have steps : path ≠ [] := by
      rintro rfl
      cases length
    obtain ⟨bare, beside, counted⟩ := accepted_path free (Set.subset_union_left.trans built) Set.subset_union_right
      shallow steps cached fits accepted
    have whole : causalDepth - (above + 1) + (above + 1) = causalDepth := by omega
    have distinct : Distinct (causalDepth - (above + 1) + (above + 1)) set.keys.toList := by
      rw [whole]
      exact keys_distinct set.keys
    have gone := (causalSubtree_empty_iff distinct.along).mp (congrArg Prod.snd bare).symm
    refine ⟨⟨whole, gone, ?_⟩, beside, counted⟩
    intro above' same none
    obtain rfl := Nat.succ.inj same
    apply minimal
    rw [beside, head?_map, causalSiblings_head, none]
    have void : causalSubtree sha256 (causalDepth - (above + 1)) (keySide key (causalDepth - (above + 1)) false []) =
        (emptyTable sha256 (above + 1), 0) := causalSubtree_nil
    rw [void]
    exact decide_eq_true ⟨rfl, rfl⟩

end

/-- There is one proof of the two for every key, it verifies, and without collisions nothing else does. -/
theorem causal_proofs (reachable : Reachable sha256 set) (fits : set.keys.size ≤ usizeMax) (key : Hash) :
    Xor ((set.inclusionProof sha256 key).isSome = true) ((set.nonInclusionProof sha256 key).isSome = true) ∧
    (∀ path root count, set.inclusionProof sha256 key = some (path, root, count) →
      verifyCausalInclusion sha256 key path (set.root sha256) set.count = true) ∧
    (∀ path terminalDepth root count, set.nonInclusionProof sha256 key = some (path, terminalDepth, root, count) →
      verifyCausalNonInclusion sha256 key terminalDepth path (set.root sha256) set.count = true) ∧
    (∀ path count,
      Set.InjOn sha256 (setStrings sha256 set ∪
        (nodeString '' pathNodes sha256 key (causalLeaf sha256 key, 1) path ∪ {leafString key})) →
      verifyCausalInclusion sha256 key path (set.root sha256) count = true → key ∈ set.keys ∧ count = set.count) ∧
    (∀ path terminalDepth count,
      Set.InjOn sha256 (setStrings sha256 set ∪
        nodeString '' pathNodes sha256 key (emptyTable sha256 terminalDepth, 0) path) →
      verifyCausalNonInclusion sha256 key terminalDepth path (set.root sha256) count = true →
        key ∉ set.keys ∧ count = set.count ∧
          set.nonInclusionProof sha256 key = some (path, terminalDepth, set.root sha256, set.count)) := by
  have cached := reachable.cached
  refine ⟨?_, ?_, ?_, ?_, ?_⟩
  · by_cases member : key ∈ set.keys
    · rw [inclusionProof_eq cached member, nonInclusionProof_none cached member]
      exact inl ⟨rfl, Bool.false_ne_true⟩
    · obtain ⟨bottom, steps, leaves⟩ := exists_leaves (mt mem_keys_iff.mp member)
      rw [inclusionProof_none member, nonInclusionProof_eq cached leaves]
      exact inr ⟨rfl, Bool.false_ne_true⟩
  · intro path root count proof
    by_cases member : key ∈ set.keys
    · rw [inclusionProof_eq cached member] at proof
      obtain ⟨rfl, -⟩ := Prod.mk.inj (Option.some.inj proof)
      exact inclusion_accepted cached fits member
    · rw [inclusionProof_none member] at proof
      cases proof
  · intro path terminalDepth root count proof
    by_cases member : key ∈ set.keys
    · rw [nonInclusionProof_none cached member] at proof
      cases proof
    · obtain ⟨bottom, steps, leaves⟩ := exists_leaves (mt mem_keys_iff.mp member)
      rw [nonInclusionProof_eq cached leaves] at proof
      obtain ⟨rfl, rest⟩ := Prod.mk.inj (Option.some.inj proof)
      obtain ⟨rfl, -⟩ := Prod.mk.inj rest
      exact nonInclusion_accepted cached fits leaves
  · intro path count free accepted
    exact inclusion_sound cached fits free accepted
  · intro path terminalDepth count free accepted
    obtain ⟨leaves, rfl, counted⟩ := nonInclusion_sound cached fits free accepted
    refine ⟨?_, counted, nonInclusionProof_eq cached leaves⟩
    intro member
    have own : key ∈ causalAlong key (causalDepth - terminalDepth) terminalDepth set.keys.toList :=
      mem_causalAlong.mpr ⟨mem_keys_iff.mpr member, fun level _ => rfl⟩
    rw [leaves.gone] at own
    cases own

end CausalSet

theorem pathNodes_honest (whole : bottom + steps = causalDepth)
    (bare : terminal = causalSubtree sha256 bottom (causalAlong key bottom steps keys)) :
    pathNodes sha256 key terminal ((causalSiblings sha256 key bottom steps keys).map asStep) ⊆ trieNodes sha256 keys := by
  have inside := @climbInputs_siblings Hash (Hash × UInt64) (causalJoin sha256) (causalBlank sha256) causalTurn key
    (causalEntries sha256 keys) bottom steps
  rw [along_causalEntries, whole] at inside
  unfold pathNodes
  rw [siblings_length', map_value_asStep, show causalDepth - steps = bottom from by omega, bare]
  exact subset_union_of_subset_left inside _

namespace CausalSet

variable {one other : CausalSet}

theorem keys_of_root (free : InjOn sha256 (setStrings sha256 one ∪ setStrings sha256 other))
    (reachable : Reachable sha256 one) (fits : one.keys.size ≤ usizeMax) (otherReachable : Reachable sha256 other)
    (otherFits : other.keys.size ≤ usizeMax) (same : one.root sha256 = other.root sha256) (mem : key ∈ one.keys) :
    key ∈ other.keys := by
  have accepted := inclusion_accepted reachable.cached fits mem
  rw [same] at accepted
  apply (inclusion_sound otherReachable.cached otherFits (free.mono _) accepted).1
  apply union_subset subset_union_right
  apply (union_subset _ _).trans subset_union_left
  · apply (image_mono (pathNodes_honest (Nat.zero_add causalDepth) _)).trans subset_union_left
    exact (causalSubtree_whole (mem_keys_iff.mpr mem)).symm
  · exact singleton_subset_iff.mpr (inr (inl ⟨key, mem, rfl⟩))

/-- However two sets came about, their roots tell them apart. -/
theorem root_exact (free : InjOn sha256 (setStrings sha256 one ∪ setStrings sha256 other))
    (reachable : Reachable sha256 one) (fits : one.keys.size ≤ usizeMax) (otherReachable : Reachable sha256 other)
    (otherFits : other.keys.size ≤ usizeMax) : one.root sha256 = other.root sha256 ↔ one.keys = other.keys := by
  constructor
  · intro same
    ext key
    exact ⟨keys_of_root free reachable fits otherReachable otherFits same,
      keys_of_root (union_comm _ _ ▸ free) otherReachable otherFits reachable fits same.symm⟩
  · intro same
    rw [root_eq reachable.cached, root_eq otherReachable.cached, same]

end CausalSet

namespace Sample

/-- A digest of the length, the depth and the counts of a node, and the last byte of a key. -/
def sketchy : Sha256 := fun bytes => Vector.ofFn fun i =>
  if i.val = 0 then UInt8.ofNat bytes.length
  else if i.val = 1 then bytes.getD 30 0
  else if i.val = 2 then bytes.getD 70 0 + bytes.getD 110 0
  else if i.val = 3 then bytes.getD 60 0
  else 0

def lastKey : Hash := setBit zeroPrefix 255

def pairKeys : List Hash := [zeroPrefix, lastKey]

def grown : CausalSet := (History.insertMut once lastKey).run sketchy

def merged : CausalSet := (History.union (.extend .empty [lastKey]) (.insert .empty zeroPrefix)).run sketchy

def lone : CausalSet := once.run sketchy

theorem sets_keys : grown.keys.toList = pairKeys.take 2 ∧ merged.keys.toList = pairKeys.take 2 ∧
    lone.keys.toList = pairKeys.take 1 := by decide +kernel

theorem pairKeys_turn (level : Nat) :
    causalTurn zeroPrefix level = false ∧ causalTurn lastKey level = decide (level = 0) := by
  have small : 255 - level < causalDepth := by
    unfold causalDepth
    omega
  have last : 255 - level = 255 ↔ level = 0 := by omega
  unfold causalTurn causalBit lastKey
  rw [bitAt_setBit small, bitAt_zero small]
  refine ⟨rfl, ?_⟩
  simp only [last]
  split <;> simp [*]

theorem pairKeys_side (level n : Nat) (right : Bool) :
    (pairKeys.take n).filter (fun key => causalTurn key (level + 1) == right) = pairKeys.take (if right then 0 else n) := by
  have all : ∀ key ∈ pairKeys.take n, causalTurn key (level + 1) = false := by
    intro key mem
    rcases mem_cons.mp (mem_of_mem_take mem) with rfl | last
    · exact (pairKeys_turn _).1
    · rw [mem_singleton.mp last, (pairKeys_turn _).2]
      simp
  cases right with
  | false => exact filter_eq_self.mpr fun key mem => by simp [all key mem]
  | true => exact filter_eq_nil_iff.mpr fun key mem => by simp [all key mem]

theorem pairKeys_distinct (level n : Nat) : Distinct (level + 1) (pairKeys.take n) := by
  refine ⟨(take_sublist n pairKeys).nodup (by decide), ?_⟩
  have turns := pairKeys_turn 0
  intro one oneIn other otherIn agree
  have lowest := agree 0 (Nat.succ_pos level)
  rcases mem_cons.mp (mem_of_mem_take oneIn) with rfl | last <;>
    rcases mem_cons.mp (mem_of_mem_take otherIn) with rfl | last' <;> simp_all

def pairNode (level n : Nat) : NodeInput :=
  (level, causalSubtree sketchy level ((pairKeys.take n).filter fun key => causalTurn key level == false),
    causalSubtree sketchy level ((pairKeys.take n).filter fun key => causalTurn key level == true))

def pairNodes : Set NodeInput := {input | ∃ level < causalDepth, ∃ n ≤ 2, input = pairNode level n}

theorem inputs_pair (small : n ≤ 2) : inputs (causalJoin sketchy) (causalBlank sketchy) causalTurn causalDepth
    (causalEntries sketchy (pairKeys.take n)) ⊆ pairNodes := by
  let family (levels : Nat) : Set (List (Hash × Hash × UInt64)) :=
    {held | 0 < levels → ∃ n ≤ 2, held = causalEntries sketchy (pairKeys.take n)}
  have closed : ∀ level, ∀ held ∈ family (level + 1), ∀ right, side causalTurn level right held ∈ family level := by
    intro level held inside right above
    obtain ⟨n, small, rfl⟩ := inside (Nat.succ_pos level)
    obtain ⟨below, rfl⟩ := Nat.exists_eq_succ_of_ne_zero above.ne'
    refine ⟨if right then 0 else n, by cases right <;> simp [small], ?_⟩
    rw [side_causalEntries, pairKeys_side]
  intro input inside
  obtain ⟨level, shallow, held, mem, rfl⟩ := inputs_family closed (fun _ => ⟨n, small, rfl⟩) inside
  obtain ⟨n, small, rfl⟩ := mem (Nat.succ_pos level)
  refine ⟨level, shallow, n, small, ?_⟩
  rw [side_causalEntries, side_causalEntries]
  rfl

def pairStrings : Set Json.Bytes :=
  nodeString '' pairNodes ∪ {leafString zeroPrefix, leafString lastKey, emptyLeafString}

theorem nodeString_parts (input : NodeInput) : (nodeString input).length = 111 ∧
    (nodeString input).getD 30 0 = UInt8.ofNat (depthU16 (255 - input.1)) ∧
      (nodeString input).getD 70 0 = UInt8.ofNat input.2.1.2.toNat ∧
        (nodeString input).getD 110 0 = UInt8.ofNat input.2.2.2.toNat := by
  have dst : causalNodeDst.length = 29 := by decide
  have digest (hash : Hash) : hash.toList.length = 32 := Vector.length_toList
  unfold nodeString
  refine ⟨?_, getD_field dst 1, ?_, ?_⟩
  · simp only [flatten_cons, flatten_nil, length_append, dst, digest, toBeBytes_length, length_nil]
  · exact (getD_field dst 41).trans ((getD_field (toBeBytes_length 2 _) 39).trans (getD_field (digest _) 7))
  · exact (getD_field dst 81).trans ((getD_field (toBeBytes_length 2 _) 79).trans ((getD_field (digest _) 47).trans
      ((getD_field (toBeBytes_length 8 _) 39).trans (getD_field (digest _) 7))))

theorem sketchy_get (bytes : Json.Bytes) : (sketchy bytes).get 0 = UInt8.ofNat bytes.length ∧
    (sketchy bytes).get 1 = bytes.getD 30 0 ∧ (sketchy bytes).get 2 = bytes.getD 70 0 + bytes.getD 110 0 ∧
      (sketchy bytes).get 3 = bytes.getD 60 0 :=
  ⟨get_ofFn _ _, get_ofFn _ _, get_ofFn _ _, get_ofFn _ _⟩

theorem pairNode_count (level : Nat) (small : n ≤ 2) :
    (pairNode level n).2.1.2.toNat + (pairNode level n).2.2.2.toNat = n := by
  have halves := filter_sides (pairKeys.take n) level
  have length : (pairKeys.take n).length = n := length_take_of_le small
  have left := causalSubtree_count sketchy ((pairKeys_distinct level n).side false)
  have right := causalSubtree_count sketchy ((pairKeys_distinct level n).side true)
  unfold pairNode
  dsimp only
  rw [left, right]
  omega

theorem pairNode_inj (small : one < causalDepth) (small' : other < causalDepth) (few : n ≤ 2) (few' : m ≤ 2)
    (same : sketchy (nodeString (pairNode one n)) = sketchy (nodeString (pairNode other m))) :
    pairNode one n = pairNode other m := by
  unfold causalDepth at small small'
  obtain ⟨-, depth, left, right⟩ := nodeString_parts (pairNode one n)
  obtain ⟨-, depth', left', right'⟩ := nodeString_parts (pairNode other m)
  have second := congrArg (fun hash => (Vector.get hash 1).toNat) same
  have third := congrArg (fun hash => (Vector.get hash 2).toNat) same
  simp only [sketchy_get] at second third
  rw [depth, depth'] at second
  rw [left, right, left', right', ← UInt8.ofNat_add, ← UInt8.ofNat_add, pairNode_count one few,
    pairNode_count other few'] at third
  have shallow (level : Nat) : depthU16 (255 - level) = 255 - level := depthU16_eq (by unfold causalDepth; omega)
  rw [UInt8.toNat_ofNat', UInt8.toNat_ofNat', shallow, shallow] at second
  rw [UInt8.toNat_ofNat', UInt8.toNat_ofNat'] at third
  obtain rfl : one = other := by
    change (255 - one) % 256 = (255 - other) % 256 at second
    omega
  obtain rfl : n = m := by omega
  rfl

theorem sketchy_injOn : Set.InjOn sketchy pairStrings := by
  have empty : emptyLeafString.length = 35 := by decide
  have leaf : (leafString zeroPrefix).length = 61 ∧ (leafString zeroPrefix).getD 60 0 = 0 := by decide
  have leaf' : (leafString lastKey).length = 61 ∧ (leafString lastKey).getD 60 0 = 1 := by decide
  intro one oneIn other otherIn same
  have first := congrArg (fun hash => (Vector.get hash 0).toNat) same
  have fourth := congrArg (fun hash => (Vector.get hash 3).toNat) same
  simp only [sketchy_get] at first fourth
  rcases oneIn with ⟨input, ⟨level, small, n, few, rfl⟩, rfl⟩ | rfl | rfl | rfl <;>
    rcases otherIn with ⟨input', ⟨level', small', n', few', rfl⟩, rfl⟩ | rfl | rfl | rfl <;>
      simp only [leaf, leaf', empty, nodeString_parts] at first fourth <;>
        first
        | rfl
        | exact absurd first (by decide)
        | exact absurd fourth (by decide)
        | rw [pairNode_inj small small' few few' same]

theorem trieNodes_pair (small : n ≤ 2) : trieNodes sketchy (pairKeys.take n) ⊆ pairNodes := by
  have none : causalEntries sketchy (pairKeys.take 0) = [] := rfl
  exact union_subset (inputs_pair small) (none ▸ inputs_pair (Nat.zero_le 2))

theorem setStrings_pair (keys : set.keys.toList = pairKeys.take n) (small : n ≤ 2) :
    setStrings sketchy set ⊆ pairStrings := by
  apply union_subset
  · rw [keys]
    exact subset_union_of_subset_left (image_mono (trieNodes_pair small)) _
  · apply union_subset
    · rintro _ ⟨key, mem, rfl⟩
      have listed : key ∈ set.keys.toList := mem_keys_iff.mpr mem
      rw [keys] at listed
      rcases mem_cons.mp (mem_of_mem_take listed) with rfl | last
      · exact inr (inl rfl)
      · rw [mem_singleton.mp last]
        exact inr (inr (inl rfl))
    · exact singleton_subset_iff.mpr (inr (inr (inr rfl)))

theorem fits_of_keys (keys : set.keys.toList = pairKeys.take n) : set.keys.size ≤ usizeMax := by
  rw [← length_toList, keys]
  exact (length_take_le' n pairKeys).trans (by decide)

/-- A key of the two has a proof that verifies and says no more than the truth, and so has a third key. -/
theorem pair_causal_proofs : (∃ path, verifyCausalInclusion sketchy lastKey path (grown.root sketchy) grown.count = true ∧
      lastKey ∈ grown.keys) ∧
    ∃ path, verifyCausalNonInclusion sketchy (setBit zeroPrefix 0) 1 path (grown.root sketchy) grown.count = true ∧
      setBit zeroPrefix 0 ∉ grown.keys := by
  have reachable : Reachable sketchy grown := ⟨_, rfl⟩
  have fits := fits_of_keys sets_keys.1
  have strings : setStrings sketchy grown ⊆ pairStrings := setStrings_pair sets_keys.1 (le_refl 2)
  have nodes : nodeString '' trieNodes sketchy grown.keys.toList ⊆ pairStrings := subset_union_left.trans strings
  have member : lastKey ∈ grown.keys := mem_keys_iff.mp (by rw [sets_keys.1]; exact mem_cons_of_mem _ mem_cons_self)
  refine ⟨?_, ?_⟩
  · obtain ⟨-, complete, -, sound, -⟩ := causal_proofs reachable fits lastKey
    have accepted := complete _ _ _ (inclusionProof_eq reachable.cached member)
    refine ⟨_, accepted, (sound _ _ (sketchy_injOn.mono ?_) accepted).1⟩
    apply union_subset strings
    apply union_subset
    · refine (image_mono (pathNodes_honest (Nat.zero_add causalDepth) ?_)).trans nodes
      exact (causalSubtree_whole (mem_keys_iff.mpr member)).symm
    · exact singleton_subset_iff.mpr (inr (inr (inl rfl)))
  · have gone : causalAlong (setBit zeroPrefix 0) 255 1 grown.keys.toList = [] := by
      rw [sets_keys.1]
      decide
    have leaves : Leaves (setBit zeroPrefix 0) grown.keys.toList 255 1 := by
      refine ⟨rfl, gone, ?_⟩
      intro above same
      obtain rfl := Nat.succ.inj same
      rw [sets_keys.1]
      decide
    obtain ⟨-, -, complete, -, sound⟩ := causal_proofs reachable fits (setBit zeroPrefix 0)
    have accepted := complete _ _ _ _ (nonInclusionProof_eq reachable.cached leaves)
    refine ⟨_, accepted, (sound _ _ _ (sketchy_injOn.mono ?_) accepted).1⟩
    apply union_subset strings
    refine (image_mono (pathNodes_honest leaves.whole ?_)).trans nodes
    rw [gone]
    exact causalSubtree_nil.symm

/-- Two sets that were built differently have one root, and that of a set with fewer keys is another. -/
theorem root_exact_pair : grown.root sketchy = merged.root sketchy ∧ grown.root sketchy ≠ lone.root sketchy := by
  have fits := fits_of_keys sets_keys.1
  have strings : setStrings sketchy grown ⊆ pairStrings := setStrings_pair sets_keys.1 (le_refl 2)
  have apart : grown.keys ≠ lone.keys := by
    intro same
    have lists := sets_keys.1.symm.trans ((congrArg Std.ExtTreeSet.toList same).trans sets_keys.2.2)
    exact absurd lists (by decide)
  constructor
  · refine (root_exact (sketchy_injOn.mono (union_subset strings (setStrings_pair sets_keys.2.1 (le_refl 2)))) ⟨_, rfl⟩ fits
      ⟨_, rfl⟩ (fits_of_keys sets_keys.2.1)).mpr ?_
    exact Std.ExtTreeSet.ext_toList (.of_eq (sets_keys.1.trans sets_keys.2.1.symm))
  · exact mt (root_exact (sketchy_injOn.mono (union_subset strings (setStrings_pair sets_keys.2.2 (by decide)))) ⟨_, rfl⟩ fits
      ⟨_, rfl⟩ (fits_of_keys sets_keys.2.2)).mp apart

end Sample

end Rezzy.Merkle
