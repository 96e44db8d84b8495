import Rezzy.Merkle.StateProofs

namespace Rezzy.Merkle.StateMap

open SparseTrie Json Basespec List Or Std.ExtTreeMap UInt8 Option
open Set (image_mono union_subset)

variable {sha256 : Sha256} {Id K : Type} {cmp : EventType × K → EventType × K → Ordering} [Std.TransCmp cmp]
  [Std.LawfulEqCmp cmp] {asRef : K → String} {display : Id → String} {state : Std.ExtTreeMap (EventType × K) Id cmp}
  {map : StateMap} {strings : Set Bytes} {eventType stateKey eventId : String} {path : List StateProofStep}
  {terminalDepth bottom steps : Nat} {key value : MerkleHash}

theorem root_eq : map.root sha256 = stateSubtree sha256 stateDepth map.entries := subtree_eq (le_refl _)

theorem entries_whole (found : map.leaves[key]? = some value) :
    stateSubtree sha256 0 (along stateTurn key 0 stateDepth map.entries) = value := by
  cases whole : along stateTurn key 0 stateDepth map.entries with
  | nil =>
    have own : (key, value) ∈ along stateTurn key 0 stateDepth map.entries :=
      mem_along_whole.mpr ⟨mem_entries.mpr found, rfl⟩
    rw [whole] at own
    cases own
  | cons first rest =>
    have own : first ∈ along stateTurn key 0 stateDepth map.entries := whole ▸ mem_cons_self
    obtain ⟨mem, rfl⟩ := mem_along_whole.mp own
    have bound := mem_entries.mp mem
    rw [found] at bound
    exact (Option.some.inj bound).symm

structure Leaves (key : MerkleHash) (entries : List (MerkleHash × MerkleHash)) (bottom steps : Nat) : Prop where
  whole : bottom + steps = stateDepth
  gone : along stateTurn key bottom steps entries = []
  last : ∀ above, steps = above + 1 → along stateTurn key (bottom + 1) above entries ≠ []

theorem exists_leaves (absent : map.leaves[key]? = none) : ∃ bottom steps, Leaves key map.entries bottom steps := by
  have gone : along stateTurn key 0 stateDepth map.entries = [] := by
    apply eq_nil_iff_forall_not_mem.mpr
    intro _ mem
    obtain ⟨held, rfl⟩ := mem_along_whole.mp mem
    have bound := mem_entries.mp held
    rw [absent] at bound
    cases bound
  obtain ⟨bottom, steps, whole, left, last⟩ := exists_leave gone
  exact ⟨bottom, steps, whole, left, last⟩

theorem descend_leaves_eq (leaves : Leaves key map.entries bottom steps) : StateMap.descend sha256 key stateDepth map.entries =
    (steps, (stateSiblings sha256 key bottom steps map.entries).map StateProofStep.mk) := by
  obtain ⟨whole, gone, last⟩ := leaves
  have left := @descend_leaves MerkleHash MerkleHash (stateJoin sha256) (stateBlank sha256) stateTurn key map.entries bottom
    steps gone last
  rw [whole] at left
  rw [descend_eq (le_refl _), left, show stateDepth - bottom = steps from by omega]

theorem nonInclusionProof_eq (leaves : Leaves (stateKeyHash sha256 eventType stateKey) map.entries bottom steps)
    (absent : map.leaves.contains (stateKeyHash sha256 eventType stateKey) = false) :
    map.nonInclusionProof sha256 eventType stateKey =
      some ((stateSiblings sha256 (stateKeyHash sha256 eventType stateKey) bottom steps map.entries).map StateProofStep.mk,
        steps, map.root sha256) := by
  unfold nonInclusionProof
  rw [if_neg (by rw [absent]; exact Bool.false_ne_true), descend_leaves_eq leaves]

theorem contains_eq_false (absent : map.leaves[key]? = none) : map.leaves.contains key = false := by
  rw [contains_eq_isSome_getElem?, absent]
  rfl

section

section

variable
  (found : map.leaves[stateKeyHash sha256 eventType stateKey]? =
  some (stateLeafHash sha256 eventType stateKey eventId))
include found

theorem inclusionProof_eq : map.inclusionProof sha256 eventType stateKey eventId =
      some ((stateSiblings sha256 (stateKeyHash sha256 eventType stateKey) 0 stateDepth map.entries).map StateProofStep.mk,
        map.root sha256) := by
  have mem : (stateKeyHash sha256 eventType stateKey, stateLeafHash sha256 eventType stateKey eventId) ∈ map.entries :=
    mem_entries.mpr found
  have arrived : along stateTurn (stateKeyHash sha256 eventType stateKey) 0 stateDepth map.entries ≠ [] :=
    ne_nil_of_mem (mem_along_whole.mpr ⟨mem, rfl⟩)
  unfold inclusionProof
  rw [if_neg (not_not.mpr found), descend_eq (le_refl _), descend_arrives arrived]

theorem inclusion_accepted : verifyInclusion sha256 eventType stateKey eventId
      ((stateSiblings sha256 (stateKeyHash sha256 eventType stateKey) 0 stateDepth map.entries).map StateProofStep.mk)
      (map.root sha256) = true := by
  have honest := state_honest_path sha256 (stateKeyHash sha256 eventType stateKey) map.entries (Nat.zero_add stateDepth)
  rw [entries_whole found] at honest
  rw [root_eq]
  exact honest

end

theorem nonInclusion_accepted (secure : Secure sha256 asRef display state strings)
    (made : fromState sha256 asRef display state = map)
    (leaves : Leaves (stateKeyHash sha256 eventType stateKey) map.entries bottom steps) :
    verifyNonInclusion sha256 eventType stateKey steps
      ((stateSiblings sha256 (stateKeyHash sha256 eventType stateKey) bottom steps map.entries).map StateProofStep.mk)
      (map.root sha256) = true := by
  subst made
  obtain ⟨whole, gone, last⟩ := leaves
  have honest := state_honest_path sha256 (stateKeyHash sha256 eventType stateKey)
    (fromState sha256 asRef display state).entries whole
  have below : stateDepth - steps = bottom := by omega
  have long : ((stateSiblings sha256 (stateKeyHash sha256 eventType stateKey) bottom steps
      (fromState sha256 asRef display state).entries).map StateProofStep.mk).length = steps := by
    rw [length_map]
    exact siblings_length
  rw [gone, stateSubtree_nil] at honest
  unfold verifyNonInclusion stateEmptyTable
  rw [root_eq, below, if_neg (by omega), if_neg (not_not.mpr long), if_neg]
  · exact honest
  · intro bare
    rw [head?_map] at bare
    cases steps with
    | zero => cases bare
    | succ above =>
      rw [siblings_head, map_some, any_some, decide_eq_true_iff] at bare
      have inside := @inputs_along MerkleHash MerkleHash (stateJoin sha256) (stateBlank sha256) stateTurn
        (stateKeyHash sha256 eventType stateKey) (fromState sha256 asRef display state).entries (bottom + 1) above
      rw [Nat.add_right_comm, Nat.add_assoc, whole] at inside
      have other := state_void_exact secure.free (Set.subset_union_left.trans secure.built) (entries_apart secure)
        (fun entry mem => (mem_along.mp (mem_side.mp mem).1).1) (by omega : bottom ≤ stateDepth)
        ((inputs_side _).trans inside) bare.symm
      rw [along_above] at gone
      apply last above rfl
      apply eq_nil_iff_forall_not_mem.mpr
      intro entry mem
      by_cases own : stateTurn entry.1 bottom = stateTurn (stateKeyHash sha256 eventType stateKey) bottom
      · exact not_mem_nil (gone ▸ mem_side.mpr ⟨mem, own⟩)
      · exact not_mem_nil (other ▸ mem_side.mpr ⟨mem, Bool.eq_not_of_ne own⟩)

variable (secure : Secure sha256 asRef display state strings) (made : fromState sha256 asRef display state = map)
include secure made

theorem inclusion_sound (fits : Fits eventType ∧ Fits stateKey)
    (keyIn : stateKeyString eventType stateKey ∈ strings) (leafIn : stateLeafString eventType stateKey eventId ∈ strings)
    (climbed : stateNodeString '' statePathNodes sha256 (stateKeyHash sha256 eventType stateKey)
      (stateLeafHash sha256 eventType stateKey eventId) path ⊆ strings)
    (accepted : verifyInclusion sha256 eventType stateKey eventId path (map.root sha256) = true) :
    Binds asRef display state eventType stateKey eventId := by
  subst made
  rw [root_eq] at accepted
  obtain ⟨leaf, -⟩ := state_accepted_path secure.free (Set.subset_union_left.trans secure.built) climbed (le_refl _) accepted
  rw [Nat.sub_self] at leaf
  apply (bound_iff secure fits keyIn leafIn).mp
  cases whole : along stateTurn (stateKeyHash sha256 eventType stateKey) 0 stateDepth
      (fromState sha256 asRef display state).entries with
  | nil =>
    rw [whole] at leaf
    have empty : stateEmptyString ∈ strings := secure.built (inr (inr rfl))
    exact absurd (secure.free leafIn empty leaf) stateLeafString_ne
  | cons first rest =>
    have own : first ∈ along stateTurn (stateKeyHash sha256 eventType stateKey) 0 stateDepth
        (fromState sha256 asRef display state).entries := whole ▸ mem_cons_self
    obtain ⟨mem, same⟩ := mem_along_whole.mp own
    rw [whole] at leaf
    rw [leaf, ← same]
    exact mem_entries.mp mem

theorem nonInclusion_sound (climbed : stateNodeString '' statePathNodes sha256 (stateKeyHash sha256 eventType stateKey)
      (stateEmptyTable sha256 terminalDepth) path ⊆ strings)
    (accepted : verifyNonInclusion sha256 eventType stateKey terminalDepth path (map.root sha256) = true) :
    Leaves (stateKeyHash sha256 eventType stateKey) map.entries (stateDepth - terminalDepth) terminalDepth ∧
      path = (stateSiblings sha256 (stateKeyHash sha256 eventType stateKey) (stateDepth - terminalDepth) terminalDepth
        map.entries).map StateProofStep.mk := by
  subst made
  unfold verifyNonInclusion at accepted
  split at accepted
  · cases accepted
  rename_i shallow
  split at accepted
  · cases accepted
  split at accepted
  · cases accepted
  rename_i minimal
  rw [not_lt] at shallow
  rw [root_eq] at accepted
  obtain ⟨bare, beside⟩ := state_accepted_path secure.free (Set.subset_union_left.trans secure.built) climbed shallow accepted
  have whole : stateDepth - terminalDepth + terminalDepth = stateDepth := by omega
  have inside := @inputs_along MerkleHash MerkleHash (stateJoin sha256) (stateBlank sha256) stateTurn
    (stateKeyHash sha256 eventType stateKey) (fromState sha256 asRef display state).entries (stateDepth - terminalDepth)
    terminalDepth
  rw [whole] at inside
  have gone := state_void_exact secure.free (Set.subset_union_left.trans secure.built) (entries_apart secure)
    (fun entry mem => (mem_along.mp mem).1) (Nat.sub_le _ _) inside bare
  refine ⟨⟨whole, gone, ?_⟩, beside⟩
  rintro above rfl none
  apply minimal
  rw [beside, head?_map, siblings_head, none, side_nil, subtree_nil, state_void_eq]
  exact decide_eq_true rfl

end

/-- There is a proof for a key exactly if it is true, it verifies, and without collisions nothing else does. -/
theorem state_proofs (readable : Readable asRef state) (made : fromState sha256 asRef display state = map)
    (eventType stateKey : String) (fits : Fits eventType ∧ Fits stateKey) :
    (∀ eventId, Set.InjOn sha256 (mapStrings sha256 asRef display state ∪
        {stateKeyString eventType stateKey, stateLeafString eventType stateKey eventId}) →
      ((map.inclusionProof sha256 eventType stateKey eventId).isSome = true ↔
        Binds asRef display state eventType stateKey eventId) ∧
      ∀ path root, map.inclusionProof sha256 eventType stateKey eventId = some (path, root) →
        root = map.root sha256 ∧
          verifyInclusion sha256 eventType stateKey eventId path (map.root sha256) = true) ∧
    (Set.InjOn sha256 (mapStrings sha256 asRef display state ∪ {stateKeyString eventType stateKey}) →
      ((map.nonInclusionProof sha256 eventType stateKey).isSome = true ↔
        ¬∃ eventId, Binds asRef display state eventType stateKey eventId) ∧
      ∀ path terminalDepth root, map.nonInclusionProof sha256 eventType stateKey = some (path, terminalDepth, root) →
        root = map.root sha256 ∧
          verifyNonInclusion sha256 eventType stateKey terminalDepth path (map.root sha256) = true) ∧
    (∀ eventId path, Set.InjOn sha256 (mapStrings sha256 asRef display state ∪
        ({stateKeyString eventType stateKey, stateLeafString eventType stateKey eventId} ∪
          stateNodeString '' statePathNodes sha256 (stateKeyHash sha256 eventType stateKey)
            (stateLeafHash sha256 eventType stateKey eventId) path)) →
      verifyInclusion sha256 eventType stateKey eventId path (map.root sha256) = true →
        Binds asRef display state eventType stateKey eventId) ∧
    (∀ terminalDepth path, Set.InjOn sha256 (mapStrings sha256 asRef display state ∪
        ({stateKeyString eventType stateKey} ∪
          stateNodeString '' statePathNodes sha256 (stateKeyHash sha256 eventType stateKey)
            (stateEmptyTable sha256 terminalDepth) path)) →
      verifyNonInclusion sha256 eventType stateKey terminalDepth path (map.root sha256) = true →
        (¬∃ eventId, Binds asRef display state eventType stateKey eventId) ∧
          map.nonInclusionProof sha256 eventType stateKey = some (path, terminalDepth, map.root sha256)) := by
  refine ⟨?_, ?_, ?_, ?_⟩
  · intro eventId free
    have secure : Secure sha256 asRef display state _ := ⟨readable, free, Set.subset_union_left⟩
    have bound := bound_iff secure fits (inr (inl rfl)) (inr (inr rfl))
    rw [made] at bound
    by_cases binds : Binds asRef display state eventType stateKey eventId
    · have found := bound.mpr binds
      rw [inclusionProof_eq found]
      refine ⟨iff_of_true rfl binds, ?_⟩
      rintro path root same
      obtain ⟨rfl, rfl⟩ := Prod.mk.inj (Option.some.inj same)
      exact ⟨rfl, inclusion_accepted found⟩
    · have none : map.inclusionProof sha256 eventType stateKey eventId = none := if_pos (mt bound.mp binds)
      rw [none]
      exact ⟨iff_of_false Bool.false_ne_true binds, fun path root same => nomatch same⟩
  · intro free
    have secure : Secure sha256 asRef display state _ := ⟨readable, free, Set.subset_union_left⟩
    have held := absent_iff secure fits (inr rfl)
    rw [made] at held
    by_cases binds : ∃ eventId, Binds asRef display state eventType stateKey eventId
    · have none : map.nonInclusionProof sha256 eventType stateKey = none := if_pos (held.mpr binds)
      rw [none]
      exact ⟨iff_of_false Bool.false_ne_true (not_not.mpr binds), fun path terminalDepth root same => nomatch same⟩
    · have absent : map.leaves[stateKeyHash sha256 eventType stateKey]? = none := by
        rw [← not_isSome_iff_eq_none, ← contains_eq_isSome_getElem?]
        exact mt held.mp binds
      obtain ⟨bottom, steps, leaves⟩ := exists_leaves absent
      rw [nonInclusionProof_eq leaves (contains_eq_false absent)]
      refine ⟨iff_of_true rfl binds, ?_⟩
      rintro path terminalDepth root same
      obtain ⟨rfl, rest⟩ := Prod.mk.inj (Option.some.inj same)
      obtain ⟨rfl, rfl⟩ := Prod.mk.inj rest
      exact ⟨rfl, nonInclusion_accepted secure made leaves⟩
  · intro eventId path free accepted
    have secure : Secure sha256 asRef display state _ := ⟨readable, free, Set.subset_union_left⟩
    exact inclusion_sound secure made fits (inr (inl (inl rfl))) (inr (inl (inr rfl)))
      (fun _ inside => inr (inr inside)) accepted
  · intro terminalDepth path free accepted
    have secure : Secure sha256 asRef display state _ := ⟨readable, free, Set.subset_union_left⟩
    obtain ⟨leaves, rfl⟩ := nonInclusion_sound secure made (fun _ inside => inr (inr inside)) accepted
    have absent : map.leaves[stateKeyHash sha256 eventType stateKey]? = none := by
      rw [eq_none_iff_forall_ne_some]
      intro value found
      have own : (stateKeyHash sha256 eventType stateKey, value) ∈ along stateTurn (stateKeyHash sha256 eventType stateKey)
          (stateDepth - terminalDepth) terminalDepth map.entries :=
        mem_along.mpr ⟨mem_entries.mpr found, fun _ _ => rfl⟩
      rw [leaves.gone] at own
      cases own
    have held := absent_iff secure fits (inr (inl rfl))
    rw [made, contains_eq_false absent] at held
    exact ⟨fun binds => Bool.false_ne_true (held.mpr binds), nonInclusionProof_eq leaves (contains_eq_false absent)⟩

theorem pathNodes_honest {entries : List (MerkleHash × MerkleHash)} (whole : bottom + steps = stateDepth)
    (bare : value = stateSubtree sha256 bottom (along stateTurn key bottom steps entries)) :
    statePathNodes sha256 key value ((stateSiblings sha256 key bottom steps entries).map StateProofStep.mk) ⊆
      stateTrieNodes sha256 entries := by
  have inside := @climbInputs_siblings MerkleHash MerkleHash (stateJoin sha256) (stateBlank sha256) stateTurn key entries
    bottom steps
  have long : ((stateSiblings sha256 key bottom steps entries).map StateProofStep.mk).length = steps := by
    rw [length_map]
    exact siblings_length
  rw [whole] at inside
  unfold statePathNodes
  rw [long, map_hash_mk, show stateDepth - steps = bottom from by omega, bare]
  exact Set.subset_union_of_subset_left inside _

section

variable {other : Std.ExtTreeMap (EventType × K) Id cmp}
  (free : Set.InjOn sha256 (mapStrings sha256 asRef display state ∪ mapStrings sha256 asRef display other))
  (readable : Readable asRef state) (otherReadable : Readable asRef other)
  (same : (fromState sha256 asRef display state).root sha256 = (fromState sha256 asRef display other).root sha256)
include free readable otherReadable same

theorem Binds.of_root (binds : Binds asRef display state eventType stateKey eventId) :
    Binds asRef display other eventType stateKey eventId := by
  have secure : Secure sha256 asRef display state _ := ⟨readable, free, Set.subset_union_left⟩
  have otherSecure : Secure sha256 asRef display other _ := ⟨otherReadable, free, Set.subset_union_right⟩
  have leafIn := binds.leafIn secure
  obtain ⟨key, id, bound, rfl, rfl⟩ := binds
  have mem : (((⟨eventType⟩, key), id) : (EventType × K) × Id) ∈ state.toList := mem_toList_iff.mpr bound
  have fits := readable.fits _ mem
  have keyIn := secure.binding mem (.inl rfl)
  have found := (bound_iff secure fits keyIn leafIn).mpr ⟨key, id, bound, rfl, rfl⟩
  have accepted := inclusion_accepted found
  rw [same] at accepted
  apply inclusion_sound otherSecure rfl fits keyIn leafIn _ accepted
  apply Set.Subset.trans (image_mono (pathNodes_honest (Nat.zero_add stateDepth) (entries_whole found).symm))
  exact Set.subset_union_left.trans secure.built

/-- Two states with one root bind every key alike. -/
theorem root_binding (eventType stateKey eventId : String) :
    Binds asRef display state eventType stateKey eventId ↔ Binds asRef display other eventType stateKey eventId :=
  ⟨.of_root free readable otherReadable same, .of_root (Set.union_comm _ _ ▸ free) otherReadable readable same.symm⟩

end

namespace Sample

/-- A digest of the length of a text and the depth of a node, that tells of each node if a leaf is below. -/
def sketchy : Sha256 := fun bytes => Vector.ofFn fun i =>
  if i.val = 31 then UInt8.ofNat bytes.length
  else if i.val = 1 then bytes.getD 29 0
  else if i.val = 2 then
    if bytes.length = 94 then bytes.getD 32 0 ||| bytes.getD 64 0 else if bytes.length = 29 then 0 else 1
  else 0

def shown (id : Nat) : String := if id = 2 then "$t" else "$n"

def stateOfName (id : Nat) : SharedState Nat :=
  ((∅ : SharedState Nat).insert (⟨"m.room.topic"⟩, "") 2).insert (⟨"m.room.name"⟩, "") id

def named : SharedState Nat := stateOfName 1

def renamed : SharedState Nat := stateOfName 3

def committed : StateMap := fromState sketchy id shown named

def nameKey : MerkleHash := stateKeyHash sketchy "m.room.name" ""

def topicKey : MerkleHash := stateKeyHash sketchy "m.room.topic" ""

def pairEntries : List (MerkleHash × MerkleHash) :=
  [(nameKey, stateLeafHash sketchy "m.room.name" "" "$n"), (topicKey, stateLeafHash sketchy "m.room.topic" "" "$t")]

theorem stateOfName_toList (id : Nat) :
    (stateOfName id).toList = [((⟨"m.room.name"⟩, ""), id), ((⟨"m.room.topic"⟩, ""), 2)] := rfl

theorem rooms_entries : (fromState sketchy id shown named).entries = pairEntries ∧
    (fromState sketchy id shown renamed).entries = pairEntries := by decide +kernel

theorem pair_side (level : Nat) (own right : Bool) :
    side stateTurn (level + 1) right (if own then pairEntries else []) =
      if own && stateTurn nameKey (level + 1) == right then pairEntries else [] := by
  have turns : stateTurn topicKey (level + 1) = stateTurn nameKey (level + 1) := by
    unfold stateTurn bit
    rw [show topicKey = setBit nameKey 255 from rfl, bitAt_setBit (by omega), if_neg (by omega)]
  cases own with
  | false => rfl
  | true =>
    unfold side pairEntries
    cases same : stateTurn nameKey (level + 1) == right <;> simp [turns, same]

def pairInput (level : Nat) (own : Bool) : Nat × MerkleHash × MerkleHash :=
  (level, stateSubtree sketchy level (side stateTurn level false (if own then pairEntries else [])),
    stateSubtree sketchy level (side stateTurn level true (if own then pairEntries else [])))

def pairInputs : Set (Nat × MerkleHash × MerkleHash) := {input | ∃ level < stateDepth, ∃ own, input = pairInput level own}

theorem inputs_pair (own : Bool) : inputs (stateJoin sketchy) (stateBlank sketchy) stateTurn stateDepth
    (if own then pairEntries else []) ⊆ pairInputs := by
  let family (levels : Nat) : Set (List (MerkleHash × MerkleHash)) :=
    {held | 0 < levels → ∃ own : Bool, held = if own then pairEntries else []}
  have closed : ∀ level, ∀ held ∈ family (level + 1), ∀ right, side stateTurn level right held ∈ family level := by
    intro level held inside right above
    obtain ⟨own, rfl⟩ := inside (Nat.succ_pos level)
    obtain ⟨below, rfl⟩ := Nat.exists_eq_succ_of_ne_zero above.ne'
    exact ⟨_, pair_side below own right⟩
  intro input inside
  obtain ⟨level, shallow, held, mem, rfl⟩ := inputs_family closed (fun _ => ⟨own, rfl⟩) inside
  obtain ⟨own, rfl⟩ := mem (Nat.succ_pos level)
  exact ⟨level, shallow, own, rfl⟩

theorem trieNodes_pair : stateTrieNodes sketchy pairEntries ⊆ pairInputs :=
  Set.union_subset (inputs_pair true) (inputs_pair false)

theorem sketchy_get (bytes : Bytes) : (sketchy bytes).get 31 = ofNat bytes.length ∧
    (sketchy bytes).get 1 = bytes.getD 29 0 ∧
      (sketchy bytes).get 2 = if bytes.length = 94 then bytes.getD 32 0 ||| bytes.getD 64 0
        else if bytes.length = 29 then 0 else 1 := ⟨get_ofFn _ _, get_ofFn _ _, get_ofFn _ _⟩

theorem nodeString_parts (input : Nat × MerkleHash × MerkleHash) : (stateNodeString input).length = 94 ∧
    (stateNodeString input).getD 29 0 = ofNat (min (255 - input.1) (2 ^ 16 - 1)) ∧
      (stateNodeString input).getD 32 0 = input.2.1.get 2 ∧ (stateNodeString input).getD 64 0 = input.2.2.get 2 := by
  have dst : stateNodeDst.length = 28 := by decide
  have digest (hash : Hash) : hash.toList.length = 32 := Vector.length_toList
  have third (hash : Hash) (rest : Bytes) : (hash.toList ++ rest).getD 2 0 = hash.get 2 := by
    rw [getD_append _ _ _ _ (by rw [digest]; omega), getD_eq_getElem _ _ (by rw [digest]; omega)]
    exact Vector.getElem_toList _
  unfold stateNodeString
  refine ⟨?_, getD_field dst 1, ?_, ?_⟩
  · simp only [flatten_cons, flatten_nil, length_append, dst, digest, toBeBytes_length, length_nil]
  · exact (getD_field dst 4).trans ((getD_field (toBeBytes_length 2 _) 2).trans (third _ _))
  · exact (getD_field dst 36).trans ((getD_field (toBeBytes_length 2 _) 34).trans
      ((getD_field (digest _) 2).trans (third _ _)))

theorem nodeString_flag (input : Nat × MerkleHash × MerkleHash) :
    (sketchy (stateNodeString input)).get 2 = input.2.1.get 2 ||| input.2.2.get 2 := by
  obtain ⟨long, -, left, right⟩ := nodeString_parts input
  rw [(sketchy_get _).2.2, if_pos long, left, right]

theorem pairInput_flag (level : Nat) (own : Bool) :
    (sketchy (stateNodeString (pairInput level own))).get 2 = if own then 1 else 0 := by
  rw [nodeString_flag]
  unfold pairInput
  induction level generalizing own with
  | zero => cases own <;> decide +kernel
  | succ level ih =>
    have below (own : Bool) : (stateSubtree sketchy (level + 1) (if own then pairEntries else [])).get 2 =
        if own then 1 else 0 := (nodeString_flag (pairInput level own)).trans (ih own)
    dsimp only
    rw [pair_side, pair_side, below, below]
    cases own <;> cases stateTurn nameKey (level + 1) <;> rfl

theorem pairInput_inj (small : one < stateDepth) (small' : other < stateDepth)
    (same : sketchy (stateNodeString (pairInput one own)) = sketchy (stateNodeString (pairInput other own'))) :
    pairInput one own = pairInput other own' := by
  unfold stateDepth at small small'
  have second := congrArg (fun hash => (Vector.get hash 1).toNat) same
  have third := congrArg (fun hash => Vector.get hash 2) same
  simp only [pairInput_flag] at third
  simp only [sketchy_get, nodeString_parts] at second
  rw [toNat_ofNat', toNat_ofNat'] at second
  obtain rfl : one = other := by
    change min (255 - one) (2 ^ 16 - 1) % 256 = min (255 - other) (2 ^ 16 - 1) % 256 at second
    omega
  cases own <;> cases own' <;> first | rfl | exact absurd third (by decide)

def pairStrings : Set Bytes :=
  stateNodeString '' pairInputs ∪ ({stateEmptyString, stateKeyString "m.room.create" ""} ∪
    ({stateKeyString "m.room.name" "", stateLeafString "m.room.name" "" "$n"} ∪
      {stateKeyString "m.room.topic" "", stateLeafString "m.room.topic" "" "$t"}))

theorem sketchy_injOn : Set.InjOn sketchy pairStrings := by
  have empty : stateEmptyString.length = 29 := by decide
  have create : (stateKeyString "m.room.create" "").length = 56 := by decide
  have name : (stateKeyString "m.room.name" "").length = 54 ∧
      (stateLeafString "m.room.name" "" "$n").length = 65 := by decide
  have topic : (stateKeyString "m.room.topic" "").length = 55 ∧
      (stateLeafString "m.room.topic" "" "$t").length = 66 := by decide
  have node (level : Nat) (own : Bool) : (stateNodeString (pairInput level own)).length = 94 := (nodeString_parts _).1
  have lengths {one other : Bytes} (same : sketchy one = sketchy other) :
      (ofNat one.length).toNat = (ofNat other.length).toNat := by
    have last := congrArg (fun hash => (Vector.get hash 31).toNat) same
    simp only [sketchy_get] at last
    exact last
  intro one oneIn other otherIn same
  have last := lengths same
  rcases oneIn with ⟨input, ⟨level, small, own, rfl⟩, rfl⟩ | (rfl | rfl) | (rfl | rfl) | (rfl | rfl) <;>
    rcases otherIn with ⟨input', ⟨level', small', own', rfl⟩, rfl⟩ | (rfl | rfl) | (rfl | rfl) | (rfl | rfl) <;>
      simp only [empty, create, name, topic, node] at last <;>
        first | rfl | exact absurd last (by decide) | rw [pairInput_inj small small' same]

theorem mapStrings_pair (entries : (fromState sketchy id shown (stateOfName name)).entries = pairEntries)
    (same : shown name = "$n") : mapStrings sketchy id shown (stateOfName name) ⊆ pairStrings := by
  apply union_subset
  · rw [entries]
    exact Set.subset_union_of_subset_left (image_mono trieNodes_pair) _
  · apply union_subset
    · rintro string ⟨binding, mem, inside⟩
      rw [stateOfName_toList] at mem
      rcases mem_cons.mp mem with rfl | mem
      · unfold bindingStrings at inside
        rw [same] at inside
        exact inr (inr (inl inside))
      · rw [mem_singleton.mp mem] at inside
        exact inr (inr (inr inside))
    · exact Set.singleton_subset_iff.mpr (inr (inl (inl rfl)))

theorem readable_pair (name : Nat) : Readable id (stateOfName name) := by
  refine ⟨fun _ _ same => same, ?_⟩
  intro _ mem
  rw [stateOfName_toList] at mem
  rcases mem_cons.mp mem with rfl | mem
  · show (asBytes "m.room.name").length ≤ usizeMax ∧ (asBytes "").length ≤ usizeMax
    decide
  · rw [mem_singleton.mp mem]
    show (asBytes "m.room.topic").length ≤ usizeMax ∧ (asBytes "").length ≤ usizeMax
    decide

/-- The name has a proof that verifies and says no more than the truth, and so has the lack of a create event. -/
theorem pair_state_proofs : (∃ path, verifyInclusion sketchy "m.room.name" "" "$n" path (committed.root sketchy) = true ∧
      Binds id shown named "m.room.name" "" "$n") ∧
    ∃ terminalDepth path, verifyNonInclusion sketchy "m.room.create" "" terminalDepth path (committed.root sketchy) = true ∧
      ¬∃ eventId, Binds id shown named "m.room.create" "" eventId := by
  have made : fromState sketchy id shown named = committed := rfl
  have readable := readable_pair 1
  have strings : mapStrings sketchy id shown named ⊆ pairStrings := mapStrings_pair rooms_entries.1 rfl
  have fits (eventType : String) (short : (asBytes eventType).length ≤ usizeMax) : Fits eventType ∧ Fits "" :=
    ⟨short, by unfold Fits; decide⟩
  have trie : stateNodeString '' stateTrieNodes sketchy committed.entries ⊆ pairStrings := Set.subset_union_left.trans strings
  have name_in : {stateKeyString "m.room.name" "", stateLeafString "m.room.name" "" "$n"} ⊆ pairStrings :=
    fun _ inside => inr (inr (inl inside))
  have create_in : {stateKeyString "m.room.create" ""} ⊆ pairStrings :=
    Set.singleton_subset_iff.mpr (inr (inl (inr rfl)))
  refine ⟨?_, ?_⟩
  · obtain ⟨complete, -, sound, -⟩ := state_proofs readable made "m.room.name" "" (fits "m.room.name" (by decide))
    have found : committed.leaves[nameKey]? = some (stateLeafHash sketchy "m.room.name" "" "$n") := by
      decide +kernel
    have free := sketchy_injOn.mono (Set.union_subset strings name_in)
    have accepted := ((complete "$n" free).2 _ _ (inclusionProof_eq found)).2
    refine ⟨_, accepted, sound "$n" _ (sketchy_injOn.mono ?_) accepted⟩
    apply Set.union_subset strings
    apply Set.union_subset name_in
    exact (Set.image_mono (pathNodes_honest (Nat.zero_add stateDepth) (entries_whole found).symm)).trans trie
  · obtain ⟨-, complete, -, sound⟩ := state_proofs readable made "m.room.create" "" (fits "m.room.create" (by decide))
    have free := sketchy_injOn.mono (Set.union_subset strings create_in)
    have absent : committed.leaves[stateKeyHash sketchy "m.room.create" ""]? = none := by decide +kernel
    obtain ⟨bottom, steps, leaves⟩ := exists_leaves absent
    have accepted := ((complete free).2 _ _ _ (nonInclusionProof_eq leaves (contains_eq_false absent))).2
    refine ⟨_, _, accepted, (sound _ _ (sketchy_injOn.mono ?_) accepted).1⟩
    apply Set.union_subset strings
    apply Set.union_subset create_in
    refine (Set.image_mono (pathNodes_honest leaves.whole ?_)).trans trie
    rw [leaves.gone, stateSubtree_nil]
    unfold stateEmptyTable
    rw [show stateDepth - steps = bottom from by have := leaves.whole; omega]

/-- Two states that differ in an event of the same name have one root and bind alike. -/
theorem root_binding_renamed : named ≠ renamed ∧ ∀ eventType stateKey eventId,
    Binds id shown named eventType stateKey eventId ↔ Binds id shown renamed eventType stateKey eventId := by
  have same : (fromState sketchy id shown named).root sketchy = (fromState sketchy id shown renamed).root sketchy := by
    unfold root
    rw [rooms_entries.1, rooms_entries.2]
  have free := sketchy_injOn.mono (union_subset (mapStrings_pair rooms_entries.1 rfl)
    (mapStrings_pair rooms_entries.2 rfl))
  refine ⟨fun equal => ?_, fun eventType stateKey eventId => root_binding free (readable_pair 1)
    (readable_pair 3) same eventType stateKey eventId⟩
  have lists := (stateOfName_toList 1).symm.trans ((congrArg Std.ExtTreeMap.toList equal).trans (stateOfName_toList 3))
  exact absurd lists (by decide)

end Sample

end Rezzy.Merkle.StateMap
