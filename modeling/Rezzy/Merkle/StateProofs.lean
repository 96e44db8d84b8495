import Rezzy.Merkle.StateMap

namespace Rezzy.Merkle

open SparseTrie Json Basespec List StateProofStep Or Set
open StateProofStep (hash)

section

variable {eventType stateKey eventId eventType' stateKey' eventId' : String}

def Fits (text : String) : Prop := (asBytes text).length ≤ usizeMax

def stateKeyString (eventType stateKey : String) : Bytes := [stateKeyDst, encodePair eventType stateKey].flatten

def stateLeafString (eventType stateKey eventId : String) : Bytes :=
  [stateLeafDst, encodePair eventType stateKey, lengthBytes eventId, asBytes eventId].flatten

def stateNodeString (input : Nat × MerkleHash × MerkleHash) : Bytes :=
  [stateNodeDst, toBeBytes 2 (min (255 - input.1) (2 ^ 16 - 1)), input.2.1.toList, input.2.2.toList].flatten

def stateEmptyString : Bytes := [stateEmptyDst].flatten

theorem lengthBytes_inj (fits : Fits eventType) (fits' : Fits eventType')
    (same : lengthBytes eventType = lengthBytes eventType') : (asBytes eventType).length = (asBytes eventType').length := by
  unfold Fits usizeMax at fits fits'
  have lengths := toBeBytes_inj (by omega) (by omega) same
  omega

theorem text_inj (fits : Fits eventType) (fits' : Fits eventType')
    (same : lengthBytes eventType ++ (asBytes eventType ++ rest) = lengthBytes eventType' ++ (asBytes eventType' ++ rest')) :
    eventType = eventType' ∧ rest = rest' := by
  have fields : (lengthBytes eventType).length = (lengthBytes eventType').length := by
    unfold lengthBytes
    rw [toBeBytes_length, toBeBytes_length]
  obtain ⟨lengths, same⟩ := fields_inj fields same
  obtain ⟨texts, rests⟩ := fields_inj (lengthBytes_inj fits fits' lengths) same
  exact ⟨asBytes_injective texts, rests⟩

section

variable (fits : Fits eventType ∧ Fits stateKey) (fits' : Fits eventType' ∧ Fits stateKey')
include fits fits'

theorem encodePair_inj (same : encodePair eventType stateKey ++ rest = encodePair eventType' stateKey' ++ rest') :
    (eventType = eventType' ∧ stateKey = stateKey') ∧ rest = rest' := by
  unfold encodePair at same
  simp only [append_assoc] at same
  obtain ⟨types, same⟩ := text_inj fits.1 fits'.1 same
  obtain ⟨keys, rests⟩ := text_inj fits.2 fits'.2 same
  exact ⟨⟨types, keys⟩, rests⟩

theorem stateKeyString_inj (same : stateKeyString eventType stateKey = stateKeyString eventType' stateKey') :
    eventType = eventType' ∧ stateKey = stateKey' := (encodePair_inj fits fits' (append_cancel_left same)).1

theorem stateLeafString_inj
    (same : stateLeafString eventType stateKey eventId = stateLeafString eventType' stateKey' eventId') :
    (eventType = eventType' ∧ stateKey = stateKey') ∧ eventId = eventId' := by
  obtain ⟨pairs, same⟩ := encodePair_inj fits fits' (append_cancel_left same)
  have fields : (lengthBytes eventId).length = (lengthBytes eventId').length := by
    unfold lengthBytes
    rw [toBeBytes_length, toBeBytes_length]
  obtain ⟨-, same⟩ := fields_inj fields same
  simp only [flatten_cons, flatten_nil, append_nil] at same
  exact ⟨pairs, asBytes_injective same⟩

end

theorem stateNodeString_inj (same : stateNodeString (levels, one) = stateNodeString (levels, other)) : one = other := by
  unfold stateNodeString at same
  simp only [flatten_cons, flatten_nil, append_nil, append_cancel_left_eq] at same
  obtain ⟨left, right⟩ := fields_inj (by simp) same
  exact Prod.ext (digest_inj left) (digest_inj right)

theorem stateLeafString_ne : stateLeafString eventType stateKey eventId ≠ stateEmptyString := by
  intro same
  have tags := congrArg (fun bytes => bytes.getD 14 0) same
  have leafTag : 14 < stateLeafDst.length := by decide
  have leaf : (stateLeafString eventType stateKey eventId).getD 14 0 = stateLeafDst.getD 14 0 :=
    getD_append _ _ _ _ leafTag
  have differ : stateLeafDst.getD 14 0 ≠ stateEmptyString.getD 14 0 := by decide
  exact differ (leaf.symm.trans tags)

end

variable {sha256 : Sha256}

theorem state_binding (free : Set.InjOn sha256 strings) (inside : stateNodeString '' hashed ⊆ strings) :
    Binding (stateJoin sha256) id hashed := by
  intro _ _ _ oneIn otherIn same
  exact stateNodeString_inj (free (inside ⟨_, oneIn, rfl⟩) (inside ⟨_, otherIn, rfl⟩) same)

section

variable {key value : MerkleHash} {entries : List (MerkleHash × MerkleHash)} {path : List StateProofStep}

def stateTrieNodes (sha256 : Sha256) (entries : List (MerkleHash × MerkleHash)) : Set (Nat × MerkleHash × MerkleHash) :=
  inputs (stateJoin sha256) (stateBlank sha256) stateTurn stateDepth entries ∪
    inputs (stateJoin sha256) (stateBlank sha256) stateTurn stateDepth []

def statePathNodes (sha256 : Sha256) (key value : MerkleHash) (path : List StateProofStep) :
    Set (Nat × MerkleHash × MerkleHash) :=
  climbInputs (stateJoin sha256) stateTurn key (stateDepth - path.length) value (path.map hash)

theorem map_mk_hash (path : List StateProofStep) : (path.map hash).map StateProofStep.mk = path := by
  rw [map_map]
  exact map_id path

theorem map_hash_mk (values : List MerkleHash) : (values.map StateProofStep.mk).map hash = values := by
  rw [map_map]
  exact map_id values

theorem mem_along_whole : entry ∈ along stateTurn key 0 stateDepth entries ↔ entry ∈ entries ∧ entry.1 = key := by
  rw [mem_along]
  apply and_congr_right
  intro _
  constructor
  · intro agree
    apply hash_ext
    intro d _
    have level := agree (255 - d) (by unfold stateDepth; omega)
    rw [Nat.zero_add] at level
    unfold stateTurn bit at level
    rw [show 255 - (255 - d) = d from by omega] at level
    rcases bitAt_cases entry.1 d with one | one <;> rcases bitAt_cases key d with other | other <;> simp_all
  · rintro rfl level _
    rfl

theorem verify_iff {root : MerkleHash} : verify sha256 key value terminalDepth path root = true ↔
    path.length = terminalDepth ∧ climbStatePath sha256 key terminalDepth value path = root := decide_eq_true_iff

theorem state_honest_path (sha256 : Sha256) (key : MerkleHash) (entries : List (MerkleHash × MerkleHash))
    (whole : bottom + steps = stateDepth) :
    verify sha256 key (stateSubtree sha256 bottom (along stateTurn key bottom steps entries)) steps
      ((stateSiblings sha256 key bottom steps entries).map mk) (stateSubtree sha256 stateDepth entries) = true := by
  have long : ((stateSiblings sha256 key bottom steps entries).map mk).length = steps := by
    rw [length_map]
    exact siblings_length
  refine verify_iff.mpr ⟨long, ?_⟩
  rw [climbStatePath_eq long.le (by omega), map_hash_mk, show stateDepth - steps = bottom from by omega, climb_siblings, whole]

variable (free : Set.InjOn sha256 strings) (built : stateNodeString '' stateTrieNodes sha256 entries ⊆ strings)
include free built

theorem state_accepted_path (climbed : stateNodeString '' statePathNodes sha256 key value path ⊆ strings)
    (shallow : terminalDepth ≤ stateDepth)
    (accepted : verify sha256 key value terminalDepth path (stateSubtree sha256 stateDepth entries) = true) :
    value = stateSubtree sha256 (stateDepth - terminalDepth)
        (along stateTurn key (stateDepth - terminalDepth) terminalDepth entries) ∧
      path = (stateSiblings sha256 key (stateDepth - terminalDepth) terminalDepth entries).map mk := by
  obtain ⟨length, same⟩ := verify_iff.mp accepted
  rw [climbStatePath_eq length.le shallow] at same
  have levels : stateDepth - terminalDepth + (path.map hash).length = stateDepth := by
    rw [length_map, length]
    omega
  have inside : stateNodeString '' (stateTrieNodes sha256 entries ∪ statePathNodes sha256 key value path) ⊆ strings := by
    rw [image_union]
    exact union_subset built climbed
  have inPath : climbInputs (stateJoin sha256) stateTurn key (stateDepth - terminalDepth) value
      (path.map hash) ⊆ stateTrieNodes sha256 entries ∪ statePathNodes sha256 key value path := by
    unfold statePathNodes
    rw [length]
    exact subset_union_right
  have inTrie : inputs (stateJoin sha256) (stateBlank sha256) stateTurn
      (stateDepth - terminalDepth + (path.map hash).length) entries ⊆
        stateTrieNodes sha256 entries ∪ statePathNodes sha256 key value path := by
    rw [levels]
    exact subset_union_of_subset_left subset_union_left _
  have exact_ := climb_exact (state_binding free inside) inPath inTrie (by rw [same, levels])
  rw [length_map, length] at exact_
  refine ⟨exact_.1, ?_⟩
  rw [← map_mk_hash path, exact_.2]

theorem state_void_exact
    (apart : ∀ entry ∈ entries, entry.2 ≠ stateBlank sha256) (within : ∀ entry ∈ part, entry ∈ entries)
    (shallow : bottom ≤ stateDepth) (inside : inputs (stateJoin sha256) (stateBlank sha256) stateTurn bottom part ⊆
      inputs (stateJoin sha256) (stateBlank sha256) stateTurn stateDepth entries)
    (same : stateEmptyBelow sha256 bottom = stateSubtree sha256 bottom part) : part = [] := by
  have voids : inputs (stateJoin sha256) (stateBlank sha256) stateTurn bottom [] ⊆
      inputs (stateJoin sha256) (stateBlank sha256) stateTurn stateDepth [] := by
    have below := @inputs_along MerkleHash MerkleHash (stateJoin sha256) (stateBlank sha256) stateTurn
      (Vector.replicate 32 0) [] bottom
      (stateDepth - bottom)
    rwa [along_nil, Nat.add_sub_cancel' shallow] at below
  apply void_exact (state_binding free built) (voids.trans subset_union_right) (inside.trans subset_union_left)
  · exact fun entry mem => apart entry (within entry mem)
  · rw [state_void_eq]
    exact same

end

namespace StateMap

variable {Id K : Type} {cmp : EventType × K → EventType × K → Ordering} [Std.TransCmp cmp] [Std.LawfulEqCmp cmp]
  {asRef : K → String} {display : Id → String} {state : Std.ExtTreeMap (EventType × K) Id cmp}

def Binds (asRef : K → String) (display : Id → String) (state : Std.ExtTreeMap (EventType × K) Id cmp)
    (eventType stateKey eventId : String) : Prop :=
  ∃ key id, state[((⟨eventType⟩ : EventType), key)]? = some id ∧ asRef key = stateKey ∧ display id = eventId

def bindingStrings (asRef : K → String) (display : Id → String) (binding : (EventType × K) × Id) : Set Bytes :=
  {stateKeyString binding.1.1.asStr (asRef binding.1.2),
    stateLeafString binding.1.1.asStr (asRef binding.1.2) (display binding.2)}

def mapStrings (sha256 : Sha256) (asRef : K → String) (display : Id → String)
    (state : Std.ExtTreeMap (EventType × K) Id cmp) : Set Bytes :=
  stateNodeString '' stateTrieNodes sha256 (fromState sha256 asRef display state).entries ∪
    ({string | ∃ binding ∈ state.toList, string ∈ bindingStrings asRef display binding} ∪ {stateEmptyString})

theorem leaves_foldl {α : Type} {position : α → MerkleHash} {leaf : α → MerkleHash} {list : List α}
    (single : ∀ one ∈ list, ∀ other ∈ list, position one = position other → leaf one = leaf other)
    {leaves : Std.ExtTreeMap MerkleHash MerkleHash} {key value : MerkleHash} :
    (list.foldl (fun leaves entry => leaves.insert (position entry) (leaf entry)) leaves)[key]? = some value ↔
      (∃ entry ∈ list, position entry = key ∧ leaf entry = value) ∨
        (∀ entry ∈ list, position entry ≠ key) ∧ leaves[key]? = some value := by
  induction list generalizing leaves with
  | nil => simp
  | cons first rest ih =>
    have rest_single : ∀ one ∈ rest, ∀ other ∈ rest, position one = position other → leaf one = leaf other :=
      fun one oneIn other otherIn => single one (mem_cons_of_mem _ oneIn) other (mem_cons_of_mem _ otherIn)
    rw [foldl_cons, ih rest_single, Std.ExtTreeMap.getElem?_insert]
    simp only [Std.LawfulEqCmp.compare_eq_iff_eq]
    by_cases here : position first = key
    · rw [if_pos here, Option.some.injEq]
      constructor
      · rintro (⟨entry, mem, same, value⟩ | ⟨_, value⟩)
        · exact inl ⟨entry, mem_cons_of_mem _ mem, same, value⟩
        · exact inl ⟨first, mem_cons_self, here, value⟩
      · rintro (⟨entry, mem, same, value⟩ | ⟨absent, _⟩)
        · by_cases later : ∃ entry ∈ rest, position entry = key
          · obtain ⟨again, againIn, againSame⟩ := later
            refine inl ⟨again, againIn, againSame, ?_⟩
            rw [← value]
            exact single again (mem_cons_of_mem _ againIn) entry mem (againSame.trans same.symm)
          · refine inr ⟨fun entry mem same => later ⟨entry, mem, same⟩, ?_⟩
            rw [← value]
            exact single first mem_cons_self entry mem (here.trans same.symm)
        · exact absurd here (absent first mem_cons_self)
    · rw [if_neg here]
      constructor
      · rintro (⟨entry, mem, same, value⟩ | ⟨absent, value⟩)
        · exact inl ⟨entry, mem_cons_of_mem _ mem, same, value⟩
        · refine inr ⟨?_, value⟩
          intro entry mem
          rcases mem_cons.mp mem with rfl | later
          · exact here
          · exact absent entry later
      · rintro (⟨entry, mem, same, value⟩ | ⟨absent, value⟩)
        · rcases mem_cons.mp mem with rfl | later
          · exact absurd same here
          · exact inl ⟨entry, later, same, value⟩
        · exact inr ⟨fun entry mem => absent entry (mem_cons_of_mem _ mem), value⟩

structure Readable (asRef : K → String) (state : Std.ExtTreeMap (EventType × K) Id cmp) : Prop where
  injective : Function.Injective asRef
  fits : ∀ binding ∈ state.toList, Fits binding.1.1.asStr ∧ Fits (asRef binding.1.2)

theorem mem_toList_iff : binding ∈ state.toList ↔ state[binding.1]? = some binding.2 :=
  Std.ExtTreeMap.mem_toList_iff_getElem?_eq_some

theorem Readable.key (readable : Readable asRef state) (oneIn : one ∈ state.toList) (otherIn : other ∈ state.toList)
    (types : one.1.1.asStr = other.1.1.asStr) (keys : asRef one.1.2 = asRef other.1.2) : one = other := by
  have same : one.1 = other.1 := by
    obtain ⟨⟨⟨oneType⟩, oneKey⟩, oneId⟩ := one
    obtain ⟨⟨⟨otherType⟩, otherKey⟩, otherId⟩ := other
    obtain rfl : oneType = otherType := types
    obtain rfl : oneKey = otherKey := readable.injective keys
    rfl
  have one_bound := mem_toList_iff.mp oneIn
  have other_bound := mem_toList_iff.mp otherIn
  rw [same, other_bound] at one_bound
  exact Prod.ext same (Option.some.inj one_bound).symm

variable {strings : Set Bytes}

structure Secure (sha256 : Sha256) (asRef : K → String) (display : Id → String)
    (state : Std.ExtTreeMap (EventType × K) Id cmp) (strings : Set Bytes) : Prop where
  readable : Readable asRef state
  free : Set.InjOn sha256 strings
  built : mapStrings sha256 asRef display state ⊆ strings

omit [Std.LawfulEqCmp cmp] in
theorem Secure.binding (secure : Secure sha256 asRef display state strings) {binding : (EventType × K) × Id}
    (mem : binding ∈ state.toList) : bindingStrings asRef display binding ⊆ strings :=
  fun _ inside => secure.built (inr (inl ⟨binding, mem, inside⟩))

theorem leaves_iff (secure : Secure sha256 asRef display state strings) : (fromState sha256 asRef display state).leaves[key]? = some value ↔
    ∃ binding ∈ state.toList, stateKeyHash sha256 binding.1.1.asStr (asRef binding.1.2) = key ∧
      stateLeafHash sha256 binding.1.1.asStr (asRef binding.1.2) (display binding.2) = value := by
  unfold fromState
  rw [leaves_foldl]
  · rw [Std.ExtTreeMap.getElem?_empty]
    simp
  · intro one oneIn other otherIn same
    have strings_ : stateKeyString one.1.1.asStr (asRef one.1.2) = stateKeyString other.1.1.asStr (asRef other.1.2) :=
      secure.free (secure.binding oneIn (inl rfl)) (secure.binding otherIn (inl rfl)) same
    obtain ⟨types, keys⟩ := stateKeyString_inj (secure.readable.fits one oneIn) (secure.readable.fits other otherIn) strings_
    rw [secure.readable.key oneIn otherIn types keys]

theorem mem_entries {map : StateMap} :
    entry ∈ map.entries ↔ map.leaves[entry.1]? = some entry.2 := Std.ExtTreeMap.mem_toList_iff_getElem?_eq_some

theorem entries_apart (secure : Secure sha256 asRef display state strings) :
    ∀ entry ∈ (fromState sha256 asRef display state).entries, entry.2 ≠ stateBlank sha256 := by
  intro entry mem same
  obtain ⟨binding, bound, -, leaf⟩ := (leaves_iff secure).mp (mem_entries.mp mem)
  rw [← leaf] at same
  have empty : stateEmptyString ∈ strings := secure.built (inr (inr rfl))
  exact stateLeafString_ne (secure.free (secure.binding bound (inr rfl)) empty same)

variable (secure : Secure sha256 asRef display state strings)
include secure

theorem leaf_iff (fits : Fits eventType ∧ Fits stateKey) (keyIn : stateKeyString eventType stateKey ∈ strings) :
    (fromState sha256 asRef display state).leaves[stateKeyHash sha256 eventType stateKey]? = some value ↔
      ∃ eventId, Binds asRef display state eventType stateKey eventId ∧
        stateLeafHash sha256 eventType stateKey eventId = value := by
  rw [leaves_iff secure]
  constructor
  · rintro ⟨binding, mem, key, leaf⟩
    have strings_ : stateKeyString binding.1.1.asStr (asRef binding.1.2) = stateKeyString eventType stateKey :=
      secure.free (secure.binding mem (inl rfl)) keyIn key
    obtain ⟨rfl, rfl⟩ := stateKeyString_inj (secure.readable.fits binding mem) fits strings_
    exact ⟨_, ⟨_, _, mem_toList_iff.mp mem, rfl, rfl⟩, leaf⟩
  · rintro ⟨eventId, ⟨key, id, bound, rfl, rfl⟩, leaf⟩
    exact ⟨((⟨eventType⟩, key), id), mem_toList_iff.mpr bound, rfl, leaf⟩

theorem Binds.leafIn
    (binds : Binds asRef display state eventType stateKey eventId) : stateLeafString eventType stateKey eventId ∈ strings := by
  obtain ⟨key, id, bound, rfl, rfl⟩ := binds
  have mem : (((⟨eventType⟩, key), id) : (EventType × K) × Id) ∈ state.toList := mem_toList_iff.mpr bound
  exact secure.binding mem (inr rfl)

variable (fits : Fits eventType ∧ Fits stateKey) (keyIn : stateKeyString eventType stateKey ∈ strings)
include fits keyIn

theorem bound_iff (leafIn : stateLeafString eventType stateKey eventId ∈ strings) :
    (fromState sha256 asRef display state).leaves[stateKeyHash sha256 eventType stateKey]? =
      some (stateLeafHash sha256 eventType stateKey eventId) ↔ Binds asRef display state eventType stateKey eventId := by
  rw [leaf_iff secure fits keyIn]
  constructor
  · rintro ⟨other, binds, leaf⟩
    obtain ⟨-, rfl⟩ := stateLeafString_inj fits fits (secure.free (binds.leafIn secure) leafIn leaf)
    exact binds
  · exact fun binds => ⟨eventId, binds, rfl⟩

theorem absent_iff :
    (fromState sha256 asRef display state).leaves.contains (stateKeyHash sha256 eventType stateKey) = true ↔
      ∃ eventId, Binds asRef display state eventType stateKey eventId := by
  rw [Std.ExtTreeMap.contains_eq_isSome_getElem?, Option.isSome_iff_exists]
  simp only [leaf_iff secure fits keyIn]
  constructor
  · rintro ⟨-, eventId, binds, -⟩
    exact ⟨eventId, binds⟩
  · rintro ⟨eventId, binds⟩
    exact ⟨_, eventId, binds, rfl⟩

end StateMap

end Rezzy.Merkle
