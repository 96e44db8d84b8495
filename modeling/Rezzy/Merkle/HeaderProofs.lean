import Rezzy.Lib.HashTree
import Rezzy.Merkle.Header

namespace Rezzy.Merkle

open HashTree Json List ProofStep Or

variable {sha256 : Sha256} {fields : List Field} {hashes : List Hash} {target : Nat}

section

def Field.Valid (field : Field) : Prop :=
  validateFieldName field.name = .ok () ∧ ∃ canonical, canonicalJson field.value = .ok canonical

def Field.canonical (field : Field) : Bytes := (canonicalJson field.value).toOption.getD []

def leafOf (sha256 : Sha256) (field : Field) : Leaf :=
  ⟨field.name, leafHashUnchecked sha256 (asBytes field.name) field.canonical⟩

theorem Field.Valid.canonicalJson {field : Field} (valid : field.Valid) :
    canonicalJson field.value = .ok field.canonical := by
  obtain ⟨-, canonical, same⟩ := valid
  unfold Field.canonical
  rw [same]
  rfl

theorem leafHash_eq (named : validateFieldName name = .ok ()) :
    leafHash sha256 name canonical = .ok (leafHashUnchecked sha256 (asBytes name) canonical) := by
  unfold leafHash
  rw [named]
  rfl

theorem leafHash_ok {hash : Hash} (hashed : leafHash sha256 name canonical = .ok hash) :
    validateFieldName name = .ok () ∧ hash = leafHashUnchecked sha256 (asBytes name) canonical := by
  obtain ⟨⟨⟩, named, same⟩ := Outcome.bind_eq_ok.mp hashed
  exact ⟨named, (Except.ok.inj same).symm⟩

theorem fieldLeaf_eq {field : Field} (valid : field.Valid) : fieldLeaf sha256 field = .ok (leafOf sha256 field) := by
  unfold fieldLeaf
  rw [valid.1, valid.canonicalJson]
  show (leafHash sha256 field.name field.canonical).bind _ = _
  rw [leafHash_eq valid.1]
  rfl

theorem leafLe_trans (a b c : Leaf) (ab : leafLe a b = true) (bc : leafLe b c = true) : leafLe a c = true :=
  decide_eq_true (List.le_trans (of_decide_eq_true ab) (of_decide_eq_true bc))

theorem leafLe_total (a b : Leaf) : (leafLe a b || leafLe b a) = true := by
  rw [Bool.or_eq_true]
  exact (List.le_total _ _).imp decide_eq_true decide_eq_true

theorem leafLe_antisymm (ab : leafLe a b = true) (ba : leafLe b a = true) : a.name = b.name :=
  asBytes_injective (List.le_antisymm (of_decide_eq_true ab) (of_decide_eq_true ba))

theorem duplicateName_none (once : (list.map Leaf.name).Nodup) : duplicateName list = none := by
  induction list with
  | nil => rfl
  | cons first rest ih =>
    cases rest with
    | nil => rfl
    | cons second rest =>
      rw [map_cons, nodup_cons] at once
      rw [duplicateName, if_neg, ih once.2]
      intro same
      exact once.1 (same ▸ mem_cons_self)

def sortedLeaves (sha256 : Sha256) (fields : List Field) : List Leaf := (fields.map (leafOf sha256)).mergeSort leafLe

theorem sortedLeaves_perm : (sortedLeaves sha256 fields).Perm (fields.map (leafOf sha256)) := mergeSort_perm _ _

theorem names_perm : ((sortedLeaves sha256 fields).map Leaf.name).Perm (fields.map Field.name) := by
  have names := (@sortedLeaves_perm sha256 fields).map Leaf.name
  rwa [map_map] at names

theorem leaves_eq (once : (fields.map Field.name).Nodup) (valid : ∀ field ∈ fields, field.Valid) :
    leaves sha256 fields = .ok (sortedLeaves sha256 fields) := by
  unfold leaves
  rw [Outcome.mapM_ok fun field mem => fieldLeaf_eq (valid field mem)]
  have distinct : duplicateName ((fields.map (leafOf sha256)).mergeSort leafLe) = none :=
    duplicateName_none (names_perm.nodup_iff.mpr once)
  dsimp only [bind, Except.bind]
  rw [distinct]
  rfl

theorem sortedLeaves_congr (once : (fields.map Field.name).Nodup) (same : fields.Perm others) :
    sortedLeaves sha256 fields = sortedLeaves sha256 others := by
  have perm := sortedLeaves_perm.trans ((same.map (leafOf sha256)).trans sortedLeaves_perm.symm)
  apply perm.eq_of_pairwise _ (pairwise_mergeSort leafLe_trans leafLe_total _)
    (pairwise_mergeSort leafLe_trans leafLe_total _)
  intro _ _ aIn bIn ab ba
  have named : ((sortedLeaves sha256 fields).map Leaf.name).Nodup := names_perm.nodup_iff.mpr once
  exact inj_on_of_nodup_map named aIn (perm.mem_iff.mpr bIn) (leafLe_antisymm ab ba)

def ProofStep.beside (step : ProofStep) : Step Hash := (step.side = .left, step.hash)

inductive Combined (sha256 : Sha256) : List Hash → Hash × Hash → Prop where
  | here {hashes : List Hash} {left right : Hash} (two : 2 ≤ hashes.length)
      (leftRoot : merkleRoot sha256 (hashes.take (largestPowerOfTwoLessThan hashes.length)) = some left)
      (rightRoot : merkleRoot sha256 (hashes.drop (largestPowerOfTwoLessThan hashes.length)) = some right) :
      Combined sha256 hashes (left, right)
  | left {hashes : List Hash} {pair : Hash × Hash} (two : 2 ≤ hashes.length)
      (within : Combined sha256 (hashes.take (largestPowerOfTwoLessThan hashes.length)) pair) : Combined sha256 hashes pair
  | right {hashes : List Hash} {pair : Hash × Hash} (two : 2 ≤ hashes.length)
      (within : Combined sha256 (hashes.drop (largestPowerOfTwoLessThan hashes.length)) pair) : Combined sha256 hashes pair

section

variable (two : 2 ≤ hashes.length)
include two

theorem merkleRoot_split : merkleRoot sha256 hashes =
    (merkleRoot sha256 (hashes.take (largestPowerOfTwoLessThan hashes.length))).bind fun left =>
      (merkleRoot sha256 (hashes.drop (largestPowerOfTwoLessThan hashes.length))).bind fun right =>
        some (innerHash sha256 left right) := by
  rcases hashes with _ | ⟨first, _ | ⟨second, _ | ⟨-, -⟩⟩⟩
  · cases two
  · exact absurd two (by simp)
  · have one : largestPowerOfTwoLessThan [first, second].length = 1 := rfl
    rw [one]
    simp [merkleRoot]
  · rw [merkleRoot]
    rfl

theorem merkleRootAndPath_left (onLeft : target < largestPowerOfTwoLessThan hashes.length) :
    merkleRootAndPath sha256 hashes target =
      (merkleRootAndPath sha256 (hashes.take (largestPowerOfTwoLessThan hashes.length)) target).bind fun below =>
        (merkleRoot sha256 (hashes.drop (largestPowerOfTwoLessThan hashes.length))).bind fun right =>
          some (innerHash sha256 below.1 right, below.2 ++ [⟨.right, right⟩]) := by
  rcases hashes with _ | ⟨first, _ | ⟨second, _ | ⟨third, rest⟩⟩⟩
  · cases two
  · exact absurd two (by simp)
  · have one : largestPowerOfTwoLessThan [first, second].length = 1 := rfl
    rw [one] at onLeft ⊢
    obtain rfl : target = 0 := Nat.lt_one_iff.mp onLeft
    simp [merkleRootAndPath, merkleRoot]
  · rw [merkleRootAndPath, if_pos onLeft]
    rfl

theorem merkleRootAndPath_right (onRight : largestPowerOfTwoLessThan hashes.length ≤ target) :
    merkleRootAndPath sha256 hashes target =
      (merkleRootAndPath sha256 (hashes.drop (largestPowerOfTwoLessThan hashes.length))
        (target - largestPowerOfTwoLessThan hashes.length)).bind fun below =>
        (merkleRoot sha256 (hashes.take (largestPowerOfTwoLessThan hashes.length))).bind fun left =>
          some (innerHash sha256 left below.1, below.2 ++ [⟨.left, left⟩]) := by
  rcases hashes with _ | ⟨first, _ | ⟨second, _ | ⟨third, rest⟩⟩⟩
  · cases two
  · exact absurd two (by simp)
  · have one : largestPowerOfTwoLessThan [first, second].length = 1 := rfl
    rw [one] at onRight ⊢
    have later : target ≠ 0 := Nat.one_le_iff_ne_zero.mp onRight
    simp [merkleRootAndPath, merkleRoot, later]
  · rw [merkleRootAndPath, if_neg (not_lt.mpr onRight)]
    rfl

theorem split_lengths :
    (hashes.take (largestPowerOfTwoLessThan hashes.length)).length = largestPowerOfTwoLessThan hashes.length ∧
      (hashes.drop (largestPowerOfTwoLessThan hashes.length)).length = hashes.length - largestPowerOfTwoLessThan hashes.length ∧
        0 < largestPowerOfTwoLessThan hashes.length ∧ largestPowerOfTwoLessThan hashes.length < hashes.length := by
  have bounds := largestPowerOfTwoLessThan_bounds two
  rw [length_take, length_drop, Nat.min_eq_left bounds.2.le]
  exact ⟨rfl, rfl, bounds⟩

end

theorem merkleRoot_tree {hashed : Set (Hash × Hash)} (filled : 0 < hashes.length)
    (all : ∀ pair, Combined sha256 hashes pair → pair ∈ hashed) :
    ∃ root, merkleRoot sha256 hashes = some root ∧ Tree (innerHash sha256) hashed hashes root := by
  induction size : hashes.length using Nat.strong_induction_on generalizing hashes with
  | _ size ih =>
    rcases Nat.lt_or_ge hashes.length 2 with one | two
    · obtain ⟨only, rfl⟩ := length_eq_one_iff.mp (Nat.le_antisymm (Nat.le_of_lt_succ one) filled)
      exact ⟨only, by rw [merkleRoot], .leaf only⟩
    · obtain ⟨leftLong, rightLong, positive, below⟩ := split_lengths two
      obtain ⟨left, leftRoot, leftTree⟩ := ih _ (by omega) (by omega) (fun pair within => all pair (.left two within)) rfl
      obtain ⟨right, rightRoot, rightTree⟩ := ih _ (by omega) (by omega) (fun pair within => all pair (.right two within)) rfl
      refine ⟨innerHash sha256 left right, ?_, ?_⟩
      · rw [merkleRoot_split two, leftRoot, rightRoot]
        rfl
      · have made := HashTree.Tree.node leftTree rightTree (all _ (.here two leftRoot rightRoot))
        rwa [take_append_drop] at made

theorem merkleRootAndPath_opening (inside : target < hashes.length) : ∃ root path,
    merkleRootAndPath sha256 hashes target = some (root, path) ∧ merkleRoot sha256 hashes = some root ∧
      Opening (innerHash sha256) hashes target (path.map beside) root := by
  induction size : hashes.length using Nat.strong_induction_on generalizing hashes target with
  | _ size ih =>
    rcases Nat.lt_or_ge hashes.length 2 with one | two
    · obtain ⟨only, rfl⟩ := length_eq_one_iff.mp (Nat.le_antisymm (Nat.le_of_lt_succ one) (Nat.zero_lt_of_lt inside))
      obtain rfl : target = 0 := Nat.lt_one_iff.mp inside
      exact ⟨only, [], by rw [merkleRootAndPath], by rw [merkleRoot], .leaf only⟩
    · obtain ⟨leftLong, rightLong, positive, below⟩ := split_lengths two
      rcases Nat.lt_or_ge target (largestPowerOfTwoLessThan hashes.length) with onLeft | onRight
      · obtain ⟨left, path, walked, leftRoot, opening⟩ := ih _ (by omega) (leftLong.symm ▸ onLeft) rfl
        obtain ⟨right, rightRoot, -⟩ := @merkleRoot_tree sha256
          (hashes.drop (largestPowerOfTwoLessThan hashes.length)) Set.univ (by omega) fun _ _ => trivial
        refine ⟨innerHash sha256 left right, path ++ [⟨.right, right⟩], ?_, ?_, ?_⟩
        · rw [merkleRootAndPath_left two onLeft, walked, rightRoot]
          rfl
        · rw [merkleRoot_split two, leftRoot, rightRoot]
          rfl
        · have longer := @Opening.left _ _ _ (hashes.drop (largestPowerOfTwoLessThan hashes.length)) _ right _ _ opening
          rw [take_append_drop] at longer
          rwa [map_append]
      · have within : target - largestPowerOfTwoLessThan hashes.length <
            (hashes.drop (largestPowerOfTwoLessThan hashes.length)).length := by omega
        obtain ⟨right, path, walked, rightRoot, opening⟩ := ih _ (by omega) within rfl
        obtain ⟨left, leftRoot, -⟩ := @merkleRoot_tree sha256
          (hashes.take (largestPowerOfTwoLessThan hashes.length)) Set.univ (by omega) fun _ _ => trivial
        refine ⟨innerHash sha256 left right, path ++ [⟨.left, left⟩], ?_, ?_, ?_⟩
        · rw [merkleRootAndPath_right two onRight, walked, leftRoot]
          rfl
        · rw [merkleRoot_split two, leftRoot, rightRoot]
          rfl
        · have longer := @Opening.right _ _ (hashes.take (largestPowerOfTwoLessThan hashes.length)) _ left _ _ _ opening
          rw [take_append_drop, leftLong, Nat.add_sub_cancel' onRight] at longer
          rwa [map_append]

theorem climbLeafPath_eq (current : Hash) (path : List ProofStep) :
    climbLeafPath sha256 current path = climb (innerHash sha256) current (path.map beside) := by
  induction path generalizing current with
  | nil => rfl
  | cons step path ih =>
    rw [climbLeafPath, ih, map_cons, climb]
    unfold ordered beside
    cases side : step.side with
    | left => simp
    | right => simp

def fieldString (name : String) (canonical : Bytes) : Bytes := [leafDst, asBytes name, [0], canonical].flatten

def pairString (pair : Hash × Hash) : Bytes := [nodeDst, pair.1.toList, pair.2.toList].flatten

def headerStrings (sha256 : Sha256) (fields : List Field) : Set Bytes :=
  {string | ∃ field ∈ fields, string = fieldString field.name field.canonical} ∪
    pairString '' {pair | Combined sha256 ((sortedLeaves sha256 fields).map Leaf.hash) pair}

def leafPathStrings (sha256 : Sha256) (current : Hash) (path : List ProofStep) : Set Bytes :=
  pairString '' climbNodes (innerHash sha256) current (path.map ProofStep.beside)

theorem pairString_inj (same : pairString one = pairString other) : one = other := by
  obtain ⟨left, right⟩ := one
  obtain ⟨left', right'⟩ := other
  unfold pairString at same
  simp only [flatten_cons, flatten_nil, append_nil, append_cancel_left_eq] at same
  obtain ⟨lefts, rights⟩ := fields_inj (by simp) same
  rw [digest_inj lefts, digest_inj rights]

theorem zero_ends {one other more rest : Bytes} (oneFree : 0 ∉ one) (otherFree : 0 ∉ other)
    (same : one ++ 0 :: more = other ++ 0 :: rest) : one = other ∧ more = rest := by
  rcases append_eq_append_iff.mp same with ⟨between, rfl, tail⟩ | ⟨between, rfl, tail⟩
  · cases between with
    | nil =>
      rw [append_nil]
      exact ⟨rfl, (cons.inj tail).2⟩
    | cons byte between =>
      obtain ⟨rfl, -⟩ := cons.inj tail
      exact absurd (mem_append_right _ mem_cons_self) otherFree
  · cases between with
    | nil =>
      rw [append_nil]
      exact ⟨rfl, (cons.inj tail).2.symm⟩
    | cons byte between =>
      obtain ⟨rfl, -⟩ := cons.inj tail
      exact absurd (mem_append_right _ mem_cons_self) oneFree

theorem fieldString_inj {name other : String} {canonical value : Bytes} (named : validateFieldName name = .ok ())
    (otherNamed : validateFieldName other = .ok ()) (same : fieldString name canonical = fieldString other value) :
    name = other ∧ canonical = value := by
  have noZero {name : String} (named : validateFieldName name = .ok ()) : 0 ∉ asBytes name := by
    intro zero
    unfold validateFieldName at named
    rw [if_pos zero] at named
    split at named <;> cases named
  unfold fieldString at same
  simp only [flatten_cons, flatten_nil, append_nil, append_cancel_left_eq, singleton_append] at same
  obtain ⟨names, values⟩ := zero_ends (noZero named) (noZero otherNamed) same
  exact ⟨asBytes_injective names, values⟩

theorem fieldString_ne_pairString : fieldString name canonical ≠ pairString pair := by
  intro same
  have first := congrArg (fun string : Bytes => string.take 22) same
  unfold fieldString pairString at first
  simp only [flatten_cons] at first
  rw [take_append_of_le_length (by decide), take_append_of_le_length (by decide)] at first
  exact absurd first (by decide)

variable {field : Field}

theorem findIdx_name (once : (fields.map Field.name).Nodup) (mem : field ∈ fields) : ∃ index,
    ((sortedLeaves sha256 fields).findIdx? fun leaf => leaf.name = field.name) = some index ∧
      ((sortedLeaves sha256 fields).map Leaf.hash)[index]? = some (leafOf sha256 field).hash := by
  have listed : leafOf sha256 field ∈ sortedLeaves sha256 fields := sortedLeaves_perm.mem_iff.mpr (mem_map_of_mem mem)
  have found : ((sortedLeaves sha256 fields).findIdx? fun leaf => leaf.name = field.name).isSome = true := by
    rw [findIdx?_isSome, any_eq_true]
    exact ⟨_, listed, decide_eq_true rfl⟩
  obtain ⟨index, at_⟩ := Option.isSome_iff_exists.mp found
  obtain ⟨inside, named, -⟩ := findIdx?_eq_some_iff_getElem.mp at_
  have distinct : ((sortedLeaves sha256 fields).map Leaf.name).Nodup := names_perm.nodup_iff.mpr once
  have same := inj_on_of_nodup_map distinct (getElem_mem inside) listed (of_decide_eq_true named)
  refine ⟨index, at_, ?_⟩
  rw [getElem?_map, getElem?_eq_getElem inside, same]
  rfl

section

variable (once : (fields.map Field.name).Nodup) (valid : ∀ field ∈ fields, field.Valid)
include once valid

theorem root_eq (made : merkleRoot sha256 ((sortedLeaves sha256 fields).map Leaf.hash) = some top) :
    root sha256 fields = .ok top := by
  unfold root
  rw [leaves_eq once valid]
  show rootFromLeaves sha256 _ = _
  unfold rootFromLeaves
  rw [made]

theorem leafPath_eq (found : ((sortedLeaves sha256 fields).findIdx? fun leaf => leaf.name = name) = some index)
    (walked : merkleRootAndPath sha256 ((sortedLeaves sha256 fields).map Leaf.hash) index = some (top, path)) :
    leafPath sha256 fields name = .ok (path, top) := by
  unfold leafPath
  rw [leaves_eq once valid]
  dsimp only [bind, Except.bind]
  rw [found]
  dsimp only
  rw [walked]

theorem leafPath_complete (mem : field ∈ fields) : ∃ path top, (∀ others : List Field, fields.Perm others →
      leafPath sha256 others field.name = .ok (path, top) ∧ root sha256 others = .ok top) ∧
    verifyLeafPath sha256 (leafOf sha256 field).hash path top = true := by
  obtain ⟨index, found, leaf⟩ := @findIdx_name sha256 fields _ once mem
  obtain ⟨top, path, walked, made, opening⟩ :=
    @merkleRootAndPath_opening sha256 _ index (List.getElem?_eq_some_iff.mp leaf).1
  refine ⟨path, top, ?_, ?_⟩
  · intro others same
    rw [sortedLeaves_congr once same] at found walked made
    have onceToo := (same.map Field.name).nodup_iff.mp once
    have validToo (field : Field) (mem : field ∈ others) : field.Valid := valid field (same.mem_iff.mpr mem)
    exact ⟨leafPath_eq onceToo validToo found walked, root_eq onceToo validToo made⟩
  · obtain ⟨start, begins, climbed⟩ := opening.climb
    obtain rfl := Option.some.inj (leaf.symm.trans begins)
    unfold verifyLeafPath
    rw [climbLeafPath_eq, climbed]
    exact decide_eq_true rfl

end

def FieldHash (sha256 : Sha256) (strings : Set Bytes) (leaf : Hash) : Prop :=
  ∃ name canonical, fieldString name canonical ∈ strings ∧ leaf = sha256 (fieldString name canonical)

theorem leafPath_sound (filled : fields ≠ []) (once : (fields.map Field.name).Nodup)
    (valid : ∀ field ∈ fields, field.Valid) (named : validateFieldName name = .ok ())
    (rooted : root sha256 fields = .ok top)
    (free : Set.InjOn sha256 (headerStrings sha256 fields ∪ ({fieldString name canonical} ∪
      leafPathStrings sha256 (leafHashUnchecked sha256 (asBytes name) canonical) path)))
    (verified : verifyLeafPath sha256 (leafHashUnchecked sha256 (asBytes name) canonical) path top = true) :
    ∃ field ∈ fields, field.name = name ∧ canonicalJson field.value = .ok canonical := by
  generalize held : headerStrings sha256 fields ∪ ({fieldString name canonical} ∪
    leafPathStrings sha256 (leafHashUnchecked sha256 (asBytes name) canonical) path) = strings at free
  have own : fieldString name canonical ∈ strings := held ▸ inr (inl rfl)
  have others (field : Field) (mem : field ∈ fields) : fieldString field.name field.canonical ∈ strings :=
    held ▸ inl (inl ⟨field, mem, rfl⟩)
  have long : 0 < ((sortedLeaves sha256 fields).map Leaf.hash).length := by
    rw [length_map, sortedLeaves_perm.length_eq, length_map]
    exact length_pos_of_ne_nil filled
  obtain ⟨made, madeEq, tree⟩ := @merkleRoot_tree sha256 _ {pair | pairString pair ∈ strings} long
    fun pair within => held ▸ inl (inr ⟨pair, within, rfl⟩)
  obtain rfl := Except.ok.inj (rooted.symm.trans (root_eq once valid madeEq))
  have climbed : climb (innerHash sha256) (leafHashUnchecked sha256 (asBytes name) canonical)
      (path.map beside) = top := by
    rw [← climbLeafPath_eq]
    exact of_decide_eq_true verified
  have inTree : leafHashUnchecked sha256 (asBytes name) canonical ∈ (sortedLeaves sha256 fields).map Leaf.hash := by
    have binding (one : Hash × Hash) (oneIn : pairString one ∈ strings) (other : Hash × Hash)
        (otherIn : pairString other ∈ strings) (same : innerHash sha256 one.1 one.2 = innerHash sha256 other.1 other.2) :
        one = other := pairString_inj (free oneIn otherIn same)
    have apart (leaf : Hash) (hashed : FieldHash sha256 strings leaf) (pair : Hash × Hash) (pairIn : pairString pair ∈ strings) :
        leaf ≠ innerHash sha256 pair.1 pair.2 := by
      obtain ⟨leafName, leafValue, leafIn, rfl⟩ := hashed
      exact fun same => fieldString_ne_pairString (free leafIn pairIn same)
    apply tree.sound binding apart _ ⟨name, canonical, own, rfl⟩ _ climbed
    · intro leaf mem
      rw [(sortedLeaves_perm.map Leaf.hash).mem_iff, map_map, mem_map] at mem
      obtain ⟨field, fieldIn, rfl⟩ := mem
      exact ⟨field.name, field.canonical, others field fieldIn, rfl⟩
    · intro pair mem
      exact held ▸ inr (inr ⟨pair, mem, rfl⟩)
  rw [(sortedLeaves_perm.map Leaf.hash).mem_iff, map_map, mem_map] at inTree
  obtain ⟨field, mem, same⟩ := inTree
  obtain ⟨names, values⟩ := fieldString_inj (valid field mem).1 named (free (others field mem) own same)
  exact ⟨field, mem, names, values ▸ (valid field mem).canonicalJson⟩

/-- The path of a field leads to the root, and what leads to the root is a field. -/
theorem header_proofs (filled : fields ≠ []) (once : (fields.map Field.name).Nodup)
    (valid : ∀ field ∈ fields, field.Valid) :
    (∀ field ∈ fields, ∃ canonical hash path top, canonicalJson field.value = .ok canonical ∧
      leafHash sha256 field.name canonical = .ok hash ∧ leafPath sha256 fields field.name = .ok (path, top) ∧
      root sha256 fields = .ok top ∧ verifyLeafPath sha256 hash path top = true ∧
      ∀ others : List Field, fields.Perm others →
        leafPath sha256 others field.name = .ok (path, top) ∧ root sha256 others = .ok top) ∧
    ∀ (top hash : Hash) (name : String) (canonical : Bytes) (path : List ProofStep), root sha256 fields = .ok top →
      leafHash sha256 name canonical = .ok hash →
      Set.InjOn sha256 (headerStrings sha256 fields ∪ ({fieldString name canonical} ∪ leafPathStrings sha256 hash path)) →
      verifyLeafPath sha256 hash path top = true →
      ∃ field ∈ fields, field.name = name ∧ canonicalJson field.value = .ok canonical := by
  constructor
  · intro field member
    obtain ⟨path, top, everywhere, verified⟩ := @leafPath_complete sha256 fields field once valid member
    have ordered := everywhere fields (List.Perm.refl fields)
    exact ⟨field.canonical, (leafOf sha256 field).hash, path, top, (valid field member).canonicalJson,
      leafHash_eq (valid field member).1, ordered.1, ordered.2, verified, everywhere⟩
  · intro top hash name canonical path rooted hashed free verified
    obtain ⟨named, rfl⟩ := leafHash_ok hashed
    exact leafPath_sound filled once valid named rooted free verified

end

namespace Header.Sample

def lengths : Sha256 := fun string => (Vector.replicate 32 0).set 0 (UInt8.ofNat string.length)

def pair : List Field := [⟨"type", .null⟩, ⟨"redacts", .bool true⟩]

theorem pair_proofs : ∃ canonical hash path top, canonicalJson .null = .ok canonical ∧
    leafHash lengths "type" canonical = .ok hash ∧ leafPath lengths pair "type" = .ok (path, top) ∧
    root lengths pair = .ok top ∧ verifyLeafPath lengths hash path top = true := by
  have valid : ∀ field ∈ pair, field.Valid := by
    intro field member
    unfold pair at member
    simp only [mem_cons, not_mem_nil, or_false] at member
    rcases member with rfl | rfl
    · exact ⟨by decide, _, rfl⟩
    · exact ⟨by decide, _, rfl⟩
  obtain ⟨canonical, hash, path, top, spelled, hashed, walked, rooted, verified, -⟩ :=
    (@header_proofs lengths pair (by decide) (by decide) valid).1 ⟨"type", .null⟩ (mem_cons_self ..)
  exact ⟨canonical, hash, path, top, spelled, hashed, walked, rooted, verified⟩

end Header.Sample

end Rezzy.Merkle
