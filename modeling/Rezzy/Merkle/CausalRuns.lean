import Rezzy.Merkle.Causal

namespace Rezzy.Merkle

open SparseTrie CausalSet Std.ExtTreeSet

variable {sha256 : Sha256} {set : CausalSet} {key : Hash} {keys : List Hash} {levels d : Nat}

namespace CausalSet

def Cached (sha256 : Sha256) (set : CausalSet) : Prop :=
  ∀ d ≤ causalDepth, ∀ place, Padded d place →
    nodeAt sha256 set.nodes d place = prefixValue sha256 set.keys.toList d place

theorem mem_keys_insert {keys : Std.ExtTreeSet Hash} {other : Hash} :
    other ∈ (keys.insert key).toList ↔ other = key ∨ other ∈ keys.toList := by
  rw [mem_toList, mem_insert, mem_toList, Std.LawfulEqCmp.compare_eq_iff_eq, eq_comm]

theorem cached_empty : Cached sha256 empty := by
  intro _ _ _ _
  exact causalSubtree_nil.symm

theorem rightFrom_leaf {nodes : Nodes} (cached : Cached sha256 set)
    (kept : ∀ e ≤ causalDepth, ∀ other, nodeAt sha256 nodes e other = nodeAt sha256 set.nodes e other) :
    RightFrom sha256 (set.keys.insert key).toList key causalDepth
      (nodes.insert (depthU16 causalDepth, key) (causalLeaf sha256 key, 1)) := by
  intro e within place padded wanted
  rw [nodeAt_insert (le_refl _) within]
  split
  · rename_i here
    obtain ⟨rfl, rfl⟩ := here
    have alone : prefixValue sha256 (set.keys.insert place).toList causalDepth place =
        prefixValue sha256 [place] causalDepth place := by
      apply prefixValue_congr
      intro other shared
      obtain rfl : other = place := hash_ext (hasPrefix_iff.mp shared)
      rw [mem_keys_insert, List.mem_singleton]
      simp
    have own : hasPrefix causalDepth place place = true := hasPrefix_iff.mpr fun e before => rfl
    rw [alone]
    unfold prefixValue
    rw [List.filter_cons_of_pos own]
    rfl
  · rename_i elsewhere
    have beside : hasPrefix e place key = false := by
      rcases wanted with deep | beside
      · obtain rfl : e = causalDepth := Nat.le_antisymm within deep
        rw [← Bool.not_eq_true, hasPrefix_iff]
        intro shared
        exact elsewhere ⟨rfl, (hash_ext shared).symm⟩
      · exact beside
    rw [kept e within, cached e within place padded]
    apply prefixValue_congr
    intro other shared
    rw [mem_keys_insert]
    have apart : other ≠ key := by
      rintro rfl
      rw [beside] at shared
      cases shared
    simp [apart]

theorem mem_insertMut {other : Hash} : other ∈ (set.insertMut sha256 key).1.keys ↔ other = key ∨ other ∈ set.keys := by
  unfold insertMut
  split
  · rename_i held
    constructor
    · exact Or.inr
    · rintro (rfl | mem)
      · exact contains_iff_mem.mp held
      · exact mem
  · rw [← mem_toList, mem_keys_insert, mem_toList]

theorem cached_insertMut (cached : Cached sha256 set) : Cached sha256 (set.insertMut sha256 key).1 := by
  unfold insertMut
  split
  · exact cached
  · have walk := down_spec sha256 key set.nodes (le_refl causalDepth)
    obtain ⟨walked, kept⟩ := walk
    have whole := walked.whole
    dsimp only
    rw [whole]
    intro d shallow place padded
    refine up_spec (le_refl causalDepth) (fun e small => rfl) ?_ d shallow place padded (Or.inl (Nat.zero_le d))
    exact rightFrom_leaf cached kept

theorem root_eq (cached : Cached sha256 set) :
    set.root sha256 = (causalSubtree sha256 causalDepth set.keys.toList).1 := by
  have top := cached 0 (Nat.zero_le _) zeroPrefix zeroPrefix_padded
  have all : set.keys.toList.filter (hasPrefix 0 zeroPrefix) = set.keys.toList :=
    List.filter_eq_self.mpr fun key _ => rfl
  unfold prefixValue at top
  rw [all] at top
  unfold root
  split
  · rename_i none
    rw [show set.keys.toList = [] from List.isEmpty_iff.mp (isEmpty_toList.trans none), causalSubtree_nil]
    rfl
  · refine Eq.trans ?_ (congrArg Prod.fst top)
    unfold nodeAt
    rw [depthU16_eq (Nat.zero_le _)]
    cases set.nodes[(0, zeroPrefix)]? with
    | none => rfl
    | some node => rfl

end CausalSet

section

theorem countSum_toNat (a b : UInt64) : (countSum a b).toNat = min (a.toNat + b.toNat) (2 ^ 64 - 1) := by
  unfold countSum
  rw [UInt64.toNat_ofNat', Nat.mod_eq_of_lt]
  omega

structure Distinct (levels : Nat) (keys : List Hash) : Prop where
  nodup : keys.Nodup
  single : ∀ one ∈ keys, ∀ other ∈ keys, (∀ level < levels, causalTurn one level = causalTurn other level) → one = other

theorem Distinct.side (distinct : Distinct (levels + 1) keys) (right : Bool) :
    Distinct levels (keys.filter fun key => causalTurn key levels == right) where
  nodup := distinct.nodup.filter _
  single := by
    intro one oneIn other otherIn agree
    obtain ⟨oneIn, oneTurn⟩ := List.mem_filter.mp oneIn
    obtain ⟨otherIn, otherTurn⟩ := List.mem_filter.mp otherIn
    apply distinct.single one oneIn other otherIn
    intro level small
    rcases Nat.lt_succ_iff_lt_or_eq.mp small with below | rfl
    · exact agree level below
    · rw [beq_iff_eq.mp oneTurn, beq_iff_eq.mp otherTurn]

theorem filter_sides (keys : List Hash) (levels : Nat) : (keys.filter fun key => causalTurn key levels == false).length +
    (keys.filter fun key => causalTurn key levels == true).length = keys.length := by
  rw [@List.length_eq_length_filter_add _ keys fun key => causalTurn key levels == false]
  simp

theorem causalSubtree_count (sha256 : Sha256) (distinct : Distinct levels keys) :
    (causalSubtree sha256 levels keys).2.toNat = min keys.length (2 ^ 64 - 1) := by
  induction levels generalizing keys with
  | zero =>
    cases keys with
    | nil => rfl
    | cons first rest =>
      cases rest with
      | nil => rfl
      | cons second rest =>
        have same := distinct.single first List.mem_cons_self second (List.mem_cons_of_mem _ List.mem_cons_self)
          fun level small => nomatch small
        subst same
        exact absurd List.mem_cons_self (List.nodup_cons.mp distinct.nodup).1
  | succ levels ih =>
    have halves := filter_sides keys levels
    rw [causalSubtree_succ]
    show (countSum _ _).toNat = _
    rw [countSum_toNat, ih (distinct.side false), ih (distinct.side true)]
    omega

theorem keys_nodup (keys : Std.ExtTreeSet Hash) : keys.toList.Nodup := by
  refine distinct_toList.imp ?_
  rintro one other apart rfl
  exact apart Std.ReflCmp.compare_self

theorem keys_distinct (keys : Std.ExtTreeSet Hash) : Distinct causalDepth keys.toList where
  nodup := keys_nodup keys
  single := by
    intro one _ other _ agree
    have bare (key : Hash) : hasPrefix 0 zeroPrefix key = true := rfl
    exact key_of_prefix (bare one) (bare other) agree

theorem total_count (sha256 : Sha256) (fits : set.keys.size ≤ usizeMax) :
    (causalSubtree sha256 causalDepth set.keys.toList).2 = set.count := by
  apply UInt64.toNat_inj.mp
  rw [causalSubtree_count sha256 (keys_distinct set.keys), Std.ExtTreeSet.length_toList]
  unfold count
  unfold usizeMax at fits
  rw [UInt64.toNat_ofNat', Nat.mod_eq_of_lt (by omega)]
  omega

end

inductive History where
  | empty
  | insertMut (before : History) (key : Hash)
  | extend (before : History) (iter : List Hash)
  | insert (before : History) (key : Hash)
  | union (before other : History)

namespace History

def run (sha256 : Sha256) : History → CausalSet
  | empty => .empty
  | insertMut before key => ((before.run sha256).insertMut sha256 key).1
  | extend before iter => (before.run sha256).extend sha256 iter
  | insert before key => (before.run sha256).insert sha256 key
  | union before other => (before.run sha256).union sha256 (other.run sha256)

def inserted : History → Set Hash
  | empty => ∅
  | insertMut before key => {key} ∪ before.inserted
  | extend before iter => {key | key ∈ iter} ∪ before.inserted
  | insert before key => {key} ∪ before.inserted
  | union before other => other.inserted ∪ before.inserted

theorem extend_spec (iter : List Hash) (cached : Cached sha256 set) : Cached sha256 (set.extend sha256 iter) ∧
    ∀ key, key ∈ (set.extend sha256 iter).keys ↔ key ∈ iter ∨ key ∈ set.keys := by
  induction iter generalizing set with
  | nil => exact ⟨cached, fun key => by simp [CausalSet.extend]⟩
  | cons first rest ih =>
    have next : Cached sha256 (set.insertMut sha256 first).1 := cached_insertMut cached
    obtain ⟨kept, members⟩ := ih next
    refine ⟨kept, fun key => (members key).trans ?_⟩
    rw [mem_insertMut, List.mem_cons]
    tauto

theorem run_spec (sha256 : Sha256) (history : History) : Cached sha256 (history.run sha256) ∧
    ∀ key, key ∈ (history.run sha256).keys ↔ key ∈ history.inserted := by
  induction history with
  | empty => exact ⟨cached_empty, fun key => by simp [run, inserted, CausalSet.empty]⟩
  | insertMut before key ih =>
    refine ⟨cached_insertMut ih.1, fun other => ?_⟩
    exact mem_insertMut.trans (or_congr_right (ih.2 other))
  | extend before iter ih =>
    obtain ⟨kept, members⟩ := extend_spec iter ih.1
    exact ⟨kept, fun other => (members other).trans (or_congr_right (ih.2 other))⟩
  | insert before key ih =>
    refine ⟨cached_insertMut ih.1, fun other => ?_⟩
    exact mem_insertMut.trans (or_congr_right (ih.2 other))
  | union before other ihBefore ihOther =>
    obtain ⟨kept, members⟩ := extend_spec (other.run sha256).keys.toList ihBefore.1
    refine ⟨kept, fun key => (members key).trans (or_congr ?_ (ihBefore.2 key))⟩
    exact mem_toList.trans (ihOther.2 key)

/-- The node cache of a set is the sum trie of the keys inserted, whatever their order. -/
theorem cache_is_sum_trie (sha256 : Sha256) (history : History) :
    (∀ key, key ∈ (history.run sha256).keys ↔ key ∈ history.inserted) ∧
    (∀ d ≤ causalDepth, ∀ prefix_, Padded d prefix_ → nodeAt sha256 (history.run sha256).nodes d prefix_ =
      subtreeRootOrEmpty sha256 ((history.run sha256).keys.toList.filter (hasPrefix d prefix_)) d) ∧
    (∀ other : History, history.inserted = other.inserted →
      (history.run sha256).root sha256 = (other.run sha256).root sha256 ∧
        (history.run sha256).count = (other.run sha256).count) ∧
    ((history.run sha256).keys.size ≤ usizeMax →
      (nodeAt sha256 (history.run sha256).nodes 0 zeroPrefix).2 = (history.run sha256).count) := by
  obtain ⟨cached, members⟩ := history.run_spec sha256
  refine ⟨members, ?_, ?_, ?_⟩
  · intro d shallow prefix_ padded
    rw [cached d shallow prefix_ padded, subtreeRootOrEmpty_eq]
    rfl
  · intro other same
    obtain ⟨otherCached, otherMembers⟩ := other.run_spec sha256
    have keys : (history.run sha256).keys = (other.run sha256).keys := by
      apply Std.ExtTreeSet.ext_mem
      intro key
      rw [members, otherMembers, same]
    refine ⟨?_, ?_⟩
    · rw [root_eq cached, root_eq otherCached, keys]
    · unfold count
      rw [keys]
  · intro fits
    rw [cached 0 (Nat.zero_le _) zeroPrefix zeroPrefix_padded]
    have all : (history.run sha256).keys.toList.filter (hasPrefix 0 zeroPrefix) = (history.run sha256).keys.toList :=
      List.filter_eq_self.mpr fun key _ => rfl
    unfold prefixValue
    rw [all]
    exact total_count sha256 fits

end History

namespace Sample

def once : History := .insertMut .empty zeroPrefix

def twice : History := .union (.insert .empty zeroPrefix) (.extend .empty [zeroPrefix, zeroPrefix])

def flat : Sha256 := fun _ => zeroPrefix

theorem once_inserted : once.inserted = twice.inserted := by
  simp [once, twice, History.inserted]

theorem once_cached :
    nodeAt flat (once.run flat).nodes 0 zeroPrefix =
      subtreeRootOrEmpty flat ((once.run flat).keys.toList.filter (hasPrefix 0 zeroPrefix)) 0 ∧
    (once.run flat).root flat = (twice.run flat).root flat ∧
    (nodeAt flat (once.run flat).nodes 0 zeroPrefix).2 = (once.run flat).count := by
  obtain ⟨-, nodes, roots, total⟩ := once.cache_is_sum_trie flat
  refine ⟨nodes 0 (by decide) zeroPrefix zeroPrefix_padded, (roots twice once_inserted).1, total ?_⟩
  have small : ((∅ : Std.ExtTreeSet Hash).insert zeroPrefix).size ≤ usizeMax :=
    size_insert_le.trans (by decide)
  exact small

end Sample

end Rezzy.Merkle
