import Rezzy.Hamt.Mutate

namespace Rezzy.Hamt

open Outcome List Except Prod
open Prod (ext_iff fst)

variable {K V H E : Type} {hasher : Hasher K V H} {keyHash : K → KeyPathHash} {resolver : Resolver K V H E}

section

structure Listed (play : Set K) (entries : List (K × V)) : Prop where
  distinct : (entries.map fst).Nodup
  inPlay : ∀ entry ∈ entries, entry.1 ∈ play

theorem Listed.spread (listed : Listed play entries) (apart : play.InjOn keyHash) :
    Spread keyHash hamtMaxDepth entries :=
  .root listed.distinct fun left inLeft right inRight same =>
    apart (listed.inPlay left inLeft) (listed.inPlay right inRight) same

variable [DecidableEq K]

def runMutations (hasher : Hasher K V H) (keyHash : K → KeyPathHash) (resolver : Resolver K V H E) :
    HamtNode K V H → List (K × Option V) → Except (HamtMutateError E) (HamtNode K V H × List (Option V))
  | root, [] => .ok (root, [])
  | root, (key, value) :: rest => do
    let step ← mutate hasher keyHash resolver root key value
    let (final, displaced) ← runMutations hasher keyHash resolver step.node rest
    return (final, step.displaced :: displaced)

def applyMutations (entries : List (K × V)) (mutations : List (K × Option V)) : List (K × V) :=
  mutations.foldl (fun entries mutation => assign entries mutation.1 mutation.2) entries

def finalMap (entries : List (K × V)) (mutations : List (K × Option V)) : K → Option V :=
  mutations.foldl (fun map mutation => Function.update map mutation.1 mutation.2) (entries.lookup ·)

def displacedBy : List (K × V) → List (K × Option V) → List (Option V)
  | _, [] => []
  | entries, mutation :: rest =>
    entries.lookup mutation.1 :: displacedBy (assign entries mutation.1 mutation.2) rest

theorem lookup_applyMutations (entries : List (K × V)) (mutations : List (K × Option V)) (key : K) :
    (applyMutations entries mutations).lookup key = finalMap entries mutations key := by
  have agree : ∀ (entries : List (K × V)) (map : K → Option V), (∀ key, entries.lookup key = map key) →
      ∀ key, (applyMutations entries mutations).lookup key =
        mutations.foldl (fun map mutation => Function.update map mutation.1 mutation.2) map key := by
    induction mutations with
    | nil => exact fun entries map same => same
    | cons mutation rest ih =>
      intro entries map same
      apply ih
      intro key
      rw [lookup_assign, same key]
      exact (Function.update_apply map mutation.1 mutation.2 key).symm
  exact agree entries (entries.lookup ·) (fun _ => rfl) key

theorem Listed.assign (listed : Listed play entries) {key : K} (inPlay : key ∈ play) (value : Option V) :
    Listed play (assign entries key value) where
  distinct := distinct_assign listed.distinct key value
  inPlay entry member := by
    rcases mem_append.mp member with before | last
    · exact listed.inPlay entry (mem_without.mp before).1
    · obtain ⟨-, -, rfl⟩ := mem_map.mp last
      exact inPlay

theorem Listed.applyMutations {play : Set K} {entries : List (K × V)} (listed : Listed play entries)
    {mutations : List (K × Option V)} (inPlay : ∀ mutation ∈ mutations, mutation.1 ∈ play) :
    Listed play (applyMutations entries mutations) := by
  induction mutations generalizing entries with
  | nil => exact listed
  | cons mutation rest ih =>
    exact ih (listed.assign (inPlay _ (mem_cons_self ..)) mutation.2)
      fun other mem => inPlay other (mem_cons_of_mem _ mem)

theorem runMutations_holds {play : Set K} (apart : play.InjOn keyHash) {root : HamtNode K V H}
    {entries : List (K × V)} (holds : Holds hasher keyHash resolver hamtMaxDepth root entries)
    (listed : Listed play entries) {mutations : List (K × Option V)}
    (inPlay : ∀ mutation ∈ mutations, mutation.1 ∈ play) :
    ∃ final, runMutations hasher keyHash resolver root mutations = .ok (final, displacedBy entries mutations) ∧
      Holds hasher keyHash resolver hamtMaxDepth final (applyMutations entries mutations) := by
  induction mutations generalizing root entries with
  | nil => exact ⟨root, rfl, holds⟩
  | cons mutation rest ih =>
    have next := listed.assign (inPlay _ (mem_cons_self ..)) mutation.2
    obtain ⟨step, run, stepHolds, displaced, -⟩ := mutate_holds holds (listed.spread apart) (next.spread apart)
    obtain ⟨final, more, finalHolds⟩ := ih stepHolds next fun other mem => inPlay other (mem_cons_of_mem _ mem)
    refine ⟨final, ?_, finalHolds⟩
    rw [runMutations, run]
    simp only [bind, Except.bind, more, displaced]
    rfl

theorem runMutations_within {F : Type} {large : Resolver K V H F} (within : resolver.Within large)
    {root : HamtNode K V H} {mutations : List (K × Option V)} {result : HamtNode K V H × List (Option V)}
    (run : runMutations hasher keyHash resolver root mutations = .ok result) :
    runMutations hasher keyHash large root mutations = .ok result := by
  induction mutations generalizing root result with
  | nil => exact congrArg ok (ok.inj run)
  | cons mutation rest ih =>
    obtain ⟨step, first, more⟩ := bind_eq_ok.mp run
    obtain ⟨last, others, final⟩ := bind_eq_ok.mp more
    rw [runMutations, mutate_within within first]
    show (runMutations hasher keyHash large step.node rest >>= _) = _
    rw [ih others]
    exact congrArg ok (ok.inj final)

theorem mem_iff_lookup {entries : List (K × V)} (distinct : (entries.map fst).Nodup) :
    entry ∈ entries ↔ entries.lookup entry.1 = some entry.2 := by
  induction entries with
  | nil => simp
  | cons first rest ih =>
    rw [map_cons, nodup_cons] at distinct
    rw [mem_cons, ih distinct.2, lookup_cons]
    by_cases same : entry.1 = first.1
    · have fresh : rest.lookup entry.1 = none := by
        rw [lookup_eq_none]
        intro other mem equal
        exact distinct.1 (mem_map.mpr ⟨other, mem, equal.trans same⟩)
      rw [fresh, same, beq_self_eq_true]
      simp [ext_iff, same, eq_comm]
    · rw [beq_eq_false_iff_ne.mpr same]
      simp [ext_iff, same]

theorem perm_of_lookup {left right : List (K × V)} (leftDistinct : (left.map fst).Nodup)
    (rightDistinct : (right.map fst).Nodup) (same : ∀ key, left.lookup key = right.lookup key) :
    left.Perm right := by
  rw [perm_ext_iff_of_nodup leftDistinct.of_map rightDistinct.of_map]
  intro _
  rw [mem_iff_lookup leftDistinct, mem_iff_lookup rightDistinct, same]

/-- However a map came about, its trie is the one that is built from its entries, and lookups in it are
    lookups in the map. -/
theorem runMutations_canonical (hasher : Hasher K V H) (keyHash : K → KeyPathHash) (resolver : Resolver K V H E)
    (entries : List (K × V)) (mutations : List (K × Option V)) (distinct : (entries.map Prod.fst).Nodup)
    (apart : Set.InjOn keyHash {key | key ∈ entries.map Prod.fst ∨ key ∈ mutations.map Prod.fst}) :
    ∃ root final displaced, buildHamt hasher keyHash entries = .ok root ∧
      runMutations hasher keyHash resolver root mutations = .ok (final, displaced) ∧
      (∃ listing : List (K × V), (listing.map Prod.fst).Nodup ∧ ∀ key, listing.lookup key = finalMap entries mutations key) ∧
      (∀ listing : List (K × V), (listing.map Prod.fst).Nodup → (∀ key, listing.lookup key = finalMap entries mutations key) →
        buildHamt hasher keyHash listing = .ok final) ∧
      ∀ key, final.get keyHash key = .ok (finalMap entries mutations key) ∧
        final.search keyHash key resolver = .ok (finalMap entries mutations key) := by
  have listed : Listed {key | key ∈ entries.map fst ∨ key ∈ mutations.map fst} entries :=
    ⟨distinct, fun entry member => .inl (mem_map_of_mem member)⟩
  have inPlay : ∀ mutation ∈ mutations,
      mutation.1 ∈ {key | key ∈ entries.map fst ∨ key ∈ mutations.map fst} :=
    fun mutation member => .inr (mem_map_of_mem member)
  obtain ⟨root, built, holds⟩ := buildHamt_holds (listed.spread apart)
  obtain ⟨final, run, finalHolds⟩ := runMutations_holds apart holds listed inPlay
  have last := listed.applyMutations inPlay
  refine ⟨root, final, _, built, runMutations_within (noStore_within resolver) run,
    ⟨_, last.distinct, lookup_applyMutations entries mutations⟩, ?_, ?_⟩
  · intro listing once same
    have perm : listing.Perm (applyMutations entries mutations) :=
      perm_of_lookup once last.distinct fun key => (same key).trans (lookup_applyMutations ..).symm
    obtain ⟨rebuilt, run, rebuiltHolds⟩ := buildHamt_holds ((last.spread apart).perm perm.symm)
    rw [run, (rebuiltHolds.perm perm).unique finalHolds]
  · intro key
    rw [← lookup_applyMutations]
    exact ⟨finalHolds.get key, (finalHolds.within (noStore_within resolver)).search key⟩

namespace Sample

theorem hash_width : 0 < 32 := by decide

def byteHash (key : UInt8) : KeyPathHash := (Vector.replicate 32 0).set 0 key hash_width

theorem byteHash_injective : Function.Injective byteHash := by
  intro _ _ same
  have first := congrArg (fun hash => hash[0]) same
  simpa [byteHash] using first

inductive Digest where
  | digest (datamap nodemap : BitVec 32) (leaves : List (UInt8 × Nat)) (children : List Digest)

end Sample

open Sample in
theorem runMutations_canonical_bytes :
    ∃ root final displaced, buildHamt Digest.digest byteHash [(1, 10), (2, 20)] = .ok root ∧
      runMutations Digest.digest byteHash noStore root [(33, some 330), (1, some 11), (33, none)] =
        .ok (final, displaced) ∧
      buildHamt Digest.digest byteHash [(2, 20), (1, 11)] = .ok final ∧ final.get byteHash 1 = .ok (some 11) := by
  obtain ⟨root, final, displaced, built, run, -, rebuilt, found⟩ := runMutations_canonical Digest.digest byteHash
    noStore [(1, 10), (2, 20)] [(33, some 330), (1, some 11), (33, none)] (by decide) byteHash_injective.injOn
  refine ⟨root, final, displaced, built, run, rebuilt _ (by decide) ?_, (found 1).1⟩
  intro key
  simp only [finalMap, foldl_cons, foldl_nil, Function.update_apply, lookup_cons, lookup_nil]
  by_cases one : key = 1
  · simp [one]
  · by_cases other : key = 33
    · simp [other]
    · by_cases two : key = 2
      · simp [two]
      · simp [one, other, beq_eq_false_iff_ne.mpr two, beq_eq_false_iff_ne.mpr one]

end

section

theorem foldlM_visits {ε σ α : Type} {f : σ → α → Except ε σ} {list : List α} {start final : σ}
    (run : list.foldlM f start = .ok final) {item : α} (mem : item ∈ list) : ∃ before after, f before item = .ok after := by
  induction list generalizing start with
  | nil => cases mem
  | cons first rest ih =>
    rw [foldlM_cons] at run
    obtain ⟨next, step, more⟩ := bind_eq_ok.mp run
    rcases mem_cons.mp mem with rfl | later
    · exact ⟨start, next, step⟩
    · exact ih more later

theorem buildNode_collision (same : first.pathHash = second.pathHash) :
    buildNode hasher levels [first, second] ≠ .ok node := by
  induction levels generalizing node with
  | zero => exact fun run => by cases run
  | succ levels ih =>
    intro run
    rw [buildNode] at run
    obtain ⟨parts, fold, -⟩ := bind_eq_ok.mp run
    obtain ⟨before, after, step⟩ := foldlM_visits fold
      (mem_range.mpr (bucketIndex_lt first.pathHash (depthOf (levels + 1))))
    have bucket : bucketOf (depthOf (levels + 1)) [first, second]
        (bucketIndex first.pathHash (depthOf (levels + 1))) = [first, second] := by
      simp [bucketOf, same]
    rw [bucket] at step
    unfold placeBucket at step
    dsimp only at step
    split at step
    · cases step
    · obtain ⟨child, built, -⟩ := bind_eq_ok.mp step
      exact ih built

end

variable [DecidableEq K]

theorem insertNode_apart (holds : Holds hasher keyHash resolver levels node entries)
    (run : insertNode hasher keyHash resolver key value levels node = .ok result) :
    ∀ entry ∈ entries, keyHash entry.1 = keyHash key → entry.1 = key := by
  induction levels generalizing node entries result with
  | zero => exact holds.elim
  | succ levels ih =>
    intro entry mem same
    obtain ⟨leafSlots, childSlots, packed, slots⟩ := holds
    have routed : route keyHash (depthOf (levels + 1)) entry.1 = route keyHash (depthOf (levels + 1)) key :=
      congrArg (bucketIndex · (depthOf (levels + 1))) same
    have inside := route_lt keyHash (depthOf (levels + 1)) key
    have own : entry ∈ bucket keyHash (depthOf (levels + 1)) entries (route keyHash (depthOf (levels + 1)) key) :=
      mem_bucket.mpr ⟨mem, routed⟩
    rcases (slots _ inside).inv with ⟨shared, -, -⟩ | ⟨existing, shared, leaf, -⟩ |
      ⟨ref, child, -, leaf, taken, resolves, -, inner⟩
    · rw [shared] at own
      cases own
    · rw [shared] at own
      obtain rfl := mem_singleton.mp own
      obtain ⟨bit, found⟩ := packed.leaf_taken inside leaf
      rw [insertNode_at_leaf rfl bit found] at run
      by_contra other
      rw [if_neg other, splitLeaf] at run
      split at run
      · cases run
      · rename_i child built
        exact buildNode_collision same built
    · obtain ⟨bit, found⟩ := packed.child_taken inside taken
      rw [insertNode_at_child rfl (packed.leaf_free inside leaf) bit found, resolveForMutation, resolves] at run
      obtain ⟨loaded, first, rest⟩ := bind_eq_ok.mp run
      obtain rfl := ok.inj first
      obtain ⟨step, deeper, -⟩ := bind_eq_ok.mp rest
      exact ih inner deeper entry own same

theorem mutate_fits (holds : Holds hasher keyHash resolver hamtMaxDepth root entries)
    (spread : Spread keyHash hamtMaxDepth entries) (run : mutate hasher keyHash resolver root key value = .ok result) :
    Spread keyHash hamtMaxDepth (assign entries key value) := by
  refine .root (distinct_assign spread.distinct key value) ?_
  have split : ∀ entry ∈ assign entries key value, entry ∈ entries ∨ value.isSome ∧ entry.1 = key := by
    intro entry mem
    rcases mem_append.mp mem with before | last
    · exact .inl (mem_without.mp before).1
    · obtain ⟨own, given, rfl⟩ := mem_map.mp last
      exact .inr ⟨by cases value <;> simp at given ⊢, rfl⟩
  have apart : value.isSome → ∀ entry ∈ entries, keyHash entry.1 = keyHash key → entry.1 = key := by
    intro given
    cases value with
    | none => cases given
    | some value => exact insertNode_apart holds run
  intro left inLeft right inRight same
  rcases split left inLeft with before | ⟨given, rfl⟩
  · rcases split right inRight with otherBefore | ⟨given, rfl⟩
    · exact spread.injective left before right otherBefore same
    · exact apart given left before same
  · rcases split right inRight with otherBefore | ⟨-, equal⟩
    · exact (apart given right otherBefore same.symm).symm
    · exact equal.symm

end Rezzy.Hamt
