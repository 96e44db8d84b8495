import Rezzy.Hamt.Persist

namespace Rezzy.Hamt

open Outcome

variable {K V E : Type}

def deleteZeroed (store : NodeStore) (zeroed : List StructuralHash) : NodeStore :=
  fun hash => if zeroed.contains hash then none else store hash

structure Tidy [HamtCodec K] [HamtCodec V] (resolver : Resolver K V StructuralHash E) (store : NodeStore)
    (root : HamtNode K V StructuralHash) : Prop where
  stored : ∀ target, Reaches resolver root target → StoredNode store target
  only : ∀ hash, (store hash).isSome → ReachesHash resolver root hash

/-- Each step writes what it created and deletes what the chain reports as zeroed. After it the store has the root and
    no other, and the root can be read in full. -/
def SweptChain [DecidableEq K] [HamtCodec K] [HamtCodec V] (hasher : Hasher K V StructuralHash)
    (keyHash : K → KeyPathHash) (resolver : Resolver K V StructuralHash E) : NodeStore →
    LinearRootChain StructuralHash → HamtNode K V StructuralHash → List (K × V) → List (K × Option V) →
    List (ChainStep K V) → Prop
  | _, _, _, _, [], steps => steps = []
  | store, chain, prevRoot, entries, (key, value) :: rest, steps => ∃ step later delta after zeroed swept,
      steps = step :: later ∧ diffNodeHashes resolver prevRoot step.root = .ok delta ∧
      chain.advance delta step.rootHash = .ok (after, zeroed) ∧
      swept = deleteZeroed (writeCreated store step.created) zeroed ∧ Tidy resolver swept step.root ∧
      loadNode hasher swept step.rootHash = .ok step.root.unloaded ∧
      Holds hasher keyHash (loadNode hasher swept) hamtMaxDepth step.root.unloaded (assign entries key value) ∧
      SweptChain hasher keyHash resolver swept after step.root (assign entries key value) rest later

variable [HamtCodec K] [HamtCodec V] {hasher : Hasher K V StructuralHash} {keyHash : K → KeyPathHash}
  {resolver : Resolver K V StructuralHash E} {prevRoot : HamtNode K V StructuralHash} {entries : List (K × V)}
  {store : NodeStore}

theorem Tidy.next (tidy : Tidy resolver store prevRoot)
    (published : Published hasher keyHash resolver prevRoot newRoot entries created)
    (between : NodeHashDelta.Between delta (ReachesHash resolver prevRoot) (ReachesHash resolver newRoot)) :
    Tidy resolver (deleteZeroed (writeCreated store created) delta.supersededNodeHashes) newRoot := by
  constructor
  · intro target reaches
    obtain ⟨bytes, encodes, found⟩ := (published.resolvable store tidy.stored).1 target (.inr reaches)
    refine ⟨bytes, encodes, (if_neg fun gone => ?_).trans found⟩
    exact ((between.superseded _).mp (List.contains_iff_mem.mp gone)).2 ⟨target, reaches, rfl⟩
  · intro hash found
    unfold deleteZeroed at found
    split at found
    · cases found
    · rename_i held
      rcases writeCreated_cases store created hash with ⟨same, -⟩ | ⟨item, mem, rfl, -⟩
      · by_contra gone
        exact held (List.contains_iff_mem.mpr ((between.superseded hash).mpr ⟨tidy.only hash (same ▸ found), gone⟩))
      · obtain ⟨target, reaches, named, -⟩ := published.sound item mem
        exact ⟨target, reaches, named.symm⟩

variable [LawfulHamtCodec K] [LawfulHamtCodec V] [DecidableEq K]

/-- A store that is written, counted and swept along a history never loses a node of the current root and never keeps
    another one. -/
theorem persistChain_swept (holds : Holds hasher keyHash resolver hamtMaxDepth prevRoot entries)
    (spread : Spread keyHash hamtMaxDepth entries)
    (run : persistChain hasher keyHash resolver prevRoot mutations = .ok steps)
    (apart : RootsApart resolver (prevRoot :: steps.map ChainStep.root)) (tidy : Tidy resolver store prevRoot)
    {chain : LinearRootChain StructuralHash} (idle : chain.pendingRetirement = none)
    (tracks : chain.table.Tracks (ReachesHash resolver prevRoot)) :
    SweptChain hasher keyHash resolver store chain prevRoot entries mutations steps := by
  induction mutations generalizing prevRoot entries steps store chain with
  | nil => exact (Except.ok.inj run).symm
  | cons mutation rest ih =>
    obtain ⟨step, first, more⟩ := bind_eq_ok.mp run
    obtain ⟨later, others, last⟩ := bind_eq_ok.mp more
    obtain rfl := Except.ok.inj last
    obtain ⟨newHolds, newSpread, -, published⟩ := persistMutation_published holds spread first
      (apart.sublist fun root mem => by simp at mem ⊢; tauto)
    obtain ⟨delta, diff, between⟩ := diffNodeHashesRec_spec apart.collisionFree hamtMaxDepth
      ⟨prevRoot, by simp, .self prevRoot⟩ ⟨step.root, by simp, .self step.root⟩ holds newHolds spread newSpread
    obtain ⟨after, advanced, idle, tracks⟩ := LinearRootChain.advance_exact (E := E) idle tracks between
    have tidy := tidy.next published between
    exact ⟨_, later, delta, after, _, _, rfl, diff, advanced, rfl, tidy,
      loadNode_stored newHolds (tidy.stored _ (.self step.root)), newHolds.unloaded tidy.stored,
      ih newHolds newSpread others (apart.sublist fun root mem => List.mem_cons_of_mem _ mem) tidy idle tracks⟩

open Sample in
theorem persistChain_swept_return : ∃ bytes steps,
    SweptChain sizeHash intHash noStore (fun hash => if hash = emptyRoot.structuralHash then some bytes else none)
      (.bootstrap [emptyRoot.structuralHash] emptyRoot.structuralHash) emptyRoot [] [(3, some true), (3, none)] steps := by
  obtain ⟨first, second, run⟩ : ∃ first second,
      persistChain sizeHash intHash noStore emptyRoot [(3, some true), (3, none)] =
        .ok [⟨filledRoot.structuralHash, filledRoot, none, first⟩,
          ⟨emptyRoot.structuralHash, emptyRoot, some true, second⟩] := ⟨_, _, rfl⟩
  obtain ⟨bytes, encodes⟩ : ∃ bytes, emptyRoot.persisted.encodeV1 = some bytes := ⟨_, rfl⟩
  have alone : ∀ target, Reaches noStore emptyRoot target → target = emptyRoot := by
    intro target reaches
    rcases reaches.cases_child with same | ⟨ref, child, -⟩
    · exact same
    · cases child
  have only : ∀ hash, ReachesHash noStore emptyRoot hash ↔ hash = emptyRoot.structuralHash := by
    refine fun hash => ⟨?_, fun same => ⟨_, .self _, same.symm⟩⟩
    rintro ⟨target, reaches, rfl⟩
    rw [alone target reaches]
  have empty : Holds sizeHash intHash noStore hamtMaxDepth emptyRoot [] := holds_nil _
  refine ⟨bytes, _, persistChain_swept empty (.root .nil fun _ mem => by cases mem) run roots_apart ⟨?_, ?_⟩ rfl ?_⟩
  · intro target reaches
    rw [alone target reaches]
    exact ⟨bytes, encodes, if_pos rfl⟩
  · intro hash found
    by_contra other
    simp [(only hash).not.mp other] at found
  · exact (RefcountTable.tracks_new.applyNew (List.nodup_singleton _) fun _ _ => not_false).congr fun hash => by
      simp [only]

end Rezzy.Hamt
