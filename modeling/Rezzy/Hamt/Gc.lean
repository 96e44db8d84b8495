import Rezzy.Hamt.Delta

namespace Rezzy.Hamt

open Function (update update_of_ne)

variable {K V H E : Type}

structure RefcountTable (H : Type) where
  counts : H → Option Nat

structure RefcountUnderflow (H : Type) where
  hash : H

/-- A call that fails, or that panics because it comes out of turn. -/
inductive RootChainFault (H : Type) where
  | underflow (fault : RefcountUnderflow H)
  | outOfTurn

inductive ChainFault (E H : Type) where
  | traversal (error : HamtTraversalError E)
  | chain (fault : RootChainFault H)

/-- A call by its result alone, with the state that it leaves behind only where it succeeds. -/
def settled {S F A : Type} (call : S × Except F A) : Except F (S × A) := call.2.map (call.1, ·)

def saturatingSucc (count : Nat) : Nat := min (count + 1) (2 ^ 64 - 1)

namespace RefcountTable

def new : RefcountTable H := ⟨fun _ => none⟩

def count (table : RefcountTable H) (hash : H) : Nat := (table.counts hash).getD 0

variable [DecidableEq H]

def increment (table : RefcountTable H) (hash : H) : RefcountTable H :=
  ⟨update table.counts hash (some (saturatingSucc (table.count hash)))⟩

def bootstrap (table : RefcountTable H) (hashes : List H) : RefcountTable H := hashes.foldl increment table

def applyNew (table : RefcountTable H) (hashes : List H) : RefcountTable H := hashes.foldl increment table

def decrement (state : RefcountTable H × List H) (hash : H) : RefcountTable H × List H :=
  let (table, zeroed) := state
  let remaining := (table.counts hash).elim 0 (· - 1)
  if remaining = 0 then (⟨update table.counts hash none⟩, zeroed ++ [hash])
  else (⟨update table.counts hash (some remaining)⟩, zeroed)

def applySupersededOn (table : RefcountTable H) (hashes : List H) :
    RefcountTable H × Except (RefcountUnderflow H) (List H) :=
  let requested := new.bootstrap hashes
  match hashes.find? fun hash => table.count hash < requested.count hash with
  | some hash => (table, .error ⟨hash⟩)
  | none =>
    let (after, zeroed) := hashes.foldl decrement (table, [])
    (after, .ok zeroed)

end RefcountTable

structure LinearRootChain (H : Type) where
  table : RefcountTable H
  currentRoot : Option H
  pendingRetirement : Option (List H)

namespace LinearRootChain

variable [DecidableEq H]

def bootstrap (hashes : List H) (currentRoot : H) : LinearRootChain H :=
  ⟨RefcountTable.new.bootstrap hashes, some currentRoot, none⟩

def transitionOn (chain : LinearRootChain H) (delta : NodeHashDelta H) (newRoot : H) :
    LinearRootChain H × Except (RootChainFault H) Unit :=
  if chain.pendingRetirement.isNone then
    (⟨chain.table.applyNew delta.newNodeHashes, some newRoot, some delta.supersededNodeHashes⟩, .ok ())
  else (chain, .error .outOfTurn)

def transition (chain : LinearRootChain H) (delta : NodeHashDelta H) (newRoot : H) :
    Except (RootChainFault H) (LinearRootChain H) :=
  (settled (chain.transitionOn delta newRoot)).map Prod.fst

def retirePreviousOn (chain : LinearRootChain H) : LinearRootChain H × Except (RootChainFault H) (List H) :=
  match chain.pendingRetirement with
  | none => (chain, .error .outOfTurn)
  | some pending =>
    match chain.table.applySupersededOn pending with
    | (table, .ok zeroed) => ({ chain with table := table, pendingRetirement := none }, .ok zeroed)
    | (table, .error fault) => ({ chain with table := table }, .error (.underflow fault))

def retirePrevious (chain : LinearRootChain H) : Except (RootChainFault H) (LinearRootChain H × List H) :=
  settled chain.retirePreviousOn

def advanceOn (chain : LinearRootChain H) (delta : NodeHashDelta H) (newRoot : H) :
    LinearRootChain H × Except (RootChainFault H) (List H) :=
  if chain.pendingRetirement.isNone then
    match chain.table.applySupersededOn delta.supersededNodeHashes with
    | (table, .ok zeroed) =>
      ({ chain with table := table.applyNew delta.newNodeHashes, currentRoot := some newRoot }, .ok zeroed)
    | (table, .error fault) => ({ chain with table := table }, .error (.underflow fault))
  else (chain, .error .outOfTurn)

def advance (chain : LinearRootChain H) (delta : NodeHashDelta H) (newRoot : H) :
    Except (RootChainFault H) (LinearRootChain H × List H) :=
  settled (chain.advanceOn delta newRoot)

end LinearRootChain

/-- How the next root takes over: at once, or with a time in which both roots live. -/
inductive Succession (K V H : Type) where
  | advance (next : HamtNode K V H)
  | transition (next : HamtNode K V H)

def Succession.next : Succession K V H → HamtNode K V H
  | .advance next | .transition next => next

/-- The chain after a call, with the roots that live then, the root that the call retired and the hashes it
    reported. -/
structure ChainState (K V H : Type) where
  chain : LinearRootChain H
  live : List (HamtNode K V H)
  retired : Option (HamtNode K V H)
  zeroed : List H

section

variable [DecidableEq H]

def nodeHashDelta (resolver : Resolver K V H E) (current next : HamtNode K V H) :
    Except (ChainFault E H) (NodeHashDelta H) :=
  match diffNodeHashes resolver current next with
  | .ok delta => .ok delta
  | .error error => .error (.traversal error)

def runChain (resolver : Resolver K V H E) :
    LinearRootChain H → HamtNode K V H → List (Succession K V H) → Except (ChainFault E H) (List (ChainState K V H))
  | _, _, [] => .ok []
  | chain, current, .advance next :: rest => do
    let delta ← nodeHashDelta resolver current next
    let (after, zeroed) ← (chain.advance delta next.structuralHash).mapError .chain
    let later ← runChain resolver after next rest
    return ⟨after, [next], some current, zeroed⟩ :: later
  | chain, current, .transition next :: rest => do
    let delta ← nodeHashDelta resolver current next
    let both ← (chain.transition delta next.structuralHash).mapError .chain
    let (after, zeroed) ← both.retirePrevious.mapError .chain
    let later ← runChain resolver after next rest
    return ⟨both, [next, current], none, []⟩ :: ⟨after, [next], some current, zeroed⟩ :: later

end

section

def RefcountTable.Tracks (table : RefcountTable H) (live : H → Prop) : Prop :=
  ∀ hash, (live hash → table.counts hash = some 1) ∧ (¬live hash → table.counts hash = none)

theorem RefcountTable.Tracks.congr {table : RefcountTable H} {live other : H → Prop} (tracks : table.Tracks live)
    (same : ∀ hash, other hash ↔ live hash) : table.Tracks other := by
  intro hash
  rw [same hash]
  exact tracks hash

theorem RefcountTable.tracks_new : (RefcountTable.new : RefcountTable H).Tracks fun _ => False :=
  fun _ => ⟨False.elim, fun _ => rfl⟩

variable [DecidableEq H]

variable {table : RefcountTable H} {live : H → Prop}

open List

theorem RefcountTable.Tracks.applyNew {hashes : List H}
    (tracks : table.Tracks live) (once : hashes.Nodup) (fresh : ∀ hash ∈ hashes, ¬live hash) :
    (table.applyNew hashes).Tracks fun hash => live hash ∨ hash ∈ hashes := by
  induction hashes generalizing table live with
  | nil => exact tracks.congr fun hash => by simp
  | cons first rest ih =>
    obtain ⟨other, restOnce⟩ := nodup_cons.mp once
    have missing := (tracks first).2 (fresh first (mem_cons_self ..))
    have step : (table.increment first).Tracks fun hash => live hash ∨ hash = first := by
      intro hash
      by_cases same : hash = first
      · subst same
        refine ⟨fun _ => ?_, fun none => (none (.inr rfl)).elim⟩
        simp [RefcountTable.increment, RefcountTable.count, missing, saturatingSucc]
      · have kept : (table.increment first).counts hash = table.counts hash := update_of_ne same ..
        simp only [same, or_false]
        rw [kept]
        exact tracks hash
    refine (ih step restOnce fun hash mem => ?_).congr fun hash => by simp [or_assoc]
    rintro (before | rfl)
    · exact fresh hash (mem_cons_of_mem _ mem) before
    · exact other mem

theorem RefcountTable.Tracks.decrement {hashes zeroed : List H}
    (tracks : table.Tracks live) (once : hashes.Nodup) (held : ∀ hash ∈ hashes, live hash) :
    ∃ after, hashes.foldl RefcountTable.decrement (table, zeroed) = (after, zeroed ++ hashes) ∧
      after.Tracks fun hash => live hash ∧ hash ∉ hashes := by
  induction hashes generalizing table live zeroed with
  | nil => exact ⟨table, by simp, tracks.congr fun hash => by simp⟩
  | cons first rest ih =>
    obtain ⟨other, restOnce⟩ := nodup_cons.mp once
    have found := (tracks first).1 (held first (mem_cons_self ..))
    have step : (⟨update table.counts first none⟩ : RefcountTable H).Tracks fun hash => live hash ∧ hash ≠ first := by
      intro hash
      by_cases same : hash = first
      · subst same
        exact ⟨fun gone => (gone.2 rfl).elim, fun _ => Function.update_self ..⟩
      · have kept : update table.counts first none hash = table.counts hash := update_of_ne same ..
        simp only [ne_eq, same, not_false_eq_true, and_true]
        rw [kept]
        exact tracks hash
    obtain ⟨after, run, final⟩ := @ih _ _ (zeroed ++ [first]) step restOnce fun hash mem =>
      ⟨held hash (mem_cons_of_mem _ mem), fun same => other (same ▸ mem)⟩
    refine ⟨after, ?_, final.congr fun hash => by simp [and_assoc]⟩
    rw [append_cons, ← run, foldl_cons]
    simp [RefcountTable.decrement, found]

theorem RefcountTable.Tracks.applySupersededOn (tracks : table.Tracks live) (once : hashes.Nodup)
    (held : ∀ hash ∈ hashes, live hash) : ∃ after, table.applySupersededOn hashes = (after, .ok hashes) ∧
      after.Tracks fun hash => live hash ∧ hash ∉ hashes := by
  obtain ⟨after, run, final⟩ := @RefcountTable.Tracks.decrement H _ table live hashes [] tracks once held
  refine ⟨after, ?_, final⟩
  have requested : (RefcountTable.new.bootstrap hashes : RefcountTable H).Tracks fun hash => False ∨ hash ∈ hashes :=
    RefcountTable.tracks_new.applyNew once fun _ _ => not_false
  have affordable : (hashes.find? fun hash =>
      table.count hash < (RefcountTable.new.bootstrap hashes).count hash) = none := by
    rw [find?_eq_none]
    intro hash mem
    have counted := (tracks hash).1 (held hash mem)
    have need := (requested hash).1 (.inr mem)
    simp [RefcountTable.count, counted, need]
  rw [RefcountTable.applySupersededOn, affordable, run]
  rfl

end

variable {hasher : Hasher K V H} {keyHash : K → KeyPathHash} {resolver : Resolver K V H E}

def IsHamt (hasher : Hasher K V H) (keyHash : K → KeyPathHash) (resolver : Resolver K V H E)
    (root : HamtNode K V H) : Prop :=
  ∃ entries, Holds hasher keyHash resolver hamtMaxDepth root entries ∧ Spread keyHash hamtMaxDepth entries

def RootsApart (resolver : Resolver K V H E) (roots : List (HamtNode K V H)) : Prop :=
  ∀ left right, (∃ root ∈ roots, Reaches resolver root left) → (∃ root ∈ roots, Reaches resolver root right) →
    left.structuralHash = right.structuralHash → SameContents left right

theorem RootsApart.collisionFree (apart : RootsApart resolver roots) :
    CollisionFree resolver fun node => ∃ root ∈ roots, Reaches resolver root node where
  below := by
    rintro node ⟨root, mem, reaches⟩ target below
    exact ⟨root, mem, reaches.trans below⟩
  apart := apart

theorem IsHamt.hashed (hamt : IsHamt hasher keyHash resolver root) (reaches : Reaches resolver root node) :
    node.structuralHash = computeStructuralHash hasher node.datamap node.nodemap node.leaves node.children := by
  obtain ⟨entries, holds, spread⟩ := hamt
  obtain ⟨levels, part, partHolds, -⟩ := holds.reached spread reaches
  cases levels with
  | zero => exact partHolds.elim
  | succ levels =>
    obtain ⟨leafSlots, childSlots, packed, -⟩ := partHolds
    exact packed.hash

theorem RootsApart.of_injective
    (injective : ∀ {d n l c d' n' l' c'}, hasher d n l c = hasher d' n' l' c' → d = d' ∧ n = n' ∧ l = l' ∧ c = c')
    (hamts : ∀ root ∈ roots, IsHamt hasher keyHash resolver root) : RootsApart resolver roots := by
  rintro left right ⟨root, mem, reaches⟩ ⟨otherRoot, otherMember, otherReaches⟩ same
  rw [(hamts root mem).hashed reaches, (hamts otherRoot otherMember).hashed otherReaches] at same
  obtain ⟨datamap, nodemap, leaves, children⟩ := injective same
  exact ⟨datamap, nodemap, leaves, children⟩

theorem buildHamt_isHamt (spread : Spread keyHash hamtMaxDepth entries) :
    ∃ root, buildHamt hasher keyHash entries = .ok root ∧ IsHamt hasher keyHash noStore root := by
  obtain ⟨root, built, holds⟩ := buildHamt_holds spread
  exact ⟨root, built, entries, holds, spread⟩

/-- What the chain guarantees after a call: the counts are those of the live roots, and what the call reported
    belonged to the retired root alone. -/
structure ChainState.Exact (resolver : Resolver K V H E) (state : ChainState K V H) : Prop where
  counts : state.chain.table.Tracks fun hash => ∃ root ∈ state.live, ReachesHash resolver root hash
  zeroed : ∀ hash, hash ∈ state.zeroed ↔ ∃ retired ∈ state.retired, ReachesHash resolver retired hash ∧
    ∀ root ∈ state.live, ¬ReachesHash resolver root hash
  once : state.zeroed.Nodup

variable [DecidableEq H]

theorem nodeHashDelta_spec {play : HamtNode K V H → Prop} (free : CollisionFree resolver play)
    (inCurrent : play current) (inNext : play next) (currentHamt : IsHamt hasher keyHash resolver current)
    (nextHamt : IsHamt hasher keyHash resolver next) : ∃ delta, nodeHashDelta resolver current next = .ok delta ∧
      delta.Between (ReachesHash resolver current) (ReachesHash resolver next) := by
  obtain ⟨entries, holds, spread⟩ := currentHamt
  obtain ⟨otherEntries, otherHolds, otherSpread⟩ := nextHamt
  obtain ⟨delta, run, between⟩ :=
    diffNodeHashesRec_spec free hamtMaxDepth inCurrent inNext holds otherHolds spread otherSpread
  refine ⟨delta, ?_, between⟩
  rw [nodeHashDelta, diffNodeHashes, run]

/-- The delta of two tries lists each hash that only one of them has, wherever equal subtrees stand. -/
theorem diffNodeHashes_exact (rootA rootB : HamtNode K V H) (hamtA : IsHamt hasher keyHash resolver rootA)
    (hamtB : IsHamt hasher keyHash resolver rootB) (apart : RootsApart resolver [rootA, rootB]) :
    ∃ delta, diffNodeHashes resolver rootA rootB = .ok delta ∧
      (∀ hash, hash ∈ delta.newNodeHashes ↔ ReachesHash resolver rootB hash ∧ ¬ReachesHash resolver rootA hash) ∧
      (∀ hash, hash ∈ delta.supersededNodeHashes ↔
        ReachesHash resolver rootA hash ∧ ¬ReachesHash resolver rootB hash) ∧
      delta.newNodeHashes.Nodup ∧ delta.supersededNodeHashes.Nodup := by
  obtain ⟨entries, holds, spread⟩ := hamtA
  obtain ⟨otherEntries, otherHolds, otherSpread⟩ := hamtB
  obtain ⟨delta, run, between⟩ := diffNodeHashesRec_spec apart.collisionFree hamtMaxDepth
    ⟨rootA, by simp, .self rootA⟩ ⟨rootB, by simp, .self rootB⟩ holds otherHolds spread otherSpread
  exact ⟨delta, run, between.new, between.superseded, between.newOnce, between.supersededOnce⟩

section

variable {chain : LinearRootChain H} {current next : HamtNode K V H} {delta : NodeHashDelta H}
  (idle : chain.pendingRetirement = none) (tracks : chain.table.Tracks (ReachesHash resolver current))
  (between : delta.Between (ReachesHash resolver current) (ReachesHash resolver next))

include idle tracks between

theorem LinearRootChain.advance_exact : ∃ after, chain.advance delta next.structuralHash = .ok (after, delta.supersededNodeHashes) ∧
      after.pendingRetirement = none ∧ after.table.Tracks (ReachesHash resolver next) := by
  obtain ⟨table, run, left⟩ := tracks.applySupersededOn between.supersededOnce
    fun hash mem => ((between.superseded hash).mp mem).1
  have both := left.applyNew between.newOnce fun hash mem before => ((between.new hash).mp mem).2 before.1
  refine ⟨⟨table.applyNew delta.newNodeHashes, some next.structuralHash, none⟩, ?_, rfl, both.congr fun hash => ?_⟩
  · rw [LinearRootChain.advance, advanceOn, idle, run]
    rfl
  · rw [between.superseded, between.new]
    tauto

theorem LinearRootChain.transition_exact :
    ∃ both after, chain.transition delta next.structuralHash = .ok both ∧
      both.table.Tracks (fun hash => ReachesHash resolver next hash ∨ ReachesHash resolver current hash) ∧
      both.retirePrevious = .ok (after, delta.supersededNodeHashes) ∧
      after.pendingRetirement = none ∧ after.table.Tracks (ReachesHash resolver next) := by
  have grown := tracks.applyNew between.newOnce fun hash mem before => ((between.new hash).mp mem).2 before
  obtain ⟨table, run, left⟩ := grown.applySupersededOn between.supersededOnce
    fun hash mem => .inl ((between.superseded hash).mp mem).1
  refine ⟨⟨chain.table.applyNew delta.newNodeHashes, some next.structuralHash, some delta.supersededNodeHashes⟩,
    ⟨table, some next.structuralHash, none⟩, ?_, grown.congr fun hash => ?_, ?_, rfl, left.congr fun hash => ?_⟩
  · rw [LinearRootChain.transition, transitionOn, idle]
    rfl
  · rw [between.new]
    tauto
  · rw [LinearRootChain.retirePrevious, retirePreviousOn]
    dsimp only
    rw [run]
    rfl
  · rw [between.superseded, between.new]
    tauto

end

omit [DecidableEq H] in
theorem zeroed_exact {delta : NodeHashDelta H} (chain : LinearRootChain H)
    (tracks : chain.table.Tracks (ReachesHash resolver next))
    (between : delta.Between (ReachesHash resolver current) (ReachesHash resolver next)) :
    ChainState.Exact resolver ⟨chain, [next], some current, delta.supersededNodeHashes⟩ where
  counts := tracks.congr fun hash => by simp
  zeroed hash := by simp [between.superseded]
  once := between.supersededOnce

theorem runChain_exact (free : RootsApart resolver roots)
    (hamts : ∀ root ∈ roots, IsHamt hasher keyHash resolver root) (inRoots : current ∈ roots)
    (nexts : ∀ succession ∈ successions, succession.next ∈ roots) (idle : chain.pendingRetirement = none)
    (tracks : chain.table.Tracks (ReachesHash resolver current)) :
    ∃ states, runChain resolver chain current successions = .ok states ∧ ∀ state ∈ states, state.Exact resolver := by
  induction successions generalizing chain current with
  | nil => exact ⟨[], rfl, fun state mem => by cases mem⟩
  | cons succession rest ih =>
    have inNext := nexts succession (List.mem_cons_self ..)
    have later := fun other mem => nexts other (List.mem_cons_of_mem _ mem)
    obtain ⟨delta, diff, between⟩ := nodeHashDelta_spec free.collisionFree ⟨current, inRoots, .self current⟩
      ⟨_, inNext, .self succession.next⟩ (hamts current inRoots) (hamts _ inNext)
    cases succession with
    | advance next =>
      change next ∈ roots at inNext
      change nodeHashDelta resolver current next = _ at diff
      change delta.Between _ (ReachesHash resolver next) at between
      obtain ⟨after, run, afterIdle, afterTracks⟩ := LinearRootChain.advance_exact idle tracks between
      obtain ⟨states, more, exact⟩ := ih inNext later afterIdle afterTracks
      refine ⟨_, ?_, List.forall_mem_cons.mpr ⟨zeroed_exact after afterTracks between, exact⟩⟩
      rw [runChain]
      simp only [bind, Except.bind, Except.mapError, diff, run, more]
      rfl
    | transition next =>
      change next ∈ roots at inNext
      change nodeHashDelta resolver current next = _ at diff
      change delta.Between _ (ReachesHash resolver next) at between
      obtain ⟨both, after, run, bothTracks, retire, afterIdle, afterTracks⟩ :=
        LinearRootChain.transition_exact idle tracks between
      obtain ⟨states, more, exact⟩ := ih inNext later afterIdle afterTracks
      have shared : ChainState.Exact resolver ⟨both, [next, current], none, []⟩ :=
        ⟨bothTracks.congr fun hash => by simp, fun hash => by simp, List.nodup_nil⟩
      refine ⟨_, ?_, List.forall_mem_cons.mpr ⟨shared, List.forall_mem_cons.mpr
        ⟨zeroed_exact after afterTracks between, exact⟩⟩⟩
      rw [runChain]
      simp only [bind, Except.bind, Except.mapError, diff, run, retire, more]
      rfl

/-- At every moment the counts are those of the live roots, and a hash is reported exactly when the retired root had
    it and no live root has it. -/
theorem linearRootChain_safe (root : HamtNode K V H) (successions : List (Succession K V H))
    (hamts : ∀ node ∈ root :: successions.map Succession.next, IsHamt hasher keyHash resolver node)
    (apart : RootsApart resolver (root :: successions.map Succession.next)) :
    ∃ hashes states, reachableNodeHashes resolver root = .ok hashes ∧
      (LinearRootChain.bootstrap hashes root.structuralHash).table.Tracks (ReachesHash resolver root) ∧
      runChain resolver (.bootstrap hashes root.structuralHash) root successions = .ok states ∧
      ∀ state ∈ states, state.Exact resolver := by
  have first := List.mem_cons_self (a := root) (l := successions.map Succession.next)
  obtain ⟨entries, holds, spread⟩ := hamts root first
  obtain ⟨hashes, walk, reached, once⟩ :=
    reachableHashesFrom_spec apart.collisionFree ⟨root, first, .self root⟩ holds spread
  have tracks : (LinearRootChain.bootstrap hashes root.structuralHash).table.Tracks (ReachesHash resolver root) :=
    (RefcountTable.tracks_new.applyNew once fun _ _ => not_false).congr fun hash => by simp [reached]
  obtain ⟨states, run, exact⟩ := runChain_exact apart hamts first
    (fun succession member => List.mem_cons_of_mem _ (List.mem_map_of_mem member)) rfl tracks
  exact ⟨hashes, states, walk, tracks, run, exact⟩

theorem Sample.digest_injective {d n l c d' n' l' c'} (same : Digest.digest d n l c = Digest.digest d' n' l' c') :
    d = d' ∧ n = n' ∧ l = l' ∧ c = c' := Digest.digest.inj same

theorem Sample.exists_byteHamts (left right : List (UInt8 × Nat)) (distinctLeft : (left.map Prod.fst).Nodup)
    (distinctRight : (right.map Prod.fst).Nodup) :
    ∃ first second, buildHamt Digest.digest byteHash left = .ok first ∧
      buildHamt Digest.digest byteHash right = .ok second ∧ IsHamt Digest.digest byteHash noStore first ∧
      IsHamt Digest.digest byteHash noStore second ∧ RootsApart noStore [first, second] := by
  have apart : ∀ key other, byteHash key = byteHash other → key = other := fun _ _ same => byteHash_injective same
  obtain ⟨first, built, firstHamt⟩ := buildHamt_isHamt (.root distinctLeft fun _ _ _ _ => apart _ _)
  obtain ⟨second, rebuilt, secondHamt⟩ := buildHamt_isHamt (.root distinctRight fun _ _ _ _ => apart _ _)
  exact ⟨first, second, built, rebuilt, firstHamt, secondHamt,
    .of_injective digest_injective (List.forall_mem_cons.mpr ⟨firstHamt, List.forall_mem_singleton.mpr secondHamt⟩)⟩

open Sample Classical in
theorem linearRootChain_safe_return :
    ∃ first second hashes states, buildHamt Digest.digest byteHash [(1, 10), (33, 30)] = .ok first ∧
      buildHamt Digest.digest byteHash [(1, 10)] = .ok second ∧
      reachableNodeHashes noStore first = .ok hashes ∧
      runChain noStore (.bootstrap hashes first.structuralHash) first [.advance second, .transition first] =
        .ok states ∧
      ∀ state ∈ states, state.Exact noStore := by
  obtain ⟨first, second, built, rebuilt, firstHamt, secondHamt, -⟩ :=
    exists_byteHamts [(1, 10), (33, 30)] [(1, 10)] (by decide) (by decide)
  have hamts : ∀ node ∈ first :: [Succession.advance second, .transition first].map Succession.next,
      IsHamt Digest.digest byteHash noStore node := by
    simp [Succession.next, firstHamt, secondHamt]
  obtain ⟨hashes, states, walk, -, run, exact⟩ :=
    linearRootChain_safe first [.advance second, .transition first] hamts (.of_injective digest_injective hamts)
  exact ⟨first, second, hashes, states, built, rebuilt, walk, run, exact⟩

open Sample Classical in
theorem diffNodeHashes_exact_grown :
    ∃ first second delta, buildHamt Digest.digest byteHash [(1, 10)] = .ok first ∧
      buildHamt Digest.digest byteHash [(1, 10), (33, 30)] = .ok second ∧
      diffNodeHashes noStore first second = .ok delta ∧
      (∀ hash, hash ∈ delta.newNodeHashes ↔ ReachesHash noStore second hash ∧ ¬ReachesHash noStore first hash) ∧
      (∀ hash, hash ∈ delta.supersededNodeHashes ↔
        ReachesHash noStore first hash ∧ ¬ReachesHash noStore second hash) ∧
      delta.newNodeHashes.Nodup ∧ delta.supersededNodeHashes.Nodup := by
  obtain ⟨first, second, built, rebuilt, firstHamt, secondHamt, apart⟩ :=
    exists_byteHamts [(1, 10)] [(1, 10), (33, 30)] (by decide) (by decide)
  obtain ⟨delta, run, exact⟩ := diffNodeHashes_exact first second firstHamt secondHamt apart
  exact ⟨first, second, delta, built, rebuilt, run, exact⟩

end Rezzy.Hamt
