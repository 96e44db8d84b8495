import Rezzy.Resolve.ReachabilityIndex

namespace Rezzy.Resolve

open Basespec Auth State Permuted Worklist
open Worklist (offer outstanding)

variable {Id C : Type}

section

variable [DecidableEq Id]

def knownPositions (items candidates : List Id) : List Nat :=
  (List.range candidates.length).filter fun p => candidates[p]?.any (· ∈ items)

structure QuerySpec (items : List Id) (nodeCount : Nat) (candidates : List Id) (query : CandidateQuery) :
    Prop where
  count : query.candidateCount = candidates.length
  slots : query.candidatePositions.length = nodeCount
  known : query.knownCandidatePositionCount = (knownPositions items candidates).length
  positions : ∀ idx p, p ∈ query.positionsAt idx ↔
    ∃ id, candidates[p]? = some id ∧ items.idxOf? id = some idx
  nodup : ∀ idx, (query.positionsAt idx).Nodup

open List

theorem knownPositions_snoc (items candidates : List Id) (last : Id) : knownPositions items (candidates ++ [last]) =
      knownPositions items candidates ++ if last ∈ items then [candidates.length] else [] := by
  unfold knownPositions
  rw [length_append, length_singleton, range_succ, filter_append]
  congr 1
  · apply filter_congr
    intro _ mem
    rw [getElem?_append_left (mem_range.mp mem)]
  · by_cases mem : last ∈ items <;> simp [mem]

variable {index : RangePrefilterReachability Id} {candidates : List Id} {query : CandidateQuery}

section

variable (length : index.childrenByIndex.length = index.items.length)
include length

theorem collectCandidate_positionsAt
    (slots : query.candidatePositions.length = index.childrenByIndex.length) (candidate : Id × Nat) (idx : Nat) :
    (index.collectCandidate query candidate).positionsAt idx =
      query.positionsAt idx ++ if index.items.idxOf? candidate.1 = some idx then [candidate.2] else [] := by
  unfold RangePrefilterReachability.collectCandidate
  cases found : index.items.idxOf? candidate.1 with
  | none => simp [CandidateQuery.positionsAt]
  | some candidateIdx =>
    have bound : candidateIdx < query.candidatePositions.length := by
      rw [slots, length]
      exact (idxOf?_eq_some_iff.mp found).1
    unfold CandidateQuery.positionsAt
    rw [getD_set_eq bound]
    by_cases here : idx = candidateIdx
    · simp [here]
    · simp [here, Ne.symm here]

theorem QuerySpec.collectCandidate
    (spec : QuerySpec index.items index.childrenByIndex.length candidates query) (last : Id) :
    QuerySpec index.items index.childrenByIndex.length (candidates ++ [last])
      (index.collectCandidate query (last, candidates.length)) := by
  have positionsAt := collectCandidate_positionsAt length spec.slots (last, candidates.length)
  refine ⟨?_, ?_, ?_, fun idx p => ?_, fun idx => ?_⟩
  · unfold RangePrefilterReachability.collectCandidate
    split <;> simp
  · unfold RangePrefilterReachability.collectCandidate
    split <;> simpa using spec.slots
  · rw [knownPositions_snoc, length_append, ← spec.known]
    unfold RangePrefilterReachability.collectCandidate
    cases found : index.items.idxOf? last with
    | none => simp [idxOf?_eq_none_iff.mp found]
    | some candidateIdx =>
      have mem : last ∈ index.items := isSome_idxOf?.mp (by simp [found])
      simp [mem]
  · rw [positionsAt, mem_append, spec.positions]
    constructor
    · rintro (⟨id, there, known⟩ | added)
      · exact ⟨id, getElem?_snoc.mpr (.inl there), known⟩
      · split at added
        · rename_i found
          exact ⟨last, getElem?_snoc.mpr (.inr ⟨mem_singleton.mp added, rfl⟩), found⟩
        · cases added
    · rintro ⟨id, there, known⟩
      rcases getElem?_snoc.mp there with old | ⟨rfl, rfl⟩
      · exact .inl ⟨id, old, known⟩
      · exact .inr (by simp [known])
  · rw [positionsAt]
    refine (spec.nodup idx).append (by split <;> simp) fun p old new => ?_
    split at new
    · obtain ⟨id, there, _⟩ := (spec.positions idx p).mp old
      rw [mem_singleton.mp new] at there
      simp at there
    · cases new

theorem collectCandidates_spec (candidates : List Id) :
    QuerySpec index.items index.childrenByIndex.length candidates (index.collectCandidates candidates) := by
  unfold RangePrefilterReachability.collectCandidates
  induction candidates using reverseRecOn with
  | nil =>
    have empty : ∀ idx, CandidateQuery.positionsAt
        ⟨0, 0, 0, replicate index.childrenByIndex.length [], none, none⟩ idx = [] := by
      intro idx
      simp only [CandidateQuery.positionsAt, getD_eq_getElem?_getD, getElem?_replicate]
      split <;> rfl
    exact ⟨rfl, by simp, rfl, fun idx p => by simp [empty], fun idx => by simp [empty]⟩
  | append_singleton candidates last ih =>
    rw [zipIdx_append, foldl_append]
    simp only [zipIdx_cons, zipIdx_nil, foldl_cons, foldl_nil, Nat.zero_add]
    exact ih.collectCandidate length last

end

theorem QuerySpec.bound (spec : QuerySpec items nodeCount candidates query) (found : List Nat)
    (distinct : found.Nodup) (known : ∀ p ∈ found, ∃ idx, p ∈ query.positionsAt idx) :
    found.length ≤ query.knownCandidatePositionCount ∧ (found.length = query.knownCandidatePositionCount →
        ∀ idx, ∀ p ∈ query.positionsAt idx, p ∈ found) := by
  have listed : ∀ idx, ∀ p ∈ query.positionsAt idx, p ∈ knownPositions items candidates := by
    intro idx p mem
    obtain ⟨id, there, here⟩ := (spec.positions idx p).mp mem
    have inItems : id ∈ items := isSome_idxOf?.mp (by simp [here])
    refine mem_filter.mpr ⟨mem_range.mpr (List.getElem?_eq_some_iff.mp there).1, ?_⟩
    simp [there, inItems]
  have subperm := subperm_of_subset distinct fun p mem =>
    (known p mem).elim fun idx here => listed idx p here
  rw [spec.known]
  refine ⟨subperm.length_le, fun full idx p mem => ?_⟩
  exact (subperm.perm_of_length_le full.symm.le).mem_iff.mpr (listed idx p mem)

end

open Worklist (Reached FrontierInv)

variable {index : RangePrefilterReachability Id} {query : CandidateQuery} {seeds : List Nat}

structure Traversing (index : RangePrefilterReachability Id) (query : CandidateQuery) (seeds : List Nat)
    (s : CandidateTraversal) : Prop where
  frontier : FrontierInv index.keep index.children seeds s.frontier
  seeded : ∀ x ∈ seeds, x ∈ s.frontier.marked
  found : ∀ p ∈ s.found, ∃ x, Reached index.children seeds x ∧ p ∈ query.positionsAt x
  distinct : s.found.Nodup
  count : s.remainingKnownCandidates + s.found.length = query.knownCandidatePositionCount
  halts : s.halted = true → s.remainingKnownCandidates = 0

theorem Traversing.marked (inv : Traversing index query seeds s) (mem : x ∈ s.frontier.marked) :
    Reached index.children seeds x := keptNext_children index ▸ inv.frontier.sound x mem

theorem traversing_initial (index : RangePrefilterReachability Id) (query : CandidateQuery) (seeds : List Nat)
    (remainingCandidates : List Nat) :
    Traversing index query seeds ⟨[], seeds.foldl (offer index.keep) ⟨[], []⟩,
      query.knownCandidatePositionCount, remainingCandidates, false⟩ where
  frontier := offers_invariant index.keep index.children seeds seeds _ ⟨by simp, by simp, by simp, by simp⟩
    fun _ member => .seed member
  seeded x member := (offers_marked index.keep _ _ x).mpr (.inr member)
  found := by simp
  distinct := by simp
  count := by simp
  halts := by simp

variable {s t : CandidateTraversal}

def turnOffers (index : RangePrefilterReachability Id) (mode : TraversalMode) (curr : Nat)
    (remainingCandidates : List Nat) : List Nat :=
  match mode with
  | .rangePruned => (index.children curr).filter fun child =>
    let range := index.descendantRanges.getD child (0, 0)
    remainingCandidates.any fun candidate => range.1 ≤ candidate && candidate ≤ range.2
  | .plainIndexedBfs | .segmentJumps => index.children curr

structure CandidateStep (index : RangePrefilterReachability Id) (query : CandidateQuery) (mode : TraversalMode)
    (s t : CandidateTraversal) (curr : Nat) (rest : List Nat) : Prop where
  running : s.halted = false
  popped : s.frontier.pending = curr :: rest
  found : t.found = s.found ++ (query.positionsAt curr).filter (· ∉ s.found)
  remaining : t.remainingKnownCandidates =
    s.remainingKnownCandidates - ((query.positionsAt curr).filter (· ∉ s.found)).length
  candidates : t.remainingCandidates =
    if query.positionsAt curr ≠ [] then s.remainingCandidates.filter (· ≠ curr) else s.remainingCandidates
  halted : t.halted = true ↔ t.remainingKnownCandidates = 0
  frontier : t.frontier = (if t.halted then [] else turnOffers index mode curr t.remainingCandidates).foldl
    (offer index.keep) ⟨s.frontier.marked, rest⟩

theorem candidateTurn_step (turn : index.candidateTurn query mode s = some t) :
    ∃ curr rest, CandidateStep index query mode s t curr rest := by
  unfold RangePrefilterReachability.candidateTurn at turn
  cases running : s.halted with
  | true => simp [running] at turn
  | false =>
    rw [if_neg (by simp [running])] at turn
    cases popped : s.frontier.pending with
    | nil => simp [popped] at turn
    | cons curr rest =>
      rw [popped] at turn
      dsimp only at turn
      refine ⟨curr, rest, ?_⟩
      by_cases halts : s.remainingKnownCandidates - ((query.positionsAt curr).filter (· ∉ s.found)).length = 0
      · rw [if_pos (decide_eq_true halts)] at turn
        obtain rfl := Option.some.inj turn
        refine ⟨running, popped, rfl, rfl, rfl, by simp, ?_⟩
        rw [if_pos (decide_eq_true halts)]
        rfl
      · rw [if_neg (by simpa using halts)] at turn
        obtain rfl := Option.some.inj turn
        refine ⟨running, popped, rfl, rfl, rfl, by simp, ?_⟩
        rw [decide_eq_false halts]
        cases mode <;> rfl

theorem turnOffers_subset (offered : child ∈ turnOffers index mode curr remainingCandidates) :
    child ∈ index.children curr := by
  unfold turnOffers at offered
  split at offered
  · exact List.mem_of_mem_filter offered
  · exact offered
  · exact offered

theorem offers_decrease (index : RangePrefilterReachability Id) (popped : before.pending = curr :: rest)
    (offers : List Nat) (frontier : after = offers.foldl (offer index.keep) ⟨before.marked, rest⟩) :
    outstanding (List.range index.childrenByIndex.length) after <
      outstanding (List.range index.childrenByIndex.length) before := by
  have offered := Worklist.offers_outstanding index.keep (List.range index.childrenByIndex.length)
    (fun x kept => List.mem_range.mpr (of_decide_eq_true kept)) offers ⟨before.marked, rest⟩
  rw [← frontier] at offered
  simp only [outstanding, popped, List.length_cons] at offered ⊢
  omega

def Swept (index : RangePrefilterReachability Id) (query : CandidateQuery) (s : CandidateTraversal) : Prop :=
  s.halted = true ∨ ∀ x ∈ s.frontier.marked, x ∈ s.frontier.pending ∨
    (∀ p ∈ query.positionsAt x, p ∈ s.found) ∧ ∀ y ∈ index.children x, y ∈ s.frontier.marked

theorem CandidateStep.found_here (step : CandidateStep index query mode s t curr rest)
    (here : p ∈ query.positionsAt curr) : p ∈ t.found := by
  rw [step.found, List.mem_append, List.mem_filter]
  by_cases old : p ∈ s.found
  · exact .inl old
  · exact .inr ⟨here, decide_eq_true old⟩

theorem CandidateStep.swept (step : CandidateStep index query .plainIndexedBfs s t curr rest)
    (inside : ∀ idx, ∀ child ∈ index.children idx, index.keep child = true) (swept : Swept index query s) :
    Swept index query t := by
  rcases swept with halted | swept
  · rw [step.running] at halted
    cases halted
  · by_cases halted : t.halted = true
    · exact .inl halted
    · right
      have frontier := step.frontier
      rw [if_neg halted] at frontier
      have offers : turnOffers index .plainIndexedBfs curr t.remainingCandidates = index.children curr := rfl
      intro x mem
      rw [frontier, offers_marked, offers] at mem
      rw [frontier, offers]
      by_cases old : x ∈ s.frontier.marked
      · rcases swept x old with waiting | ⟨found, marked⟩
        · rw [step.popped] at waiting
          rcases List.mem_cons.mp waiting with rfl | waiting
          · exact .inr ⟨fun p here => step.found_here here, fun y edge =>
              (offers_marked _ _ _ y).mpr (.inr edge)⟩
          · exact .inl (offers_keep_pending _ _ _ x waiting)
        · refine .inr ⟨fun p here => ?_, fun y edge => ?_⟩
          · rw [step.found]
            exact List.mem_append_left _ (found p here)
          · exact (offers_marked _ _ _ y).mpr (.inl (marked y edge))
      · have new := mem.resolve_left old
        exact .inl (offers_pending _ _ _ x old new (inside curr x new))

def Tracks (query : CandidateQuery) (s : CandidateTraversal) : Prop :=
  ∀ c, c ∈ s.remainingCandidates ↔ query.positionsAt c ≠ [] ∧ ¬∀ p ∈ query.positionsAt c, p ∈ s.found

def Fronted (index : RangePrefilterReachability Id) (s : CandidateTraversal) : Prop :=
  ∀ x ∈ s.frontier.marked, ∀ c ∈ s.remainingCandidates, LeadsTo index.childrenByIndex x c →
    ∃ q ∈ s.frontier.pending, LeadsTo index.childrenByIndex x q ∧ LeadsTo index.childrenByIndex q c

theorem Fronted.advance (topological : Topological index.childrenByIndex) (fronted : Fronted index s)
    (popped : s.frontier.pending = curr :: rest) (offers : List Nat)
    (frontier : t.frontier = offers.foldl (offer index.keep) ⟨s.frontier.marked, rest⟩)
    (kept : ∀ y ∈ offers, index.keep y = true) (fewer : ∀ c ∈ t.remainingCandidates, c ∈ s.remainingCandidates)
    (ahead : ∀ c ∈ t.remainingCandidates, LeadsTo index.childrenByIndex curr c →
      ∃ y, LeadsTo index.childrenByIndex curr y ∧ LeadsTo index.childrenByIndex y c ∧ curr < y ∧
        (y ∈ offers ∨ y ∈ s.frontier.marked)) : Fronted index t := by
  intro x mem c remaining leads
  rw [frontier, offers_marked] at mem
  rw [frontier]
  by_cases old : x ∈ s.frontier.marked
  · obtain ⟨q, waiting, toQ, fromQ⟩ := fronted x old c (fewer c remaining) leads
    rw [popped] at waiting
    rcases List.mem_cons.mp waiting with rfl | waiting
    · obtain ⟨y, toY, fromY, beyond, known⟩ := ahead c remaining fromQ
      by_cases marked : y ∈ s.frontier.marked
      · obtain ⟨next, waitingNext, toNext, fromNext⟩ := fronted y marked c (fewer c remaining) fromY
        rw [popped] at waitingNext
        have later : q ≠ next := Nat.ne_of_lt (Nat.lt_of_lt_of_le beyond (toNext.le topological))
        have kept := (List.mem_cons.mp waitingNext).resolve_left (Ne.symm later)
        exact ⟨next, offers_keep_pending _ _ _ next kept, (toQ.trans toY).trans toNext, fromNext⟩
      · have offered := known.resolve_right marked
        exact ⟨y, offers_pending _ _ _ y marked offered (kept y offered), toQ.trans toY, fromY⟩
    · exact ⟨q, offers_keep_pending _ _ _ q waiting, toQ, fromQ⟩
  · have new := mem.resolve_left old
    exact ⟨x, offers_pending _ _ _ x old new (kept x new), .refl, leads⟩

theorem offered_of_covering (covering : Covering index.childrenByIndex index.descendantRanges child)
    (edge : child ∈ index.children curr) (remaining : c ∈ remainingCandidates)
    (leads : LeadsTo index.childrenByIndex child c) :
    child ∈ turnOffers index .rangePruned curr remainingCandidates := by
  refine List.mem_filter.mpr ⟨edge, List.any_eq_true.mpr ⟨c, remaining, ?_⟩⟩
  simpa using covering c leads

variable [DecidableEq Id] {items candidates : List Id} {nodeCount : Nat}

section

variable (spec : QuerySpec items nodeCount candidates query) (inv : Traversing index query seeds s)
include spec inv

theorem Traversing.advance (fresh : List Nat) (distinct : fresh.Nodup) (new : ∀ p ∈ fresh, p ∉ s.found)
    (reached : ∀ p ∈ fresh, ∃ x, Reached index.children seeds x ∧ p ∈ query.positionsAt x)
    (found : t.found = s.found ++ fresh)
    (remaining : t.remainingKnownCandidates = s.remainingKnownCandidates - fresh.length)
    (halts : t.halted = true → t.remainingKnownCandidates = 0)
    (frontier : FrontierInv index.keep index.children seeds t.frontier)
    (marked : ∀ x ∈ s.frontier.marked, x ∈ t.frontier.marked) : Traversing index query seeds t := by
  have allFound : ∀ p ∈ t.found, ∃ x, Reached index.children seeds x ∧ p ∈ query.positionsAt x := by
    intro p mem
    rw [found] at mem
    exact (List.mem_append.mp mem).elim (inv.found p) (reached p)
  have allDistinct : t.found.Nodup := by
    rw [found]
    exact inv.distinct.append distinct fun p old fresh => new p fresh old
  refine ⟨frontier, fun x mem => marked x (inv.seeded x mem), allFound, allDistinct, ?_, halts⟩
  have bound := (spec.bound _ allDistinct fun p mem => (allFound p mem).imp fun _ both => both.2).1
  have count := inv.count
  rw [found, List.length_append] at bound ⊢
  omega

theorem Traversing.outcome (complete : s.halted = true ∨
      ∀ x, Reached index.children seeds x → ∀ p ∈ query.positionsAt x, p ∈ s.found) (p : Nat) :
    p ∈ RangePrefilterReachability.collectReachablePositions query s.found ↔
      ∃ x, Reached index.children seeds x ∧ p ∈ query.positionsAt x := by
  have full := (spec.bound _ inv.distinct fun p mem => (inv.found p mem).imp fun _ both => both.2).2
  unfold RangePrefilterReachability.collectReachablePositions
  rw [List.mem_filter, List.mem_range, spec.count, decide_eq_true_eq]
  constructor
  · exact fun ⟨_, mem⟩ => inv.found p mem
  · rintro ⟨x, reached, here⟩
    obtain ⟨id, there, _⟩ := (spec.positions x p).mp here
    refine ⟨(List.getElem?_eq_some_iff.mp there).1, ?_⟩
    rcases complete with halted | all
    · have count := inv.count
      rw [inv.halts halted, Nat.zero_add] at count
      exact full count x p here
    · exact all x reached p here

end

theorem CandidateStep.traversing (step : CandidateStep index query mode s t curr rest)
    (spec : QuerySpec items nodeCount candidates query) (inv : Traversing index query seeds s) :
    Traversing index query seeds t := by
  have here := inv.marked (inv.frontier.waiting curr (by simp [step.popped])).1
  refine inv.advance spec _ ((spec.nodup curr).filter _) (fun p mem => ?_) (fun p mem => ?_) step.found
    step.remaining step.halted.mp ?_ fun x mem => ?_
  · exact of_decide_eq_true (List.mem_filter.mp mem).2
  · exact ⟨curr, here, List.mem_of_mem_filter mem⟩
  · rw [step.frontier]
    refine offers_invariant _ _ _ _ _ (inv.frontier.pop (.of_eq step.popped)) fun y offered => ?_
    rw [keptNext_children]
    split at offered
    · cases offered
    · exact here.step (turnOffers_subset offered)
  · rw [step.frontier]
    exact (offers_marked _ _ _ x).mpr (.inl mem)

theorem positionsAt_unique (spec : QuerySpec items nodeCount candidates query) (here : p ∈ query.positionsAt idx)
    (there : p ∈ query.positionsAt other) : idx = other := by
  obtain ⟨id, first, found⟩ := (spec.positions idx p).mp here
  obtain ⟨id', second, found'⟩ := (spec.positions other p).mp there
  obtain rfl := Option.some.inj (first.symm.trans second)
  exact Option.some.inj (found.symm.trans found')

theorem Tracks.advance (spec : QuerySpec items nodeCount candidates query) (tracks : Tracks query s)
    (taken : Nat → Prop)
    (found : ∀ p, p ∈ t.found ↔ p ∈ s.found ∨ ∃ x, taken x ∧ p ∈ query.positionsAt x)
    (remaining : ∀ c, query.positionsAt c ≠ [] → (¬∀ p ∈ query.positionsAt c, p ∈ s.found) →
      (c ∈ t.remainingCandidates ↔ ¬taken c))
    (fewer : ∀ c ∈ t.remainingCandidates, c ∈ s.remainingCandidates) : Tracks query t := by
  intro c
  constructor
  · intro mem
    obtain ⟨some, open_⟩ := (tracks c).mp (fewer c mem)
    refine ⟨some, fun all => open_ fun p here => ?_⟩
    rcases (found p).mp (all p here) with old | ⟨x, isTaken, there⟩
    · exact old
    · exact absurd (positionsAt_unique spec here there ▸ isTaken) ((remaining c some open_).mp mem)
  · rintro ⟨some, open_⟩
    have before : ¬∀ p ∈ query.positionsAt c, p ∈ s.found := fun all =>
      open_ fun p here => (found p).mpr (.inl (all p here))
    exact (remaining c some before).mpr fun isTaken => open_ fun p here => (found p).mpr (.inr ⟨c, isTaken, here⟩)

structure Pruned (index : RangePrefilterReachability Id) (query : CandidateQuery) (s : CandidateTraversal) :
    Prop where
  tracks : Tracks query s
  fronted : s.halted = true ∨ Fronted index s

theorem CandidateStep.pruned (step : CandidateStep index query .rangePruned s t curr rest)
    (spec : QuerySpec items nodeCount candidates query) (topological : Topological index.childrenByIndex)
    (covering : ∀ idx < index.childrenByIndex.length,
      Covering index.childrenByIndex index.descendantRanges idx) (pruned : Pruned index query s) :
    Pruned index query t := by
  have fewer : ∀ c ∈ t.remainingCandidates, c ∈ s.remainingCandidates := by
    intro c mem
    rw [step.candidates] at mem
    split at mem
    · exact List.mem_of_mem_filter mem
    · exact mem
  have tracks : Tracks query t := by
    refine pruned.tracks.advance spec (· = curr) (fun p => ?_) (fun c some open_ => ?_) fewer
    · rw [step.found, List.mem_append, List.mem_filter]
      constructor
      · exact fun either => either.imp_right fun new => ⟨curr, rfl, new.1⟩
      · rintro (old | ⟨x, rfl, here⟩)
        · exact .inl old
        · by_cases old : p ∈ s.found
          · exact .inl old
          · exact .inr ⟨here, decide_eq_true old⟩
    · have listed := (pruned.tracks c).mpr ⟨some, open_⟩
      rw [step.candidates]
      split
      · simp [listed]
      · rename_i empty
        have other : c ≠ curr := fun same => some (same ▸ not_not.mp empty)
        simp [listed, other]
  refine ⟨tracks, ?_⟩
  rcases pruned.fronted with halted | fronted
  · rw [step.running] at halted
    cases halted
  · by_cases halted : t.halted = true
    · exact .inl halted
    · have frontier := step.frontier
      rw [if_neg halted] at frontier
      refine .inr (fronted.advance topological step.popped _ frontier (fun y offered => ?_) fewer
        fun c remaining leads => ?_)
      · exact decide_eq_true (topological curr y (turnOffers_subset offered)).2
      · have other : curr ≠ c := by
          rintro rfl
          exact ((tracks curr).mp remaining).2 fun p here => step.found_here here
        obtain ⟨child, edge, further⟩ := leads.cases_head.resolve_left other
        obtain ⟨beyond, inside⟩ := topological curr child edge
        exact ⟨child, .single edge, further, beyond,
          .inl (offered_of_covering (covering child inside) edge remaining further)⟩

end Rezzy.Resolve
