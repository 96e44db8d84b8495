import Rezzy.Resolve.ReachabilityFilter

namespace Rezzy.Resolve

open Basespec Auth State Permuted RangePrefilterReachability List Worklist

open Worklist (Reached FrontierInv)

variable {Id C : Type} {index : RangePrefilterReachability Id} {query : CandidateQuery} {seeds : List Nat}

section

theorem mem_dropWhile_sorted {α : Type} {key : α → Nat} {l : List α} (sorted : l.Pairwise fun a b => key a ≤ key b)
    (bound : Nat) (x : α) : x ∈ l.dropWhile (fun a => key a < bound) ↔ x ∈ l ∧ bound ≤ key x := by
  induction l with
  | nil => simp
  | cons first l ih =>
    obtain ⟨later, sorted⟩ := pairwise_cons.mp sorted
    rw [dropWhile_cons]
    split
    · rename_i small
      rw [ih sorted, mem_cons]
      constructor
      · exact fun ⟨mem, large⟩ => ⟨.inr mem, large⟩
      · rintro ⟨rfl | mem, large⟩
        · exact absurd large (Nat.not_le_of_lt (of_decide_eq_true small))
        · exact ⟨mem, large⟩
    · rename_i large
      have large : bound ≤ key first := Nat.le_of_not_lt fun small => large (decide_eq_true small)
      constructor
      · intro mem
        refine ⟨mem, ?_⟩
        rcases mem_cons.mp mem with rfl | mem
        · exact large
        · exact Nat.le_trans large (later x mem)
      · exact And.left

def segmentHits (index : RangePrefilterReachability Id) (query : CandidateQuery) (segmentId segmentStart : Nat)
    (found : List Nat) : List (Nat × Nat × Nat) :=
  ((index.segmentCandidates query segmentId).dropWhile fun candidate =>
    candidate.1 < segmentStart).filter fun candidate => candidate.2.2 ∉ found

def OnSegment (index : RangePrefilterReachability Id) (segmentId segmentStart c : Nat) : Prop :=
  index.segments.nodeSegment.getD c none = some segmentId ∧
    segmentStart ≤ index.segments.nodeSegmentOffset.getD c 0

theorem mem_segmentCandidates (segmentId : Nat) (hit : Nat × Nat × Nat) :
    hit ∈ index.segmentCandidates query segmentId ↔ index.segments.nodeSegment.getD hit.2.1 none = some segmentId ∧
        hit.1 = index.segments.nodeSegmentOffset.getD hit.2.1 0 ∧ hit.2.2 ∈ query.positionsAt hit.2.1 := by
  obtain ⟨-, c, p⟩ := hit
  dsimp only
  unfold segmentCandidates
  rw [mem_insertionSort, mem_flatMap]
  constructor
  · rintro ⟨c', mem, mapped⟩
    obtain ⟨p', here, same⟩ := mem_map.mp mapped
    obtain ⟨rfl, rfl, rfl⟩ : _ ∧ c' = c ∧ p' = p := by simpa using same
    exact ⟨of_decide_eq_true (mem_filter.mp mem).2, rfl, here⟩
  · rintro ⟨segment, rfl, here⟩
    have bound : c < query.candidatePositions.length := by
      by_contra outside
      rw [CandidateQuery.positionsAt, getD_eq_getElem?_getD, getElem?_eq_none (Nat.le_of_not_lt outside)] at here
      cases here
    exact ⟨c, mem_filter.mpr ⟨mem_range.mpr bound, decide_eq_true segment⟩, mem_map.mpr ⟨p, here, rfl⟩⟩

theorem mem_segmentHits (segmentId segmentStart : Nat) (found : List Nat) (hit : Nat × Nat × Nat) :
    hit ∈ segmentHits index query segmentId segmentStart found ↔ OnSegment index segmentId segmentStart hit.2.1 ∧
        hit.1 = index.segments.nodeSegmentOffset.getD hit.2.1 0 ∧ hit.2.2 ∈ query.positionsAt hit.2.1 ∧
        hit.2.2 ∉ found := by
  have sorted : (index.segmentCandidates query segmentId).Pairwise fun a b => a.1 ≤ b.1 :=
    pairwise_insertionSort (fun a b : Nat × Nat × Nat => a.1 ≤ b.1) _
  unfold segmentHits OnSegment
  rw [mem_filter, mem_dropWhile_sorted sorted, mem_segmentCandidates, decide_eq_true_eq]
  constructor
  · rintro ⟨⟨⟨segment, offset, here⟩, large⟩, fresh⟩
    exact ⟨⟨segment, offset ▸ large⟩, offset, here, fresh⟩
  · rintro ⟨⟨segment, large⟩, offset, here, fresh⟩
    exact ⟨⟨⟨segment, offset, here⟩, offset ▸ large⟩, fresh⟩

theorem segmentHits_nodup [DecidableEq Id] {items candidates : List Id} {nodeCount : Nat}
    (spec : QuerySpec items nodeCount candidates query) (segmentId segmentStart : Nat) (found : List Nat) :
    ((segmentHits index query segmentId segmentStart found).map fun hit => hit.2.2).Nodup := by
  have all : ((index.segmentCandidates query segmentId).map fun hit => hit.2.2).Nodup := by
    unfold segmentCandidates
    rw [((perm_insertionSort _ _).map _).nodup_iff, map_flatMap, nodup_flatMap]
    refine ⟨fun c _ => ?_, ?_⟩
    · simpa [Function.comp_def] using spec.nodup c
    · refine (nodup_range.filter _).imp fun {a b} differ => ?_
      intro p inA inB
      have inA : p ∈ query.positionsAt a := by simpa using inA
      have inB : p ∈ query.positionsAt b := by simpa using inB
      exact differ (positionsAt_unique spec inA inB)
  exact all.sublist ((filter_sublist.trans (dropWhile_sublist _)).map _)

variable {s t : SegmentTraversal}

def segmentOf (index : RangePrefilterReachability Id) (idx : Nat) : Nat :=
  (index.segments.nodeSegment.getD idx none).getD 0

def offsetOf (index : RangePrefilterReachability Id) (idx : Nat) : Nat :=
  index.segments.nodeSegmentOffset.getD idx 0

structure SkipStep (index : RangePrefilterReachability Id) (s t : SegmentTraversal) (curr : Nat)
    (rest : List Nat) : Prop where
  running : s.halted = false
  popped : s.frontier.pending = curr :: rest
  covered : ∃ start, s.segmentCoveredFrom (segmentOf index curr) = some start ∧ start ≤ offsetOf index curr
  frontier : t = { s with frontier := ⟨s.frontier.marked, rest⟩ }

structure JumpStep (index : RangePrefilterReachability Id) (query : CandidateQuery) (s t : SegmentTraversal)
    (curr : Nat) (rest : List Nat) : Prop where
  running : s.halted = false
  popped : s.frontier.pending = curr :: rest
  found : t.found = s.found ++
    (segmentHits index query (segmentOf index curr) (offsetOf index curr) s.found).map fun hit => hit.2.2
  remaining : t.remainingKnownCandidates = s.remainingKnownCandidates -
    (segmentHits index query (segmentOf index curr) (offsetOf index curr) s.found).length
  candidates : t.remainingCandidates = s.remainingCandidates.filter fun candidate => candidate ∉
    (segmentHits index query (segmentOf index curr) (offsetOf index curr) s.found).map fun hit => hit.2.1
  halted : t.halted = true ↔ t.remainingKnownCandidates = 0
  covered : t.segmentCoveredFrom =
    Function.update s.segmentCoveredFrom (segmentOf index curr) (some (offsetOf index curr))
  expanded : t.segmentExpanded = if t.halted ∨ segmentOf index curr ∈ s.segmentExpanded then s.segmentExpanded
    else s.segmentExpanded ++ [segmentOf index curr]
  frontier : t.frontier = (if t.halted ∨ segmentOf index curr ∈ s.segmentExpanded then [] else
    turnOffers index .rangePruned (index.segments.tails.getD (segmentOf index curr) 0)
      t.remainingCandidates).foldl (Worklist.offer index.keep) ⟨s.frontier.marked, rest⟩

theorem offers_stopped {stop : Prop} [Decidable stop] (stops : stop) (keep : Nat → Bool)
    (frontier : Worklist.Frontier Nat) (offers : List Nat) :
    frontier = (if stop then [] else offers).foldl (offer keep) frontier := by
  rw [if_pos stops]
  rfl

theorem offers_going {stop : Prop} [Decidable stop] (goes : ¬stop) (keep : Nat → Bool)
    (frontier : Worklist.Frontier Nat) (offers : List Nat) :
    offers.foldl (offer keep) frontier = (if stop then [] else offers).foldl (offer keep) frontier := by
  rw [if_neg goes]

theorem segmentJumpTurn_step (turn : index.segmentJumpTurn query s = some t) :
    ∃ curr rest, SkipStep index s t curr rest ∨ JumpStep index query s t curr rest := by
  unfold segmentJumpTurn at turn
  cases running : s.halted with
  | true => simp [running] at turn
  | false =>
    rw [if_neg (by simp [running])] at turn
    cases popped : s.frontier.pending with
    | nil => simp [popped] at turn
    | cons curr rest =>
      rw [popped] at turn
      dsimp only at turn
      refine ⟨curr, rest, ?_⟩
      split at turn
      · rename_i covered
        refine .inl ⟨running, popped, ?_, (Option.some.inj turn).symm⟩
        cases known : s.segmentCoveredFrom (segmentOf index curr) with
        | none =>
          unfold segmentOf at known
          rw [known] at covered
          cases covered
        | some start =>
          unfold segmentOf at known
          rw [known] at covered
          exact ⟨start, rfl, of_decide_eq_true covered⟩
      · right
        split at turn
        · rename_i stops
          obtain rfl := Option.some.inj turn
          exact ⟨running, popped, rfl, rfl, rfl, by simp, rfl, (if_pos stops).symm, offers_stopped stops _ _ _⟩
        · rename_i goes
          obtain rfl := Option.some.inj turn
          exact ⟨running, popped, rfl, rfl, rfl, by simp, rfl, (if_neg goes).symm, offers_going goes _ _ _⟩

structure JumpFront (index : RangePrefilterReachability Id) (s : SegmentTraversal) : Prop where
  fronted : Fronted index s.toCandidateTraversal
  searched : ∀ g start, s.segmentCoveredFrom g = some start → g ∈ s.segmentExpanded
  expanded : ∀ g ∈ s.segmentExpanded, ∀ child ∈ index.children (index.segments.tails.getD g 0),
    ∀ c ∈ s.remainingCandidates, LeadsTo index.childrenByIndex child c → child ∈ s.frontier.marked

structure Jumping (index : RangePrefilterReachability Id) (query : CandidateQuery) (s : SegmentTraversal) :
    Prop where
  tracks : Tracks query s.toCandidateTraversal
  covered : ∀ g start, s.segmentCoveredFrom g = some start → ∀ c, OnSegment index g start c →
    ∀ p ∈ query.positionsAt c, p ∈ s.found
  front : s.halted = true ∨ JumpFront index s

structure IndexSpec (index : RangePrefilterReachability Id) : Prop where
  topological : Topological index.childrenByIndex
  covering : ∀ idx < index.childrenByIndex.length,
    Covering index.childrenByIndex index.descendantRanges idx
  segments : SegmentsSpec index.childrenByIndex index.segments

theorem IndexSpec.segmentOf (spec : IndexSpec index) (kept : index.keep idx = true) :
    index.segments.nodeSegment.getD idx none = some (segmentOf index idx) := by
  obtain ⟨g, assigned⟩ := spec.segments.assigned idx (of_decide_eq_true kept)
  rw [Resolve.segmentOf, assigned]
  rfl

theorem IndexSpec.behind (spec : IndexSpec index) (kept : index.keep idx = true)
    (edge : child ∈ index.children (index.segments.tails.getD (Resolve.segmentOf index idx) 0)) :
    LeadsTo index.childrenByIndex idx child ∧ idx < child := by
  have tail := spec.segments.tail _ idx (spec.segmentOf kept)
  refine ⟨tail.tail edge, ?_⟩
  exact Nat.lt_of_le_of_lt (tail.le spec.topological) (spec.topological _ child edge).1

variable {curr : Nat} {rest : List Nat}

theorem SkipStep.jumping (step : SkipStep index s t curr rest) (spec : IndexSpec index)
    (inv : Traversing index query seeds s.toCandidateTraversal) (jumping : Jumping index query s) :
    Jumping index query t := by
  have front := jumping.front.resolve_left (by simp [step.running])
  have kept := (inv.frontier.waiting curr (by simp [step.popped])).2
  obtain ⟨start, known, before⟩ := step.covered
  have fronted : Fronted index t.toCandidateTraversal := by
    refine front.fronted.advance spec.topological step.popped [] (by rw [step.frontier]; rfl)
      (by simp) (by simp [step.frontier]) fun c remaining leads => ?_
    have remaining : c ∈ s.remainingCandidates := by simpa [step.frontier] using remaining
    rcases spec.segments.leaves _ curr c (spec.segmentOf kept) leads with ⟨on, further⟩ | ⟨child, edge, further⟩
    · have onSegment : OnSegment index (segmentOf index curr) start c := ⟨on, Nat.le_trans before further⟩
      exact absurd (jumping.covered _ start known c onSegment) ((jumping.tracks c).mp remaining).2
    · obtain ⟨toChild, beyond⟩ := spec.behind kept edge
      exact ⟨child, toChild, further, beyond,
        .inr (front.expanded _ (front.searched _ start known) child edge c remaining further)⟩
  rw [step.frontier] at fronted ⊢
  exact ⟨jumping.tracks, jumping.covered, .inr ⟨fronted, front.searched, front.expanded⟩⟩

theorem JumpStep.mem_found (step : JumpStep index query s t curr rest) (p : Nat) : p ∈ t.found ↔ p ∈ s.found ∨
      ∃ c, OnSegment index (segmentOf index curr) (offsetOf index curr) c ∧ p ∈ query.positionsAt c := by
  rw [step.found, mem_append, mem_map]
  constructor
  · rintro (old | ⟨hit, mem, rfl⟩)
    · exact .inl old
    · obtain ⟨on, _, here, _⟩ := (mem_segmentHits _ _ _ hit).mp mem
      exact .inr ⟨hit.2.1, on, here⟩
  · rintro (old | ⟨c, on, here⟩)
    · exact .inl old
    · by_cases old : p ∈ s.found
      · exact .inl old
      · exact .inr ⟨(offsetOf index c, c, p), (mem_segmentHits _ _ _ _).mpr ⟨on, rfl, here, old⟩, rfl⟩

theorem JumpStep.fewer (step : JumpStep index query s t curr rest) :
    ∀ c ∈ t.remainingCandidates, c ∈ s.remainingCandidates := by
  intro _ mem
  rw [step.candidates] at mem
  exact mem_of_mem_filter mem

variable [DecidableEq Id] {items candidates : List Id} {nodeCount : Nat}

theorem SkipStep.traversing (step : SkipStep index s t curr rest) (spec : QuerySpec items nodeCount candidates query)
    (inv : Traversing index query seeds s.toCandidateTraversal) :
    Traversing index query seeds t.toCandidateTraversal := by
  rw [step.frontier]
  exact inv.advance spec [] (by simp) (by simp) (by simp) (by simp) (by simp) inv.halts
    (inv.frontier.pop (.of_eq step.popped)) fun _ mem => mem

theorem JumpStep.tracks (step : JumpStep index query s t curr rest)
    (spec : QuerySpec items nodeCount candidates query) (tracks : Tracks query s.toCandidateTraversal) :
    Tracks query t.toCandidateTraversal := by
  refine tracks.advance spec (OnSegment index (segmentOf index curr) (offsetOf index curr)) step.mem_found
    (fun c some open_ => ?_) step.fewer
  have listed := (tracks c).mpr ⟨some, open_⟩
  rw [step.candidates, mem_filter, decide_eq_true_eq, mem_map]
  constructor
  · rintro ⟨_, missed⟩ on
    obtain ⟨p, here, fresh⟩ : ∃ p ∈ query.positionsAt c, p ∉ s.found := by simpa using open_
    exact missed ⟨(offsetOf index c, c, p), (mem_segmentHits _ _ _ _).mpr ⟨on, rfl, here, fresh⟩, rfl⟩
  · intro off
    refine ⟨listed, ?_⟩
    rintro ⟨hit, mem, rfl⟩
    exact off ((mem_segmentHits _ _ _ hit).mp mem).1

theorem JumpStep.traversing (step : JumpStep index query s t curr rest) (indexSpec : IndexSpec index)
    (spec : QuerySpec items nodeCount candidates query)
    (inv : Traversing index query seeds s.toCandidateTraversal) :
    Traversing index query seeds t.toCandidateTraversal := by
  obtain ⟨marked, kept⟩ := inv.frontier.waiting curr (by simp [step.popped])
  have reaches : ∀ c, LeadsTo index.childrenByIndex curr c → Reached index.children seeds c := by
    intro c leads
    obtain ⟨seed, mem, path⟩ := inv.marked marked
    exact ⟨seed, mem, path.trans leads⟩
  have onSegment := indexSpec.segmentOf kept
  refine inv.advance spec _ (segmentHits_nodup spec _ _ _) (fun p mem => ?_) (fun p mem => ?_) step.found
    (by rw [step.remaining, length_map]) step.halted.mp ?_ fun x mem => ?_
  · obtain ⟨hit, hits, rfl⟩ := mem_map.mp mem
    exact ((mem_segmentHits _ _ _ hit).mp hits).2.2.2
  · obtain ⟨hit, hits, rfl⟩ := mem_map.mp mem
    obtain ⟨⟨on, later⟩, _, here, _⟩ := (mem_segmentHits _ _ _ hit).mp hits
    exact ⟨hit.2.1, reaches _ (indexSpec.segments.within _ curr hit.2.1 onSegment on later), here⟩
  · rw [step.frontier]
    refine offers_invariant _ _ _ _ _ (inv.frontier.pop (.of_eq step.popped)) fun y offered => ?_
    rw [keptNext_children]
    split at offered
    · cases offered
    · exact reaches y (indexSpec.behind kept (turnOffers_subset offered)).1
  · rw [step.frontier]
    exact (offers_marked _ _ _ x).mpr (.inl mem)

theorem JumpStep.jumping (step : JumpStep index query s t curr rest) (indexSpec : IndexSpec index)
    (spec : QuerySpec items nodeCount candidates query)
    (inv : Traversing index query seeds s.toCandidateTraversal) (jumping : Jumping index query s) :
    Jumping index query t := by
  have tracks := step.tracks spec jumping.tracks
  have front := jumping.front.resolve_left (by simp [step.running])
  have kept := (inv.frontier.waiting curr (by simp [step.popped])).2
  have marked : ∀ x ∈ s.frontier.marked, x ∈ t.frontier.marked := fun x mem => by
    rw [step.frontier]
    exact (offers_marked _ _ _ x).mpr (.inl mem)
  refine ⟨tracks, fun g start known c on p here => ?_, ?_⟩
  · rw [step.mem_found]
    rw [step.covered, Function.update_apply] at known
    split at known
    · rename_i same
      obtain rfl := Option.some.inj known
      exact .inr ⟨c, same ▸ on, here⟩
    · exact .inl (jumping.covered g start known c on p here)
  · by_cases halted : t.halted = true
    · exact .inl halted
    · right
      have frontier := step.frontier
      have grown := step.expanded
      simp only [halted, Bool.false_eq_true, false_or] at frontier grown
      -- What lies behind the end is marked from an earlier turn, or offered in this one.
      have behind : ∀ child ∈ index.children (index.segments.tails.getD (segmentOf index curr) 0),
          ∀ c ∈ t.remainingCandidates, LeadsTo index.childrenByIndex child c →
          child ∈ (if segmentOf index curr ∈ s.segmentExpanded then [] else
            turnOffers index .rangePruned (index.segments.tails.getD (segmentOf index curr) 0)
              t.remainingCandidates) ∨ child ∈ s.frontier.marked := by
        intro child edge c remaining leads
        split
        · rename_i before
          exact .inr (front.expanded _ before child edge c (step.fewer c remaining) leads)
        · have inside := (indexSpec.topological _ child edge).2
          exact .inl (offered_of_covering (indexSpec.covering child inside) edge remaining leads)
      refine ⟨front.fronted.advance indexSpec.topological step.popped _ frontier (fun y offered => ?_) step.fewer
        fun c remaining leads => ?_, fun g start known => ?_, fun g mem child edge c remaining leads => ?_⟩
      · split at offered
        · cases offered
        · exact decide_eq_true (indexSpec.topological _ y (turnOffers_subset offered)).2
      · rcases indexSpec.segments.leaves _ curr c (indexSpec.segmentOf kept) leads with
          on | ⟨child, edge, further⟩
        · refine absurd (fun p here => ?_) ((tracks c).mp remaining).2
          exact (step.mem_found p).mpr (.inr ⟨c, on, here⟩)
        · obtain ⟨toChild, beyond⟩ := indexSpec.behind kept edge
          exact ⟨child, toChild, further, beyond, behind child edge c remaining further⟩
      · rw [step.covered, Function.update_apply] at known
        rw [grown]
        split at known
        · rename_i same
          split
          · exact same ▸ ‹_›
          · simp [same]
        · have old := front.searched g start known
          split
          · exact old
          · exact mem_append_left _ old
      · rw [grown] at mem
        by_cases old : g ∈ s.segmentExpanded
        · exact marked child (front.expanded g old child edge c (step.fewer c remaining) leads)
        · have here : g = segmentOf index curr := by
            split at mem
            · exact absurd mem old
            · exact mem_singleton.mp ((mem_append.mp mem).resolve_left old)
          subst here
          rw [frontier]
          exact (offers_marked _ _ _ child).mpr (behind child edge c remaining leads).symm

end

section

theorem fronted_done (inv : Traversing index query seeds s) (tracks : Tracks query s) (fronted : Fronted index s)
    (empty : s.frontier.pending = []) (x : Nat) (reached : Reached index.children seeds x) :
    ∀ p ∈ query.positionsAt x, p ∈ s.found := by
  intro p here
  by_contra missed
  have remaining := (tracks x).mpr ⟨ne_nil_of_mem here, fun all => missed (all p here)⟩
  obtain ⟨seed, mem, path⟩ := reached
  obtain ⟨q, waiting, _⟩ := fronted seed (inv.seeded seed mem) x remaining path
  rw [empty] at waiting
  cases waiting

theorem swept_done (inv : Traversing index query seeds s) (swept : ∀ x ∈ s.frontier.marked, x ∈ s.frontier.pending ∨
      (∀ p ∈ query.positionsAt x, p ∈ s.found) ∧ ∀ y ∈ index.children x, y ∈ s.frontier.marked)
    (empty : s.frontier.pending = []) (x : Nat) (reached : Reached index.children seeds x) :
    ∀ p ∈ query.positionsAt x, p ∈ s.found := by
  have closed : ∀ x ∈ s.frontier.marked,
      (∀ p ∈ query.positionsAt x, p ∈ s.found) ∧ ∀ y ∈ index.children x, y ∈ s.frontier.marked := by
    intro x mem
    exact (swept x mem).resolve_left (by simp [empty])
  have marked := reached.subset_of_closed (· ∈ s.frontier.marked) inv.seeded fun x y mem edge => (closed x mem).2 y edge
  exact (closed x marked).1

theorem seeds_fronted (inside : ∀ x ∈ seeds, index.keep x = true) (count : Nat) (remainingCandidates : List Nat) :
    Fronted index ⟨[], seeds.foldl (offer index.keep) ⟨[], []⟩, count, remainingCandidates, false⟩ := by
  intro x mem _ _ leads
  have offered := ((offers_marked _ _ _ x).mp mem).resolve_left (by simp)
  exact ⟨x, offers_pending _ _ _ x (by simp) offered (inside x offered), .refl, leads⟩

theorem seeds_tracked (frontier : Worklist.Frontier Nat) (count : Nat) :
    Tracks query ⟨[], frontier, count, query.remainingCandidateSet, false⟩ := by
  intro c
  have some_iff : (¬∀ p ∈ query.positionsAt c, p ∈ ([] : List Nat)) ↔ query.positionsAt c ≠ [] := by
    rw [not_iff_not, eq_nil_iff_forall_not_mem]
    simp
  rw [CandidateQuery.remainingCandidateSet, mem_filter, decide_eq_true_eq, mem_range]
  rw [some_iff]
  refine ⟨fun ⟨_, nonempty⟩ => ⟨nonempty, nonempty⟩, fun ⟨nonempty, _⟩ => ⟨?_, nonempty⟩⟩
  by_contra outside
  rw [CandidateQuery.positionsAt, getD_eq_getElem?_getD, getElem?_eq_none (Nat.le_of_not_lt outside)] at nonempty
  exact nonempty rfl

theorem seeds_swept (inside : ∀ x ∈ seeds, index.keep x = true) (count : Nat) (remainingCandidates : List Nat) :
    Swept index query ⟨[], seeds.foldl (offer index.keep) ⟨[], []⟩, count, remainingCandidates, false⟩ := by
  refine .inr fun x mem => .inl ?_
  have offered := ((offers_marked _ _ _ x).mp mem).resolve_left (by simp)
  exact offers_pending _ _ _ x (by simp) offered (inside x offered)

theorem candidateTurn_none (stopped : index.candidateTurn query mode s = none) :
    s.halted = true ∨ s.frontier.pending = [] := by
  unfold candidateTurn at stopped
  split at stopped
  · exact .inl ‹_›
  · split at stopped
    · exact .inr ‹_›
    · cases stopped

theorem segmentJumpTurn_none (stopped : index.segmentJumpTurn query s = none) :
    s.halted = true ∨ s.frontier.pending = [] := by
  unfold segmentJumpTurn at stopped
  split at stopped
  · exact .inl ‹_›
  · split at stopped
    · exact .inr ‹_›
    · dsimp only at stopped
      split at stopped
      · cases stopped
      · split at stopped <;> cases stopped

theorem seeds_outstanding (index : RangePrefilterReachability Id) (seeds : List Nat) :
    outstanding (range index.childrenByIndex.length)
      (seeds.foldl (offer index.keep) ⟨[], []⟩) ≤ index.childrenByIndex.length := by
  refine Nat.le_trans (offers_outstanding index.keep _
    (fun x kept => mem_range.mpr (of_decide_eq_true kept)) seeds ⟨[], []⟩) ?_
  simp [outstanding]

variable [DecidableEq Id] {items candidates : List Id}
  (spec : QuerySpec items index.childrenByIndex.length candidates query)
include spec

theorem no_positions (empty : query.candidateCount = 0 ∨ query.knownCandidatePositionCount = 0) (x p : Nat) :
    p ∉ query.positionsAt x := by
  intro here
  rcases empty with none | none
  · obtain ⟨id, there, _⟩ := (spec.positions x p).mp here
    rw [spec.count, length_eq_zero_iff] at none
    simp [none] at there
  · have bound := (spec.bound [p] (by simp) fun q mem =>
      ⟨x, mem_singleton.mp mem ▸ here⟩).1
    simp [none] at bound

theorem candidateTurn_run {extra : CandidateTraversal → Prop}
    (keeps : ∀ s t curr rest, CandidateStep index query mode s t curr rest → extra s → extra t)
    (inv : Traversing index query seeds start) (first : extra start)
    (allowance : outstanding (range index.childrenByIndex.length) start.frontier ≤ index.childrenByIndex.length) :
    let final := Loop.run (index.candidateTurn query mode) index.childrenByIndex.length start
    Traversing index query seeds final ∧ extra final ∧ (final.halted = true ∨ final.frontier.pending = []) := by
  have step : ∀ s t, Traversing index query seeds s ∧ extra s → index.candidateTurn query mode s = some t →
      Traversing index query seeds t ∧ extra t := by
    intro s t both turn
    obtain ⟨curr, rest, step⟩ := candidateTurn_step turn
    exact ⟨step.traversing spec both.1, keeps s t curr rest step both.2⟩
  have final := Loop.run_invariant step index.childrenByIndex.length ⟨inv, first⟩
  have stopped := Loop.run_finished (fun s => Traversing index query seeds s ∧ extra s)
    (fun s => outstanding (range index.childrenByIndex.length) s.frontier) step
    (fun s t _ turn => by
      obtain ⟨curr, rest, step⟩ := candidateTurn_step turn
      exact offers_decrease index step.popped _ step.frontier)
    index.childrenByIndex.length ⟨inv, first⟩ allowance
  exact ⟨final.1, final.2, candidateTurn_none stopped⟩

theorem mem_filterReachableWithCandidates (ids : List Id)
    (inside : ∀ idx, ∀ child ∈ index.children idx, index.keep child = true)
    (known : ∀ x ∈ ids.filterMap fun seed => index.items.idxOf? seed, index.keep x = true)
    (served : mode = .plainIndexedBfs ∨ mode = .rangePruned ∧ IndexSpec index) (p : Nat) :
    p ∈ index.filterReachableWithCandidates ids query mode ↔
      ∃ x, Reached index.children (ids.filterMap fun seed => index.items.idxOf? seed) x ∧ p ∈ query.positionsAt x := by
  unfold filterReachableWithCandidates
  split
  · rename_i empty
    simp only [not_mem_nil, false_iff, not_exists, not_and]
    exact fun x _ => no_positions spec empty x p
  · have allowance := seeds_outstanding index (ids.filterMap fun seed => index.items.idxOf? seed)
    rcases served with rfl | ⟨rfl, indexSpec⟩
    · rw [if_neg (by decide)]
      obtain ⟨inv, swept, ended⟩ := candidateTurn_run spec
        (fun s t curr rest (step : CandidateStep index query .plainIndexedBfs s t curr rest) swept =>
          step.swept inside swept)
        (traversing_initial index query (ids.filterMap fun seed => index.items.idxOf? seed) [])
        (seeds_swept known _ _) allowance
      refine inv.outcome spec ?_ p
      rcases ended with halted | empty
      · exact .inl halted
      · exact swept.imp_right fun swept => swept_done inv swept empty
    · rw [if_pos rfl]
      obtain ⟨inv, pruned, ended⟩ := candidateTurn_run spec
        (fun s t curr rest (step : CandidateStep index query .rangePruned s t curr rest) pruned =>
          step.pruned spec indexSpec.topological indexSpec.covering pruned)
        (traversing_initial index query (ids.filterMap fun seed => index.items.idxOf? seed) _)
        ⟨seeds_tracked _ _, .inr (seeds_fronted known _ _)⟩ allowance
      refine inv.outcome spec ?_ p
      rcases ended with halted | empty
      · exact .inl halted
      · exact pruned.fronted.imp_right fun fronted => fronted_done inv pruned.tracks fronted empty

theorem mem_filterReachableSegmentJumps (ids : List Id) (indexSpec : IndexSpec index)
    (known : ∀ x ∈ ids.filterMap fun seed => index.items.idxOf? seed, index.keep x = true) (p : Nat) :
    p ∈ index.filterReachableSegmentJumps ids query ↔
      ∃ x, Reached index.children (ids.filterMap fun seed => index.items.idxOf? seed) x ∧ p ∈ query.positionsAt x := by
  unfold filterReachableSegmentJumps
  split
  · rename_i empty
    simp only [not_mem_nil, false_iff, not_exists, not_and]
    exact fun x _ => no_positions spec empty x p
  · have step : ∀ s t : SegmentTraversal,
        Traversing index query (ids.filterMap fun seed => index.items.idxOf? seed) s.toCandidateTraversal ∧
          Jumping index query s → index.segmentJumpTurn query s = some t →
        Traversing index query (ids.filterMap fun seed => index.items.idxOf? seed) t.toCandidateTraversal ∧
          Jumping index query t := by
      intro s t both turn
      obtain ⟨curr, rest, skip | jump⟩ := segmentJumpTurn_step turn
      · exact ⟨skip.traversing spec both.1, skip.jumping indexSpec both.1 both.2⟩
      · exact ⟨jump.traversing indexSpec spec both.1, jump.jumping indexSpec spec both.1 both.2⟩
    generalize started : SegmentTraversal.mk ⟨[], index.seedQueue ids, query.knownCandidatePositionCount,
      query.remainingCandidateSet, false⟩ (fun _ => none) [] = start
    have first : Traversing index query (ids.filterMap fun seed => index.items.idxOf? seed)
        start.toCandidateTraversal ∧ Jumping index query start := by
      subst started
      exact ⟨traversing_initial index query _ _, seeds_tracked _ _, fun _ _ covered => (by cases covered),
        .inr ⟨seeds_fronted known _ _, fun _ _ covered => (by cases covered), fun _ mem => (by cases mem)⟩⟩
    obtain ⟨inv, jumping⟩ := Loop.run_invariant step index.childrenByIndex.length first
    have stopped := Loop.run_finished _
      (fun s : SegmentTraversal => outstanding (range index.childrenByIndex.length) s.frontier)
      step (fun s t both turn => ?_) index.childrenByIndex.length first (by
        subst started
        exact seeds_outstanding index _)
    · refine inv.outcome spec ?_ p
      rcases segmentJumpTurn_none stopped with halted | empty
      · exact .inl halted
      · exact jumping.front.imp_right fun front => fronted_done inv jumping.tracks front.fronted empty
    · obtain ⟨curr, rest, skip | jump⟩ := segmentJumpTurn_step turn
      · exact offers_decrease index skip.popped [] (by rw [skip.frontier]; rfl)
      · exact offers_decrease index jump.popped _ jump.frontier

end

theorem selectTraversalMode_acyclic (chosen : index.selectTraversalMode query = mode)
    (pruned : mode ≠ .plainIndexedBfs) : index.cyclicNodes = [] := by
  by_contra cyclic
  apply pruned
  rw [← chosen]
  unfold selectTraversalMode
  simp [cyclic]

variable [LinearOrder Id] (order : Order) (graph : EventMap Id C)

theorem build_indexSpec (acyclic : (build order graph).cyclicNodes = []) : IndexSpec (build order graph) where
  topological := build_topological order graph acyclic
  covering _ inside := buildDescendantRanges_covering (build_topological order graph acyclic) inside
  segments := buildSegments_spec (build_topological order graph acyclic)

theorem mem_filterReachable (seeds candidates : List Id) (p : Nat) :
    p ∈ (build order graph).filterReachable seeds candidates ↔ ∃ id, candidates[p]? = some id ∧
        Reached (forwardEdges graph) (seeds.filter (· ∈ graph.keys)) id := by
  have nodup := (build_items_perm order graph).nodup_iff.mpr graph.distinct
  have length := build_length order graph
  have spec := collectCandidates_spec length candidates
  have kept : ∀ idx id, (build order graph).items[idx]? = some id →
      (build order graph).keep idx = true := fun idx id here =>
    decide_eq_true (length ▸ (List.getElem?_eq_some_iff.mp here).1)
  have inside : ∀ idx, ∀ child ∈ (build order graph).children idx, (build order graph).keep child = true := by
    intro idx child edge
    obtain ⟨_, childId, _, there, _⟩ := children_of_build order graph edge
    exact kept child childId there
  have known : ∀ x ∈ seeds.filterMap fun seed =>
      (build order graph).items.idxOf? seed,
      (build order graph).keep x = true := by
    intro x mem
    obtain ⟨id, _, here⟩ := (mem_filterMap_idxOf? nodup).mp mem
    exact kept x id here
  have translated : (∃ x, Reached (build order graph).children
        (seeds.filterMap fun seed => (build order graph).items.idxOf? seed) x ∧
      p ∈ ((build order graph).collectCandidates candidates).positionsAt x) ↔
      ∃ id, candidates[p]? = some id ∧ Reached (forwardEdges graph) (seeds.filter (· ∈ graph.keys)) id := by
    constructor
    · rintro ⟨x, reached, here⟩
      obtain ⟨id, there, position⟩ := (spec.positions x p).mp here
      exact ⟨id, there, (reached_children order graph seeds ((idxOf?_eq_some nodup).mp position)).mp reached⟩
    · rintro ⟨id, there, reached⟩
      obtain ⟨x, here⟩ := mem_iff_getElem?.mp
        ((build_items_perm order graph).mem_iff.mpr (forwardReached_known reached))
      exact ⟨x, (reached_children order graph seeds here).mpr reached,
        (spec.positions x p).mpr ⟨id, there, (idxOf?_eq_some nodup).mpr here⟩⟩
  unfold filterReachable
  dsimp only
  rw [← translated]
  cases mode : (build order graph).selectTraversalMode ((build order graph).collectCandidates candidates) with
  | plainIndexedBfs => exact mem_filterReachableWithCandidates spec seeds inside known (.inl rfl) p
  | rangePruned =>
    refine mem_filterReachableWithCandidates spec seeds inside known (.inr ⟨rfl, ?_⟩) p
    exact build_indexSpec order graph (selectTraversalMode_acyclic mode (by decide))
  | segmentJumps =>
    refine mem_filterReachableSegmentJumps spec seeds ?_ known p
    exact build_indexSpec order graph (selectTraversalMode_acyclic mode (by decide))

theorem mem_filterReachable_ids (seeds candidates : List Id) (id : Id) :
    id ∈ ((build order graph).filterReachable seeds candidates).filterMap (fun position => candidates[position]?) ↔
      id ∈ candidates ∧ Reached (forwardEdges graph) (seeds.filter (· ∈ graph.keys)) id := by
  simp only [mem_filterMap, mem_filterReachable]
  constructor
  · rintro ⟨position, ⟨other, there, reached⟩, here⟩
    obtain rfl := Option.some.inj (here.symm.trans there)
    exact ⟨mem_of_getElem? here, reached⟩
  · rintro ⟨mem, reached⟩
    obtain ⟨position, here⟩ := mem_iff_getElem?.mp mem
    exact ⟨position, ⟨id, here, reached⟩, here⟩

end Rezzy.Resolve
