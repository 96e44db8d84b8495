import Rezzy.State.MergeBases

namespace Rezzy.State

open Basespec Permuted WordBits Finset List Colouring

open Colouring (Walk Hits Spreading Ending Ordered Downhill)

variable {Id C : Type} [LinearOrder Id]

section

def NotAbove (events : EventMap Id C) (id other : Id) : Prop :=
  depthOf events id < depthOf events other ∨ depthOf events id = depthOf events other ∧ id ≤ other

def ReachedBy (events : EventMap Id C) (extremities : List Id) (mask : Finset Nat) (id : Id) : Prop :=
  ∀ i, i ∈ mask ↔ ReachedFrom events extremities i id

def GreatestReachedBy (events : EventMap Id C) (extremities : List Id) (mask : Finset Nat) (id : Id) : Prop :=
  ReachedBy events extremities mask id ∧ ∀ other, ReachedBy events extremities mask other → NotAbove events other id

/-- What a junction of the mask is: no event of all extremities stands above it, and none of more extremities is as
    deep. -/
structure IsJunction (events : EventMap Id C) (extremities : List Id) (mask : Finset Nat) (id : Id) : Prop where
  greatest : GreatestReachedBy events extremities mask id
  uncovered : ∀ base, GreatestReachedBy events extremities (Finset.range extremities.length) base →
    NotAbove events base id
  unsurpassed : ∀ more, mask ⊂ more → ∀ other, GreatestReachedBy events extremities more other →
    depthOf events other < depthOf events id

def StepsSuffice (extremities : List Id) (events : EventMap Id C) (maxSteps : Nat) : Prop :=
  ∀ full, fullMask extremities.length = some full →
    basesTurn events full (searchMergeBases extremities events full maxSteps) = none

end

variable {events : EventMap Id C} {extremities : List Id}

theorem NotAbove.of_before {id other : Id} (before : id = other ∨ heapBefore events id other = true) :
    NotAbove events other id := by
  rcases before with rfl | before
  · exact .inr ⟨rfl, le_refl _⟩
  · rcases heapBefore_iff.mp before with less | ⟨same, less⟩
    · exact .inl less
    · exact .inr ⟨same.symm, le_of_lt less⟩

section

variable {id other : Id} (below : NotAbove events id other)
include below

theorem NotAbove.depth_le : depthOf events id ≤ depthOf events other := by
  rcases below with less | ⟨same, _⟩
  · exact Nat.le_of_lt less
  · exact Nat.le_of_eq same

theorem NotAbove.antisymm (above : NotAbove events other id) : id = other := by
  unfold NotAbove at below above
  rcases below with less | ⟨same, low⟩
  · omega
  · rcases above with less | ⟨_, high⟩
    · omega
    · exact le_antisymm low high

theorem NotAbove.not_before : ¬heapBefore events id other = true := by
  intro before
  rw [heapBefore_iff] at before
  unfold NotAbove at below
  rcases before with less | ⟨same, less⟩
  · omega
  · rcases below with deeper | ⟨_, low⟩
    · omega
    · exact absurd less (not_lt.mpr low)

end

theorem ReachedBy.within {id : Id} (reached : ReachedBy events extremities mask id) :
    mask ⊆ Finset.range extremities.length := by
  intro i mem
  obtain ⟨_, here, _⟩ := (reached i).mp mem
  exact Finset.mem_range.mpr (List.getElem?_eq_some_iff.mp here).1

theorem ReachedBy.unique {id : Id} (reached : ReachedBy events extremities mask id)
    (again : ReachedBy events extremities other id) : mask = other := by
  ext i
  rw [reached i, again i]

section

variable {t : Walk Id}

structure Finished (events : EventMap Id C) (extremities : List Id) (t : Walk Id) : Prop where
  spreading : Spreading (allReach extremities.length) (heldParents events) (presentSeeds events extremities) t
  ending : Ending (allReach extremities.length) t
  ordered : Ordered (heapBefore events) (heldParents events) (presentSeeds events extremities) t
  stopped : t.halted = true ∨ t.queue = []

theorem Finished.exact (finished : Finished events extremities t) (logged : entry ∈ t.log) :
    ReachedBy events extremities entry.2 entry.1 := by
  intro i
  rw [← hits_iff]
  constructor
  · intro mem
    exact finished.spreading.sound entry.1 i ((finished.spreading.logged entry logged).1 mem)
  · exact finished.ordered.final entry logged i

theorem Finished.last (finished : Finished events extremities t) (halted : t.halted = true) :
    ∃ base, t.log.getLast? = some (base, Finset.range extremities.length) ∧
      (∀ entry ∈ t.log, entry.1 = base ∨ heapBefore events entry.1 base = true) ∧
      ∀ id, (id, Finset.range extremities.length) ∈ t.log → id = base := by
  obtain ⟨init, base, log, full, earlier⟩ := finished.ending.ended halted
  rw [of_decide_eq_true full] at log
  refine ⟨base, by rw [log, getLast?_concat], fun entry mem => ?_, fun id mem => ?_⟩
  · have sorted := finished.ordered.sorted
    rw [log, pairwise_append] at sorted
    rw [log] at mem
    rcases mem_append.mp mem with old | new
    · exact sorted.2.2 entry old _ (List.mem_singleton_self _)
    · rw [List.mem_singleton.mp new]
      exact .inl rfl
  · rw [log] at mem
    rcases mem_append.mp mem with old | new
    · have unfinished := earlier _ old
      simp [allReach] at unfinished
    · exact congrArg Prod.fst (List.mem_singleton.mp new)

theorem Finished.taken (finished : Finished events extremities t) {id : Id}
    (reached : ReachedBy events extremities mask id) (some : mask.Nonempty) :
    (id, mask) ∈ t.log ∨ t.halted = true ∧ ∀ last ∈ t.log.getLast?, heapBefore events last.1 id = true := by
  obtain ⟨i, mem⟩ := some
  have hits := hits_iff.mpr ((reached i).mp mem)
  rcases Bool.eq_false_or_eq_true t.halted with halted | running
  · obtain ⟨base, last, _⟩ := finished.last halted
    rcases finished.ordered.covered halted _ last i id hits with ⟨colours, logged⟩ | below
    · rw [reached.unique (finished.exact logged)]
      exact .inl logged
    · refine .inr ⟨halted, fun other here => ?_⟩
      rw [last] at here
      rwa [← Option.some.inj here]
  · have empty := finished.stopped.resolve_left (by simp [running])
    obtain ⟨complete, logged⟩ := finished.spreading.exhausted running empty
    have same : t.mask id = mask := by
      ext j
      rw [complete, hits_iff, reached j]
    refine .inl (same ▸ (logged id ?_).2)
    exact ⟨i, same ▸ mem⟩

theorem Finished.greatest (finished : Finished events extremities t) (nonempty : 0 < extremities.length) {base : Id}
    (greatest : GreatestReachedBy events extremities (Finset.range extremities.length) base) :
    t.halted = true ∧ t.log.getLast? = some (base, Finset.range extremities.length) := by
  have some : (Finset.range extremities.length).Nonempty := nonempty_range_iff.mpr (by omega)
  have halted : t.halted = true := by
    rcases finished.taken greatest.1 some with logged | ⟨halted, _⟩
    · by_contra running
      have unfinished := finished.ending.running (by simpa using running) _ logged
      simp [allReach] at unfinished
    · exact halted
  obtain ⟨last, final, _, only⟩ := finished.last halted
  have own := finished.exact (mem_of_getLast? final)
  have same : base = last := by
    rcases finished.taken greatest.1 some with logged | ⟨_, below⟩
    · exact only base logged
    · exact absurd (below _ final) (greatest.2 last own).not_before
  exact ⟨halted, same ▸ final⟩

theorem Finished.first_greatest (finished : Finished events extremities t) (first : FirstOf t.log junction)
    (several : 2 ≤ (places junction.mask).card) :
    GreatestReachedBy events extremities (places junction.mask) junction.eventId := by
  obtain ⟨before, after, split, none⟩ := first
  have logged : (junction.eventId, places junction.mask) ∈ t.log := by simp [split]
  refine ⟨finished.exact logged, fun other reached => ?_⟩
  have some : (places junction.mask).Nonempty := card_pos.mp (Nat.lt_of_lt_of_le Nat.zero_lt_two several)
  rcases finished.taken reached some with taken | ⟨halted, below⟩
  · have sorted := finished.ordered.sorted
    rw [split, pairwise_append, List.pairwise_cons] at sorted
    rw [split] at taken
    rcases mem_append.mp taken with earlier | later
    · exact absurd rfl (none _ earlier)
    · rcases List.mem_cons.mp later with same | later
      · exact .of_before (.inl (congrArg Prod.fst same).symm)
      · exact .of_before (sorted.2.1.1 _ later)
  · obtain ⟨base, last, closes, _⟩ := finished.last halted
    have under := below _ last
    rcases closes _ logged with same | atop
    · rw [← same] at under
      exact .of_before (.inr under)
    · exact .of_before (.inr ((heapBefore_decides events [junction.eventId, base, other]).trans _ (by simp) _ (by simp)
        _ (by simp) atop under))

variable {best : List (MergeBase Id)}

variable (finished : Finished events extremities t) (recorded : Recorded events best t.log)
  (two : 2 ≤ extremities.length)
include finished recorded two

theorem Finished.surpassed (several : 2 ≤ mask.card) (larger : mask ⊂ more)
    (reached : ReachedBy events extremities more other) :
    ∃ junction ∈ best, mask ⊂ places junction.mask ∧ depthOf events other ≤ junction.depth := by
  have many : 2 ≤ more.card := Nat.le_trans several (card_le_card larger.1)
  rcases finished.taken reached (card_pos.mp (by omega)) with taken | ⟨halted, below⟩
  · obtain ⟨junction, mem, own⟩ := recorded.every _ taken many
    refine ⟨junction, mem, own ▸ larger, ?_⟩
    have top := finished.first_greatest (recorded.first junction mem) (recorded.several junction mem)
    rw [recorded.depth junction mem]
    exact (top.2 other (own ▸ reached)).depth_le
  · obtain ⟨base, last, _, only⟩ := finished.last halted
    have logged := mem_of_getLast? last
    obtain ⟨junction, mem, own⟩ := recorded.every _ logged (by rwa [card_range])
    obtain ⟨before, after, split, _⟩ := recorded.first junction mem
    have same : junction.eventId = base := by
      apply only
      rw [split, own]
      simp
    refine ⟨junction, mem, ?_, ?_⟩
    · rw [own]
      exact Finset.ssubset_of_ssubset_of_subset larger reached.within
    · rw [recorded.depth junction mem, same]
      exact (NotAbove.of_before (.inr (below _ last))).depth_le

theorem Finished.junctions (order : HashOrder MergeBasesSite) (several : 2 ≤ mask.card) (id : Id) :
    (∃ junction ∈ pruneJunctions (order.iter .bestJunction best),
        places junction.mask = mask ∧ junction.eventId = id) ↔ IsJunction events extremities mask id := by
  have perm := order.perm .bestJunction best
  constructor
  · rintro ⟨junction, mem, rfl, rfl⟩
    obtain ⟨inside, kept⟩ := mem_pruneJunctions.mp mem
    rw [perm.mem_iff] at inside
    refine ⟨finished.first_greatest (recorded.first junction inside) several, fun base greatest => ?_,
      fun more larger other greatest => ?_⟩
    · obtain ⟨halted, last⟩ := finished.greatest (by omega) greatest
      obtain ⟨base', last', closes, _⟩ := finished.last halted
      rw [last] at last'
      obtain rfl : base = base' := congrArg Prod.fst (Option.some.inj last')
      obtain ⟨before, after, split, _⟩ := recorded.first junction inside
      exact .of_before (closes (junction.eventId, places junction.mask) (by simp [split]))
    · by_contra deep
      obtain ⟨above, found, wider, deeper⟩ := finished.surpassed recorded two several larger greatest.1
      apply kept
      refine superseded_iff.mpr ⟨above, perm.mem_iff.mpr found, wider, ?_⟩
      rw [recorded.depth junction inside]
      omega
  · intro ⟨greatest, uncovered, unsurpassed⟩
    have logged : (id, mask) ∈ t.log := by
      rcases finished.taken greatest.1 (card_pos.mp (by omega)) with taken | ⟨halted, below⟩
      · exact taken
      · obtain ⟨base, last, closes, only⟩ := finished.last halted
        have own := finished.exact (mem_of_getLast? last)
        have top : GreatestReachedBy events extremities (Finset.range extremities.length) base := by
          refine ⟨own, fun other reached => ?_⟩
          rcases finished.taken reached (nonempty_range_iff.mpr (by omega)) with taken | ⟨_, under⟩
          · exact .of_before (.inl (only other taken).symm)
          · exact .of_before (.inr (under _ last))
        exact absurd (below _ last) (uncovered base top).not_before
    obtain ⟨junction, inside, own⟩ := recorded.every _ logged several
    have first := finished.first_greatest (recorded.first junction inside) (recorded.several junction inside)
    rw [own] at first
    have same : junction.eventId = id := (greatest.2 _ first.1).antisymm (first.2 _ greatest.1)
    refine ⟨junction, mem_pruneJunctions.mpr ⟨perm.mem_iff.mpr inside, fun dropped => ?_⟩, own, same⟩
    obtain ⟨other, mem, larger, deep⟩ := superseded_iff.mp dropped
    rw [perm.mem_iff] at mem
    have above := finished.first_greatest (recorded.first other mem) (recorded.several other mem)
    rw [own] at larger
    have less := unsurpassed _ larger _ above
    rw [recorded.depth junction inside, recorded.depth other mem, same] at deep
    omega

end

/-- With deeper children and steps to spare, the junctions are the closest events that each set of two extremities or
    more has in common. -/
theorem computeMergeBases_exact (order : HashOrder MergeBasesSite) (extremities : List Id) (events : EventMap Id C)
    (maxSteps : Nat) (two : 2 ≤ extremities.length) (seven : extremities.length ≤ 7)
    (deeper : DeeperChildren events)
    (spare : StepsSuffice extremities events maxSteps) :
    ∃ junctions, computeMergeBases order extremities events maxSteps = .ok junctions ∧
      (∀ mask, 2 ≤ mask.card → ∀ id, (∃ junction ∈ junctions, places junction.mask = mask ∧ junction.eventId = id) ↔
        IsJunction events extremities mask id) ∧
      (∀ junction ∈ junctions, junction.depth = depthOf events junction.eventId ∧ 2 ≤ (places junction.mask).card) ∧
      (junctions.map MergeBase.mask).Nodup ∧ junctions.Pairwise fun a b => b.depth ≤ a.depth := by
  cases fits : fullMask extremities.length with
  | none =>
    have eight := fullMask_eq_none.mp fits
    omega
  | some full =>
    obtain ⟨t, tracks, run⟩ := searchMergeBases_follows events fits maxSteps
    have stopped := basesTurn_tracks fits _ t tracks
    rw [spare full fits] at stopped
    obtain ⟨spreading, ending, search, ok, follows⟩ := tracks
    have finished : Finished events extremities t := by
      refine ⟨spreading, ending, run ▸ run_ordered deeper.downhill _ _ _, ?_⟩
      revert stopped
      cases last : turn (heapBefore events) (allReach extremities.length) (heldParents events) t with
      | none => exact fun _ => Colouring.turn_none last
      | some next =>
        intro impossible
        cases impossible
    refine ⟨pruneJunctions (order.iter .bestJunction search.bestJunction), ?_, fun mask several id =>
      finished.junctions follows.recorded two order several id, fun junction member => ?_, ?_, pruneJunctions_sorted _⟩
    · unfold computeMergeBases
      rw [if_neg (by omega), if_neg (by omega), fits]
      dsimp only
      rw [ok]
      rfl
    · have inside := (order.perm .bestJunction _).mem_iff.mp (mem_pruneJunctions.mp member).1
      exact ⟨follows.recorded.depth junction inside, follows.recorded.several junction inside⟩
    · exact pruneJunctions_distinct ((((order.perm .bestJunction _).map _).nodup_iff).mpr follows.recorded.distinct)

theorem StepsSuffice.of_allowance
    (allowance : extremities.length + events.keys.length * extremities.length ≤ maxSteps) :
    StepsSuffice extremities events maxSteps := by
  intro full fits
  obtain ⟨t, tracks, run⟩ := searchMergeBases_follows events fits maxSteps
  have stopped := basesTurn_tracks fits _ t tracks
  have ends : turn (heapBefore events) (allReach extremities.length) (heldParents events) t = none := by
    rw [run]
    exact run_ends heldParents_known presentSeeds_bound
      (Nat.le_trans (Nat.add_le_add_right presentSeeds_length _) allowance)
  rw [ends] at stopped
  revert stopped
  cases basesTurn events full (searchMergeBases extremities events full maxSteps) with
  | none => exact fun _ => rfl
  | some next =>
    intro impossible
    cases impossible

open Sample

theorem computeMergeBases_exact_fork :
    ∃ junctions, computeMergeBases .asListed [2, 3] forkedRoom 5000 = .ok junctions ∧
      ∀ mask, 2 ≤ mask.card → ∀ id, (∃ junction ∈ junctions, places junction.mask = mask ∧ junction.eventId = id) ↔
        IsJunction forkedRoom [2, 3] mask id := by
  obtain ⟨junctions, ok, answers, _⟩ := computeMergeBases_exact .asListed [2, 3] forkedRoom 5000 (by decide) (by decide)
    forkedRoom_deeper (.of_allowance (by decide))
  exact ⟨junctions, ok, answers⟩

end Rezzy.State
