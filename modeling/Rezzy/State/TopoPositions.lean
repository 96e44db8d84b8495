import Rezzy.State.PipelineTargets

namespace Rezzy.State

open Option List
open List.Pairwise (cons nil)

section

open Basespec

variable {Id C : Type} [LinearOrder Id]

def ancestorIndexAndTopo (targets : List Id) (eventsMap : EventMap Id C) : List Id × List Id :=
  let index := collectAncestorShortIdsBatch targets eventsMap
  (index, (topologicalSortShortIds index eventsMap).sortedAncestors)

def depthAboveParents (index : List Id) (depths : Id → Nat) (event : LeanEvent Id C) : Nat :=
  min (((event.prevEvents.filter (· ∈ index)).map depths).max?.getD 0 + 1) (2 ^ 64 - 1)

def recordDepth (eventsMap : EventMap Id C) (index : List Id) (depths : Id → Nat) (id : Id) : Id → Nat :=
  match eventsMap.get id with
  | some event => Function.update depths id (depthAboveParents index depths event)
  | none => depths

def parentMaxDepths (eventsMap : EventMap Id C) (index sorted : List Id) : Id → Nat :=
  sorted.foldl (recordDepth eventsMap index) fun _ => 0

def depthOfIndexed (index : List Id) (depths : Id → Nat) (id : Id) : Nat := if id ∈ index then depths id else 0

def computeTopoPositions (eventsMap : EventMap Id C) (tiebreak : Id → Id → Ordering) : List Id :=
  if eventsMap.values = [] then []
  else
    let (index, sorted) := ancestorIndexAndTopo eventsMap.keys eventsMap
    let depth := depthOfIndexed index (parentMaxDepths eventsMap index sorted)
    sorted.mergeSort fun a b => ((compare (depth a) (depth b)).then (tiebreak a b)).isLE

/-- The source fails where a sorted id has no event. -/
def recordKnownDepth (eventsMap : EventMap Id C) (index : List Id) (depths : Id → Nat) (id : Id) :
    Except (PipelinePanic Id) (Id → Nat) :=
  match eventsMap.get id with
  | some event => .ok (Function.update depths id (depthAboveParents index depths event))
  | none => .error (.indexedEventMissing id)

def computeDepths (eventsMap : EventMap Id C) : Except (PipelinePanic Id) (Id → Option Nat) :=
  if eventsMap.values = [] then .ok fun _ => none
  else do
    let (index, sorted) := ancestorIndexAndTopo eventsMap.keys eventsMap
    let depths ← sorted.foldlM (recordKnownDepth eventsMap index) fun _ => 0
    return fun id => if id ∈ index then some (depths id) else none

def reverseTopologicalOrder (tip : Id) (eventsMap : EventMap Id C) (tiebreak : Id → Id → Ordering) : List Id :=
  if eventsMap.containsKey tip then
    let (index, sorted) := ancestorIndexAndTopo [tip] eventsMap
    let depth := depthOfIndexed index (parentMaxDepths eventsMap index sorted)
    sorted.reverse.mergeSort fun a b => ((compare (depth b) (depth a)).then (tiebreak a b)).isLE
  else []

end

open Basespec Resolve

variable {Id C : Type} [LinearOrder Id]

section

/-- A path of previous events inside the map, by the number of its events and the last of them. -/
inductive PathTo (eventsMap : EventMap Id C) : Nat → Id → Prop where
  | one {id : Id} (known : id ∈ eventsMap.keys) : PathTo eventsMap 1 id
  | step {n : Nat} {parent id : Id} (path : PathTo eventsMap n parent) (precedes : Precedes eventsMap parent id) :
      PathTo eventsMap (n + 1) id

def LongestPath (eventsMap : EventMap Id C) (id : Id) (n : Nat) : Prop := IsGreatest { n | PathTo eventsMap n id } n

theorem LongestPath.unique {id : Id} (left : LongestPath eventsMap id m) (right : LongestPath eventsMap id n) :
    m = n := IsGreatest.unique left right

theorem LongestPath.lt {parent id : Id} (above : LongestPath eventsMap parent m) (below : LongestPath eventsMap id n)
    (precedes : Precedes eventsMap parent id) : m < n :=
  below.2 (PathTo.step above.1 precedes)

theorem longestPath_step {id : Id} (known : id ∈ eventsMap.keys) {parents : List Id}
    (all : ∀ parent, parent ∈ parents ↔ Precedes eventsMap parent id)
    (longest : ∀ parent ∈ parents, LongestPath eventsMap parent (depths parent)) :
    LongestPath eventsMap id ((parents.map depths).max?.getD 0 + 1) := by
  constructor
  · cases most : (parents.map depths).max? with
    | none => exact PathTo.one known
    | some depth =>
      obtain ⟨parent, member, rfl⟩ := mem_map.mp (max?_mem most)
      exact PathTo.step (longest parent member).1 ((all parent).mp member)
  · intro n path
    cases path with
    | one => exact Nat.succ_le_succ (Nat.zero_le _)
    | @step n parent _ path precedes =>
      have member := (all parent).mpr precedes
      have le := (longest parent member).2 path
      have mapped : depths parent ∈ parents.map depths := mem_map_of_mem member
      obtain ⟨most, found⟩ := isSome_iff_exists.mp (isSome_max?_of_mem mapped)
      have bound := (max?_eq_some_iff.mp found).2 (depths parent) mapped
      rw [found, getD_some]
      omega

theorem Precedes.known {parent id : Id} (precedes : Precedes eventsMap parent id) :
    parent ∈ eventsMap.keys ∧ id ∈ eventsMap.keys := by
  refine ⟨knownPrevEvents_known precedes, ?_⟩
  by_contra unknown
  have none : knownPrevEvents eventsMap id = [] := by
    rw [knownPrevEvents, prevEventsOf, EventMap.get_eq_none.mpr unknown]
    rfl
  have cited : parent ∈ knownPrevEvents eventsMap id := precedes
  rw [none] at cited
  cases cited

variable {eventsMap : EventMap Id C} {index sorted : List Id}

structure Ordered (eventsMap : EventMap Id C) (index sorted : List Id) : Prop where
  perm : sorted.Perm index
  nodup : index.Nodup
  known : ∀ id ∈ index, id ∈ eventsMap.keys
  first : Peel.ParentsFirst (knownPrevEvents eventsMap) sorted

theorem reached_known_targets (known : ∀ id ∈ targets, id ∈ eventsMap.keys) {id : Id}
    (reached : Worklist.Reached (knownPrevEvents eventsMap) targets id) : id ∈ eventsMap.keys :=
  reached.subset_of_closed (· ∈ eventsMap.keys) known fun _ _ _ => knownPrevEvents_known

theorem ancestorIndexAndTopo_ordered (known : ∀ id ∈ targets, id ∈ eventsMap.keys)
    (acyclic : ∀ id, ¬Relation.TransGen (Precedes eventsMap) id id) :
    Ordered eventsMap (collectAncestorShortIdsBatch targets eventsMap) (ancestorIndexAndTopo targets eventsMap).2 := by
  have nodup := nodup_collectAncestorShortIdsBatch targets eventsMap
  have inside : ∀ id ∈ collectAncestorShortIdsBatch targets eventsMap, id ∈ eventsMap.keys :=
    fun id member => reached_known_targets known (mem_collectAncestorShortIdsBatch.mp member)
  have parents : ∀ id ∈ collectAncestorShortIdsBatch targets eventsMap, ∀ parent,
      parent ∈ indexedParents (collectAncestorShortIdsBatch targets eventsMap) eventsMap id ↔
        parent ∈ knownPrevEvents eventsMap id := by
    intro id member parent
    rw [indexedParents_eq inside, mem_presentParents]
    intro _ cited
    exact mem_collectAncestorShortIdsBatch.mpr ((mem_collectAncestorShortIdsBatch.mp member).step cited)
  obtain ⟨cyclic, sound⟩ := checkedTopologicalPlan_spec nodup eventsMap
  have planned : checkedTopologicalPlan (collectAncestorShortIdsBatch targets eventsMap) eventsMap ≠ none := by
    rw [Ne, cyclic]
    rintro ⟨id, _, path⟩
    refine acyclic id (Relation.TransGen.mono (fun parent child cited => ?_) _ _ path)
    obtain ⟨prev, there⟩ := mem_distinctParents.mp cited
    exact mem_filter.mpr ⟨prev, containsKey_iff.mpr (inside _ there)⟩
  obtain ⟨plan, made⟩ := ne_none_iff_exists'.mp planned
  have sound := sound plan made
  have same : plan.sortedAncestors = (ancestorIndexAndTopo targets eventsMap).2 := by
    unfold checkedTopologicalPlan at made
    dsimp only at made
    split at made
    · rw [← Option.some.inj made]
      rfl
    · cases made
  rw [← same]
  refine ⟨sound.perm, nodup, inside, fun before id after split parent cited => ?_⟩
  apply sound.first before id after split parent
  rw [parents id]
  · exact cited
  · rw [← sound.perm.mem_iff, split]
    simp

section

variable (ordered : Ordered eventsMap index sorted)
include ordered

theorem Ordered.indexed_parents {before after : List Id} {id : Id} (split : sorted = before ++ id :: after)
    (found : eventsMap.get id = some event) (parent : Id) :
    parent ∈ event.prevEvents.filter (· ∈ index) ↔ Precedes eventsMap parent id := by
  have own : knownPrevEvents eventsMap id = event.prevEvents.filter eventsMap.containsKey := by
    rw [knownPrevEvents, prevEventsOf, found, map_some, getD_some]
  unfold Precedes Peel.Cites
  rw [own, mem_filter, mem_filter, decide_eq_true_eq, containsKey_iff]
  refine and_congr_right fun cited => ⟨ordered.known parent, fun known => ?_⟩
  have earlier : parent ∈ before := ordered.first before id after split parent (by
    rw [own]
    exact mem_filter.mpr ⟨cited, containsKey_iff.mpr known⟩)
  rw [← ordered.perm.mem_iff, split]
  exact mem_append_left _ earlier

theorem Ordered.depths_upTo (fits : eventsMap.keys.length < 2 ^ 64)
    {before after : List Id} (split : sorted = before ++ after) :
    ∀ id ∈ before, LongestPath eventsMap id (parentMaxDepths eventsMap index before id) ∧
      parentMaxDepths eventsMap index before id ≤ before.length := by
  induction before using reverseRecOn generalizing after with
  | nil => simp
  | append_singleton before id ih =>
    have split' : sorted = before ++ id :: after := by rw [split, append_assoc]; rfl
    have earlier := ih split'
    have member : id ∈ sorted := by rw [split']; simp
    have known := ordered.known id (ordered.perm.mem_iff.mp member)
    obtain ⟨event, found⟩ := EventMap.mem_keys.mp known
    have parents := ordered.indexed_parents split' found
    have listed : ∀ parent ∈ event.prevEvents.filter (· ∈ index), parent ∈ before := fun parent cited =>
      ordered.first before id after split' parent ((parents parent).mp cited)
    have longest := longestPath_step known parents fun parent cited => (earlier parent (listed parent cited)).1
    have room : before.length + 1 ≤ eventsMap.keys.length := by
      have within : sorted.length ≤ eventsMap.keys.length := by
        rw [ordered.perm.length_eq]
        exact (subperm_of_subset ordered.nodup ordered.known).length_le
      rw [split', length_append, length_cons] at within
      omega
    have short : ((event.prevEvents.filter (· ∈ index)).map (parentMaxDepths eventsMap index before)).max?.getD 0 ≤
        before.length := by
      cases most : ((event.prevEvents.filter (· ∈ index)).map (parentMaxDepths eventsMap index before)).max? with
      | none => exact Nat.zero_le _
      | some depth =>
        obtain ⟨parent, cited, rfl⟩ := mem_map.mp (max?_mem most)
        exact (earlier parent (listed parent cited)).2
    have fresh : id ∉ before := by
      have once : sorted.Nodup := ordered.perm.nodup_iff.mpr ordered.nodup
      rw [split', nodup_append] at once
      exact fun old => once.2.2 id old id (mem_cons_self ..) rfl
    have depths : parentMaxDepths eventsMap index (before ++ [id]) =
        Function.update (parentMaxDepths eventsMap index before) id
          (((event.prevEvents.filter (· ∈ index)).map (parentMaxDepths eventsMap index before)).max?.getD 0 + 1) := by
      have last : parentMaxDepths eventsMap index (before ++ [id]) =
          recordDepth eventsMap index (parentMaxDepths eventsMap index before) id := by
        unfold parentMaxDepths
        rw [foldl_append]
        rfl
      rw [last, recordDepth, found]
      dsimp only
      rw [depthAboveParents, Nat.min_eq_left (by omega)]
    intro other inside
    rw [depths, length_append, length_singleton]
    rcases mem_append.mp inside with old | new
    · have differ : other ≠ id := fun same => fresh (same ▸ old)
      rw [Function.update_of_ne differ]
      exact ⟨(earlier other old).1, (earlier other old).2.trans (Nat.le_succ _)⟩
    · rw [mem_singleton.mp new, Function.update_self]
      exact ⟨longest, Nat.succ_le_succ short⟩

theorem Ordered.depths (fits : eventsMap.keys.length < 2 ^ 64) {id : Id}
    (member : id ∈ index) : LongestPath eventsMap id (parentMaxDepths eventsMap index sorted id) :=
  (ordered.depths_upTo fits (append_nil sorted).symm id (ordered.perm.mem_iff.mpr member)).1

end

theorem recordKnownDepths {ids : List Id} (known : ∀ id ∈ ids, id ∈ eventsMap.keys) (depths : Id → Nat) :
    ids.foldlM (recordKnownDepth eventsMap index) depths = .ok (ids.foldl (recordDepth eventsMap index) depths) := by
  induction ids generalizing depths with
  | nil => rfl
  | cons id ids ih =>
    obtain ⟨event, found⟩ := EventMap.mem_keys.mp (known id (mem_cons_self ..))
    have first : recordKnownDepth eventsMap index depths id = .ok (recordDepth eventsMap index depths id) := by
      unfold recordKnownDepth recordDepth
      rw [found]
    rw [foldlM_cons, foldl_cons, first]
    exact ih (fun id member => known id (mem_cons_of_mem _ member)) _

end

section

variable {tiebreak : Id → Id → Ordering} {rank : Id → Int} {le : Id → Id → Bool}

def RanksBy (rank : Id → Int) (tiebreak : Id → Id → Ordering) (le : Id → Id → Bool) : Prop :=
  ∀ a b, le a b = true ↔ rank a < rank b ∨ rank a = rank b ∧ (tiebreak a b).isLE = true

section

omit [LinearOrder Id]

theorem ranksBy_depth (depth : Id → Nat) (tiebreak : Id → Id → Ordering) :
    RanksBy (fun id => depth id) tiebreak fun a b => ((compare (depth a) (depth b)).then (tiebreak a b)).isLE := by
  intro a b
  dsimp only
  rcases Nat.lt_trichotomy (depth a) (depth b) with less | same | more
  · rw [Nat.compare_eq_lt.mpr less]
    simp [Ordering.then, less]
  · rw [Nat.compare_eq_eq.mpr same]
    simp [Ordering.then, same]
  · rw [Nat.compare_eq_gt.mpr more]
    simp [Ordering.then, more.le, more.ne']

theorem ranksBy_height (depth : Id → Nat) (tiebreak : Id → Id → Ordering) :
    RanksBy (fun id => -depth id) tiebreak fun a b => ((compare (depth b) (depth a)).then (tiebreak a b)).isLE := by
  intro a b
  dsimp only
  rcases Nat.lt_trichotomy (depth a) (depth b) with less | same | more
  · rw [Nat.compare_eq_gt.mpr less]
    simp [Ordering.then, less.le, less.ne]
  · rw [Nat.compare_eq_eq.mpr same.symm]
    simp [Ordering.then, same]
  · rw [Nat.compare_eq_lt.mpr more]
    simp [Ordering.then, more]

theorem RanksBy.rank_le (ranks : RanksBy rank tiebreak le) (before : le a b = true) : rank a ≤ rank b := by
  rcases (ranks a b).mp before with less | ⟨same, _⟩
  · exact less.le
  · exact same.le

theorem RanksBy.rank_ge (ranks : RanksBy rank tiebreak le) (after : ¬le a b = true) : rank b ≤ rank a := by
  by_contra more
  exact after ((ranks a b).mpr (.inl (not_le.mp more)))

theorem RanksBy.merged (ranks : RanksBy rank tiebreak le) {left right : List Id}
    (first : left.Pairwise fun a b => rank a ≤ rank b) (second : right.Pairwise fun a b => rank a ≤ rank b) :
    (left.merge right le).Pairwise fun a b => rank a ≤ rank b := by
  induction left generalizing right with
  | nil => simpa only [List.merge] using second
  | cons a left ih =>
    induction right with
    | nil => simpa only [List.merge] using first
    | cons b right ih' =>
      have ⟨above, tail⟩ := pairwise_cons.mp first
      have ⟨beyond, rest⟩ := pairwise_cons.mp second
      rw [cons_merge_cons]
      split
      · rename_i before
        apply cons _ (ih tail second)
        intro c member
        rcases mem_merge.mp member with inLeft | inRight
        · exact above c inLeft
        · rcases mem_cons.mp inRight with rfl | inRight
          · exact ranks.rank_le before
          · exact (ranks.rank_le before).trans (beyond c inRight)
      · rename_i after
        apply cons _ (ih' rest)
        intro c member
        rcases mem_merge.mp member with inLeft | inRight
        · rcases mem_cons.mp inLeft with rfl | inLeft
          · exact ranks.rank_ge after
          · exact (ranks.rank_ge after).trans (above c inLeft)
        · exact beyond c inRight

theorem RanksBy.ranked (ranks : RanksBy rank tiebreak le) (ids : List Id) :
    (ids.mergeSort le).Pairwise fun a b => rank a ≤ rank b := by
  fun_induction mergeSort ids le with
  | case1 => exact nil
  | case2 a => exact pairwise_singleton _ _
  | case3 a b rest le halves _ _ ih ih' => exact ranks.merged (ih ranks) (ih' ranks)

end

theorem RanksBy.idxOf_lt (ranks : RanksBy rank tiebreak le) {ids : List Id} (inLeft : a ∈ ids) (inRight : b ∈ ids)
    (less : rank a < rank b) : (ids.mergeSort le).idxOf a < (ids.mergeSort le).idxOf b := by
  have perm := mergeSort_perm ids le
  have here := idxOf_lt_length_iff.mpr (perm.mem_iff.mpr inLeft)
  have there := idxOf_lt_length_iff.mpr (perm.mem_iff.mpr inRight)
  by_contra later
  rcases Nat.eq_or_lt_of_not_lt later with same | before
  · have equal : a = b := by
      rw [← getElem_idxOf here, ← getElem_idxOf there]
      congr 1
    exact absurd less (by rw [equal]; exact lt_irrefl _)
  · have pair := pairwise_iff_getElem.mp (ranks.ranked ids) _ _ there here before
    rw [getElem_idxOf, getElem_idxOf] at pair
    exact absurd less (not_lt.mpr pair)

variable [Std.TransCmp tiebreak]

omit [LinearOrder Id] in
theorem RanksBy.sorted (ranks : RanksBy rank tiebreak le) (ids : List Id) :
    (ids.mergeSort le).Pairwise fun a b => le a b = true := by
  apply pairwise_mergeSort
  · intro a b _ first second
    rw [ranks] at first second ⊢
    rcases first with less | ⟨same, tie⟩
    · rcases second with further | ⟨same, _⟩
      · exact .inl (less.trans further)
      · exact .inl (same ▸ less)
    · rcases second with less | ⟨further, tied⟩
      · exact .inl (same ▸ less)
      · exact .inr ⟨same.trans further, Std.TransCmp.isLE_trans tie tied⟩
  · intro a b
    rw [Bool.or_eq_true, ranks, ranks]
    rcases lt_trichotomy (rank a) (rank b) with less | same | more
    · exact .inl (.inl less)
    · have swapped : tiebreak b a = (tiebreak a b).swap := Std.OrientedCmp.eq_swap
      have either : (tiebreak a b).isLE = true ∨ (tiebreak b a).isLE = true := by
        rw [swapped]
        cases tiebreak a b <;> simp
      exact either.imp (fun tie => .inr ⟨same, tie⟩) fun tie => .inr ⟨same.symm, tie⟩
    · exact .inr (.inl more)

omit [LinearOrder Id] in
theorem RanksBy.sort_unique [Std.LawfulEqCmp tiebreak] (ranks : RanksBy rank tiebreak le)
    (ranks' : RanksBy rank' tiebreak le') {ids ids' : List Id} (perm : ids.Perm ids')
    (agree : ∀ id ∈ ids, rank id = rank' id) : ids.mergeSort le = ids'.mergeSort le' := by
  have sorted := ranks.sorted ids
  have sorted' := ranks'.sorted ids'
  have same : (ids.mergeSort le).Perm (ids'.mergeSort le') :=
    (mergeSort_perm ids le).trans (perm.trans (mergeSort_perm ids' le').symm)
  have moved : (ids'.mergeSort le').Pairwise fun a b => le a b = true := by
    apply sorted'.imp_of_mem
    intro a b inLeft inRight before
    rw [ranks]
    rw [ranks'] at before
    rw [agree a (perm.mem_iff.mpr (mem_mergeSort.mp inLeft)), agree b (perm.mem_iff.mpr (mem_mergeSort.mp inRight))]
    exact before
  apply same.eq_of_pairwise _ sorted moved
  intro a b _ _ before after
  rcases (ranks a b).mp before with less | ⟨level, tie⟩
  · exact absurd less (not_lt.mpr (ranks.rank_le after))
  · rcases (ranks b a).mp after with less | ⟨_, tied⟩
    · exact absurd less (by rw [level]; exact lt_irrefl _)
    · have swapped : tiebreak b a = (tiebreak a b).swap := Std.OrientedCmp.eq_swap
      rw [swapped] at tied
      have equal : tiebreak a b = .eq := by
        cases order : tiebreak a b with
        | eq => rfl
        | lt => rw [order] at tied; cases tied
        | gt => rw [order] at tie; cases tie
      exact Std.LawfulEqCmp.eq_of_compare equal

end

section

variable {eventsMap other : EventMap Id C} {tiebreak : Id → Id → Ordering}

/-- The same ids with the same previous events, whatever else the events say and wherever they are stored. -/
def SameGraph (eventsMap other : EventMap Id C) : Prop :=
  ∀ id, (eventsMap.get id).map LeanEvent.prevEvents = (other.get id).map LeanEvent.prevEvents

section

variable (same : SameGraph eventsMap other)
include same

theorem SameGraph.known (id : Id) : id ∈ eventsMap.keys ↔ id ∈ other.keys := by
  have isSome := congrArg isSome (same id)
  rw [isSome_map, isSome_map] at isSome
  rw [EventMap.mem_keys, EventMap.mem_keys, ← isSome_iff_exists, ← isSome_iff_exists, isSome]

theorem SameGraph.knownPrevEvents (id : Id) : State.knownPrevEvents eventsMap id = State.knownPrevEvents other id := by
  unfold State.knownPrevEvents prevEventsOf
  rw [same id]
  apply filter_congr
  intro _ _
  rw [Bool.eq_iff_iff, containsKey_iff, containsKey_iff, same.known]

theorem SameGraph.precedes : Precedes eventsMap = Precedes other := by
  funext parent id
  unfold Precedes Peel.Cites
  rw [same.knownPrevEvents]

theorem SameGraph.longestPath (id : Id) (n : Nat) : LongestPath eventsMap id n ↔ LongestPath other id n := by
  have path : ∀ {left right : EventMap Id C}, SameGraph left right → ∀ {n id}, PathTo left n id → PathTo right n id := by
    intro left right same n id path
    induction path with
    | one known => exact .one ((same.known _).mp known)
    | step _ precedes ih => exact .step ih (same.precedes ▸ precedes)
  have paths : { n | PathTo eventsMap n id } = { n | PathTo other n id } := by
    ext n
    exact ⟨path same, path fun id => (same id).symm⟩
  unfold LongestPath
  rw [paths]

end

theorem LongestPath.known {id : Id} (longest : LongestPath eventsMap id n) : id ∈ eventsMap.keys := by
  rcases longest with ⟨path, _⟩
  cases path with
  | one known => exact known
  | step _ precedes => exact precedes.known.2

theorem depthOfIndexed_of_mem {id : Id} (member : id ∈ index) (depths : Id → Nat) :
    depthOfIndexed index depths id = depths id := if_pos member

theorem Ordered.depth_agree (ordered : Ordered eventsMap index sorted) (ordered' : Ordered other index' sorted')
    (same : SameGraph eventsMap other) (fits : eventsMap.keys.length < 2 ^ 64) (fits' : other.keys.length < 2 ^ 64)
    {id : Id} (member : id ∈ index) (member' : id ∈ index') :
    depthOfIndexed index (parentMaxDepths eventsMap index sorted) id =
      depthOfIndexed index' (parentMaxDepths other index' sorted') id := by
  rw [depthOfIndexed_of_mem member, depthOfIndexed_of_mem member']
  exact (ordered.depths fits member).unique ((same.longestPath id _).mpr (ordered'.depths fits' member'))

theorem Ordered.depth_lt (ordered : Ordered eventsMap index sorted) (fits : eventsMap.keys.length < 2 ^ 64)
    {parent id : Id} (inParent : parent ∈ index) (inChild : id ∈ index) (precedes : Precedes eventsMap parent id) :
    depthOfIndexed index (parentMaxDepths eventsMap index sorted) parent <
      depthOfIndexed index (parentMaxDepths eventsMap index sorted) id := by
  rw [depthOfIndexed_of_mem inParent, depthOfIndexed_of_mem inChild]
  exact (ordered.depths fits inParent).lt (ordered.depths fits inChild) precedes

theorem mem_wholeIndex {id : Id} : id ∈ collectAncestorShortIdsBatch eventsMap.keys eventsMap ↔ id ∈ eventsMap.keys := by
  rw [mem_collectAncestorShortIdsBatch]
  exact ⟨reached_known_targets fun _ known => known, Worklist.Reached.seed⟩

theorem mem_tipIndex {tip id : Id} : id ∈ collectAncestorShortIdsBatch [tip] eventsMap ↔
    Relation.ReflTransGen (Precedes eventsMap) id tip := by
  rw [mem_collectAncestorShortIdsBatch]
  constructor
  · rintro ⟨root, member, path⟩
    rw [mem_singleton.mp member] at path
    exact Relation.reflTransGen_swap.mp path
  · intro path
    exact ⟨tip, mem_singleton.mpr rfl, Relation.reflTransGen_swap.mpr path⟩

omit [LinearOrder Id] in
theorem keys_nil_of_values_nil (blank : eventsMap.values = []) : eventsMap.keys = [] := by
  rw [EventMap.keys, blank]
  rfl

section

variable (acyclic : ∀ id, ¬Relation.TransGen (Precedes eventsMap) id id)
include acyclic

theorem wholeOrder : Ordered eventsMap (collectAncestorShortIdsBatch eventsMap.keys eventsMap)
    (ancestorIndexAndTopo eventsMap.keys eventsMap).2 := ancestorIndexAndTopo_ordered (fun _ known => known) acyclic

theorem tipOrder (known : tip ∈ eventsMap.keys) :
    Ordered eventsMap (collectAncestorShortIdsBatch [tip] eventsMap) (ancestorIndexAndTopo [tip] eventsMap).2 :=
  ancestorIndexAndTopo_ordered (fun id member => by rw [mem_singleton.mp member]; exact known) acyclic

theorem computeDepths_longest (fits : eventsMap.keys.length < 2 ^ 64) :
    ∃ depths, computeDepths eventsMap = .ok depths ∧ ∀ id n, depths id = some n ↔ LongestPath eventsMap id n := by
  by_cases blank : eventsMap.values = []
  · refine ⟨fun _ => none, if_pos blank, fun id n => ?_⟩
    have unknown : id ∉ eventsMap.keys := by
      rw [keys_nil_of_values_nil blank]
      exact not_mem_nil
    constructor
    · intro found
      cases found
    · exact fun longest => absurd longest.known unknown
  · have ordered := wholeOrder acyclic
    have known : ∀ id ∈ (ancestorIndexAndTopo eventsMap.keys eventsMap).2, id ∈ eventsMap.keys :=
      fun id member => ordered.known id (ordered.perm.mem_iff.mp member)
    have run : (ancestorIndexAndTopo eventsMap.keys eventsMap).2.foldlM
        (recordKnownDepth eventsMap (collectAncestorShortIdsBatch eventsMap.keys eventsMap)) (fun _ => 0) =
        .ok (parentMaxDepths eventsMap (collectAncestorShortIdsBatch eventsMap.keys eventsMap)
          (ancestorIndexAndTopo eventsMap.keys eventsMap).2) := recordKnownDepths known _
    have computed : computeDepths eventsMap = .ok fun id =>
        if id ∈ collectAncestorShortIdsBatch eventsMap.keys eventsMap then
          some (parentMaxDepths eventsMap (collectAncestorShortIdsBatch eventsMap.keys eventsMap)
            (ancestorIndexAndTopo eventsMap.keys eventsMap).2 id)
        else none := by
      unfold computeDepths
      rw [if_neg blank]
      exact congrArg (Except.map _) run
    refine ⟨_, computed, fun id n => ?_⟩
    by_cases inside : id ∈ collectAncestorShortIdsBatch eventsMap.keys eventsMap
    · have longest := ordered.depths fits inside
      rw [if_pos inside, some_inj]
      exact ⟨fun same => same ▸ longest, fun other => longest.unique other⟩
    · rw [if_neg inside]
      constructor
      · intro found
        cases found
      · exact fun longest => absurd (mem_wholeIndex.mpr longest.known) inside

theorem computeTopoPositions_eq (tiebreak : Id → Id → Ordering) : computeTopoPositions eventsMap tiebreak =
    (ancestorIndexAndTopo eventsMap.keys eventsMap).2.mergeSort fun a b =>
      ((compare (depthOfIndexed (collectAncestorShortIdsBatch eventsMap.keys eventsMap)
          (parentMaxDepths eventsMap (collectAncestorShortIdsBatch eventsMap.keys eventsMap)
            (ancestorIndexAndTopo eventsMap.keys eventsMap).2) a)
        (depthOfIndexed (collectAncestorShortIdsBatch eventsMap.keys eventsMap)
          (parentMaxDepths eventsMap (collectAncestorShortIdsBatch eventsMap.keys eventsMap)
            (ancestorIndexAndTopo eventsMap.keys eventsMap).2) b)).then (tiebreak a b)).isLE := by
  by_cases blank : eventsMap.values = []
  · have ordered := wholeOrder acyclic
    have nothing : (ancestorIndexAndTopo eventsMap.keys eventsMap).2 = [] := by
      rw [eq_nil_iff_forall_not_mem]
      intro id member
      have known := ordered.known id (ordered.perm.mem_iff.mp member)
      rw [keys_nil_of_values_nil blank] at known
      cases known
    rw [nothing, mergeSort_nil]
    exact if_pos blank
  · unfold computeTopoPositions
    rw [if_neg blank]
    rfl

theorem computeTopoPositions_perm (tiebreak : Id → Id → Ordering) :
    (computeTopoPositions eventsMap tiebreak).Perm (collectAncestorShortIdsBatch eventsMap.keys eventsMap) := by
  rw [computeTopoPositions_eq acyclic]
  exact (mergeSort_perm _ _).trans (wholeOrder acyclic).perm

theorem computeTopoPositions_parents_first (fits : eventsMap.keys.length < 2 ^ 64) (tiebreak : Id → Id → Ordering)
    {parent id : Id} (precedes : Precedes eventsMap parent id) :
    (computeTopoPositions eventsMap tiebreak).idxOf parent < (computeTopoPositions eventsMap tiebreak).idxOf id := by
  have ordered := wholeOrder acyclic
  have inParent := mem_wholeIndex.mpr precedes.known.1
  have inChild := mem_wholeIndex.mpr precedes.known.2
  rw [computeTopoPositions_eq acyclic]
  apply (ranksBy_depth _ tiebreak).idxOf_lt (ordered.perm.mem_iff.mpr inParent) (ordered.perm.mem_iff.mpr inChild)
  exact Int.ofNat_lt.mpr (ordered.depth_lt fits inParent inChild precedes)

omit acyclic in
theorem reverseTopologicalOrder_unknown (unknown : tip ∉ eventsMap.keys) (tiebreak : Id → Id → Ordering) :
    reverseTopologicalOrder tip eventsMap tiebreak = [] := by
  unfold reverseTopologicalOrder
  rw [if_neg fun known => unknown (containsKey_iff.mp known)]

omit acyclic in
theorem reverseTopologicalOrder_eq (known : tip ∈ eventsMap.keys) (tiebreak : Id → Id → Ordering) :
    reverseTopologicalOrder tip eventsMap tiebreak =
      (ancestorIndexAndTopo [tip] eventsMap).2.reverse.mergeSort fun a b =>
        ((compare (depthOfIndexed (collectAncestorShortIdsBatch [tip] eventsMap)
            (parentMaxDepths eventsMap (collectAncestorShortIdsBatch [tip] eventsMap)
              (ancestorIndexAndTopo [tip] eventsMap).2) b)
          (depthOfIndexed (collectAncestorShortIdsBatch [tip] eventsMap)
            (parentMaxDepths eventsMap (collectAncestorShortIdsBatch [tip] eventsMap)
              (ancestorIndexAndTopo [tip] eventsMap).2) a)).then (tiebreak a b)).isLE := by
  unfold reverseTopologicalOrder
  rw [if_pos (containsKey_iff.mpr known)]
  rfl

theorem reverseTopologicalOrder_perm (known : tip ∈ eventsMap.keys) (tiebreak : Id → Id → Ordering) :
    (reverseTopologicalOrder tip eventsMap tiebreak).Perm (collectAncestorShortIdsBatch [tip] eventsMap) := by
  rw [reverseTopologicalOrder_eq known]
  exact (mergeSort_perm _ _).trans ((reverse_perm _).trans (tipOrder acyclic known).perm)

theorem reverseTopologicalOrder_nodup (tip : Id) (tiebreak : Id → Id → Ordering) :
    (reverseTopologicalOrder tip eventsMap tiebreak).Nodup := by
  by_cases known : tip ∈ eventsMap.keys
  · exact (reverseTopologicalOrder_perm acyclic known tiebreak).nodup_iff.mpr (tipOrder acyclic known).nodup
  · rw [reverseTopologicalOrder_unknown known]
    exact nodup_nil

theorem mem_reverseTopologicalOrder {tip : Id} (tiebreak : Id → Id → Ordering) {id : Id} :
    id ∈ reverseTopologicalOrder tip eventsMap tiebreak ↔
      tip ∈ eventsMap.keys ∧ Relation.ReflTransGen (Precedes eventsMap) id tip := by
  by_cases known : tip ∈ eventsMap.keys
  · rw [(reverseTopologicalOrder_perm acyclic known tiebreak).mem_iff, mem_tipIndex]
    exact (and_iff_right known).symm
  · rw [reverseTopologicalOrder_unknown known]
    exact ⟨fun member => absurd member not_mem_nil, fun reached => absurd reached.1 known⟩

theorem reverseTopologicalOrder_children_first (fits : eventsMap.keys.length < 2 ^ 64) {tip : Id}
    (tiebreak : Id → Id → Ordering) {parent id : Id} (member : id ∈ reverseTopologicalOrder tip eventsMap tiebreak)
    (precedes : Precedes eventsMap parent id) :
    (reverseTopologicalOrder tip eventsMap tiebreak).idxOf id <
      (reverseTopologicalOrder tip eventsMap tiebreak).idxOf parent := by
  obtain ⟨known, path⟩ := (mem_reverseTopologicalOrder acyclic tiebreak).mp member
  have ordered := tipOrder acyclic known
  have inChild := mem_tipIndex.mpr path
  have inParent := mem_tipIndex.mpr (path.head precedes)
  rw [reverseTopologicalOrder_eq known]
  apply (ranksBy_height _ tiebreak).idxOf_lt
  · exact mem_reverse.mpr (ordered.perm.mem_iff.mpr inChild)
  · exact mem_reverse.mpr (ordered.perm.mem_iff.mpr inParent)
  · exact Int.neg_lt_neg (Int.ofNat_lt.mpr (ordered.depth_lt fits inParent inChild precedes))

variable (same : SameGraph eventsMap other)
include same

omit acyclic in
theorem SameGraph.length_eq : eventsMap.keys.length = other.keys.length := by
  have perm : eventsMap.keys.Perm other.keys := (perm_ext_iff_of_nodup eventsMap.distinct other.distinct).mpr same.known
  exact perm.length_eq

variable [Std.TransCmp tiebreak] [Std.LawfulEqCmp tiebreak] (fits : eventsMap.keys.length < 2 ^ 64)
include fits

theorem computeTopoPositions_same : computeTopoPositions other tiebreak = computeTopoPositions eventsMap tiebreak := by
  have acyclic' : ∀ id, ¬Relation.TransGen (Precedes other) id id := by
    rw [← same.precedes]
    exact acyclic
  have ordered := wholeOrder acyclic
  have ordered' := wholeOrder acyclic'
  rw [computeTopoPositions_eq acyclic, computeTopoPositions_eq acyclic']
  have members : ∀ id, id ∈ collectAncestorShortIdsBatch eventsMap.keys eventsMap ↔
      id ∈ collectAncestorShortIdsBatch other.keys other := by
    intro id
    rw [mem_wholeIndex, mem_wholeIndex, same.known]
  have perm := (perm_ext_iff_of_nodup ordered.nodup ordered'.nodup).mpr members
  symm
  apply (ranksBy_depth _ tiebreak).sort_unique (ranksBy_depth _ tiebreak)
    (ordered.perm.trans (perm.trans ordered'.perm.symm))
  intro id member
  have inside := ordered.perm.mem_iff.mp member
  exact congrArg Int.ofNat
    (ordered.depth_agree ordered' same fits (same.length_eq ▸ fits) inside ((members id).mp inside))

theorem reverseTopologicalOrder_same (tip : Id) :
    reverseTopologicalOrder tip other tiebreak = reverseTopologicalOrder tip eventsMap tiebreak := by
  by_cases known : tip ∈ eventsMap.keys
  · have known' := (same.known tip).mp known
    have acyclic' : ∀ id, ¬Relation.TransGen (Precedes other) id id := by
      rw [← same.precedes]
      exact acyclic
    have ordered := tipOrder acyclic known
    have ordered' := tipOrder acyclic' known'
    rw [reverseTopologicalOrder_eq known, reverseTopologicalOrder_eq known']
    have members : ∀ id, id ∈ collectAncestorShortIdsBatch [tip] eventsMap ↔
        id ∈ collectAncestorShortIdsBatch [tip] other := by
      intro id
      rw [mem_tipIndex, mem_tipIndex, same.precedes]
    have perm := (perm_ext_iff_of_nodup ordered.nodup ordered'.nodup).mpr members
    symm
    apply (ranksBy_height _ tiebreak).sort_unique (ranksBy_height _ tiebreak) ((reverse_perm _).trans
        (ordered.perm.trans (perm.trans (ordered'.perm.symm.trans (reverse_perm _).symm))))
    intro id member
    have inside := ordered.perm.mem_iff.mp (mem_reverse.mp member)
    have depth := ordered.depth_agree ordered' same fits (same.length_eq ▸ fits) inside ((members id).mp inside)
    rw [depth]
  · rw [reverseTopologicalOrder_unknown known,
      reverseTopologicalOrder_unknown fun known' => known ((same.known tip).mpr known')]

end

/-- What the three orders say of a map without cycles, that has no more events than a machine can count. -/
theorem topoPositions_exact (eventsMap : EventMap Id C) (tiebreak : Id → Id → Ordering)
    (acyclic : ∀ id, ¬Relation.TransGen (Precedes eventsMap) id id) (fits : eventsMap.keys.length < 2 ^ 64) :
    (∃ depths, computeDepths eventsMap = .ok depths ∧
      ∀ id n, depths id = some n ↔ LongestPath eventsMap id n) ∧
    (computeTopoPositions eventsMap tiebreak).Perm eventsMap.keys ∧
    (∀ parent id, Precedes eventsMap parent id →
      (computeTopoPositions eventsMap tiebreak).idxOf parent <
        (computeTopoPositions eventsMap tiebreak).idxOf id) ∧
    (∀ tip, (reverseTopologicalOrder tip eventsMap tiebreak).Nodup ∧
      (∀ id, id ∈ reverseTopologicalOrder tip eventsMap tiebreak ↔
        tip ∈ eventsMap.keys ∧ Relation.ReflTransGen (Precedes eventsMap) id tip) ∧
      ∀ parent, ∀ id ∈ reverseTopologicalOrder tip eventsMap tiebreak, Precedes eventsMap parent id →
        (reverseTopologicalOrder tip eventsMap tiebreak).idxOf id <
          (reverseTopologicalOrder tip eventsMap tiebreak).idxOf parent) ∧
    (Std.TransCmp tiebreak → Std.LawfulEqCmp tiebreak → ∀ other, SameGraph eventsMap other →
      computeTopoPositions other tiebreak = computeTopoPositions eventsMap tiebreak ∧
        ∀ tip, reverseTopologicalOrder tip other tiebreak = reverseTopologicalOrder tip eventsMap tiebreak) := by
  refine ⟨computeDepths_longest acyclic fits, ?_, fun parent id => computeTopoPositions_parents_first acyclic fits _,
    fun tip => ⟨reverseTopologicalOrder_nodup acyclic tip _, fun id => mem_reverseTopologicalOrder acyclic _,
      fun parent id member => reverseTopologicalOrder_children_first acyclic fits _ member⟩,
    fun _ _ other same => ⟨computeTopoPositions_same acyclic same fits,
      reverseTopologicalOrder_same acyclic same fits⟩⟩
  have whole := (List.perm_ext_iff_of_nodup (nodup_collectAncestorShortIdsBatch _ _) eventsMap.distinct).mpr
    fun id => mem_wholeIndex
  exact (computeTopoPositions_perm acyclic tiebreak).trans whole

end

/-- A fork whose message cites one parent twice. -/
theorem topoPositions_topicFork :
    (computeTopoPositions Sample.topicFork.eventsMap compare).Perm Sample.topicFork.eventsMap.keys ∧
      ∀ parent id, Precedes Sample.topicFork.eventsMap parent id →
        (computeTopoPositions Sample.topicFork.eventsMap compare).idxOf parent <
          (computeTopoPositions Sample.topicFork.eventsMap compare).idxOf id := by
  have ordered := topoPositions_exact Sample.topicFork.eventsMap compare topicFork_acyclic (by decide)
  exact ⟨ordered.2.1, ordered.2.2.1⟩

end Rezzy.State
