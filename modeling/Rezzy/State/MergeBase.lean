import Rezzy.Basespec.Event
import Rezzy.Lib.Colouring

namespace Rezzy.State

open Colouring List Finset Option

section

open Basespec Permuted

variable {Id C : Type}

/-- The ways the merge base searches give up with a panic. -/
inductive MergeBasePanic where
  | tooManyExtremities
  | extremityOverflow
  | bitmaskOverflow
  | missingMask
deriving DecidableEq, Repr

variable [LinearOrder Id]

def depthOf (events : EventMap Id C) (id : Id) : Nat := ((events.get id).map LeanEvent.depth).getD 0

def heapBefore (events : EventMap Id C) (a b : Id) : Bool :=
  depthOf events b < depthOf events a || (depthOf events a = depthOf events b && b < a)

def prevEvents (events : EventMap Id C) (id : Id) : List Id :=
  ((events.get id).map LeanEvent.prevEvents).getD []

structure MaskSearch (Id Mask : Type) where
  queue : List Id
  masks : Id → Option Mask

def seedExtremity (events : EventMap Id C) (s : MaskSearch Id (Finset Nat)) (extremity : Id × Nat) :
    Except MergeBasePanic (MaskSearch Id (Finset Nat)) :=
  if events.containsKey extremity.1 then
    if extremity.2 < 2 ^ 32 then
      .ok ⟨s.queue ++ [extremity.1],
        Function.update s.masks extremity.1 (some (insert extremity.2 ((s.masks extremity.1).getD ∅)))⟩
    else .error .extremityOverflow
  else .ok s

def unionParent (events : EventMap Id C) (currentMask : Finset Nat) (s : MaskSearch Id (Finset Nat)) (parentId : Id) :
    MaskSearch Id (Finset Nat) :=
  if events.containsKey parentId then
    let isNew := (s.masks parentId).isNone
    let parentMask := (s.masks parentId).getD ∅
    let merged := parentMask ∪ currentMask
    ⟨if isNew ∨ parentMask.card < merged.card then s.queue ++ [parentId] else s.queue,
      Function.update s.masks parentId (some merged)⟩
  else s

structure BaseSearch (Id : Type) extends MaskSearch Id (Finset Nat) where
  found : Option Id

def baseTurn (events : EventMap Id C) (targetCount : Nat) (s : Except MergeBasePanic (BaseSearch Id)) :
    Option (Except MergeBasePanic (BaseSearch Id)) :=
  match s with
  | .error _ => none
  | .ok s =>
    if s.found.isSome then none
    else
      match Permuted.popFirst (heapBefore events) s.queue with
      | none => none
      | some (currentId, rest) =>
        match s.masks currentId with
        | none => some (.error .missingMask)
        | some currentMask =>
          if currentMask.card = targetCount then some (.ok ⟨⟨rest, s.masks⟩, some currentId⟩)
          else some (.ok ⟨(prevEvents events currentId).foldl (unionParent events currentMask) ⟨rest, s.masks⟩, none⟩)

def searchMergeBase (extremities : List Id) (events : EventMap Id C) : Except MergeBasePanic (BaseSearch Id) :=
  Loop.run (baseTurn events extremities.length) (extremities.length + events.keys.length * extremities.length)
    ((extremities.zipIdx.foldlM (seedExtremity events) ⟨[], fun _ => none⟩).map fun s => ⟨s, none⟩)

def computeMergeBase (extremities : List Id) (events : EventMap Id C) : Except MergeBasePanic (Option Id) :=
  match extremities with
  | [] => .ok none
  | [extremity] => .ok (if events.containsKey extremity then some extremity else none)
  | _ => (searchMergeBase extremities events).map BaseSearch.found

end

open Basespec Permuted

open Colouring (Walk Hits Spreading Ending Ordered Downhill paint)

variable {Id C : Type} [LinearOrder Id]

section

def NamesPrev (events : EventMap Id C) (child parent : Id) : Prop :=
  ∃ event, events.get child = some event ∧ parent ∈ event.prevEvents ∧ parent ∈ events.keys

abbrev LeadsBack (events : EventMap Id C) : Id → Id → Prop := Relation.ReflTransGen (NamesPrev events)

def CommonAncestor (events : EventMap Id C) (extremities : List Id) (id : Id) : Prop :=
  ∀ extremity ∈ extremities, extremity ∈ events.keys ∧ LeadsBack events extremity id

def DeeperChildren (events : EventMap Id C) : Prop :=
  ∀ child parent, NamesPrev events child parent → depthOf events parent < depthOf events child

def ReachedFrom (events : EventMap Id C) (extremities : List Id) (i : Nat) (id : Id) : Prop :=
  ∃ extremity, extremities[i]? = some extremity ∧ extremity ∈ events.keys ∧ LeadsBack events extremity id

def heldParents (events : EventMap Id C) (id : Id) : List Id := (prevEvents events id).filter events.containsKey

def presentSeeds (events : EventMap Id C) (extremities : List Id) : List (Id × Nat) :=
  extremities.zipIdx.filter fun extremity => events.containsKey extremity.1

variable {events : EventMap Id C} {extremities : List Id}

theorem DeeperChildren.of_values (deeper : ∀ event ∈ events.values, ∀ parent ∈ event.prevEvents,
    parent ∈ events.keys → depthOf events parent < event.depth) : DeeperChildren events := by
  rintro child parent ⟨event, found, named, known⟩
  have own : depthOf events child = event.depth := by rw [depthOf, found, map_some, getD_some]
  rw [own]
  exact deeper event (events.get_mem found) parent named known

theorem containsKey_eq_true {id : Id} : events.containsKey id = true ↔ id ∈ events.keys := by
  rw [EventMap.mem_keys, EventMap.containsKey, isSome_iff_exists]

theorem edge_heldParents : Worklist.Edge (heldParents events) = NamesPrev events := by
  funext child parent
  unfold Worklist.Edge heldParents prevEvents NamesPrev
  rw [mem_filter, containsKey_eq_true]
  cases found : events.get child with
  | none => simp
  | some event => simp

theorem hits_iff {id : Id} :
    Hits (presentSeeds events extremities) (heldParents events) i id ↔ ReachedFrom events extremities i id := by
  unfold Hits ReachedFrom presentSeeds
  rw [edge_heldParents]
  simp only [mem_filter, mem_zipIdx_iff_getElem?, containsKey_eq_true, and_assoc]

theorem commonAncestor_iff {id : Id} :
    CommonAncestor events extremities id ↔ ∀ i < extremities.length, ReachedFrom events extremities i id := by
  constructor
  · intro common i bound
    exact ⟨extremities[i], getElem?_eq_getElem bound, common _ (getElem_mem bound)⟩
  · intro reached extremity member
    obtain ⟨i, bound, rfl⟩ := getElem_of_mem member
    obtain ⟨other, here, both⟩ := reached i bound
    rw [getElem?_eq_getElem bound] at here
    exact Option.some.inj here ▸ both

theorem heapBefore_iff : heapBefore events a b = true ↔
    depthOf events b < depthOf events a ∨ depthOf events a = depthOf events b ∧ b < a := by
  simp [heapBefore]

theorem heapBefore_decides (events : EventMap Id C) (l : List Id) : Decides (heapBefore events) l := by
  refine ⟨fun x _ y _ before => ?_, fun x _ y _ z _ before after => ?_, fun x _ y _ differ => ?_⟩
  · rw [heapBefore_iff] at before
    rw [← Bool.not_eq_true, heapBefore_iff]
    grind
  · rw [heapBefore_iff] at *
    grind
  · rw [heapBefore_iff, heapBefore_iff]
    grind

theorem DeeperChildren.downhill (deeper : DeeperChildren events) :
    Downhill (heapBefore events) (heldParents events) where
  decides := heapBefore_decides events
  descends child parent edge :=
    heapBefore_iff.mpr (.inl (deeper child parent (congrFun (congrFun edge_heldParents child) parent ▸ edge)))

theorem heldParents_known (id : Id) : ∀ parent ∈ heldParents events id, parent ∈ events.keys :=
  fun _ edge => containsKey_eq_true.mp (mem_filter.mp edge).2

theorem presentSeeds_bound : ∀ seed ∈ presentSeeds events extremities, seed.2 < extremities.length :=
  fun _ member => (List.getElem?_eq_some_iff.mp (mem_zipIdx_iff_getElem?.mp (mem_filter.mp member).1)).1

theorem presentSeeds_length : (presentSeeds events extremities).length ≤ extremities.length :=
  Nat.le_trans (length_filter_le _ _) (by rw [length_zipIdx])

end

section

variable {events : EventMap Id C}

section

variable {Mask : Type} {view : Mask → Finset Nat} {blank : Mask}

/-- The masks of a search are the colours of a walk; `view` tells the colours of a mask. -/
structure Painted (view : Mask → Finset Nat) (blank : Mask) (s : MaskSearch Id Mask) (t : Walk Id) : Prop where
  queue : s.queue = t.queue
  masks : ∀ id, view ((s.masks id).getD blank) = t.mask id

theorem Painted.update {s : MaskSearch Id Mask} {t : Walk Id} (painted : Painted view blank s t) {id : Id} {merged : Mask}
    {colours : Finset Nat} (adds : view merged = t.mask id ∪ colours) {queue : List Id}
    (waits : queue = (paint colours t id).queue) :
    Painted view blank ⟨queue, Function.update s.masks id (some merged)⟩ (paint colours t id) := by
  refine ⟨waits, fun other => ?_⟩
  rw [paint_mask]
  dsimp only
  by_cases same : other = id
  · rw [same, Function.update_self, getD_some, adds, if_pos rfl]
  · rw [Function.update_of_ne same, if_neg same, painted.masks]

omit [LinearOrder Id] in
theorem Painted.mask_of_waiting (painted : Painted view blank s t) (bare : view blank = ∅)
    (coloured : (t.mask x).Nonempty) : ∃ mask, s.masks x = some mask ∧ view mask = t.mask x := by
  have same := painted.masks x
  cases known : s.masks x with
  | none =>
    rw [known, getD_none, bare] at same
    rw [← same] at coloured
    exact absurd coloured Finset.not_nonempty_empty
  | some mask =>
    rw [known] at same
    exact ⟨mask, rfl, same⟩

variable (events) in
theorem parents_painted (each : ∀ s t, Painted view blank s t → ∀ parentId, Painted view blank (step s parentId)
      (if events.containsKey parentId then paint colours t parentId else t)) (parents : List Id)
    (painted : Painted view blank s t) :
    Painted view blank (parents.foldl step s) ((parents.filter events.containsKey).foldl (paint colours) t) := by
  rw [foldl_filter]
  induction parents generalizing s t with
  | nil => exact painted
  | cons parent parents ih => exact ih (each s t painted parent)

variable (events) in
theorem seeds_painted (step : MaskSearch Id Mask → Id × Nat → Except MergeBasePanic (MaskSearch Id Mask))
    (each : ∀ s t, Painted view blank s t → ∀ extremity i, i < limit → i ∉ t.mask extremity →
      ∃ next, step s (extremity, i) = .ok next ∧
        Painted view blank next (if events.containsKey extremity then paint {i} t extremity else t))
    (l : List (Id × Nat)) (painted : Painted view blank s t) (distinct : (l.map Prod.snd).Nodup)
    (fresh : ∀ entry ∈ l, ∀ id, entry.2 ∉ t.mask id) (counts : ∀ entry ∈ l, entry.2 < limit) :
    ∃ final, l.foldlM step s = .ok final ∧
      Painted view blank final ((l.filter fun extremity => events.containsKey extremity.1).foldl
        (fun t seed => paint {seed.2} t seed.1) t) := by
  induction l generalizing s t with
  | nil => exact ⟨s, rfl, painted⟩
  | cons entry l ih =>
    obtain ⟨extremity, i⟩ := entry
    obtain ⟨unique, distinct⟩ := nodup_cons.mp distinct
    have later := fun entry member => counts entry (mem_cons_of_mem _ member)
    have old := fun entry member => fresh entry (mem_cons_of_mem (extremity, i) member)
    obtain ⟨next, stepped, shown⟩ := each s t painted extremity i (counts (extremity, i) (by simp))
      (fresh (extremity, i) (by simp) extremity)
    rw [foldlM_cons, List.filter_cons, stepped]
    by_cases known : events.containsKey extremity = true
    · rw [if_pos known] at shown ⊢
      refine ih shown distinct (fun entry member id inside => ?_) later
      rw [paint_mask] at inside
      split at inside
      · rcases mem_union.mp inside with before | same
        · exact old entry member id before
        · rw [Finset.mem_singleton] at same
          exact unique (same ▸ mem_map_of_mem member)
      · exact old entry member id inside
    · rw [if_neg known] at shown ⊢
      exact ih shown distinct old later

omit [LinearOrder Id] in
theorem extremity_indices {extremities : List Id} (counts : extremities.length ≤ limit) :
    (extremities.zipIdx.map Prod.snd).Nodup ∧ ∀ entry ∈ extremities.zipIdx, entry.2 < limit := by
  rw [zipIdx_map_snd]
  exact ⟨nodup_range', fun entry member =>
    Nat.lt_of_lt_of_le (List.getElem?_eq_some_iff.mp (mem_zipIdx_iff_getElem?.mp member)).1 counts⟩

end

theorem unionParent_painted {colours : Finset Nat} (some : colours.Nonempty) (s : MaskSearch Id (Finset Nat)) (t : Walk Id)
    (painted : Painted id ∅ s t) (parentId : Id) :
    Painted id ∅ (unionParent events colours s parentId)
      (if events.containsKey parentId then paint colours t parentId else t) := by
  unfold unionParent
  by_cases known : events.containsKey parentId = true
  · have own : (s.masks parentId).getD ∅ = t.mask parentId := painted.masks parentId
    rw [if_pos known, if_pos known, own]
    refine painted.update rfl ?_
    rw [paint_queue, painted.queue]
    have pushes : ((s.masks parentId).isNone = true ∨ (t.mask parentId).card < (t.mask parentId ∪ colours).card) ↔
        ¬colours ⊆ t.mask parentId := by
      constructor
      · rintro (new | grows) inside
        · rw [isNone_iff_eq_none.mp new] at own
          obtain ⟨i, member⟩ := some
          have impossible := inside member
          rw [← own] at impossible
          simp at impossible
        · rw [union_eq_left.mpr inside] at grows
          exact Nat.lt_irrefl _ grows
      · intro outside
        refine .inr (card_lt_card (Finset.ssubset_iff_subset_ne.mpr ⟨subset_union_left, fun same => outside ?_⟩))
        rw [same]
        exact subset_union_right
    by_cases inside : colours ⊆ t.mask parentId
    · rw [if_neg (fun new => pushes.mp new inside), if_pos inside]
    · rw [if_pos (pushes.mpr inside), if_neg inside]
  · rw [if_neg known, if_neg known]
    exact painted

theorem seedExtremity_painted (s : MaskSearch Id (Finset Nat)) (t : Walk Id) (painted : Painted id ∅ s t)
    (extremity : Id) (i : Nat) (small : i < 2 ^ 32) (fresh : i ∉ t.mask extremity) :
    ∃ next, seedExtremity events s (extremity, i) = .ok next ∧
      Painted id ∅ next (if events.containsKey extremity then paint {i} t extremity else t) := by
  unfold seedExtremity
  by_cases known : events.containsKey extremity = true
  · have own : (s.masks extremity).getD ∅ = t.mask extremity := painted.masks extremity
    rw [if_pos known, if_pos known, if_pos small, own]
    refine ⟨_, rfl, painted.update ?_ ?_⟩
    · rw [Finset.insert_eq, union_comm]
      rfl
    · rw [paint_queue, if_neg (by simpa using fresh), painted.queue]
  · rw [if_neg known, if_neg known]
    exact ⟨s, rfl, painted⟩

structure FollowsWalk (s : BaseSearch Id) (t : Walk Id) : Prop where
  painted : Painted id ∅ s.toMaskSearch t
  found : s.found = if t.halted then t.log.getLast?.map Prod.fst else none

variable {extremities : List Id}

def reachesTarget (targetCount : Nat) (mask : Finset Nat) : Bool := mask.card = targetCount

structure Tracks (events : EventMap Id C) (extremities : List Id) (s : Except MergeBasePanic (BaseSearch Id))
    (t : Walk Id) : Prop where
  spreading : Spreading (reachesTarget extremities.length) (heldParents events) (presentSeeds events extremities) t
  ending : Ending (reachesTarget extremities.length) t
  follows : ∃ search, s = .ok search ∧ FollowsWalk search t

theorem baseTurn_tracks (s : Except MergeBasePanic (BaseSearch Id)) (t : Walk Id)
    (tracks : Tracks events extremities s t) :
    Option.Rel (Tracks events extremities) (baseTurn events extremities.length s)
      (turn (heapBefore events) (reachesTarget extremities.length) (heldParents events) t) := by
  obtain ⟨spreading, ending, s, rfl, painted, found⟩ := tracks
  refine Loop.rel_strengthen ?_ fun s t stepped (follows : ∃ search, s = .ok search ∧ FollowsWalk search t) =>
    ⟨turn_spreading spreading stepped, turn_ending ending stepped, follows⟩
  unfold baseTurn
  dsimp only
  cases running : t.halted with
  | true =>
    obtain ⟨init, g, log, _⟩ := ending.ended running
    rw [found, if_pos running, log, getLast?_concat]
    simp only [map_some, isSome_some, if_true, turn, running]
    exact .none
  | false =>
    unfold turn
    rw [running, found, if_neg (by simp [running]), painted.queue]
    cases popped : Permuted.popFirst (heapBefore events) t.queue with
    | none => exact .none
    | some pair =>
      obtain ⟨x, rest⟩ := pair
      have coloured := spreading.queued x ((popFirst_perm popped).mem_iff.mpr (by simp))
      dsimp only
      obtain ⟨mask, held, own⟩ := painted.mask_of_waiting rfl coloured
      obtain rfl : mask = t.mask x := own
      rw [held]
      dsimp only
      have kept : Painted id ∅ ⟨rest, s.masks⟩ ⟨rest, t.mask, t.log ++ [(x, t.mask x)],
          reachesTarget extremities.length (t.mask x)⟩ := ⟨rfl, painted.masks⟩
      by_cases full : (t.mask x).card = extremities.length
      · have stops : reachesTarget extremities.length (t.mask x) = true := decide_eq_true full
        rw [if_pos full, if_pos stops]
        exact .some ⟨_, rfl, kept, by simp [stops]⟩
      · have goes : ¬reachesTarget extremities.length (t.mask x) = true := fun stops => full (of_decide_eq_true stops)
        rw [if_neg full, if_neg goes]
        have spread := parents_painted events (unionParent_painted coloured) (prevEvents events x) kept
        exact .some ⟨_, rfl, spread, by simp [goes]⟩

theorem searchMergeBase_follows (events : EventMap Id C) (counts : extremities.length ≤ 2 ^ 32) :
    ∃ t, turn (heapBefore events) (reachesTarget extremities.length) (heldParents events) t = none ∧
      baseTurn events extremities.length (searchMergeBase extremities events) = none ∧
      Tracks events extremities (searchMergeBase extremities events) t ∧
      (DeeperChildren events →
        Ordered (heapBefore events) (heldParents events) (presentSeeds events extremities) t) := by
  obtain ⟨indices, bound⟩ := extremity_indices counts
  obtain ⟨seeded, ok, painted⟩ := seeds_painted events (seedExtremity events) seedExtremity_painted (t := ⟨[], fun _ => ∅, [], false⟩)
    (s := ⟨[], fun _ => none⟩) extremities.zipIdx ⟨rfl, fun _ => rfl⟩ indices (by simp) bound
  have running := (start_facts (presentSeeds events extremities)).2.1
  have first : Tracks events extremities
      ((extremities.zipIdx.foldlM (seedExtremity events) ⟨[], fun _ => none⟩).map fun s => ⟨s, none⟩)
      (Colouring.start (presentSeeds events extremities)) := by
    rw [ok]
    exact ⟨start_spreading _, start_ending _, ⟨seeded, none⟩, rfl, painted, by simp [running]⟩
  have tracks := Loop.run_simulation (Tracks events extremities) baseTurn_tracks
    (extremities.length + events.keys.length * extremities.length) first
  have ends : turn (heapBefore events) (reachesTarget extremities.length) (heldParents events)
      (Loop.run _ (extremities.length + events.keys.length * extremities.length)
        (Colouring.start (presentSeeds events extremities))) = none :=
    run_ends heldParents_known presentSeeds_bound (Nat.add_le_add_right presentSeeds_length _)
  refine ⟨_, ends, ?_, tracks, fun deeper => ?_⟩
  · have step := baseTurn_tracks _ _ tracks
    rw [ends] at step
    unfold searchMergeBase
    revert step
    generalize baseTurn events extremities.length _ = result
    intro step
    cases step with
    | none => rfl
  · exact run_ordered deeper.downhill _ _ _

variable {t : Walk Id} {search : BaseSearch Id}

omit [LinearOrder Id] in
theorem full_of_card (within : mask ⊆ Finset.range extremities.length)
    (full : reachesTarget extremities.length mask = true) : mask = Finset.range extremities.length := by
  refine eq_of_subset_of_card_le within ?_
  rw [card_range]
  exact Nat.le_of_eq (of_decide_eq_true full).symm

theorem mask_within (spreading : Spreading (reachesTarget extremities.length) (heldParents events)
    (presentSeeds events extremities) t) (id : Id) : t.mask id ⊆ Finset.range extremities.length :=
  spreading.colours presentSeeds_bound id

section

variable (follows : FollowsWalk search t)
  (spreading : Spreading (reachesTarget extremities.length)
    (heldParents events) (presentSeeds events extremities) t) (ending : Ending (reachesTarget extremities.length) t)
include follows spreading ending

theorem FollowsWalk.found_common {id : Id} (found : search.found = some id) :
    CommonAncestor events extremities id ∧ t.halted = true ∧ t.log.getLast? = some (id, t.mask id) := by
  have same := follows.found
  rw [found] at same
  split at same
  · rename_i halted
    obtain ⟨init, g, log, full, _⟩ := ending.ended halted
    rw [log, getLast?_concat] at same
    obtain rfl := Option.some.inj same
    refine ⟨commonAncestor_iff.mpr fun i bound => hits_iff.mp (spreading.sound id i ?_), halted, ?_⟩
    · rw [full_of_card (mask_within spreading id) full]
      exact Finset.mem_range.mpr bound
    · rw [log, getLast?_concat]
  · cases same

theorem FollowsWalk.finds (nonempty : extremities ≠ [])
    (stopped : turn (heapBefore events) (reachesTarget extremities.length) (heldParents events) t = none)
    {id : Id} (common : CommonAncestor events extremities id) : search.found.isSome := by
  rw [follows.found]
  cases halted : t.halted with
  | true =>
    obtain ⟨init, g, log, _⟩ := ending.ended halted
    simp [log]
  | false =>
    have empty := (Colouring.turn_none stopped).resolve_left (by simp [halted])
    obtain ⟨complete, open_⟩ := spreading.exhausted halted empty
    have all : t.mask id = Finset.range extremities.length := by
      refine Finset.Subset.antisymm (mask_within spreading id) fun i member => ?_
      exact (complete i id).mpr (hits_iff.mpr (commonAncestor_iff.mp common i (Finset.mem_range.mp member)))
    have some : (t.mask id).Nonempty := by
      rw [all]
      exact nonempty_range_iff.mpr fun none => nonempty (length_eq_zero_iff.mp none)
    have unfinished := (open_ id some).1
    rw [all] at unfinished
    simp [reachesTarget] at unfinished

theorem FollowsWalk.found_greatest
    (ordered : Ordered (heapBefore events) (heldParents events) (presentSeeds events extremities) t)
    (nonempty : extremities ≠ []) {id : Id} (found : search.found = some id)
    (common : CommonAncestor events extremities other) : other = id ∨ heapBefore events id other = true := by
  obtain ⟨_, halted, last⟩ := follows.found_common spreading ending found
  have reached := fun i bound => hits_iff.mpr (commonAncestor_iff.mp common i bound)
  have positive : 0 < extremities.length := length_pos_of_ne_nil nonempty
  rcases ordered.covered halted _ last 0 other (reached 0 positive) with ⟨colours, logged⟩ | below
  · have within := (spreading.logged _ logged).1.trans (mask_within spreading other)
    have all : colours = Finset.range extremities.length := by
      refine Finset.Subset.antisymm within fun i member => ?_
      exact ordered.final _ logged i (reached i (Finset.mem_range.mp member))
    obtain ⟨init, g, log, _, open_⟩ := ending.ended halted
    rw [log] at logged last
    rw [getLast?_concat] at last
    obtain rfl : g = id := congrArg Prod.fst (Option.some.inj last)
    rcases mem_append.mp logged with early | late
    · have unfinished := open_ _ early
      rw [all] at unfinished
      simp [reachesTarget] at unfinished
    · exact .inl (congrArg Prod.fst (List.mem_singleton.mp late))
  · exact .inr below

end

/-- For any extremities the search ends, and finds a common ancestor just when there is one. If all events are deeper
    than their previous events, it is the greatest by depth and id. -/
theorem computeMergeBase_exact (extremities : List Id) (events : EventMap Id C) (nonempty : extremities ≠ [])
    (counts : extremities.length ≤ 2 ^ 32) :
    baseTurn events extremities.length (searchMergeBase extremities events) = none ∧
    ∃ result, computeMergeBase extremities events = .ok result ∧
      (result.isSome ↔ (∀ extremity ∈ extremities, extremity ∈ events.keys) ∧
        ∃ id, ∀ extremity ∈ extremities, LeadsBack events extremity id) ∧
      (∀ id ∈ result, CommonAncestor events extremities id) ∧
      (DeeperChildren events → ∀ id ∈ result, ∀ other, CommonAncestor events extremities other →
        depthOf events other < depthOf events id ∨ depthOf events other = depthOf events id ∧ other ≤ id) := by
  obtain ⟨t, stopped, finished, ⟨spreading, ending, search, ok, follows⟩, ordered⟩ :=
    searchMergeBase_follows events counts
  have shared : (∃ id, CommonAncestor events extremities id) ↔
      (∀ extremity ∈ extremities, extremity ∈ events.keys) ∧
        ∃ id, ∀ extremity ∈ extremities, LeadsBack events extremity id :=
    ⟨fun ⟨id, common⟩ => ⟨fun e member => (common e member).1, id, fun e member => (common e member).2⟩,
      fun ⟨present, id, leads⟩ => ⟨id, fun e member => ⟨present e member, leads e member⟩⟩⟩
  have greatest : ∀ {id other : Id}, other = id ∨ heapBefore events id other = true →
      depthOf events other < depthOf events id ∨ depthOf events other = depthOf events id ∧ other ≤ id := by
    rintro id other (rfl | before)
    · exact .inr ⟨rfl, le_refl _⟩
    · rcases heapBefore_iff.mp before with less | ⟨same, less⟩
      · exact .inl less
      · exact .inr ⟨same.symm, le_of_lt less⟩
  refine ⟨finished, ?_⟩
  rw [← shared]
  match extremities, nonempty with
  | [extremity], _ =>
    have own : ∀ {id}, CommonAncestor events [extremity] id ↔
        extremity ∈ events.keys ∧ LeadsBack events extremity id := by
      simp [CommonAncestor]
    refine ⟨_, rfl, ?_, fun id member => ?_, fun deeper id member other common => ?_⟩
    · by_cases present : events.containsKey extremity = true
      · simp only [if_pos present, isSome_some, true_iff]
        exact ⟨extremity, own.mpr ⟨containsKey_eq_true.mp present, .refl⟩⟩
      · simp only [if_neg present, isSome_none, Bool.false_eq_true, false_iff]
        exact fun ⟨id, common⟩ => present (containsKey_eq_true.mpr (own.mp common).1)
    · split at member
      · rename_i present
        obtain rfl := Option.some.inj member
        exact own.mpr ⟨containsKey_eq_true.mp present, .refl⟩
      · cases member
    · split at member
      · obtain rfl := Option.some.inj member
        rcases Relation.reflTransGen_iff_eq_or_transGen.mp (own.mp common).2 with same | path
        · exact greatest (.inl same)
        · rw [← edge_heldParents] at path
          exact greatest (.inr (deeper.downhill.path path))
      · cases member
  | first :: second :: rest, nonempty =>
    refine ⟨search.found, ?_, ⟨fun some => ?_, fun ⟨id, common⟩ => ?_⟩, fun id found => ?_,
      fun deeper id found other common => ?_⟩
    · unfold computeMergeBase
      rw [ok]
      rfl
    · obtain ⟨id, found⟩ := isSome_iff_exists.mp some
      exact ⟨id, (follows.found_common spreading ending found).1⟩
    · exact follows.finds spreading ending nonempty stopped common
    · exact (follows.found_common spreading ending found).1
    · exact greatest (follows.found_greatest spreading ending (ordered deeper) nonempty found common)

end

namespace Sample

open Basespec.Sample

def eventAt (eventId depth : Nat) (prevEvents : List Nat) : LeanEvent Nat Content :=
  { topic eventId "@a:x" [] with prevEvents := prevEvents, depth := depth }

def forkedRoom : EventMap Nat Content := ⟨[eventAt 1 1 [], eventAt 2 2 [1], eventAt 3 2 [1]], by decide⟩

theorem forkedRoom_deeper : DeeperChildren forkedRoom := .of_values (by decide)

end Sample

open Sample

theorem computeMergeBase_exact_fork :
    ∃ result, computeMergeBase [2, 3] forkedRoom = .ok result ∧
      (result.isSome ↔ (∀ extremity ∈ [2, 3], extremity ∈ forkedRoom.keys) ∧
        ∃ id, ∀ extremity ∈ [2, 3], LeadsBack forkedRoom extremity id) ∧
      ∀ id ∈ result, ∀ other, CommonAncestor forkedRoom [2, 3] other →
        depthOf forkedRoom other < depthOf forkedRoom id ∨
          depthOf forkedRoom other = depthOf forkedRoom id ∧ other ≤ id := by
  obtain ⟨_, result, ok, some, _, greatest⟩ := computeMergeBase_exact [2, 3] forkedRoom (by decide) (by decide)
  exact ⟨result, ok, some, greatest forkedRoom_deeper⟩

/-- No extremities are all there and share every event, yet there is no merge base of them. -/
theorem no_extremities :
    computeMergeBase [] forkedRoom = .ok none ∧ (∀ extremity ∈ [], extremity ∈ forkedRoom.keys) ∧
      1 ∈ forkedRoom.keys ∧ CommonAncestor forkedRoom [] 1 :=
  ⟨rfl, by simp, by decide, by simp [CommonAncestor]⟩

end Rezzy.State
