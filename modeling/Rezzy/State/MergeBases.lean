import Rezzy.Lib.WordBits
import Rezzy.State.MergeBase

namespace Rezzy.State

open List Colouring

section

open Basespec Permuted WordBits

variable {Id C : Type}

inductive MergeBasesSite where
  | bestJunction
deriving DecidableEq, Repr

structure MergeBase (Id : Type) where
  eventId : Id
  mask : BitVec 8
  depth : Nat
deriving DecidableEq, Repr

def checkedShl (x : BitVec 8) (n : Nat) : Option (BitVec 8) := if n < 8 then some (x <<< n) else none

def checkedSub (x y : BitVec 8) : Option (BitVec 8) := if y.toNat ≤ x.toNat then some (x - y) else none

def fullMask (k : Nat) : Option (BitVec 8) := (checkedShl 1 k).bind fun v => checkedSub v 1

variable [LinearOrder Id]

def seedHead (events : EventMap Id C) (s : MaskSearch Id (BitVec 8)) (head : Id × Nat) : MaskSearch Id (BitVec 8) :=
  if events.containsKey head.1 then
    ⟨s.queue ++ [head.1], Function.update s.masks head.1 (some ((s.masks head.1).getD 0 ||| (1 : BitVec 8) <<< head.2))⟩
  else s

def orParent (events : EventMap Id C) (currentMask : BitVec 8) (s : MaskSearch Id (BitVec 8)) (parentId : Id) :
    MaskSearch Id (BitVec 8) :=
  if events.containsKey parentId then
    let old := (s.masks parentId).getD 0
    let parentMask := old ||| currentMask
    ⟨if parentMask ≠ old then s.queue ++ [parentId] else s.queue, Function.update s.masks parentId (some parentMask)⟩
  else s

structure BasesSearch (Id : Type) extends MaskSearch Id (BitVec 8) where
  bestJunction : List (MergeBase Id)
  globalFound : Bool

def recordJunction (junction : MergeBase Id) (best : List (MergeBase Id)) : List (MergeBase Id) :=
  if 2 ≤ countOnes junction.mask ∧ ∀ known ∈ best, known.mask ≠ junction.mask then best ++ [junction] else best

def basesTurn (events : EventMap Id C) (full : BitVec 8) (s : Except MergeBasePanic (BasesSearch Id)) :
    Option (Except MergeBasePanic (BasesSearch Id)) :=
  match s with
  | .error _ => none
  | .ok s =>
    if s.globalFound then none
    else
      match Permuted.popFirst (heapBefore events) s.queue with
      | none => none
      | some (currentId, rest) =>
        match s.masks currentId with
        | none => some (.error .missingMask)
        | some currentMask =>
          let best := recordJunction ⟨currentId, currentMask, depthOf events currentId⟩ s.bestJunction
          if currentMask = full then some (.ok ⟨⟨rest, s.masks⟩, best, true⟩)
          else some (.ok ⟨(prevEvents events currentId).foldl (orParent events currentMask) ⟨rest, s.masks⟩, best, false⟩)

def searchMergeBases (extremities : List Id) (events : EventMap Id C) (full : BitVec 8) (maxSteps : Nat) :
    Except MergeBasePanic (BasesSearch Id) :=
  Loop.run (basesTurn events full) maxSteps
    (.ok ⟨extremities.zipIdx.foldl (seedHead events) ⟨[], fun _ => none⟩, [], false⟩)

def superseded (masksVec : List (MergeBase Id)) (junction : MergeBase Id) : Bool :=
  masksVec.any fun other =>
    other.mask ≠ junction.mask && other.mask &&& junction.mask = junction.mask && junction.depth ≤ other.depth

def pruneJunctions (masksVec : List (MergeBase Id)) : List (MergeBase Id) :=
  (masksVec.filter fun junction => !superseded masksVec junction).insertionSort fun a b => b.depth ≤ a.depth

def computeMergeBases (order : HashOrder MergeBasesSite) (extremities : List Id) (events : EventMap Id C)
    (maxSteps : Nat) : Except MergeBasePanic (List (MergeBase Id)) :=
  if 8 < extremities.length then .error .tooManyExtremities
  else if extremities.length < 2 then .ok []
  else
    match fullMask extremities.length with
    | none => .error .bitmaskOverflow
    | some full =>
      (searchMergeBases extremities events full maxSteps).map fun s =>
        pruneJunctions (order.iter .bestJunction s.bestJunction)

end

open Basespec Permuted WordBits

open Colouring (Walk Hits Spreading Ending Ordered Downhill paint)

variable {Id C : Type} [LinearOrder Id]

section

omit [LinearOrder Id]

theorem fullMask_eq_none : fullMask k = none ↔ 8 ≤ k := by
  unfold fullMask checkedShl
  by_cases fits : k < 8
  · rw [if_pos fits]
    interval_cases k <;> simp [checkedSub]
  · rw [if_neg fits]
    simp only [Option.bind_none, true_iff]
    omega

theorem fullMask_places (fits : fullMask k = some full) : places full = Finset.range k := by
  have small : k < 8 := by
    by_contra large
    rw [fullMask_eq_none.mpr (not_lt.mp large)] at fits
    cases fits
  interval_cases k <;> (obtain rfl := Option.some.inj fits; decide)

end

section

variable {events : EventMap Id C}

theorem orParent_painted (mask : BitVec 8) (s : MaskSearch Id (BitVec 8)) (t : Walk Id) (painted : Painted places 0 s t)
    (parentId : Id) :
    Painted places 0 (orParent events mask s parentId)
      (if events.containsKey parentId then paint (places mask) t parentId else t) := by
  unfold orParent
  by_cases known : events.containsKey parentId = true
  · rw [if_pos known, if_pos known]
    refine painted.update (by rw [places_or, painted.masks]) ?_
    rw [paint_queue, painted.queue]
    by_cases inside : places mask ⊆ t.mask parentId
    · have unchanged := or_eq_left_iff.mpr (painted.masks parentId ▸ inside)
      rw [if_neg (not_not.mpr unchanged), if_pos inside]
    · have changed : (s.masks parentId).getD 0 ||| mask ≠ (s.masks parentId).getD 0 :=
        fun same => inside (painted.masks parentId ▸ or_eq_left_iff.mp same)
      rw [if_pos changed, if_neg inside]
  · rw [if_neg known, if_neg known]
    exact painted

theorem seedHead_painted (s : MaskSearch Id (BitVec 8)) (t : Walk Id) (painted : Painted places 0 s t) (head : Id)
    (i : Nat) (small : i < 8) (fresh : i ∉ t.mask head) :
    ∃ next, (Except.ok (seedHead events s (head, i)) : Except MergeBasePanic _) = .ok next ∧
      Painted places 0 next (if events.containsKey head then paint {i} t head else t) := by
  refine ⟨_, rfl, ?_⟩
  unfold seedHead
  by_cases known : events.containsKey head = true
  · rw [if_pos known, if_pos known]
    refine painted.update (by rw [places_or, painted.masks, places_bit small]) ?_
    rw [paint_queue, if_neg (by simpa using fresh), painted.queue]
  · rw [if_neg known, if_neg known]
    exact painted

def FirstOf (log : List (Id × Finset Nat)) (junction : MergeBase Id) : Prop :=
  ∃ before after, log = before ++ (junction.eventId, places junction.mask) :: after ∧
    ∀ entry ∈ before, entry.2 ≠ places junction.mask

structure Recorded (events : EventMap Id C) (best : List (MergeBase Id)) (log : List (Id × Finset Nat)) : Prop where
  first : ∀ junction ∈ best, FirstOf log junction
  depth : ∀ junction ∈ best, junction.depth = depthOf events junction.eventId
  several : ∀ junction ∈ best, 2 ≤ (places junction.mask).card
  distinct : (best.map MergeBase.mask).Nodup
  every : ∀ entry ∈ log, 2 ≤ entry.2.card → ∃ junction ∈ best, places junction.mask = entry.2

omit [LinearOrder Id] in
theorem FirstOf.append (first : FirstOf log junction) (entry : Id × Finset Nat) :
    FirstOf (log ++ [entry]) junction := by
  obtain ⟨before, after, split, none⟩ := first
  exact ⟨before, after ++ [entry], by rw [split, append_assoc, cons_append], none⟩

theorem recordJunction_recorded (recorded : Recorded events best log) (id : Id) (mask : BitVec 8) :
    Recorded events (recordJunction ⟨id, mask, depthOf events id⟩ best) (log ++ [(id, places mask)]) := by
  have firsts := fun junction mem => (recorded.first junction mem).append (id, places mask)
  unfold recordJunction
  split
  · rename_i new
    obtain ⟨several, unknown⟩ := new
    refine ⟨fun junction mem => ?_, fun junction mem => ?_, fun junction mem => ?_, ?_, fun entry mem many => ?_⟩
    · rcases mem_append.mp mem with old | new
      · exact firsts junction old
      · rw [mem_singleton.mp new]
        refine ⟨log, [], rfl, fun entry earlier same => ?_⟩
        have many : 2 ≤ entry.2.card := by rwa [same, places_card]
        obtain ⟨known, inside, own⟩ := recorded.every entry earlier many
        exact unknown known inside (places_inj.mp (own.trans same))
    · rcases mem_append.mp mem with old | new
      · exact recorded.depth junction old
      · rw [mem_singleton.mp new]
    · rcases mem_append.mp mem with old | new
      · exact recorded.several junction old
      · rwa [mem_singleton.mp new, places_card]
    · rw [map_append, map_singleton, nodup_append]
      refine ⟨recorded.distinct, nodup_singleton _, fun a old b new => ?_⟩
      obtain ⟨known, inside, rfl⟩ := mem_map.mp old
      rw [mem_singleton.mp new]
      exact unknown known inside
    · rcases mem_append.mp mem with old | new
      · obtain ⟨known, inside, own⟩ := recorded.every entry old many
        exact ⟨known, mem_append_left _ inside, own⟩
      · rw [mem_singleton.mp new]
        exact ⟨_, mem_append_right _ (mem_singleton_self _), rfl⟩
  · rename_i known
    refine ⟨firsts, recorded.depth, recorded.several, recorded.distinct, fun entry mem many => ?_⟩
    rcases mem_append.mp mem with old | new
    · exact recorded.every entry old many
    · rw [mem_singleton.mp new] at many ⊢
      by_contra missing
      refine known ⟨by rwa [← places_card], fun junction inside same => missing ⟨junction, inside, ?_⟩⟩
      exact congrArg places same

variable {extremities : List Id}

def allReach (k : Nat) (mask : Finset Nat) : Bool := mask = Finset.range k

structure BitFollows (events : EventMap Id C) (s : BasesSearch Id) (t : Walk Id) : Prop where
  painted : Painted places 0 s.toMaskSearch t
  found : s.globalFound = t.halted
  recorded : Recorded events s.bestJunction t.log

structure BitTracks (events : EventMap Id C) (extremities : List Id) (s : Except MergeBasePanic (BasesSearch Id))
    (t : Walk Id) : Prop where
  spreading : Spreading (allReach extremities.length) (heldParents events) (presentSeeds events extremities) t
  ending : Ending (allReach extremities.length) t
  follows : ∃ search, s = .ok search ∧ BitFollows events search t

theorem basesTurn_tracks (fits : fullMask extremities.length = some full) (s : Except MergeBasePanic (BasesSearch Id))
    (t : Walk Id) (tracks : BitTracks events extremities s t) :
    Option.Rel (BitTracks events extremities) (basesTurn events full s)
      (turn (heapBefore events) (allReach extremities.length) (heldParents events) t) := by
  obtain ⟨spreading, ending, s, rfl, painted, found, recorded⟩ := tracks
  refine Loop.rel_strengthen ?_ fun s t stepped (follows : ∃ search, s = .ok search ∧ BitFollows events search t) =>
    ⟨turn_spreading spreading stepped, turn_ending ending stepped, follows⟩
  unfold basesTurn turn
  dsimp only
  rw [found, painted.queue]
  cases running : t.halted with
  | true => exact .none
  | false =>
    cases popped : Permuted.popFirst (heapBefore events) t.queue with
    | none => exact .none
    | some pair =>
      obtain ⟨x, rest⟩ := pair
      have coloured := spreading.queued x ((popFirst_perm popped).mem_iff.mpr (by simp))
      obtain ⟨mask, known, own⟩ := painted.mask_of_waiting places_zero coloured
      dsimp only
      rw [known]
      have noted : Recorded events (recordJunction ⟨x, mask, depthOf events x⟩ s.bestJunction)
          (t.log ++ [(x, t.mask x)]) := own ▸ recordJunction_recorded recorded x mask
      have kept : Painted places 0 ⟨rest, s.masks⟩ ⟨rest, t.mask, t.log ++ [(x, t.mask x)],
          allReach extremities.length (t.mask x)⟩ := ⟨rfl, painted.masks⟩
      dsimp only
      by_cases whole : mask = full
      · have stops : allReach extremities.length (t.mask x) = true := by
          rw [← own, whole]
          exact decide_eq_true (fullMask_places fits)
        rw [if_pos whole, if_pos stops]
        exact .some ⟨_, rfl, kept, stops.symm, noted⟩
      · have goes : ¬allReach extremities.length (t.mask x) = true := by
          intro stops
          rw [← own] at stops
          exact whole (places_inj.mp ((of_decide_eq_true stops).trans (fullMask_places fits).symm))
        rw [if_neg whole, if_neg goes]
        have spread := parents_painted events (orParent_painted mask) (prevEvents events x) kept
        rw [own] at spread
        exact .some ⟨_, rfl, spread, by simp [goes], by rwa [paints_log]⟩

theorem searchMergeBases_follows (events : EventMap Id C) (fits : fullMask extremities.length = some full)
    (maxSteps : Nat) : ∃ t, BitTracks events extremities (searchMergeBases extremities events full maxSteps) t ∧
      t = Loop.run (turn (heapBefore events) (allReach extremities.length) (heldParents events)) maxSteps
        (Colouring.start (presentSeeds events extremities)) := by
  have small : extremities.length < 8 := by
    by_contra large
    rw [fullMask_eq_none.mpr (not_lt.mp large)] at fits
    cases fits
  obtain ⟨indices, bound⟩ := extremity_indices small.le
  obtain ⟨seeded, ok, painted⟩ := seeds_painted events
    (fun s head => .ok (seedHead events s head)) seedHead_painted (t := ⟨[], fun _ => ∅, [], false⟩)
    (s := ⟨[], fun _ => none⟩) extremities.zipIdx ⟨rfl, fun _ => places_zero⟩ indices (by simp) bound
  obtain rfl := Except.ok.inj (foldlM_pure.symm.trans ok)
  obtain ⟨log, running, _⟩ := start_facts (presentSeeds events extremities)
  have first : BitTracks events extremities
      (.ok ⟨extremities.zipIdx.foldl (seedHead events) ⟨[], fun _ => none⟩, [], false⟩)
      (Colouring.start (presentSeeds events extremities)) := by
    refine ⟨start_spreading _, start_ending _, _, rfl, painted, running.symm, ?_⟩
    rw [log]
    exact ⟨by simp, by simp, by simp, nodup_nil, by simp⟩
  exact ⟨_, Loop.run_simulation (BitTracks events extremities) (basesTurn_tracks fits) maxSteps first, rfl⟩

section

omit [LinearOrder Id]

theorem superseded_iff : superseded masksVec junction = true ↔ ∃ other ∈ masksVec,
      places junction.mask ⊂ places other.mask ∧ junction.depth ≤ other.depth := by
  simp only [superseded, any_eq_true, Bool.and_eq_true, decide_eq_true_iff, and_eq_right_iff,
    Finset.ssubset_iff_subset_ne, ne_eq, places_inj]
  constructor
  · rintro ⟨other, mem, ⟨differs, inside⟩, deep⟩
    exact ⟨other, mem, ⟨inside, fun same => differs same.symm⟩, deep⟩
  · rintro ⟨other, mem, ⟨inside, differs⟩, deep⟩
    exact ⟨other, mem, ⟨fun same => differs same.symm, inside⟩, deep⟩

theorem mem_pruneJunctions :
    junction ∈ pruneJunctions masksVec ↔ junction ∈ masksVec ∧ ¬superseded masksVec junction = true := by
  rw [pruneJunctions, mem_insertionSort, mem_filter, Bool.not_eq_true']
  simp

theorem pruneJunctions_distinct (distinct : (masksVec.map MergeBase.mask).Nodup) :
    ((pruneJunctions masksVec).map MergeBase.mask).Nodup := by
  refine (((perm_insertionSort _ _).map _).nodup_iff).mpr ?_
  exact (filter_sublist.map MergeBase.mask).nodup distinct

theorem pruneJunctions_sorted (masksVec : List (MergeBase Id)) :
    (pruneJunctions masksVec).Pairwise fun a b => b.depth ≤ a.depth := by
  exact pairwise_insertionSort _ _

end

structure SoundJunctions (events : EventMap Id C) (extremities : List Id) (junctions : List (MergeBase Id)) : Prop where
  present : ∀ junction ∈ junctions, junction.eventId ∈ events.keys
  reached : ∀ junction ∈ junctions, ∀ i, junction.mask.getLsbD i = true →
    ReachedFrom events extremities i junction.eventId
  several : ∀ junction ∈ junctions, 2 ≤ countOnes junction.mask
  distinct : (junctions.map MergeBase.mask).Nodup

theorem ReachedFrom.known {id : Id} (reached : ReachedFrom events extremities i id) : id ∈ events.keys := by
  obtain ⟨extremity, _, known, path⟩ := reached
  cases path with
  | refl => exact known
  | tail _ edge =>
    obtain ⟨_, _, _, present⟩ := edge
    exact present

theorem Recorded.sound {t : Walk Id} (recorded : Recorded events best t.log)
    (spreading : Spreading (allReach extremities.length) (heldParents events) (presentSeeds events extremities) t)
    (order : HashOrder MergeBasesSite) :
    SoundJunctions events extremities (pruneJunctions (order.iter .bestJunction best)) := by
  have perm := order.perm .bestJunction best
  have kept : ∀ junction ∈ pruneJunctions (order.iter .bestJunction best), junction ∈ best :=
    fun junction mem => perm.mem_iff.mp (mem_pruneJunctions.mp mem).1
  have reached : ∀ junction ∈ best, ∀ i ∈ places junction.mask, ReachedFrom events extremities i junction.eventId := by
    intro junction mem i bit
    obtain ⟨before, after, split, _⟩ := recorded.first junction mem
    have inside := (spreading.logged (junction.eventId, places junction.mask) (by simp [split])).1 bit
    exact hits_iff.mp (spreading.sound junction.eventId i inside)
  refine ⟨fun junction mem => ?_, fun junction mem i bit => ?_, fun junction mem => ?_, ?_⟩
  · have several := recorded.several junction (kept junction mem)
    obtain ⟨i, bit⟩ := Finset.card_pos.mp (Nat.lt_of_lt_of_le Nat.zero_lt_two several)
    exact (reached junction (kept junction mem) i bit).known
  · exact reached junction (kept junction mem) i (mem_places.mpr bit)
  · rw [← places_card]
    exact recorded.several junction (kept junction mem)
  · exact pruneJunctions_distinct (((perm.map _).nodup_iff).mpr recorded.distinct)

/-- Up to eight extremities are allowed for, but for eight of them the full mask is out of reach. -/
theorem computeMergeBases_sound_iff (order : HashOrder MergeBasesSite) (extremities : List Id) (events : EventMap Id C)
    (maxSteps : Nat) (allowed : extremities.length ≤ 8) :
    (∃ junctions, computeMergeBases order extremities events maxSteps = .ok junctions ∧
      SoundJunctions events extremities junctions) ↔ extremities.length ≠ 8 := by
  unfold computeMergeBases
  rw [if_neg (not_lt.mpr allowed)]
  by_cases lone : extremities.length < 2
  · rw [if_pos lone]
    refine ⟨fun _ => by omega, fun _ => ⟨[], rfl, by simp, by simp, by simp, nodup_nil⟩⟩
  · rw [if_neg lone]
    cases fits : fullMask extremities.length with
    | none =>
      have eight := fullMask_eq_none.mp fits
      constructor
      · rintro ⟨junctions, ok, _⟩
        cases ok
      · intro fewer
        omega
    | some full =>
      have fewer : extremities.length ≠ 8 := by
        intro eight
        rw [fullMask_eq_none.mpr (Nat.le_of_eq eight.symm)] at fits
        cases fits
      obtain ⟨t, ⟨spreading, _, search, ok, follows⟩, _⟩ := searchMergeBases_follows events fits maxSteps
      refine ⟨fun _ => fewer, fun _ => ⟨_, ?_, follows.recorded.sound spreading order⟩⟩
      dsimp only
      rw [ok]
      rfl

end

open Sample

theorem computeMergeBases_sound_iff_fork :
    (∃ junctions, computeMergeBases .asListed [2, 3] forkedRoom 5000 = .ok junctions ∧
      SoundJunctions forkedRoom [2, 3] junctions) ↔ [2, 3].length ≠ 8 :=
  computeMergeBases_sound_iff .asListed [2, 3] forkedRoom 5000 (by decide)

/-- Eight extremities are let in, and then there is no mask for them. -/
theorem eight_extremities :
    [1, 2, 3, 4, 5, 6, 7, 8].length ≤ 8 ∧
      computeMergeBases .asListed [1, 2, 3, 4, 5, 6, 7, 8] forkedRoom 5000 = .error .bitmaskOverflow :=
  ⟨by decide, rfl⟩

end Rezzy.State
