import Rezzy.Resolve.ReachabilityForward

namespace Rezzy.Resolve

open List hiding next ranges
open Basespec Auth State Permuted RangePrefilterReachability Option

variable {Id C : Type}

abbrev LeadsTo (slots : List (List Nat)) : Nat → Nat → Prop :=
  Relation.ReflTransGen (Worklist.Edge fun idx => slots.getD idx [])

def Topological (slots : List (List Nat)) : Prop :=
  ∀ idx, ∀ child ∈ slots.getD idx [], idx < child ∧ child < slots.length

theorem LeadsTo.le (topological : Topological slots) (leads : LeadsTo slots idx other) : idx ≤ other := by
  induction leads with
  | refl => exact Nat.le_refl _
  | tail _ edge ih => exact Nat.le_trans ih (Nat.le_of_lt (topological _ _ edge).1)

section

def rangeOver (ranges : List (Nat × Nat)) (children : List Nat) (idx : Nat) : Nat × Nat :=
  children.foldl (fun range childIdx =>
    let child := ranges.getD childIdx (0, 0)
    (min range.1 child.1, max range.2 child.2)) (idx, idx)

theorem rangeOver_spec (ranges : List (Nat × Nat)) (children : List Nat) (idx : Nat) :
    ((rangeOver ranges children idx).1 ≤ idx ∧ idx ≤ (rangeOver ranges children idx).2) ∧
      ∀ child ∈ children, (rangeOver ranges children idx).1 ≤ (ranges.getD child (0, 0)).1 ∧
        (ranges.getD child (0, 0)).2 ≤ (rangeOver ranges children idx).2 := by
  unfold rangeOver
  induction children using reverseRecOn with
  | nil => simp
  | append_singleton children last ih =>
    rw [foldl_append, foldl_cons, foldl_nil]
    dsimp only at ih ⊢
    refine ⟨by omega, fun child mem => ?_⟩
    rcases mem_append.mp mem with old | new
    · have := ih.2 child old
      omega
    · rw [mem_singleton.mp new]
      omega

def Covering (slots : List (List Nat)) (ranges : List (Nat × Nat)) (idx : Nat) : Prop :=
  ∀ other, LeadsTo slots idx other →
    (ranges.getD idx (0, 0)).1 ≤ other ∧ other ≤ (ranges.getD idx (0, 0)).2

theorem covering_set (topological : Topological slots) (bound : k < ranges.length)
    (covering : ∀ idx, k < idx → idx < slots.length → Covering slots ranges idx) (from_k : k ≤ idx)
    (inside : idx < slots.length) : Covering slots (ranges.set k (rangeOver ranges (slots.getD k []) k)) idx := by
  intro other leads
  rcases Nat.eq_or_lt_of_le from_k with rfl | later
  · obtain ⟨own, children⟩ := rangeOver_spec ranges (slots.getD k []) k
    have here : (ranges.set k (rangeOver ranges (slots.getD k []) k)).getD k (0, 0) =
        rangeOver ranges (slots.getD k []) k := by
      simp [getD_eq_getElem?_getD, bound]
    rw [here]
    rcases leads.cases_head with rfl | ⟨child, edge, further⟩
    · exact own
    · obtain ⟨after, within⟩ := topological k child edge
      have below := covering child after within other further
      have := children child edge
      omega
  · have here : (ranges.set k (rangeOver ranges (slots.getD k []) k)).getD idx (0, 0) = ranges.getD idx (0, 0) := by
      simp [getD_eq_getElem?_getD, Nat.ne_of_lt later]
    rw [here]
    exact covering idx later inside other leads

theorem buildDescendantRanges_covering (topological : Topological slots) (inside : idx < slots.length) :
    Covering slots (buildDescendantRanges slots) idx := by
  have filled : ∀ k (ranges : List (Nat × Nat)), k ≤ slots.length → ranges.length = slots.length →
      (∀ idx, k ≤ idx → idx < slots.length → Covering slots ranges idx) →
      ∀ idx, idx < slots.length → Covering slots ((range k).reverse.foldl
        (fun ranges idx => ranges.set idx (rangeOver ranges (slots.getD idx []) idx)) ranges) idx := by
    intro k
    induction k with
    | zero => exact fun ranges _ _ covering idx inside => covering idx (Nat.zero_le _) inside
    | succ k ih =>
      intro ranges _ length covering
      rw [range_succ, reverse_append, reverse_singleton, singleton_append, foldl_cons]
      apply ih _ (by omega) (by simpa using length)
      intro idx from_k inside
      exact covering_set topological (by omega) covering from_k inside
  exact filled slots.length _ (Nat.le_refl _) (by simp)
    (fun idx outside inside => absurd inside (Nat.not_lt_of_le outside)) idx inside

variable {slots : List (List Nat)}

def Unbranched (slots : List (List Nat)) (path : List Nat) : Prop :=
  path.IsChain fun idx next => slots.getD idx [] = [next]

structure WalkMarks (slots : List (List Nat)) (nodeSegment : List (Option Nat)) (offsets : List Nat)
    (segmentId : Nat) (path : List Nat) (s : SegmentWalk) : Prop where
  offset : s.offset = path.length
  segment : ∀ idx, s.nodeSegment.getD idx none =
    if idx ∈ path then some segmentId else nodeSegment.getD idx none
  offsets : ∀ idx, s.nodeSegmentOffset.getD idx 0 = if idx ∈ path then path.idxOf idx else offsets.getD idx 0
  lengths : s.nodeSegment.length = slots.length ∧ s.nodeSegmentOffset.length = slots.length
  inside : ∀ idx ∈ path, idx < slots.length
  nodup : path.Nodup
  fresh : ∀ idx ∈ path, nodeSegment.getD idx none = none
  unbranched : Unbranched slots path

structure WalkReady (slots : List (List Nat)) (nodeSegment : List (Option Nat)) (offsets : List Nat)
    (segmentId : Nat) (path : List Nat) (s : SegmentWalk) : Prop extends
    WalkMarks slots nodeSegment offsets segmentId path s where
  current : s.current < slots.length
  unmarked : s.current ∉ path
  unassigned : nodeSegment.getD s.current none = none
  next : Unbranched slots (path ++ [s.current])

variable {offsets : List Nat} {path : List Nat} {s : SegmentWalk}

theorem getD_set_eq {α : Type} {l : List α} (bound : idx < l.length) (value default : α) (other : Nat) :
    (l.set idx value).getD other default = if other = idx then value else l.getD other default := by
  rw [getD_eq_getElem?_getD, getD_eq_getElem?_getD, getElem?_set]
  by_cases same : idx = other
  · subst same
    simp [bound]
  · simp [same, Ne.symm same]

theorem segmentTurn_marks (ready : WalkReady slots nodeSegment offsets segmentId path s) :
    WalkMarks slots nodeSegment offsets segmentId (path ++ [s.current])
      (segmentTurn slots segmentId s).1 ∧ (segmentTurn slots segmentId s).1.current = s.current := by
  have boundSegment : s.current < s.nodeSegment.length := ready.lengths.1 ▸ ready.current
  have boundOffset : s.current < s.nodeSegmentOffset.length := ready.lengths.2 ▸ ready.current
  refine ⟨⟨?_, fun idx => ?_, fun idx => ?_, ?_, ?_, ?_, ?_, ready.next⟩, rfl⟩
  · simp [segmentTurn, ready.offset]
  · unfold segmentTurn
    rw [getD_set_eq boundSegment, ready.segment]
    by_cases here : idx = s.current
    · simp [here]
    · simp [here]
  · unfold segmentTurn
    rw [getD_set_eq boundOffset, ready.offsets, ready.offset]
    by_cases here : idx = s.current
    · subst here
      simp [idxOf_append_of_notMem ready.unmarked]
    · by_cases old : idx ∈ path
      · simp [here, old, idxOf_append_of_mem old]
      · simp [here, old]
  · simpa [segmentTurn] using ready.lengths
  · intro idx mem
    rcases mem_append.mp mem with old | new
    · exact ready.inside idx old
    · exact mem_singleton.mp new ▸ ready.current
  · exact ready.nodup.append (by simp) (by simpa using ready.unmarked)
  · intro idx mem
    rcases mem_append.mp mem with old | new
    · exact ready.fresh idx old
    · exact mem_singleton.mp new ▸ ready.unassigned

theorem segmentTurn_next (topological : Topological slots)
    (ready : WalkReady slots nodeSegment offsets segmentId path s)
    (goes : (segmentTurn slots segmentId s).2 = some next) :
    WalkReady slots nodeSegment offsets segmentId (path ++ [s.current])
      { (segmentTurn slots segmentId s).1 with current := next } := by
  obtain ⟨marks, _⟩ := segmentTurn_marks ready
  have single : slots.getD s.current [] = [next] ∧
      (segmentTurn slots segmentId s).1.nodeSegment.getD next none = none := by
    unfold segmentTurn at goes ⊢
    dsimp only at goes ⊢
    split at goes
    · rename_i child only
      split at goes
      · rename_i passes
        obtain rfl := Option.some.inj goes
        exact ⟨only, passes.2.2⟩
      · cases goes
    · cases goes
  have open_ := single.2
  rw [marks.segment] at open_
  have unmarked : next ∉ path ++ [s.current] := fun mem => by simp [mem] at open_
  rw [if_neg unmarked] at open_
  refine ⟨⟨marks.offset, marks.segment, marks.offsets, marks.lengths, marks.inside, marks.nodup, marks.fresh,
    marks.unbranched⟩, ?_, unmarked, open_, ?_⟩
  · exact (topological s.current next (single.1 ▸ mem_singleton_self next)).2
  · refine isChain_append.mpr ⟨marks.unbranched, .singleton _, ?_⟩
    simp only [getLast?_append, getLast?_singleton, some_or, mem_def, Option.some.injEq, head?_cons]
    rintro _ rfl _ rfl
    exact single.1

theorem segmentLoop_spec (topological : Topological slots) (fuel : Nat)
    (ready : WalkReady slots nodeSegment offsets segmentId path s)
    (enough : slots.length ≤ fuel + path.length) :
    ∃ final, WalkMarks slots nodeSegment offsets segmentId final (segmentLoop slots segmentId fuel s) ∧
      final.getLast? = some (segmentLoop slots segmentId fuel s).current ∧
      ∀ idx ∈ path ++ [s.current], idx ∈ final := by
  induction fuel generalizing path s with
  | zero =>
    obtain ⟨marks, _⟩ := segmentTurn_marks ready
    have bound := (subperm_of_subset marks.nodup fun idx mem =>
      mem_range.mpr (marks.inside idx mem)).length_le
    simp only [length_append, length_singleton, length_range] at bound
    omega
  | succ fuel ih =>
    obtain ⟨marks, current⟩ := segmentTurn_marks ready
    unfold segmentLoop
    cases goes : (segmentTurn slots segmentId s).2 with
    | none =>
      have pair : segmentTurn slots segmentId s = ((segmentTurn slots segmentId s).1, none) := Prod.ext rfl goes
      rw [pair]
      refine ⟨_, marks, ?_, fun _ mem => mem⟩
      rw [current]
      simp
    | some next =>
      have pair : segmentTurn slots segmentId s = ((segmentTurn slots segmentId s).1, some next) := Prod.ext rfl goes
      obtain ⟨final, marked, closes, reaches⟩ := ih (segmentTurn_next topological ready goes)
        (by simp only [length_append, length_singleton]; omega)
      rw [pair]
      exact ⟨final, marked, closes, fun idx mem => reaches idx (mem_append_left _ mem)⟩

/-- The segments are paths without a branch, one for each id, in which every marked position stands at its
    offset. -/
structure SegmentPaths (slots : List (List Nat)) (s : Segments) (paths : List (List Nat)) : Prop where
  tails : s.tails.length = paths.length
  closes : ∀ (g : Nat) path, paths[g]? = some path → path.getLast? = s.tails[g]?
  assigned : ∀ idx g, s.nodeSegment.getD idx none = some g ↔ ∃ path, paths[g]? = some path ∧ idx ∈ path
  offsets : ∀ path ∈ paths, ∀ idx ∈ path, s.nodeSegmentOffset.getD idx 0 = path.idxOf idx
  unbranched : ∀ path ∈ paths, path.Nodup ∧ Unbranched slots path
  lengths : s.nodeSegment.length = slots.length ∧ s.nodeSegmentOffset.length = slots.length

theorem getElem?_snoc {α : Type} {l : List α} {last value : α} {g : Nat} :
    (l ++ [last])[g]? = some value ↔ l[g]? = some value ∨ g = l.length ∧ value = last := by
  rw [getElem?_append]
  split
  · rename_i old
    have : g ≠ l.length := by omega
    simp [this]
  · rename_i new
    rw [getElem?_singleton, getElem?_eq_none (Nat.le_of_not_lt new)]
    have : g - l.length = 0 ↔ g = l.length := by omega
    simp only [this, reduceCtorEq, false_or]
    split
    · rename_i here
      simp [here, eq_comm]
    · rename_i past
      simp [past]

theorem SegmentPaths.snoc {s t : Segments} {paths : List (List Nat)} (inv : SegmentPaths slots s paths)
    {walk : SegmentWalk} {path : List Nat}
    (marks : WalkMarks slots s.nodeSegment s.nodeSegmentOffset s.tails.length path walk)
    (closes : path.getLast? = some walk.current) (tails : t.tails = s.tails ++ [walk.current])
    (segment : t.nodeSegment = walk.nodeSegment) (offset : t.nodeSegmentOffset = walk.nodeSegmentOffset) :
    SegmentPaths slots t (paths ++ [path]) := by
  have disjoint : ∀ owner ∈ paths, ∀ idx ∈ owner, idx ∉ path := by
    intro owner mem idx here onPath
    obtain ⟨g, found⟩ := mem_iff_getElem?.mp mem
    have assigned := (inv.assigned idx g).mpr ⟨owner, found, here⟩
    rw [marks.fresh idx onPath] at assigned
    cases assigned
  refine ⟨by simp [tails, inv.tails], fun g owner found => ?_, fun idx g => ?_, fun owner mem idx here => ?_,
    fun owner mem => ?_, segment ▸ offset ▸ marks.lengths⟩
  · rw [tails]
    rcases getElem?_snoc.mp found with old | ⟨rfl, rfl⟩
    · have bound := (List.getElem?_eq_some_iff.mp old).1
      rw [inv.closes g owner old, getElem?_append_left (inv.tails ▸ bound)]
    · rw [closes]
      exact (getElem?_snoc.mpr (.inr ⟨inv.tails.symm, rfl⟩)).symm
  · rw [segment, marks.segment]
    by_cases onPath : idx ∈ path
    · rw [if_pos onPath, Option.some.injEq]
      constructor
      · rintro rfl
        exact ⟨path, getElem?_snoc.mpr (.inr ⟨inv.tails, rfl⟩), onPath⟩
      · rintro ⟨owner, found, here⟩
        rcases getElem?_snoc.mp found with old | ⟨rfl, _⟩
        · exact absurd onPath (disjoint owner (mem_of_getElem? old) idx here)
        · exact inv.tails
    · rw [if_neg onPath, inv.assigned]
      refine exists_congr fun owner => ?_
      rw [getElem?_snoc]
      constructor
      · exact fun ⟨found, here⟩ => ⟨.inl found, here⟩
      · rintro ⟨found | ⟨_, rfl⟩, here⟩
        · exact ⟨found, here⟩
        · exact absurd here onPath
  · rw [offset, marks.offsets]
    rcases mem_append.mp mem with old | new
    · rw [if_neg (disjoint owner old idx here), inv.offsets owner old idx here]
    · rw [mem_singleton.mp new] at here ⊢
      rw [if_pos here]
  · rcases mem_append.mp mem with old | new
    · exact inv.unbranched owner old
    · exact mem_singleton.mp new ▸ ⟨marks.nodup, marks.unbranched⟩

theorem addSegment_spec (topological : Topological slots) {s : Segments} (inv : SegmentPaths slots s paths)
    (idx : Nat) (inside : idx < slots.length) : (∃ paths, SegmentPaths slots (addSegment slots s idx) paths) ∧
      ∀ other, other = idx ∨ s.nodeSegment.getD other none ≠ none →
        (addSegment slots s idx).nodeSegment.getD other none ≠ none := by
  unfold addSegment
  by_cases marked : s.nodeSegment.getD idx none ≠ none
  · rw [if_pos marked]
    exact ⟨⟨paths, inv⟩, fun other kept => kept.elim (fun same => same ▸ marked) fun kept => kept⟩
  · rw [if_neg marked]
    have ready : WalkReady slots s.nodeSegment s.nodeSegmentOffset s.tails.length []
        ⟨s.nodeSegment, s.nodeSegmentOffset, idx, 0⟩ :=
      ⟨⟨rfl, by simp, by simp, inv.lengths, by simp, by simp, by simp, .nil⟩, inside, by simp,
        not_not.mp marked, .singleton _⟩
    obtain ⟨path, marks, closes, covers⟩ := segmentLoop_spec topological slots.length ready (by simp)
    refine ⟨⟨_, inv.snoc marks closes rfl rfl rfl⟩, fun other kept => ?_⟩
    rw [marks.segment]
    split
    · simp
    · rename_i elsewhere
      rcases kept with rfl | kept
      · exact absurd (covers other (by simp)) elsewhere
      · exact kept

theorem buildSegments_paths (topological : Topological slots) :
    ∃ paths, SegmentPaths slots (buildSegments slots) paths ∧
      ∀ idx < slots.length, (buildSegments slots).nodeSegment.getD idx none ≠ none := by
  have built : ∀ k ≤ slots.length, ∃ paths, SegmentPaths slots ((range k).foldl (addSegment slots)
        ⟨[], replicate slots.length none, replicate slots.length 0, ⟨slots.length, 0, 0⟩⟩) paths ∧
      ∀ idx < k, ((range k).foldl (addSegment slots) ⟨[], replicate slots.length none, replicate slots.length 0,
          ⟨slots.length, 0, 0⟩⟩).nodeSegment.getD idx none ≠ none := by
    intro k
    induction k with
    | zero =>
      refine fun _ => ⟨[], ⟨rfl, by simp, fun idx g => ?_, by simp, by simp, by simp⟩, by simp⟩
      simp [getD_eq_getElem?_getD, getElem?_replicate]
      split <;> simp
    | succ k ih =>
      intro _
      obtain ⟨paths, inv, assigned⟩ := ih (by omega)
      rw [range_succ, foldl_append, foldl_cons, foldl_nil]
      obtain ⟨⟨more, inv'⟩, kept⟩ := addSegment_spec topological inv k (by omega)
      refine ⟨more, inv', fun idx below => kept idx ?_⟩
      rcases Nat.lt_succ_iff_lt_or_eq.mp below with earlier | rfl
      · exact .inr (assigned idx earlier)
      · exact .inl rfl
  exact built slots.length (Nat.le_refl _)

theorem Unbranched.leads (unbranched : Unbranched slots path) {i j : Nat} (first : path[i]? = some idx)
    (second : path[j]? = some other) (before : i ≤ j) : LeadsTo slots idx other := by
  obtain ⟨gap, rfl⟩ := Nat.exists_eq_add_of_le before
  induction gap generalizing other with
  | zero =>
    obtain rfl := Option.some.inj (first.symm.trans second)
    exact .refl
  | succ gap ih =>
    have bound : i + gap + 1 < path.length := (List.getElem?_eq_some_iff.mp second).1
    have previous := getElem?_eq_getElem (Nat.lt_of_succ_lt bound)
    have only := isChain_iff_getElem.mp unbranched (i + gap) bound
    refine (ih previous (Nat.le_add_right _ _)).tail ?_
    show other ∈ slots.getD _ []
    rw [only, (List.getElem?_eq_some_iff.mp second).2.symm]
    exact mem_singleton_self _

theorem Unbranched.leaves (unbranched : Unbranched slots path) (closes : path.getLast? = some last) {i : Nat}
    (here : path[i]? = some idx) (leads : LeadsTo slots idx other) :
    (∃ j, i ≤ j ∧ path[j]? = some other) ∨ ∃ child ∈ slots.getD last [], LeadsTo slots child other := by
  obtain ⟨rest, length⟩ := Nat.exists_eq_add_of_lt (List.getElem?_eq_some_iff.mp here).1
  induction rest generalizing i idx with
  | zero =>
    have final : last = idx := by
      rw [getLast?_eq_getElem?, length, Nat.add_zero, Nat.add_sub_cancel, here] at closes
      exact (Option.some.inj closes).symm
    rcases leads.cases_head with rfl | ⟨child, edge, further⟩
    · exact .inl ⟨i, Nat.le_refl _, here⟩
    · exact .inr ⟨child, final ▸ edge, further⟩
  | succ rest ih =>
    have bound : i + 1 < path.length := by omega
    have at_i := (List.getElem?_eq_some_iff.mp here).2
    have only := isChain_iff_getElem.mp unbranched i bound
    rcases leads.cases_head with rfl | ⟨child, edge, further⟩
    · exact .inl ⟨i, Nat.le_refl _, here⟩
    · have next : child = path[i + 1] := by
        have edge : child ∈ slots.getD idx [] := edge
        rw [← at_i, only] at edge
        exact mem_singleton.mp edge
      rcases ih (next ▸ getElem?_eq_getElem bound) further (by omega) with ⟨j, later, found⟩ | left
      · exact .inl ⟨j, by omega, found⟩
      · exact .inr left

structure SegmentsSpec (slots : List (List Nat)) (s : Segments) : Prop where
  assigned : ∀ idx < slots.length, ∃ g, s.nodeSegment.getD idx none = some g
  within : ∀ g idx other, s.nodeSegment.getD idx none = some g → s.nodeSegment.getD other none = some g →
    s.nodeSegmentOffset.getD idx 0 ≤ s.nodeSegmentOffset.getD other 0 → LeadsTo slots idx other
  tail : ∀ g idx, s.nodeSegment.getD idx none = some g → LeadsTo slots idx (s.tails.getD g 0)
  leaves : ∀ g idx other, s.nodeSegment.getD idx none = some g → LeadsTo slots idx other →
    (s.nodeSegment.getD other none = some g ∧
      s.nodeSegmentOffset.getD idx 0 ≤ s.nodeSegmentOffset.getD other 0) ∨
    ∃ child ∈ slots.getD (s.tails.getD g 0) [], LeadsTo slots child other

theorem buildSegments_spec (topological : Topological slots) : SegmentsSpec slots (buildSegments slots) := by
  obtain ⟨paths, inv, assigned⟩ := buildSegments_paths topological
  have located : ∀ path ∈ paths, ∀ idx ∈ path,
      path[(buildSegments slots).nodeSegmentOffset.getD idx 0]? = some idx := by
    intro path mem idx here
    rw [inv.offsets path mem idx here]
    exact getElem?_idxOf here
  have closes : ∀ g path, paths[g]? = some path → path ≠ [] →
      path.getLast? = some ((buildSegments slots).tails.getD g 0) := by
    intro g path found nonempty
    have last := inv.closes g path found
    rw [getLast?_eq_some_getLast nonempty] at last ⊢
    rw [getD_eq_getElem?_getD, ← last]
    rfl
  refine ⟨fun idx inside => ?_, fun g idx other first second before => ?_, fun g idx found => ?_,
    fun g idx other found leads => ?_⟩
  · exact ne_none_iff_exists'.mp (assigned idx inside)
  · obtain ⟨path, owner, here⟩ := (inv.assigned idx g).mp first
    obtain ⟨same, sameOwner, there⟩ := (inv.assigned other g).mp second
    obtain rfl := Option.some.inj (owner.symm.trans sameOwner)
    have mem := mem_of_getElem? owner
    exact (inv.unbranched path mem).2.leads (located path mem idx here) (located path mem other there) before
  · obtain ⟨path, owner, here⟩ := (inv.assigned idx g).mp found
    have mem := mem_of_getElem? owner
    have last := closes g path owner (ne_nil_of_mem here)
    rw [getLast?_eq_getElem?] at last
    have bound := (List.getElem?_eq_some_iff.mp (located path mem idx here)).1
    exact (inv.unbranched path mem).2.leads (located path mem idx here) last (by omega)
  · obtain ⟨path, owner, here⟩ := (inv.assigned idx g).mp found
    have mem := mem_of_getElem? owner
    rcases (inv.unbranched path mem).2.leaves (closes g path owner (ne_nil_of_mem here))
      (located path mem idx here) leads with ⟨j, later, there⟩ | left
    · have onPath := mem_of_getElem? there
      refine .inl ⟨(inv.assigned other g).mpr ⟨path, owner, onPath⟩, ?_⟩
      rw [inv.offsets path mem other onPath]
      obtain ⟨bound, value⟩ := List.getElem?_eq_some_iff.mp there
      rw [← value, (inv.unbranched path mem).1.idxOf_getElem j bound]
      exact later
    · exact .inr left

end

variable [LinearOrder Id] (order : Order) (graph : EventMap Id C)

theorem build_length : (build order graph).childrenByIndex.length = (build order graph).items.length := by
  simp [build, buildIndexedChildren]

theorem children_of_build (edge : child ∈ (build order graph).children idx) :
    ∃ id childId, (build order graph).items[idx]? = some id ∧ (build order graph).items[child]? = some childId ∧
      childId ∈ forwardEdges graph id := by
  have bound : idx < (build order graph).items.length := by
    by_contra outside
    rw [children, getD_eq_getElem?_getD, getElem?_eq_none (by rw [build_length]; omega)] at edge
    simp at edge
  have here := getElem?_eq_getElem bound
  obtain ⟨childId, cites, found⟩ := (mem_children order graph here child).mp edge
  exact ⟨_, childId, here, found, cites⟩

theorem build_topological (acyclic : (build order graph).cyclicNodes = []) :
    Topological (build order graph).childrenByIndex := by
  obtain ⟨emptied, inv⟩ := topology_peeled order graph
  have leftover : (collectTopology order graph).leftoverNodes = [] := by
    rw [eq_nil_iff_forall_not_mem]
    intro id mem
    have listed : id ∈ (build order graph).items := by
      rw [build_items]
      exact mem_append_right _ mem
    obtain ⟨idx, found⟩ := isSome_iff_exists.mp (isSome_idxOf?.mpr listed)
    have cyclic : idx ∈ (build order graph).cyclicNodes := mem_filterMap.mpr ⟨id, mem, found⟩
    rw [acyclic] at cyclic
    cases cyclic
  have items : (build order graph).items = _ :=
    (build_items order graph).trans ((congrArg (_ ++ ·) leftover).trans (append_nil _))
  intro idx child edge
  obtain ⟨id, childId, here, there, cites⟩ := children_of_build order graph edge
  have parent := (Peel.mem_citers.mp cites).2
  have bound := (List.getElem?_eq_some_iff.mp there).1
  refine ⟨?_, build_length order graph ▸ bound⟩
  rw [items] at here there
  by_contra notBefore
  rcases Nat.eq_or_lt_of_le (Nat.le_of_not_lt notBefore) with rfl | before
  · obtain rfl := Option.some.inj (here.symm.trans there)
    exact inv.irreflexive id (mem_of_getElem? here) parent
  · obtain ⟨boundHere, rfl⟩ := List.getElem?_eq_some_iff.mp here
    obtain ⟨boundThere, rfl⟩ := List.getElem?_eq_some_iff.mp there
    exact pairwise_iff_getElem.mp inv.ordered child idx boundThere boundHere before parent

end Rezzy.Resolve
