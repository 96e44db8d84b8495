import Rezzy.Lib.Peel
import Rezzy.Resolve.Sorting

namespace Rezzy.Resolve

open Basespec Auth Permuted List Function
open SortPriority (popsBefore)

variable {Id C : Type} [LinearOrder Id]

theorem SortPriority.popsBefore_v1 (self other : SortPriority Id C) :
    self.popsBefore .v1 other = true ↔ other.event.depth < self.event.depth ∨
      self.event.depth = other.event.depth ∧ other.event.eventId < self.event.eventId := by
  simp only [popsBefore, cmp, decide_eq_true_eq, Ordering.then_eq_gt, compare_gt_iff_gt, compare_eq_iff_eq]

theorem SortPriority.popsBefore_v2 (later : version ≠ .v1) (self other : SortPriority Id C) :
    self.popsBefore version other = true ↔ other.powerLevel < self.powerLevel ∨
      self.powerLevel = other.powerLevel ∧ (self.event.originServerTs < other.event.originServerTs ∨
        other.event.originServerTs = self.event.originServerTs ∧ self.event.eventId < other.event.eventId) := by
  have unfolded : self.cmp version other = (compare self.powerLevel other.powerLevel).then
      ((compare other.event.originServerTs self.event.originServerTs).then
        (compare other.event.eventId self.event.eventId)) := by
    cases version <;> first | rfl | exact absurd rfl later
  simp only [popsBefore, unfolded, decide_eq_true_eq, Ordering.then_eq_gt, compare_gt_iff_gt, compare_eq_iff_eq]

theorem SortPriority.popsBefore_decides (version : StateResVersion) (l : List (SortPriority Id C))
    (byId : ∀ x ∈ l, ∀ y ∈ l, x.event.eventId = y.event.eventId → x = y) :
    Decides (popsBefore version) l := by
  by_cases first : version = .v1
  · subst first
    refine ⟨fun x _ y _ before => ?_, fun x _ y _ z _ before after => ?_, fun x hx y hy differ => ?_⟩
    · rw [popsBefore_v1] at before
      rw [← Bool.not_eq_true, popsBefore_v1]
      grind
    · rw [popsBefore_v1] at *
      grind
    · have ids : x.event.eventId ≠ y.event.eventId := fun same => differ (byId x hx y hy same)
      rw [popsBefore_v1, popsBefore_v1]
      grind
  · refine ⟨fun x _ y _ before => ?_, fun x _ y _ z _ before after => ?_, fun x hx y hy differ => ?_⟩
    · rw [popsBefore_v2 first] at before
      rw [← Bool.not_eq_true, popsBefore_v2 first]
      grind
    · rw [popsBefore_v2 first] at *
      grind
    · rw [popsBefore_v2 first, popsBefore_v2 first]
      grind

namespace KahnSortInputs

instance stuckBefore_total (inputs : KahnSortInputs Id C) : Std.Total inputs.stuckBefore where
  total a b := by
    unfold stuckBefore
    grind

instance stuckBefore_trans (inputs : KahnSortInputs Id C) : IsTrans Id inputs.stuckBefore where
  trans a b c := by
    unfold stuckBefore
    grind

theorem stuckBefore_antisymm (inputs : KahnSortInputs Id C) (a b : Id)
    (before : inputs.stuckBefore a b) (after : inputs.stuckBefore b a) : a = b := by
  unfold stuckBefore at before after
  grind

section

def parentIds (inputs : KahnSortInputs Id C) (id : Id) : List Id :=
  ((inputs.events.get id).map inputs.parents).getD []

variable {inputs : KahnSortInputs Id C}

theorem parentIds_of_mem (mem : event ∈ inputs.events.values) :
    inputs.parentIds event.eventId = inputs.parents event := by
  simp [parentIds, EventMap.get_of_mem mem]

theorem parentIds_known {id parent : Id} (cited : parent ∈ inputs.parentIds id) :
    parent ∈ inputs.events.keys ∧ id ∈ inputs.events.keys := by
  unfold parentIds at cited
  cases found : inputs.events.get id with
  | none => simp [found] at cited
  | some event =>
    have kept : parent ∈ inputs.parents event := by simpa [found] using cited
    have known : (inputs.events.get parent).isSome := (mem_filter.mp kept).2
    exact ⟨EventMap.mem_keys.mpr (Option.isSome_iff_exists.mp known), EventMap.mem_keys.mpr ⟨event, found⟩⟩

theorem inDegree_eq : inputs.inDegree = fun id => (inputs.parentIds id).length := by
  funext id
  unfold inDegree parentIds
  cases inputs.events.get id <;> rfl

theorem graph (inputs : KahnSortInputs Id C) (order : Order) :
    Peel.Graph inputs.events.keys inputs.parentIds (inputs.adjacency order) where
  nodup := inputs.events.distinct
  within _ _ _ cited := (parentIds_known cited).1
  turned id := by
    unfold adjacency Peel.citers EventMap.keys
    rw [List.flatMap_map]
    refine ((order.perm .kahnEdges inputs.events.values).flatMap_right _).trans (.of_eq ?_)
    exact List.flatMap_congr fun event mem => by rw [parentIds_of_mem mem]

theorem adjacency_keys (order : Order) (id other : Id) (mem : other ∈ inputs.adjacency order id) :
    ∃ event ∈ inputs.events.values, event.eventId = other :=
  mem_map.mp (Peel.mem_citers.mp (((graph inputs order).turned id).mem_iff.mp mem)).1

end

variable [EventContent C]

def Heaped (inputs : KahnSortInputs Id C) (queue : List (SortPriority Id C)) : Prop :=
  ∀ top ∈ queue, ∃ event ∈ inputs.events.values, top = inputs.priority event

theorem Heaped.decides {inputs : KahnSortInputs Id C} (heaped : inputs.Heaped queue) :
    Decides (popsBefore inputs.version) queue := by
  apply SortPriority.popsBefore_decides
  intro x hx y hy same
  obtain ⟨left, inLeft, rfl⟩ := heaped x hx
  obtain ⟨right, inRight, rfl⟩ := heaped y hy
  rw [EventMap.mem_unique inLeft inRight same]

theorem relax_heaped {inputs : KahnSortInputs Id C} (ids : List Id)
    (pending : (Id → Nat) × List (SortPriority Id C)) (heaped : inputs.Heaped pending.2) :
    inputs.Heaped (ids.foldl inputs.relax pending).2 := by
  induction ids generalizing pending with
  | nil => exact heaped
  | cons id ids ih =>
    apply ih
    unfold relax
    dsimp only
    split
    · intro top mem
      rcases mem_append.mp mem with mem | mem
      · exact heaped top mem
      · obtain ⟨event, found, rfl⟩ := Option.map_eq_some_iff.mp (Option.mem_toList.mp mem)
        exact ⟨event, EventMap.get_mem found, rfl⟩
    · exact heaped

theorem turn_heaped (order : Order) {inputs : KahnSortInputs Id C} (s t : Progress Id C)
    (heaped : inputs.Heaped s.queue) (step : inputs.turn order s = some t) : inputs.Heaped t.queue := by
  unfold turn at step
  cases taken : popFirst (popsBefore inputs.version) s.queue with
  | none => simp [taken] at step
  | some pair =>
    simp only [taken, Option.some.injEq] at step
    subst step
    apply relax_heaped
    intro top mem
    exact heaped top ((popFirst_perm taken).mem_iff.mpr (mem_cons_of_mem _ mem))

theorem roots_heaped (order : Order) (inputs : KahnSortInputs Id C) : inputs.Heaped (inputs.roots order) := by
  intro _ mem
  obtain ⟨event, inside, rfl⟩ := mem_map.mp mem
  exact ⟨event, (order.perm _ _).mem_iff.mp (mem_of_mem_filter inside), rfl⟩

section

structure Same (left right : KahnSortInputs Id C) : Prop where
  events : left.events.values.Perm right.events.values
  version : left.version = right.version
  levels : ∀ event ∈ left.events.values, left.priority event = right.priority event

variable {left right : KahnSortInputs Id C}

theorem Same.get (same : Same left right) (id : Id) : left.events.get id = right.events.get id :=
  EventMap.get_of_perm same.events id

theorem Same.parents (same : Same left right) (event : LeanEvent Id C) : left.parents event = right.parents event := by
  have keys : left.events.containsKey = right.events.containsKey := by
    funext id
    simp only [EventMap.containsKey, same.get]
  simp only [KahnSortInputs.parents, keys, LeanEvent.dagEdges_eq]

theorem Same.inDegree (same : Same left right) : left.inDegree = right.inDegree := by
  funext id
  have parents := funext same.parents
  simp only [KahnSortInputs.inDegree, same.get, parents]

theorem Same.relax (same : Same left right) : left.relax = right.relax := by
  funext pending nextId
  have queued : (left.events.get nextId).map left.priority = (right.events.get nextId).map right.priority := by
    rw [← same.get]
    cases found : left.events.get nextId with
    | none => rfl
    | some event => simp [same.levels event (EventMap.get_mem found)]
  simp only [KahnSortInputs.relax, queued]

theorem relax_perm (inputs : KahnSortInputs Id C) {ids others : List Id} (perm : ids.Perm others)
    (start : s.1 = t.1 ∧ s.2.Perm t.2) : (ids.foldl inputs.relax s).1 = (others.foldl inputs.relax t).1 ∧
      (ids.foldl inputs.relax s).2.Perm (others.foldl inputs.relax t).2 := by
  refine foldl_perm (fun (s t : (Id → Nat) × List (SortPriority Id C)) => s.1 = t.1 ∧ s.2.Perm t.2)
    (fun s => ⟨rfl, .refl _⟩) (fun s t u st tu => ⟨st.1.trans tu.1, st.2.trans tu.2⟩) ?_ ?_ perm start
  · rintro ⟨degree, queue⟩ ⟨degree', queue'⟩ x ⟨rfl, queues⟩
    refine ⟨rfl, ?_⟩
    simp only [relax]
    split
    · exact queues.append_right _
    · exact queues
  · rintro ⟨degree, queue⟩ x y
    by_cases same : x = y
    · subst same
      exact ⟨rfl, .refl _⟩
    · refine ⟨?_, ?_⟩
      · simp only [relax, update_of_ne same, update_of_ne (Ne.symm same)]
        exact update_comm same _ _ _
      · simp only [relax, update_self, update_of_ne same, update_of_ne (Ne.symm same)]
        split <;> split
        · simp only [append_assoc]
          exact .append_left _ perm_append_comm
        all_goals exact .refl _

theorem Same.adjacency (same : Same left right) (orderLeft orderRight : Order) (id : Id) :
    (left.adjacency orderLeft id).Perm (right.adjacency orderRight id) := by
  unfold KahnSortInputs.adjacency
  have parents := funext same.parents
  rw [parents]
  exact (orderLeft.iter_perm orderRight .kahnEdges same.events).flatMap_right _

def InStep (left : KahnSortInputs Id C) (s t : Progress Id C) : Prop :=
  s.result = t.result ∧ s.degree = t.degree ∧ s.queue.Perm t.queue ∧ left.Heaped s.queue

variable (same : Same left right) (orderLeft orderRight : Order)
include same

theorem Same.turn (s t : Progress Id C) (inStep : InStep left s t) :
    Option.Rel (InStep left) (left.turn orderLeft s) (right.turn orderRight t) := by
  obtain ⟨result, degree, queue⟩ := s
  obtain ⟨result', degree', queue'⟩ := t
  obtain ⟨rfl, rfl, queues, heaped⟩ : result = result' ∧ degree = degree' ∧ queue.Perm queue' ∧
    left.Heaped queue := inStep
  have popped := popFirst_congr heaped.decides queues
  have stepHeaped := fun u => turn_heaped orderLeft ⟨result, degree, queue⟩ u heaped
  simp only [KahnSortInputs.turn, ← same.version] at stepHeaped ⊢
  cases hl : popFirst (popsBefore left.version) queue with
  | none =>
    rw [hl] at popped
    cases hr : popFirst (popsBefore left.version) queue' with
    | none => exact .none
    | some pair => rw [hr] at popped; cases popped
  | some pair =>
    rw [hl] at popped
    cases hr : popFirst (popsBefore left.version) queue' with
    | none => rw [hr] at popped; cases popped
    | some pair' =>
      rw [hr] at popped
      obtain ⟨top, rest⟩ := pair
      obtain ⟨top', rest'⟩ := pair'
      cases popped with
      | some both =>
        obtain ⟨rfl, rests⟩ : top = top' ∧ rest.Perm rest' := both
        have relaxed := relax_perm left (s := (degree, rest)) (t := (degree, rest'))
          (same.adjacency orderLeft orderRight top.event.eventId) ⟨rfl, rests⟩
        rw [same.relax] at relaxed
        refine .some ⟨rfl, ?_, ?_, ?_⟩
        · rw [same.relax]; exact relaxed.1
        · rw [same.relax]; exact relaxed.2
        · exact stepHeaped _ (by rw [hl])

theorem Same.roots : (left.roots orderLeft).Perm (right.roots orderRight) := by
  unfold KahnSortInputs.roots
  rw [same.inDegree]
  have perm := (orderLeft.iter_perm orderRight .kahnRoots same.events).filter
    fun event => decide (right.inDegree event.eventId = 0)
  refine (List.Perm.of_eq (map_congr_left ?_)).trans (perm.map right.priority)
  intro event mem
  exact same.levels event ((orderLeft.perm _ _).mem_iff.mp (mem_of_mem_filter mem))

theorem Same.sorted : left.sorted orderLeft = right.sorted orderRight := by
  unfold KahnSortInputs.sorted
  rw [← same.events.length_eq, ← same.inDegree]
  have start : InStep left ⟨[], left.inDegree, left.roots orderLeft⟩ ⟨[], left.inDegree, right.roots orderRight⟩ :=
    ⟨rfl, rfl, same.roots orderLeft orderRight, roots_heaped orderLeft left⟩
  exact (Loop.run_simulation (InStep left) (same.turn orderLeft orderRight) _ start).1

theorem Same.sort : left.sort orderLeft = right.sort orderRight := by
  have before : left.stuckBefore = right.stuckBefore := by
    funext a b
    simp only [stuckBefore, same.get]
  have keys : left.events.keys.Perm right.events.keys := same.events.map _
  unfold KahnSortInputs.sort withCycleDiagnostics
  rw [same.sorted orderLeft orderRight, same.events.length_eq]
  by_cases cyclic : (right.sorted orderRight).length ≠ right.events.values.length
  · rw [if_pos cyclic, if_pos cyclic]
    dsimp only
    congr 1
    have perm := (orderLeft.iter_perm orderRight .kahnStuck keys).filter fun id => decide (id ∉ right.sorted orderRight)
    exact sort_congr left.stuckBefore right.stuckBefore (fun x _ y _ => by rw [before]; exact id)
      (fun x _ y _ => stuckBefore_antisymm left x y) perm
  · rw [if_neg cyclic, if_neg cyclic]

end

variable {inputs : KahnSortInputs Id C}

def ids (queue : List (SortPriority Id C)) : List Id := queue.map fun top => top.event.eventId

def peeled (progress : Progress Id C) : Peel.Progress Id := ⟨progress.result, ids progress.queue, progress.degree⟩

theorem relax_peels (more : List Id) (known : ∀ id ∈ more, ∃ event ∈ inputs.events.values, event.eventId = id)
    (pending : (Id → Nat) × List (SortPriority Id C)) :
    ((more.foldl inputs.relax pending).1, ids (more.foldl inputs.relax pending).2) =
      more.foldl Peel.relax (pending.1, ids pending.2) := by
  induction more generalizing pending with
  | nil => rfl
  | cons id more ih =>
    obtain ⟨event, mem, rfl⟩ := known id mem_cons_self
    rw [foldl_cons, foldl_cons, ih fun id mem => known id (mem_cons_of_mem _ mem)]
    congr 1
    unfold relax Peel.relax
    dsimp only
    split
    · simp [ids, priority, EventMap.get_of_mem mem]
    · rfl

structure ProgressInv (inputs : KahnSortInputs Id C) (progress : Progress Id C) : Prop where
  heaped : inputs.Heaped progress.queue
  peels : Peel.ProgressInv inputs.events.keys inputs.parentIds (peeled progress)

theorem progressInv_initial (inputs : KahnSortInputs Id C) (order : Order) :
    ProgressInv inputs ⟨[], inputs.inDegree, inputs.roots order⟩ where
  heaped := roots_heaped order inputs
  peels := by
    have rootIds : ids (inputs.roots order) = ((order.iter .kahnRoots inputs.events.values).filter
        fun event => inputs.inDegree event.eventId = 0).map LeanEvent.eventId := by
      simp [ids, roots, priority, comp_def]
    have listed : (ids (inputs.roots order)).Perm
        (inputs.events.keys.filter fun id => (inputs.parentIds id).length = 0) := by
      rw [rootIds, inDegree_eq, EventMap.keys, filter_map]
      exact ((order.perm _ _).filter _).map _
    rw [inDegree_eq]
    exact Peel.progressInv_initial (graph inputs order) listed

theorem turn_takes (order : Order) (heaped : inputs.Heaped s.queue) (step : inputs.turn order s = some t) :
    Peel.Takes (inputs.adjacency order) (peeled s) (peeled t) := by
  obtain ⟨result, degree, queue⟩ := s
  unfold turn at step
  cases popped : popFirst (popsBefore inputs.version) queue with
  | none => simp [popped] at step
  | some pair =>
    obtain ⟨top, rest⟩ := pair
    simp only [popped, Option.some.injEq] at step
    subst step
    refine ⟨top.event.eventId, ids rest, (popFirst_perm popped).map _, ?_⟩
    have relaxed := relax_peels (inputs.adjacency order top.event.eventId)
      (adjacency_keys order top.event.eventId) (degree, rest)
    unfold peeled
    rw [← relaxed]

theorem turn_progress (order : Order) (s t : Progress Id C) (inv : ProgressInv inputs s)
    (step : inputs.turn order s = some t) :
    ProgressInv inputs t ∧ t.result.length = s.result.length + 1 := by
  obtain ⟨peels, longer⟩ := Peel.takes_progress (graph inputs order) inv.peels (turn_takes order inv.heaped step)
  exact ⟨⟨turn_heaped order s t inv.heaped step, peels⟩, longer⟩

theorem ProgressInv.result (inv : ProgressInv inputs progress) :
    progress.result.Nodup ∧ ∀ id ∈ progress.result, id ∈ inputs.events.keys :=
  ⟨(nodup_append.mp inv.peels.cleared.nodup).1, fun id mem => inv.peels.cleared.inside id (mem_append_left _ mem)⟩

theorem sorted_spec (inputs : KahnSortInputs Id C) (order : Order) :
    (inputs.sorted order).Nodup ∧ ∀ id ∈ inputs.sorted order, id ∈ inputs.events.keys :=
  (Loop.run_invariant (fun s t inv step => (turn_progress order s t inv step).1)
    inputs.events.values.length (progressInv_initial inputs order)).result

variable (inputs) in
theorem sorted_finished (order : Order) : inputs.turn order (Loop.run (inputs.turn order) inputs.events.values.length
      ⟨[], inputs.inDegree, inputs.roots order⟩) = none := by
  apply Loop.run_finished (ProgressInv inputs) fun progress => inputs.events.values.length - progress.result.length
  · exact fun s t inv step => (turn_progress order s t inv step).1
  · intro s t inv step
    obtain ⟨inv', longer⟩ := turn_progress order s t inv step
    have bound : t.result.length ≤ inputs.events.keys.length := inv'.peels.length_le
    rw [EventMap.keys, length_map] at bound
    omega
  · exact progressInv_initial inputs order
  · exact Nat.sub_le _ _

variable (inputs) in
theorem sort_perm (order : Order) : (inputs.sort order).Perm inputs.events.keys := by
  obtain ⟨nodup, inside⟩ := sorted_spec inputs order
  unfold sort withCycleDiagnostics
  by_cases cyclic : (inputs.sorted order).length ≠ inputs.events.values.length
  · rw [if_pos cyclic]
    refine ((perm_insertionSort _ _).append_left _).trans ?_
    refine (((order.perm .kahnStuck inputs.events.keys).filter _).append_left _).trans ?_
    apply (perm_ext_iff_of_nodup _ inputs.events.distinct).mpr
    · intro id
      simp only [mem_append, mem_filter, decide_eq_true_eq]
      constructor
      · rintro (mem | mem)
        · exact inside id mem
        · exact mem.1
      · intro mem
        by_cases done : id ∈ inputs.sorted order
        · exact .inl done
        · exact .inr ⟨mem, done⟩
    · refine nodup.append (inputs.events.distinct.filter _) ?_
      intro id done waiting
      simp [done] at waiting
  · rw [if_neg cyclic]
    have length : (inputs.sorted order).length = inputs.events.keys.length := by
      simpa [EventMap.keys] using cyclic
    exact (subperm_of_subset nodup inside).perm_of_length_le (Nat.le_of_eq length.symm)

end KahnSortInputs

end Rezzy.Resolve
