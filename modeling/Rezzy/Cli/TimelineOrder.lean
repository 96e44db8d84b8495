import Mathlib
import Rezzy.Lib.Peel
import Rezzy.Lib.Permuted

namespace Rezzy.Cli

open Permuted List

/-- A component of a key. Numbers sort before texts. -/
abbrev KeyValue := Nat ⊕ₗ String

structure TimelineEvent (Id K : Type) where
  id : Id
  parents : List Id
  key : K

section

variable {Id K : Type} [LinearOrder Id] [LinearOrder K] (events : List (TimelineEvent Id K))

/-- A later event of the same id takes the place of an earlier one. -/
def indices (id : Id) : Option (Fin events.length) :=
  (List.finRange events.length).reverse.find? fun index => (events.get index).id = id

def parentIndices (child : Fin events.length) : List (Fin events.length) :=
  (events.get child).parents.filterMap (indices events)

def childIndices : Fin events.length → List (Fin events.length) :=
  Peel.citers (List.finRange events.length) (parentIndices events)

def sortKey (index : Fin events.length) : K ×ₗ Id := toLex ((events.get index).key, (events.get index).id)

def poppedBefore (a b : Fin events.length) : Bool :=
  sortKey events a < sortKey events b ∨ sortKey events a = sortKey events b ∧ a < b

def kahnTurn (s : Peel.Progress (Fin events.length)) : Option (Peel.Progress (Fin events.length)) :=
  match popFirst (poppedBefore events) s.queue with
  | none => none
  | some (index, rest) =>
    if index ∈ s.done then some { s with queue := rest }
    else
      let pending := (childIndices events index).foldl Peel.relax (s.degree, rest)
      some ⟨s.done ++ [index], pending.2, pending.1⟩

/-- Every turn emits an event, so that as many turns as events are enough to empty the heap. -/
def kahnLoop : Peel.Progress (Fin events.length) :=
  let indegree := fun index => (parentIndices events index).length
  let ready := (List.finRange events.length).filter fun index => indegree index = 0
  Loop.run (kahnTurn events) events.length ⟨[], ready, indegree⟩

def kahnOrderBy : List (Fin events.length) :=
  let ordered := (kahnLoop events).done
  let remainder := (List.finRange events.length).filter (· ∉ ordered)
  ordered ++ remainder.insertionSort fun a b => sortKey events a ≤ sortKey events b

def presentParents (event : TimelineEvent Id K) : List (TimelineEvent Id K) :=
  events.filter fun parent => parent.id ∈ event.parents

structure Ready (out : List (TimelineEvent Id K)) (event : TimelineEvent Id K) : Prop where
  member : event ∈ events
  waiting : event ∉ out
  parents : ∀ parent ∈ presentParents events event, parent ∈ out

def TimelineEvent.Precedes (event other : TimelineEvent Id K) : Prop :=
  event.key < other.key ∨ event.key = other.key ∧ event.id < other.id

/-- Each event of the list was ready in its turn, and the least of those that were. -/
def LeastReady (out : List (TimelineEvent Id K)) : Prop :=
  ∀ before event after, out = before ++ event :: after →
    Ready events before event ∧ ∀ other, Ready events before other → other ≠ event → event.Precedes other

end

variable {Id K : Type} [LinearOrder Id] [LinearOrder K] {events : List (TimelineEvent Id K)}

theorem precedes_iff : (events.get a).Precedes (events.get b) ↔ sortKey events a < sortKey events b := by
  unfold TimelineEvent.Precedes sortKey
  rw [Prod.Lex.toLex_lt_toLex]

theorem TimelineEvent.Precedes.asymm {event other : TimelineEvent Id K} (before : event.Precedes other) :
    ¬other.Precedes event := by
  unfold TimelineEvent.Precedes at *
  grind

theorem poppedBefore_decides (queue : List (Fin events.length)) : Decides (poppedBefore events) queue where
  asymm a _ b _ before := by
    simp only [poppedBefore, decide_eq_true_eq, decide_eq_false_iff_not] at *
    grind
  trans a _ b _ c _ first second := by
    simp only [poppedBefore, decide_eq_true_eq] at *
    grind
  total a _ b _ differ := by
    simp only [poppedBefore, decide_eq_true_eq]
    grind

section

variable {out left right : List (TimelineEvent Id K)}

theorem LeastReady.snoc (least : LeastReady events out) (ready : Ready events out event)
    (first : ∀ other, Ready events out other → other ≠ event → event.Precedes other) :
    LeastReady events (out ++ [event]) := Peel.forall_split_snoc least ⟨ready, first⟩

theorem LeastReady.parentsFirst (least : LeastReady events out) : Peel.ParentsFirst (presentParents events) out :=
  fun before event after split => (least before event after split).1.parents

variable (first : LeastReady events left) (second : LeastReady events right)
  (stuck : ∀ event, ¬Ready events left event) (stuck' : ∀ event, ¬Ready events right event)
include first second stuck stuck'

theorem LeastReady.agree (n : Nat) : left.take n = right.take n := by
  induction n with
  | zero => rfl
  | succ n ih =>
    rw [take_add_one, take_add_one, ih]
    congr 2
    cases here : left[n]? with
    | none =>
      have whole : left = right.take n := by rw [← ih, take_of_length_le (List.getElem?_eq_none_iff.mp here)]
      cases there : right[n]? with
      | none => rfl
      | some event =>
        obtain ⟨bound, rfl⟩ := List.getElem?_eq_some_iff.mp there
        have split := (take_append_drop n right).symm
        rw [drop_eq_getElem_cons bound] at split
        exact absurd (whole ▸ (second _ _ _ split).1) (stuck _)
    | some event =>
      obtain ⟨bound, rfl⟩ := List.getElem?_eq_some_iff.mp here
      have split := (take_append_drop n left).symm
      rw [drop_eq_getElem_cons bound, ih] at split
      obtain ⟨ready, least⟩ := first _ _ _ split
      cases there : right[n]? with
      | none =>
        have whole : right = right.take n := (take_of_length_le (List.getElem?_eq_none_iff.mp there)).symm
        exact absurd (whole.symm ▸ ready) (stuck' _)
      | some other =>
        obtain ⟨bound', rfl⟩ := List.getElem?_eq_some_iff.mp there
        have split' := (take_append_drop n right).symm
        rw [drop_eq_getElem_cons bound'] at split'
        obtain ⟨ready', least'⟩ := second _ _ _ split'
        by_contra differ
        have apart : right[n] ≠ left[n] := fun same => differ (congrArg some same.symm)
        exact (least _ ready' apart).asymm (least' _ ready apart.symm)

theorem LeastReady.unique : left = right := by
  have all := first.agree second stuck stuck' (max left.length right.length)
  rwa [take_of_length_le (Nat.le_max_left _ _), take_of_length_le (Nat.le_max_right _ _)] at all

end

section

variable (distinct : (events.map TimelineEvent.id).Nodup)
include distinct

omit [LinearOrder Id] [LinearOrder K] in
theorem id_inj (same : (events.get a).id = (events.get b).id) : a = b := by
  have injective := nodup_iff_injective_getElem.mp distinct
  have equal := @injective ⟨a, by simp⟩ ⟨b, by simp⟩ (by simpa using same)
  exact Fin.ext (Fin.mk.inj equal)

omit [LinearOrder K] in
theorem indices_iff {id : Id} : indices events id = some index ↔ (events.get index).id = id := by
  have own : ∀ {id : Id} {index : Fin events.length}, indices events id = some index → (events.get index).id = id := by
    intro id index found
    simpa using find?_some found
  constructor
  · exact own
  · rintro rfl
    cases found : indices events (events.get index).id with
    | none => exact absurd (find?_eq_none.mp found index (by simp)) (by simp)
    | some other => rw [id_inj distinct (own found)]

omit [LinearOrder K] in
theorem mem_parentIndices :
    parent ∈ parentIndices events child ↔ events.get parent ∈ presentParents events (events.get child) := by
  simp only [parentIndices, presentParents, mem_filterMap, mem_filter, indices_iff distinct, decide_eq_true_eq]
  constructor
  · rintro ⟨id, cited, own⟩
    exact ⟨get_mem _ _, own ▸ cited⟩
  · exact fun both => ⟨_, both.2, rfl⟩

omit [LinearOrder Id] [LinearOrder K] in
theorem mem_out {done : List (Fin events.length)} : events.get index ∈ done.map events.get ↔ index ∈ done :=
  mem_map_of_injective fun _ _ same => id_inj distinct (congrArg TimelineEvent.id same)

omit distinct [LinearOrder K] in
theorem timelineGraph : Peel.Graph (finRange events.length) (parentIndices events) (childIndices events) where
  nodup := nodup_finRange _
  within _ _ _ _ := mem_finRange _
  turned _ := .refl _

omit [LinearOrder K] in
theorem ready_iff (inv : Peel.ProgressInv (finRange events.length) (parentIndices events) s) :
    Ready events (s.done.map events.get) (events.get index) ↔ index ∈ s.queue := by
  have waits := inv.waits_iff (mem_finRange index)
  have apart : index ∈ s.queue → index ∉ s.done := fun queued out =>
    (nodup_append.mp inv.cleared.nodup).2.2 _ out _ queued rfl
  have parents : (∀ parent ∈ presentParents events (events.get index), parent ∈ s.done.map events.get) ↔
      ∀ parent ∈ parentIndices events index, parent ∈ s.done := by
    constructor
    · intro all parent cited
      exact (mem_out distinct).mp (all _ ((mem_parentIndices distinct).mp cited))
    · intro all parent cited
      obtain ⟨place, rfl⟩ := get_of_mem (mem_of_mem_filter cited)
      exact (mem_out distinct).mpr (all place ((mem_parentIndices distinct).mpr cited))
  constructor
  · intro ready
    have out := waits.mpr (parents.mp ready.parents)
    exact (mem_append.mp out).resolve_left fun done => ready.waiting ((mem_out distinct).mpr done)
  · intro queued
    refine ⟨get_mem _ _, fun out => apart queued ((mem_out distinct).mp out), parents.mpr ?_⟩
    exact waits.mp (mem_append_right _ queued)

structure KahnInv (events : List (TimelineEvent Id K)) (s : Peel.Progress (Fin events.length)) : Prop where
  counted : Peel.ProgressInv (List.finRange events.length) (parentIndices events) s
  least : LeastReady events (s.done.map events.get)

theorem kahnTurn_inv (inv : KahnInv events s) (step : kahnTurn events s = some t) :
    KahnInv events t ∧ t.done.length = s.done.length + 1 := by
  unfold kahnTurn at step
  split at step
  · cases step
  · rename_i index rest popped
    have perm := popFirst_perm popped
    have queued : index ∈ s.queue := perm.mem_iff.mpr mem_cons_self
    have fresh : index ∉ s.done := fun out => (nodup_append.mp inv.counted.cleared.nodup).2.2 _ out _ queued rfl
    rw [if_neg fresh] at step
    cases step
    obtain ⟨counted, longer⟩ := Peel.takes_progress timelineGraph inv.counted ⟨index, rest, perm, rfl⟩
    refine ⟨⟨counted, ?_⟩, longer⟩
    rw [map_append]
    apply inv.least.snoc ((ready_iff distinct inv.counted).mpr queued)
    intro _ ready differ
    obtain ⟨place, rfl⟩ := get_of_mem ready.member
    have waits := (ready_iff distinct inv.counted).mp ready
    have apart : place ≠ index := fun same => differ (congrArg events.get same)
    have later := (mem_cons.mp (perm.mem_iff.mp waits)).resolve_left apart
    have least := popFirst_least (poppedBefore_decides _) popped _ later
    have keys : sortKey events index ≠ sortKey events place := fun same =>
      apart (id_inj distinct (congrArg Prod.snd same)).symm
    simp only [poppedBefore, decide_eq_false_iff_not, not_or] at least
    exact precedes_iff.mpr (lt_of_le_of_ne (not_lt.mp least.1) keys)

theorem kahnLoop_spec : KahnInv events (kahnLoop events) ∧ (kahnLoop events).queue = [] := by
  have start : KahnInv events ⟨[], (finRange events.length).filter fun index =>
      (parentIndices events index).length = 0, fun index => (parentIndices events index).length⟩ :=
    ⟨Peel.progressInv_initial timelineGraph (.refl _), fun before event after split => by simp at split⟩
  have final := Loop.run_invariant (fun s t inv step => (kahnTurn_inv distinct inv step).1) events.length start
  have stopped := Loop.run_finished (KahnInv events) (fun s => events.length - s.done.length)
    (fun s t inv step => (kahnTurn_inv distinct inv step).1) (fun s t inv step => by
      obtain ⟨inv', longer⟩ := kahnTurn_inv distinct inv step
      have bound := inv'.counted.length_le
      rw [length_finRange] at bound
      omega) events.length start (Nat.sub_le _ _)
  refine ⟨final, ?_⟩
  unfold kahnTurn at stopped
  split at stopped
  · rename_i nothing
    exact popFirst_none.mp nothing
  · split at stopped <;> cases stopped

theorem kahnOrderBy_perm : (kahnOrderBy events).Perm (finRange events.length) := by
  have nodup := (nodup_append.mp (kahnLoop_spec distinct).1.counted.cleared.nodup).1
  refine ((perm_insertionSort _ _).append_left _).trans
    ((perm_ext_iff_of_nodup (List.Nodup.append nodup ((nodup_finRange _).filter _) ?_)
      (nodup_finRange _)).mpr fun index => ?_)
  · exact fun index out left => of_decide_eq_true (mem_filter.mp left).2 out
  · by_cases out : index ∈ (kahnLoop events).done <;> simp [out]

theorem kahnLoop_stuck (event : TimelineEvent Id K) : ¬Ready events ((kahnLoop events).done.map events.get) event := by
  intro ready
  obtain ⟨inv, empty⟩ := kahnLoop_spec distinct
  obtain ⟨index, rfl⟩ := get_of_mem ready.member
  have queued := (ready_iff distinct inv.counted).mp ready
  rw [empty] at queued
  cases queued

theorem mem_ordered (mem : event ∈ events) :
    event ∈ (kahnLoop events).done.map events.get ↔ ¬Peel.OnOrBehindCycle (presentParents events) event := by
  classical
  obtain ⟨inv, _⟩ := kahnLoop_spec distinct
  have nodup := (nodup_append.mp inv.counted.cleared.nodup).1
  refine inv.least.parentsFirst.mem_iff_clear (nodup.map fun a b same =>
    id_inj distinct (congrArg TimelineEvent.id same)) (fun _ _ _ cited => mem_of_mem_filter cited)
    (fun other inside waiting => ?_) mem
  by_contra closed
  exact kahnLoop_stuck distinct other ⟨inside, waiting, fun parent cited =>
    by_contra fun outside => closed ⟨parent, cited, outside⟩⟩

theorem kahnOrderBy_remainder : ∃ rest, (kahnOrderBy events).map events.get =
    (kahnLoop events).done.map events.get ++ rest ∧ rest.Pairwise TimelineEvent.Precedes := by
  refine ⟨_, map_append, pairwise_map.mpr ?_⟩
  have nodup : (((finRange events.length).filter (· ∉ (kahnLoop events).done)).insertionSort
      fun a b => sortKey events a ≤ sortKey events b).Nodup :=
    (perm_insertionSort _ _).nodup_iff.mpr ((nodup_finRange _).filter _)
  refine ((pairwise_insertionSort _ _).and nodup).imp fun {a b} both => ?_
  exact precedes_iff.mpr (lt_of_le_of_ne both.1 fun same => both.2 (id_inj distinct (congrArg Prod.snd same)))

end

section

variable {others : List (TimelineEvent Id K)} (same : others.Perm events)
include same

omit [LinearOrder K] in
theorem ready_congr : Ready others out event ↔ Ready events out event := by
  have parents : ∀ parent, parent ∈ presentParents others event ↔ parent ∈ presentParents events event :=
    fun parent => (same.filter _).mem_iff
  constructor
  · exact fun ready => ⟨same.mem_iff.mp ready.member, ready.waiting,
      fun parent cited => ready.parents parent ((parents parent).mpr cited)⟩
  · exact fun ready => ⟨same.mem_iff.mpr ready.member, ready.waiting,
      fun parent cited => ready.parents parent ((parents parent).mp cited)⟩

theorem leastReady_congr : LeastReady others out ↔ LeastReady events out := by
  unfold LeastReady
  simp only [ready_congr same]

theorem kahnOrderBy_congr (distinct : (events.map TimelineEvent.id).Nodup) :
    (kahnOrderBy others).map others.get = (kahnOrderBy events).map events.get := by
  have distinct' : (others.map TimelineEvent.id).Nodup := (same.map _).nodup_iff.mpr distinct
  have ordered : (kahnLoop others).done.map others.get = (kahnLoop events).done.map events.get :=
    ((leastReady_congr same).mp (kahnLoop_spec distinct').1.least).unique (kahnLoop_spec distinct).1.least
      (fun event ready => kahnLoop_stuck distinct' event ((ready_congr same).mpr ready)) (kahnLoop_stuck distinct)
  have whole : ((kahnOrderBy others).map others.get).Perm ((kahnOrderBy events).map events.get) := by
    have left := (kahnOrderBy_perm distinct').map others.get
    have right := (kahnOrderBy_perm distinct).map events.get
    rw [map_get_finRange] at left right
    exact left.trans (same.trans right.symm)
  obtain ⟨rest, split, sorted⟩ := kahnOrderBy_remainder distinct
  obtain ⟨rest', split', sorted'⟩ := kahnOrderBy_remainder distinct'
  rw [split', split, ordered] at whole ⊢
  congr 1
  exact ((perm_append_left_iff _).mp whole).eq_of_pairwise
    (fun _ _ _ _ before after => absurd after before.asymm) sorted' sorted

end

/-- Events that no cycle leads to come first, each the least of those whose present parents are out, and the others
    follow by key and id, whatever the input's order. -/
theorem kahnOrderBy_exact (distinct : (events.map TimelineEvent.id).Nodup) :
    (kahnOrderBy events).Perm (List.finRange events.length) ∧
    (∃ first rest, (kahnOrderBy events).map events.get = first ++ rest ∧
      (∀ event, event ∈ first ↔ event ∈ events ∧ ¬Peel.OnOrBehindCycle (presentParents events) event) ∧
      LeastReady events first ∧ rest.Pairwise TimelineEvent.Precedes) ∧
    ∀ others : List (TimelineEvent Id K), others.Perm events →
      (kahnOrderBy others).map others.get = (kahnOrderBy events).map events.get := by
  obtain ⟨rest, split, sorted⟩ := kahnOrderBy_remainder distinct
  refine ⟨kahnOrderBy_perm distinct, ⟨_, rest, split, fun event => ?_, (kahnLoop_spec distinct).1.least, sorted⟩,
    fun others same => kahnOrderBy_congr same distinct⟩
  constructor
  · intro out
    obtain ⟨index, _, rfl⟩ := List.mem_map.mp out
    exact ⟨List.get_mem _ _, (mem_ordered distinct (List.get_mem _ _)).mp out⟩
  · exact fun both => (mem_ordered distinct both.1).mpr both.2

namespace Sample

def forkAndLoop : List (TimelineEvent String (List KeyValue)) :=
  [⟨"b", ["a", "a", "gone"], [Sum.inlₗ 1]⟩, ⟨"a", [], [Sum.inlₗ 2]⟩, ⟨"c", ["d"], [Sum.inrₗ "x"]⟩, ⟨"d", ["c"], []⟩]

end Sample

theorem kahnOrderBy_exact_forkAndLoop : (kahnOrderBy Sample.forkAndLoop).Perm (List.finRange 4) ∧
    ∃ first rest, (kahnOrderBy Sample.forkAndLoop).map Sample.forkAndLoop.get = first ++ rest ∧
      (∀ event, event ∈ first ↔
        event ∈ Sample.forkAndLoop ∧ ¬Peel.OnOrBehindCycle (presentParents Sample.forkAndLoop) event) ∧
      LeastReady Sample.forkAndLoop first ∧ rest.Pairwise TimelineEvent.Precedes := by
  have distinct : (Sample.forkAndLoop.map TimelineEvent.id).Nodup := by decide
  exact ⟨(kahnOrderBy_exact distinct).1, (kahnOrderBy_exact distinct).2.1⟩

end Rezzy.Cli
