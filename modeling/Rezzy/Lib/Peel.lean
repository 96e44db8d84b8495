import Mathlib.Data.List.Nodup
import Mathlib.Data.List.Perm.Subperm
import Mathlib.Data.List.Count
import Mathlib.Logic.Function.Basic
import Mathlib.Logic.Relation
import Mathlib.Data.Set.Finite.Basic
import Mathlib.Order.WellFounded
import Rezzy.Lib.Loop

namespace Peel

open List

variable {α : Type} [DecidableEq α]

def citers (nodes : List α) (parents : α → List α) (x : α) : List α :=
  nodes.flatMap fun n => ((parents n).filter (· = x)).map fun _ => n

structure Progress (α : Type) where
  done : List α
  queue : List α
  degree : α → Nat

def relax (pending : (α → Nat) × List α) (x : α) : (α → Nat) × List α :=
  let degree := Function.update pending.1 x (pending.1 x - 1)
  (degree, if degree x = 0 then pending.2 ++ [x] else pending.2)

def turn (children : α → List α) (s : Progress α) : Option (Progress α) :=
  match s.queue with
  | [] => none
  | x :: rest =>
    let pending := (children x).foldl relax (s.degree, rest)
    some ⟨s.done ++ [x], pending.2, pending.1⟩

/-- The run that takes nodes until the queue is empty; a graph of `n` nodes takes at most `n` turns. -/
def peel (children : α → List α) (degree : α → Nat) (roots : List α) (n : Nat) : Progress α :=
  Loop.run (turn children) n ⟨[], roots, degree⟩

theorem count_citers (nodup : nodes.Nodup) (parents : α → List α) (x : α) (mem : n ∈ nodes) :
    (citers nodes parents x).count n = (parents n).count x := by
  have others : ∀ l : List α, n ∉ l → (citers l parents x).count n = 0 := by
    intro l outside
    rw [count_eq_zero]
    intro inside
    obtain ⟨other, inL, inside⟩ := mem_flatMap.mp inside
    obtain ⟨_, _, same⟩ := mem_map.mp inside
    exact outside (same ▸ inL)
  induction nodes with
  | nil => simp at mem
  | cons head tail ih =>
    obtain ⟨fresh, nodup⟩ := nodup_cons.mp nodup
    have split : citers (head :: tail) parents x =
        ((parents head).filter (· = x)).map (fun _ => head) ++ citers tail parents x := by
      simp [citers]
    rw [split, count_append]
    rcases mem_cons.mp mem with rfl | mem
    · rw [others tail fresh, Nat.add_zero, map_const', count_replicate_self, count_eq_length_filter]
      congr 1
    · have differ : head ≠ n := fun same => fresh (same ▸ mem)
      have none : (((parents head).filter (· = x)).map fun _ => head).count n = 0 := by
        rw [count_eq_zero]
        intro inside
        obtain ⟨_, _, same⟩ := mem_map.mp inside
        exact differ same
      rw [none, Nat.zero_add]
      exact ih nodup mem

theorem mem_citers {x n : α} : n ∈ citers nodes parents x ↔ n ∈ nodes ∧ x ∈ parents n := by
  constructor
  · intro mem
    obtain ⟨other, inNodes, mem⟩ := mem_flatMap.mp mem
    obtain ⟨parent, cited, rfl⟩ := mem_map.mp mem
    obtain ⟨cited, same⟩ := mem_filter.mp cited
    exact ⟨inNodes, by simpa using (of_decide_eq_true same) ▸ cited⟩
  · rintro ⟨inNodes, cited⟩
    exact mem_flatMap.mpr ⟨n, inNodes, mem_map.mpr ⟨x, by simpa using cited, rfl⟩⟩

theorem length_citers (nodes : List α) (distinct : ∀ n, (parents n).Nodup) (x : α) :
    (citers nodes parents x).length = (nodes.filter (x ∈ parents ·)).length := by
  induction nodes with
  | nil => rfl
  | cons n nodes ih =>
    have split : citers (n :: nodes) parents x =
        ((parents n).filter (· = x)).map (fun _ => n) ++ citers nodes parents x := by
      simp [citers]
    have own : ((parents n).filter (· = x)).length = if x ∈ parents n then 1 else 0 := by
      rw [← (distinct n).count, count_eq_length_filter]
      congr 1
    rw [split, length_append, length_map, own, ih, filter_cons]
    by_cases cited : x ∈ parents n
    · simp [cited, Nat.add_comm]
    · simp [cited]

structure Cleared (nodes seen : List α) (pending : (α → Nat) × List α) : Prop where
  nodup : (seen ++ pending.2).Nodup
  inside : ∀ x ∈ seen ++ pending.2, x ∈ nodes
  free : ∀ x ∈ nodes, x ∈ seen ++ pending.2 ↔ pending.1 x = 0

theorem relax_cleared (cleared : Cleared nodes seen pending) {x : α} (mem : x ∈ nodes) (positive : 0 < pending.1 x) :
    Cleared nodes seen (relax pending x) ∧ ∀ other, (relax pending x).1 other =
      pending.1 other - if other = x then 1 else 0 := by
  obtain ⟨degree, queue⟩ := pending
  have positive : 0 < degree x := positive
  have nodup : (seen ++ queue).Nodup := cleared.nodup
  have free : ∀ other ∈ nodes, other ∈ seen ++ queue ↔ degree other = 0 := cleared.free
  have step : ∀ other, Function.update degree x (degree x - 1) other = degree other - if other = x then 1 else 0 := by
    intro other
    by_cases same : other = x <;> simp [same]
  have fresh : x ∉ seen ++ queue := by
    rw [free x mem]
    omega
  refine ⟨?_, step⟩
  unfold relax
  dsimp only
  rw [Function.update_self]
  split
  · rename_i zero
    have waits : ∀ other, other ∈ seen ++ (queue ++ [x]) ↔ other ∈ seen ++ queue ∨ other = x := by
      simp [or_assoc]
    refine ⟨?_, fun other waiting => ?_, fun other inNodes => ?_⟩
    · rw [← append_assoc]
      exact List.Nodup.append nodup (by simp) (by simpa using fresh)
    · rcases (waits other).mp waiting with old | rfl
      · exact cleared.inside other old
      · exact mem
    · dsimp only
      rw [waits, step, free other inNodes]
      by_cases same : other = x
      · simpa [same] using zero
      · simp [same]
  · rename_i left
    refine ⟨nodup, cleared.inside, fun other inNodes => ?_⟩
    dsimp only
    rw [step, free other inNodes]
    by_cases same : other = x
    · subst same
      simp only [if_true]
      omega
    · simp [same]

theorem relaxes_cleared (more : List α) (within : ∀ x ∈ more, x ∈ nodes) (cleared : Cleared nodes seen pending)
    (covers : ∀ x, more.count x ≤ pending.1 x) : Cleared nodes seen (more.foldl relax pending) ∧
      ∀ x, (more.foldl relax pending).1 x = pending.1 x - more.count x := by
  induction more generalizing pending with
  | nil => exact ⟨cleared, by simp⟩
  | cons first more ih =>
    have own := covers first
    rw [count_cons_self] at own
    obtain ⟨cleared', degrees⟩ := relax_cleared cleared (within first (by simp)) (by omega)
    have counts : ∀ x, (first :: more).count x = more.count x + if x = first then 1 else 0 := by
      intro x
      by_cases same : x = first
      · simp [same]
      · simp [same, Ne.symm same]
    have covers' : ∀ x, more.count x ≤ (relax pending first).1 x := by
      intro x
      have := covers x
      rw [counts] at this
      rw [degrees]
      omega
    obtain ⟨final, sums⟩ := ih (fun x mem => within x (mem_cons_of_mem _ mem)) cleared' covers'
    refine ⟨final, fun x => ?_⟩
    rw [foldl_cons, sums, degrees, counts]
    omega

theorem untaken_split (cited done : List α) (x : α) (untaken : x ∉ done) :
    (cited.filter (· ∉ done)).length = cited.count x + (cited.filter (· ∉ done ++ [x])).length := by
  induction cited with
  | nil => simp
  | cons parent cited ih =>
    by_cases same : parent = x
    · subst same
      simp [untaken] at ih ⊢
      omega
    · by_cases old : parent ∈ done
      · simpa [old, same] using ih
      · simp [old, same] at ih ⊢
        omega

structure Graph (nodes : List α) (parents : α → List α) (children : α → List α) : Prop where
  nodup : nodes.Nodup
  within : ∀ n ∈ nodes, ∀ x ∈ parents n, x ∈ nodes
  turned : ∀ x, (children x).Perm (citers nodes parents x)

structure ProgressInv (nodes : List α) (parents : α → List α) (s : Progress α) : Prop where
  cleared : Cleared nodes s.done (s.degree, s.queue)
  degrees : ∀ n ∈ nodes, s.degree n = ((parents n).filter (· ∉ s.done)).length
  ordered : s.done.Pairwise fun earlier later => later ∉ parents earlier
  irreflexive : ∀ n ∈ s.done, n ∉ parents n

variable {nodes : List α} {parents children : α → List α}

theorem progressInv_initial (graph : Graph nodes parents children)
    (listed : roots.Perm (nodes.filter fun n => (parents n).length = 0)) :
    ProgressInv nodes parents ⟨[], roots, fun n => (parents n).length⟩ where
  cleared := by
    refine ⟨?_, fun x mem => ?_, fun x mem => ?_⟩
    · rw [nil_append, listed.nodup_iff]
      exact graph.nodup.filter _
    · exact mem_of_mem_filter (listed.mem_iff.mp (by simpa using mem))
    · rw [nil_append, listed.mem_iff]
      simp [mem]
  degrees n _ := by simp
  ordered := by simp
  irreflexive := by simp

theorem ProgressInv.parents_done {s : Progress α} (inv : ProgressInv nodes parents s) {n : α}
    (mem : n ∈ s.done ++ s.queue) : ∀ x ∈ parents n, x ∈ s.done := by
  have inNodes := inv.cleared.inside n mem
  have zero : s.degree n = 0 := (inv.cleared.free n inNodes).mp mem
  rw [inv.degrees n inNodes, length_eq_zero_iff, filter_eq_nil_iff] at zero
  intro x cited
  simpa using zero x cited

theorem ProgressInv.waits_iff (inv : ProgressInv nodes parents s) (mem : n ∈ nodes) :
    n ∈ s.done ++ s.queue ↔ ∀ x ∈ parents n, x ∈ s.done := by
  refine (inv.cleared.free n mem).trans ?_
  dsimp only
  rw [inv.degrees n mem, length_eq_zero_iff, filter_eq_nil_iff]
  exact forall₂_congr fun x _ => by simp

def Takes (children : α → List α) (s t : Progress α) : Prop :=
  ∃ x rest, s.queue.Perm (x :: rest) ∧
    t = ⟨s.done ++ [x], ((children x).foldl relax (s.degree, rest)).2, ((children x).foldl relax (s.degree, rest)).1⟩

theorem turn_takes (step : turn children s = some t) : Takes children s t := by
  unfold turn at step
  cases queue : s.queue with
  | nil => simp [queue] at step
  | cons x rest =>
    simp only [queue, Option.some.injEq] at step
    exact ⟨x, rest, queue ▸ .refl _, step.symm⟩

theorem takes_progress (graph : Graph nodes parents children) {s t : Progress α}
    (inv : ProgressInv nodes parents s) (step : Takes children s t) :
    ProgressInv nodes parents t ∧ t.done.length = s.done.length + 1 := by
  obtain ⟨done, queue, degree⟩ := s
  obtain ⟨x, rest, perm, rfl⟩ := step
  have known := inv.parents_done (n := x) (by simp [perm.mem_iff])
  have shift : (done ++ queue).Perm ((done ++ [x]) ++ rest) := by
    rw [append_assoc]
    exact perm.append_left done
  have cleared : Cleared nodes (done ++ [x]) (degree, rest) := by
    have before : Cleared nodes done (degree, queue) := inv.cleared
    refine ⟨?_, ?_, ?_⟩
    · exact shift.nodup_iff.mp before.nodup
    · exact fun y mem => before.inside y (shift.mem_iff.mpr mem)
    · exact fun y mem => by rw [← before.free y mem, shift.mem_iff]
  have untaken : x ∉ done := by
    intro mem
    have nodup := (nodup_append.mp cleared.nodup).1
    exact (nodup_append.mp nodup).2.2 x mem x (by simp) rfl
  have degrees : ∀ n ∈ nodes, degree n =
      (parents n).count x + ((parents n).filter (· ∉ done ++ [x])).length := fun n mem => by
    rw [← untaken_split _ _ _ untaken]
    exact inv.degrees n mem
  have counts : ∀ n ∈ nodes, (children x).count n = (parents n).count x := fun n mem => by
    rw [(graph.turned x).count_eq, count_citers graph.nodup parents x mem]
  have within : ∀ n ∈ children x, n ∈ nodes := fun n mem =>
    (mem_citers.mp ((graph.turned x).mem_iff.mp mem)).1
  have covers : ∀ n, (children x).count n ≤ degree n := by
    intro n
    by_cases cites : n ∈ children x
    · rw [counts n (within n cites), degrees n (within n cites)]
      exact Nat.le_add_right _ _
    · rw [count_eq_zero.mpr cites]
      exact Nat.zero_le _
  obtain ⟨final, sums⟩ := relaxes_cleared (children x) within cleared covers
  refine ⟨⟨final, fun n mem => ?_, ?_, ?_⟩, by simp⟩
  · dsimp only
    rw [sums, counts n mem]
    dsimp only
    rw [degrees n mem, Nat.add_sub_cancel_left]
  · have ordered : done.Pairwise fun earlier later => later ∉ parents earlier := inv.ordered
    rw [pairwise_append]
    refine ⟨ordered, by simp, fun earlier mem later single cites => ?_⟩
    rw [mem_singleton.mp single] at cites
    have taken : x ∈ done := inv.parents_done (n := earlier) (mem_append_left _ mem) x cites
    exact untaken taken
  · intro n mem cites
    rcases mem_append.mp mem with old | new
    · exact inv.irreflexive n old cites
    · rw [mem_singleton.mp new] at cites
      exact untaken (known x cites)

theorem ProgressInv.length_le (inv : ProgressInv nodes parents s) : s.done.length ≤ nodes.length :=
  (subperm_of_subset (nodup_append.mp inv.cleared.nodup).1
    fun x mem => inv.cleared.inside x (mem_append_left _ mem)).length_le

theorem peel_spec (graph : Graph nodes parents children)
    (listed : roots.Perm (nodes.filter fun n => (parents n).length = 0)) :
    (peel children (fun n => (parents n).length) roots nodes.length).queue = [] ∧
      ProgressInv nodes parents (peel children (fun n => (parents n).length) roots nodes.length) := by
  have step := fun s t inv next => takes_progress (s := s) (t := t) graph inv (turn_takes next)
  have initial := progressInv_initial graph listed
  have final := Loop.run_invariant (fun s t inv next => (step s t inv next).1) nodes.length initial
  have stopped := Loop.run_finished (ProgressInv nodes parents)
    (fun s => nodes.length - s.done.length) (fun s t inv next => (step s t inv next).1)
    (fun s t inv next => by
      obtain ⟨inv', longer⟩ := step s t inv next
      have := inv'.length_le
      omega)
    nodes.length initial (Nat.sub_le _ _)
  refine ⟨?_, final⟩
  unfold peel
  revert stopped
  generalize Loop.run (turn children) _ _ = s
  intro stopped
  unfold turn at stopped
  cases waiting : s.queue with
  | nil => rfl
  | cons x rest => simp [waiting] at stopped

omit [DecidableEq α] in
theorem forall_split_snoc {holds : List α → α → Prop}
    (all : ∀ before x after, out = before ++ x :: after → holds before x) (own : holds out last) :
    ∀ before x after, out ++ [last] = before ++ x :: after → holds before x := by
  intro before x after split
  rcases eq_nil_or_concat after with rfl | ⟨init, final, rfl⟩
  · obtain ⟨rfl, single⟩ := append_inj' split rfl
    obtain rfl : last = x := by simpa using single
    exact own
  · have both : out ++ [last] = (before ++ x :: init) ++ [final] := by simpa using split
    exact all before x init (append_inj' both rfl).1

def ParentsFirst (parents : α → List α) (order : List α) : Prop :=
  ∀ before n after, order = before ++ n :: after → ∀ x ∈ parents n, x ∈ before

omit [DecidableEq α] in
theorem parentsFirst_of_ordered (inside : ∀ n ∈ order, ∀ x ∈ parents n, x ∈ order)
    (ordered : order.Pairwise fun earlier later => later ∉ parents earlier) (irreflexive : ∀ n ∈ order, n ∉ parents n) :
    ParentsFirst parents order := by
  intro before n after split x cited
  subst split
  have mem : n ∈ before ++ n :: after := by simp
  rcases mem_append.mp (inside n mem x cited) with earlier | later
  · exact earlier
  · rcases mem_cons.mp later with rfl | later
    · exact absurd cited (irreflexive x mem)
    · have tail := (pairwise_append.mp ordered).2.1
      exact absurd cited ((pairwise_cons.mp tail).1 x later)

theorem ParentsFirst.idxOf_lt (first : ParentsFirst parents order) (nodup : order.Nodup) (mem : n ∈ order)
    (cited : x ∈ parents n) : x ∈ order ∧ order.idxOf x < order.idxOf n := by
  obtain ⟨before, after, rfl⟩ := append_of_mem mem
  have earlier := first before n after rfl x cited
  have fresh : n ∉ before := fun inside =>
    (nodup_append.mp nodup).2.2 n inside n (by simp) rfl
  refine ⟨mem_append_left _ earlier, ?_⟩
  rw [idxOf_append_of_mem earlier, idxOf_append_of_notMem fresh]
  have bound := idxOf_lt_length_iff.mpr earlier
  omega

theorem ParentsFirst.forall_mem {motive : α → Prop} (first : ParentsFirst parents order) (nodup : order.Nodup)
    (step : ∀ n ∈ order, (∀ x ∈ parents n, motive x) → motive n) : ∀ n ∈ order, motive n := by
  intro n mem
  induction position : order.idxOf n using Nat.strong_induction_on generalizing n with
  | _ place ih =>
    refine step n mem fun x cited => ?_
    obtain ⟨inside, less⟩ := first.idxOf_lt nodup mem cited
    exact ih _ (position ▸ less) x inside rfl

def Cites (parents : α → List α) (x n : α) : Prop := x ∈ parents n

theorem ParentsFirst.acyclic (first : ParentsFirst parents order) (nodup : order.Nodup) (mem : n ∈ order) :
    ¬Relation.TransGen (Cites parents) n n := by
  have grows : ∀ x y, Relation.TransGen (Cites parents) x y → y ∈ order →
      x ∈ order ∧ order.idxOf x < order.idxOf y := by
    intro x y path
    induction path with
    | single edge => exact fun inside => first.idxOf_lt nodup inside edge
    | tail _ edge ih =>
      intro inside
      obtain ⟨middle, less⟩ := first.idxOf_lt nodup inside edge
      obtain ⟨start, lower⟩ := ih middle
      exact ⟨start, Nat.lt_trans lower less⟩
  intro path
  exact Nat.lt_irrefl _ (grows n n path mem).2

omit [DecidableEq α] in
variable (parents) in
theorem exists_cycle (nonempty : left ≠ []) (cites : ∀ n ∈ left, ∃ x ∈ left, x ∈ parents n) :
    ∃ n ∈ left, Relation.TransGen (Cites parents) n n := by
  by_contra none
  have acyclic : ∀ n ∈ left, ¬Relation.TransGen (Cites parents) n n :=
    fun n mem path => none ⟨n, mem, path⟩
  let above : {n // n ∈ left} → {n // n ∈ left} → Prop :=
    fun x n => Relation.TransGen (Cites parents) x.1 n.1
  have finite : Finite {n // n ∈ left} := left.finite_toSet
  have irreflexive : Std.Irrefl above := ⟨fun n => acyclic n.1 n.2⟩
  obtain ⟨head, mem⟩ := exists_mem_of_ne_nil _ nonempty
  obtain ⟨least, _, lowest⟩ := (Finite.wellFounded_of_trans_of_irrefl above).has_min Set.univ ⟨⟨head, mem⟩, trivial⟩
  obtain ⟨x, inside, cited⟩ := cites least.1 least.2
  exact lowest ⟨x, inside⟩ trivial (.single cited)

def OnOrBehindCycle (parents : α → List α) (n : α) : Prop :=
  ∃ origin, Relation.TransGen (Cites parents) origin origin ∧ Relation.ReflTransGen (Cites parents) origin n

/-- If nothing more can be taken, a node is taken just when no cycle leads to it. -/
theorem ParentsFirst.mem_iff_clear (first : ParentsFirst parents done) (nodup : done.Nodup)
    (within : ∀ n ∈ nodes, ∀ x ∈ parents n, x ∈ nodes) (stuck : ∀ n ∈ nodes, n ∉ done → ∃ x ∈ parents n, x ∉ done)
    (mem : n ∈ nodes) : n ∈ done ↔ ¬OnOrBehindCycle parents n := by
  constructor
  · rintro out ⟨origin, cycle, behind⟩
    have closed : ∀ other, Relation.ReflTransGen (Cites parents) other n → other ∈ done := by
      intro other leads
      induction leads using Relation.ReflTransGen.head_induction_on with
      | refl => exact out
      | head cites _ ih => exact (first.idxOf_lt nodup ih cites).1
    exact first.acyclic nodup (closed origin behind) cycle
  · intro clear
    by_contra waiting
    classical
    -- Whatever is left over and leads to `n` has a parent of that kind.
    let left := nodes.filter fun other => other ∉ done ∧ Relation.ReflTransGen (Cites parents) other n
    have nonempty : left ≠ [] := ne_nil_of_mem (mem_filter.mpr ⟨mem, decide_eq_true ⟨waiting, .refl⟩⟩)
    obtain ⟨origin, inside, cycle⟩ := exists_cycle parents nonempty fun other mem => by
      obtain ⟨inNodes, both⟩ := mem_filter.mp mem
      obtain ⟨outside, leads⟩ := of_decide_eq_true both
      obtain ⟨x, cited, open_⟩ := stuck other inNodes outside
      exact ⟨x, mem_filter.mpr ⟨within other inNodes x cited, decide_eq_true ⟨open_, leads.head cited⟩⟩, cited⟩
    exact clear ⟨origin, cycle, (of_decide_eq_true (mem_filter.mp inside).2).2⟩

theorem peel_order (graph : Graph nodes parents children)
    (listed : roots.Perm (nodes.filter fun n => (parents n).length = 0)) :
    let done := (peel children (fun n => (parents n).length) roots nodes.length).done
    done.Nodup ∧ (∀ n ∈ done, n ∈ nodes) ∧ ParentsFirst parents done ∧
      (done.length = nodes.length ↔ ∀ n ∈ nodes, ¬Relation.TransGen (Cites parents) n n) := by
  obtain ⟨empty, inv⟩ := peel_spec graph listed
  revert empty inv
  generalize peel children (fun n => (parents n).length) roots nodes.length = final
  intro empty inv
  have nodup : final.done.Nodup := (nodup_append.mp inv.cleared.nodup).1
  have inside : ∀ n ∈ final.done, n ∈ nodes := fun n mem =>
    inv.cleared.inside n (mem_append_left _ mem)
  have first : ParentsFirst parents final.done := parentsFirst_of_ordered
    (fun n mem => inv.parents_done (mem_append_left _ mem)) inv.ordered inv.irreflexive
  refine ⟨nodup, inside, first, ⟨fun all n mem => ?_, fun acyclic => ?_⟩⟩
  · have same := (subperm_of_subset nodup inside).perm_of_length_le (le_of_eq all.symm)
    exact first.acyclic nodup (same.mem_iff.mpr mem)
  · have left : nodes.filter (· ∉ final.done) = [] := by
      by_contra some
      have cites : ∀ n ∈ nodes.filter (· ∉ final.done), ∃ x ∈ nodes.filter (· ∉ final.done), x ∈ parents n := by
        intro n mem
        obtain ⟨inNodes, untaken⟩ := mem_filter.mp mem
        have positive : final.degree n ≠ 0 := fun zero => by
          have taken := (inv.cleared.free n inNodes).mpr zero
          rw [empty, append_nil] at taken
          exact (of_decide_eq_true untaken) taken
        rw [inv.degrees n inNodes, Ne, length_eq_zero_iff] at positive
        obtain ⟨x, cited⟩ := exists_mem_of_ne_nil _ positive
        obtain ⟨cited, fresh⟩ := mem_filter.mp cited
        exact ⟨x, mem_filter.mpr ⟨graph.within n inNodes x cited, fresh⟩, cited⟩
      obtain ⟨n, mem, path⟩ := exists_cycle parents some cites
      exact acyclic n (mem_of_mem_filter mem) path
    have covered : ∀ n ∈ nodes, n ∈ final.done := by
      intro n mem
      by_contra missing
      have : n ∈ nodes.filter (· ∉ final.done) := mem_filter.mpr ⟨mem, by simpa using missing⟩
      rw [left] at this
      cases this
    exact Nat.le_antisymm (subperm_of_subset nodup inside).length_le (subperm_of_subset graph.nodup covered).length_le

end Peel
