import Rezzy.Lib.Worklist

namespace Nearest

open List hiding next
open Worklist Loop

variable {α σ : Type}

inductive Hops (next : α → List α) (start : List α) : α → Nat → Prop
  | seed {x : α} : x ∈ start → Hops next start x 1
  | step {x y : α} {n : Nat} : Hops next start x n → y ∈ next x → Hops next start y (n + 1)

theorem Hops.reached (hops : Hops next start x n) : Reached next start x := by
  induction hops with
  | seed mem => exact .seed mem
  | step _ edge ih => exact ih.step edge

theorem Hops.trans {next : α → List α} {start middle : List α} {x y : α} {n m : Nat}
    (first : Hops next start x n) (second : Hops next middle y m) (edges : ∀ z ∈ middle, z ∈ next x) :
    Hops next start y (n + m) := by
  induction second with
  | seed mem => exact first.step (edges _ mem)
  | step _ edge ih => exact ih.step edge

theorem Hops.mono (hops : Hops left start x n) (edges : ∀ x y, y ∈ left x → y ∈ right x)
    (seeds : ∀ x ∈ start, x ∈ other) : Hops right other x n := by
  induction hops with
  | seed mem => exact .seed (seeds _ mem)
  | step _ edge ih => exact ih.step (edges _ _ edge)

structure Walk (α σ : Type) where
  visited : List α
  queue : List (α × Nat)
  noted : σ

/-- A node is sure to be noted within `n` hops: it already is, or it waits at that depth. -/
def Covered (w : Walk α (List (α × Nat))) (x : α) (n : Nat) : Prop :=
  (∃ depth ≤ n, (x, depth) ∈ w.noted) ∨ ∃ depth ≤ n, (x, depth) ∈ w.queue

theorem Covered.pop_seen (seen : (x, old) ∈ noted) (early : old ≤ depth)
    (covered : Covered ⟨visited, (x, depth) :: rest, noted⟩ y n) : Covered ⟨visited, rest, noted⟩ y n := by
  rcases covered with done | ⟨other, le, mem⟩
  · exact .inl done
  · rcases mem_cons.mp mem with same | mem
    · obtain ⟨rfl, rfl⟩ := Prod.mk.inj same
      exact .inl ⟨old, Nat.le_trans early le, seen⟩
    · exact .inr ⟨other, le, mem⟩

theorem Covered.pop_fresh (covered : Covered ⟨visited, (x, depth) :: rest, noted⟩ y n) :
    Covered ⟨later, rest ++ more, noted ++ [(x, depth)]⟩ y n := by
  rcases covered with ⟨other, le, mem⟩ | ⟨other, le, mem⟩
  · exact .inl ⟨other, le, mem_append_left _ mem⟩
  · rcases mem_cons.mp mem with same | mem
    · obtain ⟨rfl, rfl⟩ := Prod.mk.inj same
      exact .inl ⟨other, le, by simp⟩
    · exact .inr ⟨other, le, mem_append_left _ mem⟩

structure WalkInv (next : α → List α) (start : List α) (w : Walk α (List (α × Nat))) : Prop where
  visited : w.visited = w.noted.map Prod.fst
  distinct : w.visited.Nodup
  sound : ∀ entry, entry ∈ w.noted ∨ entry ∈ w.queue → Hops next start entry.1 entry.2
  sorted : w.queue.Pairwise fun left right => left.2 ≤ right.2
  level : ∃ base, (∀ entry ∈ w.noted, entry.2 ≤ base) ∧
    ∀ entry ∈ w.queue, base ≤ entry.2 ∧ entry.2 ≤ base + 1
  seeds : ∀ x ∈ start, Covered w x 1
  closed : ∀ entry ∈ w.noted, ∀ y ∈ next entry.1, Covered w y (entry.2 + 1)

theorem walkInv_initial (next : α → List α) (start : List α) :
    WalkInv next start ⟨[], start.map (·, 1), []⟩ where
  visited := rfl
  distinct := by simp
  sound := by
    rintro entry (mem | mem)
    · simp at mem
    · obtain ⟨x, inside, rfl⟩ := mem_map.mp mem
      exact .seed inside
  sorted := by
    rw [pairwise_map]
    exact pairwise_of_forall fun _ _ => Nat.le_refl 1
  level := ⟨1, by simp, by simp⟩
  seeds := fun x mem => .inr ⟨1, Nat.le_refl 1, by simpa using mem⟩
  closed := by simp

variable [DecidableEq α]

def turn (next : α → List α) (note : σ → α → Nat → σ) (w : Walk α σ) : Option (Walk α σ) :=
  match w.queue with
  | [] => none
  | (x, depth) :: rest =>
    some (if x ∈ w.visited then ⟨w.visited, rest, w.noted⟩
      else ⟨w.visited ++ [x], rest ++ (next x).map (·, depth + 1), note w.noted x depth⟩)

/-- Everything noted until the queue is empty. `nodes` has to list the nodes with successors: it
    bounds the number of turns. -/
def walk (next : α → List α) (note : σ → α → Nat → σ) (nodes start : List α) (init : σ) : σ :=
  (Loop.run (turn next note) (start.length + edgeCount next nodes)
    ⟨[], start.map (·, 1), init⟩).noted

def order (next : α → List α) (nodes start : List α) : List (α × Nat) :=
  walk next (fun seen x depth => seen ++ [(x, depth)]) nodes start []

theorem turn_cases {w after : Walk α σ} (step : turn next note w = some after) :
    ∃ x depth rest, w.queue = (x, depth) :: rest ∧
      ((x ∈ w.visited ∧ after = ⟨w.visited, rest, w.noted⟩) ∨
        (x ∉ w.visited ∧ after = ⟨w.visited ++ [x], rest ++ (next x).map (·, depth + 1),
          note w.noted x depth⟩)) := by
  unfold turn at step
  cases hq : w.queue with
  | nil => simp [hq] at step
  | cons head rest =>
    obtain ⟨x, depth⟩ := head
    simp only [hq, Option.some.injEq] at step
    refine ⟨x, depth, rest, rfl, ?_⟩
    by_cases seen : x ∈ w.visited
    · exact .inl ⟨seen, by simpa [seen] using step.symm⟩
    · exact .inr ⟨seen, by simpa [seen] using step.symm⟩

def pendingEdges (next : α → List α) (nodes : List α) (w : Walk α σ) : Nat :=
  w.queue.length + edgeCount next (nodes.filter (· ∉ w.visited))

section

variable {next : α → List α} (note : σ → α → Nat → σ) {nodes : List α} (support : ∀ x, next x ≠ [] → x ∈ nodes)
include support

theorem turn_decreases (w after : Walk α σ)
    (step : turn next note w = some after) : pendingEdges next nodes after < pendingEdges next nodes w := by
  obtain ⟨x, depth, rest, hq, ⟨seen, rfl⟩ | ⟨fresh, rfl⟩⟩ := turn_cases step
  · simp [pendingEdges, hq]
  · have bound := edgeCount_filter_visited next nodes w.visited x fresh (support x)
    simp only [pendingEdges, hq, length_append, length_cons, length_map]
    omega

theorem walk_finished (start : List α) (init : σ) :
    turn next note (Loop.run (turn next note) (start.length + edgeCount next nodes) ⟨[], start.map (·, 1), init⟩) =
      none :=
  run_finished (fun _ => True) (pendingEdges next nodes) (fun _ _ _ _ => trivial)
    (fun w after _ => turn_decreases note support w after) _ trivial (by simp [pendingEdges])

end

theorem walk_eq_foldl (next : α → List α) (note : σ → α → Nat → σ) (nodes start : List α) (init : σ) :
    walk next note nodes start init =
      (order next nodes start).foldl (fun noted entry => note noted entry.1 entry.2) init := by
  refine (run_simulation (fun (w : Walk α σ) (v : Walk α (List (α × Nat))) =>
    w.visited = v.visited ∧ w.queue = v.queue ∧
      w.noted = v.noted.foldl (fun noted entry => note noted entry.1 entry.2) init)
    ?_ (start.length + edgeCount next nodes) ⟨rfl, rfl, rfl⟩).2.2
  rintro ⟨visited, queue, noted⟩ ⟨visited', queue', seen⟩ ⟨sameVisited, sameQueue, sameNoted⟩
  dsimp only at sameVisited sameQueue sameNoted
  subst sameVisited sameQueue sameNoted
  cases queue with
  | nil => exact .none
  | cons head rest =>
    refine .some ?_
    by_cases old : head.1 ∈ visited
    · simp [old]
    · simp [old]

theorem turn_invariant (next : α → List α) (start : List α) (w after : Walk α (List (α × Nat)))
    (inv : WalkInv next start w)
    (step : turn next (fun seen x depth => seen ++ [(x, depth)]) w = some after) :
    WalkInv next start after := by
  obtain ⟨x, depth, rest, hq, cases⟩ := turn_cases step
  obtain ⟨visited, queue, noted⟩ := w
  obtain rfl : queue = (x, depth) :: rest := hq
  obtain ⟨base, below, window⟩ := inv.level
  obtain ⟨headLow, -⟩ := window (x, depth) (by simp)
  have sortedRest := pairwise_cons.mp inv.sorted
  have hopsHead := inv.sound (x, depth) (.inr (by simp))
  rcases cases with ⟨seen, rfl⟩ | ⟨fresh, rfl⟩
  · have inNoted : x ∈ noted.map Prod.fst := inv.visited ▸ seen
    obtain ⟨⟨_, old⟩, oldNoted, rfl⟩ := mem_map.mp inNoted
    have early : old ≤ depth := Nat.le_trans (below _ oldNoted) headLow
    exact
      { visited := inv.visited
        distinct := inv.distinct
        sound := fun entry mem => inv.sound entry (mem.imp_right (mem_cons_of_mem _))
        sorted := sortedRest.2
        level := ⟨base, below, fun entry mem => window entry (mem_cons_of_mem _ mem)⟩
        seeds := fun y mem => (inv.seeds y mem).pop_seen oldNoted early
        closed := fun entry mem y edge => (inv.closed entry mem y edge).pop_seen oldNoted early }
  · refine
      { visited := by simp [← inv.visited]
        distinct := List.Nodup.append inv.distinct (by simp) (by simpa using fresh)
        sound := ?_
        sorted := ?_
        level := ⟨depth, ?_, ?_⟩
        seeds := fun y mem => (inv.seeds y mem).pop_fresh
        closed := ?_ }
    · rintro entry (mem | mem)
      · rcases mem_append.mp mem with mem | mem
        · exact inv.sound entry (.inl mem)
        · rw [mem_singleton.mp mem]
          exact hopsHead
      · rcases mem_append.mp mem with mem | mem
        · exact inv.sound entry (.inr (mem_cons_of_mem _ mem))
        · obtain ⟨y, edge, rfl⟩ := mem_map.mp mem
          exact hopsHead.step edge
    · refine pairwise_append.mpr ⟨sortedRest.2, ?_, ?_⟩
      · rw [pairwise_map]
        exact pairwise_of_forall fun _ _ => Nat.le_refl _
      · intro left inRest _ inNew
        obtain ⟨y, _, rfl⟩ := mem_map.mp inNew
        have := window left (mem_cons_of_mem _ inRest)
        omega
    · intro entry mem
      rcases mem_append.mp mem with mem | mem
      · exact Nat.le_trans (below entry mem) headLow
      · exact Nat.le_of_eq (congrArg Prod.snd (mem_singleton.mp mem))
    · intro entry mem
      rcases mem_append.mp mem with mem | mem
      · have := window entry (mem_cons_of_mem _ mem)
        have := sortedRest.1 entry mem
        omega
      · obtain ⟨y, _, rfl⟩ := mem_map.mp mem
        omega
    · intro entry mem y edge
      rcases mem_append.mp mem with mem | mem
      · exact (inv.closed entry mem y edge).pop_fresh
      · rw [mem_singleton.mp mem] at edge ⊢
        exact .inr ⟨depth + 1, Nat.le_refl _, mem_append_right _ (mem_map.mpr ⟨y, edge, rfl⟩)⟩

theorem order_run (start : List α) (support : ∀ x, next x ≠ [] → x ∈ nodes) :
    ∃ visited, WalkInv next start ⟨visited, [], order next nodes start⟩ := by
  have inv := Loop.run_invariant (turn_invariant next start)
    (start.length + edgeCount next nodes) (walkInv_initial next start)
  have done := walk_finished (fun seen x depth => seen ++ [(x, depth)]) support start []
  unfold order walk
  revert inv done
  generalize Loop.run _ _ _ = final
  obtain ⟨visited, queue, -⟩ := final
  intro inv done
  cases queue with
  | nil => exact ⟨visited, inv⟩
  | cons head rest => simp [turn] at done

section

variable {next : α → List α} {nodes start : List α} (support : ∀ x, next x ≠ [] → x ∈ nodes)
include support

theorem hops_of_mem_order (mem : (x, n) ∈ order next nodes start) : Hops next start x n := by
  obtain ⟨_, inv⟩ := order_run start support
  exact inv.sound (x, n) (.inl mem)

theorem order_nearest (hops : Hops next start x n) : ∃ depth ≤ n, (x, depth) ∈ order next nodes start := by
  obtain ⟨visited, inv⟩ := order_run start support
  have covered : ∀ y m, Covered ⟨visited, [], order next nodes start⟩ y m →
      ∃ depth ≤ m, (y, depth) ∈ order next nodes start := by
    rintro y m (noted | ⟨_, _, mem⟩)
    · exact noted
    · simp at mem
  induction hops with
  | seed mem => exact covered _ _ (inv.seeds _ mem)
  | step _ edge ih =>
    obtain ⟨depth, le, mem⟩ := ih
    obtain ⟨depth', le', mem'⟩ := covered _ _ (inv.closed (_, depth) mem _ edge)
    exact ⟨depth', Nat.le_trans le' (Nat.add_le_add_right le 1), mem'⟩

theorem order_reached (mem : entry ∈ order next nodes start) : Reached next start entry.1 :=
  (hops_of_mem_order support mem).reached

end

theorem turn_reached (next : α → List α) (note : σ → α → Nat → σ) (start : List α) (w after : Walk α σ)
    (inside : ∀ entry ∈ w.queue, Reached next start entry.1) (step : turn next note w = some after) :
    ∀ entry ∈ after.queue, Reached next start entry.1 := by
  obtain ⟨x, depth, rest, hq, ⟨_, rfl⟩ | ⟨_, rfl⟩⟩ := turn_cases step
  · exact fun entry mem => inside entry (hq ▸ mem_cons_of_mem _ mem)
  · intro entry mem
    rcases mem_append.mp mem with mem | mem
    · exact inside entry (hq ▸ mem_cons_of_mem _ mem)
    · obtain ⟨y, edge, rfl⟩ := mem_map.mp mem
      exact (inside (x, depth) (by simp [hq])).step edge

theorem walk_congr {left right : α → List α} (supportLeft : ∀ x, left x ≠ [] → x ∈ nodesLeft)
    (supportRight : ∀ x, right x ≠ [] → x ∈ nodesRight) (edges : ∀ x, Reached left start x → left x = right x)
    (notes : ∀ x, Reached left start x → ∀ noted depth, noteLeft noted x depth = noteRight noted x depth) (init : σ) :
    walk left noteLeft nodesLeft start init = walk right noteRight nodesRight start init := by
  let first : Walk α σ := ⟨[], start.map (·, 1), init⟩
  have seeded : ∀ entry ∈ first.queue, Reached left start entry.1 := by
    intro entry mem
    obtain ⟨x, inside, rfl⟩ := mem_map.mp mem
    exact .seed inside
  have same : ∀ n, run (turn left noteLeft) n first = run (turn right noteRight) n first := by
    intro n
    apply run_congr (fun w => ∀ entry ∈ w.queue, Reached left start entry.1)
      (turn_reached left noteLeft start) _ n seeded
    rintro ⟨visited, queue, noted⟩ inside
    cases queue with
    | nil => rfl
    | cons head rest =>
      have reached := inside head (by simp)
      simp only [turn, edges _ reached, notes _ reached]
  have finished := walk_finished noteLeft supportLeft start init
  have finishedRight := walk_finished noteRight supportRight start init
  unfold walk
  rcases Nat.le_total (start.length + edgeCount left nodesLeft) (start.length + edgeCount right nodesRight)
    with le | le
  · rw [← run_eq_of_finished finished le, same]
  · rw [← run_eq_of_finished finishedRight le, same]

end Nearest
