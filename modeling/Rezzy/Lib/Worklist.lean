import Mathlib
import Rezzy.Lib.Loop

namespace Worklist

open List hiding next

variable {α : Type}

def Edge (next : α → List α) (x y : α) : Prop := y ∈ next x

def Reached (next : α → List α) (start : List α) (y : α) : Prop :=
  ∃ x ∈ start, Relation.ReflTransGen (Edge next) x y

theorem Reached.seed (member : x ∈ start) : Reached next start x := ⟨x, member, .refl⟩

theorem Reached.step {next : α → List α} {start : List α} {x y : α}
    (reached : Reached next start x) (edge : y ∈ next x) : Reached next start y := by
  obtain ⟨root, member, path⟩ := reached
  exact ⟨root, member, path.tail edge⟩

theorem Reached.subset_of_closed (inside : α → Prop) (seeds : ∀ x ∈ start, inside x)
    (closed : ∀ x y, inside x → y ∈ next x → inside y) (reached : Reached next start y) : inside y := by
  obtain ⟨root, member, path⟩ := reached
  induction path with
  | refl => exact seeds _ member
  | tail _ edge ih => exact closed _ _ ih edge

theorem Reached.mono (edges : ∀ x, ∀ y ∈ left x, y ∈ right x) (seeds : ∀ x ∈ start, x ∈ other)
    (reached : Reached left start y) : Reached right other y :=
  reached.subset_of_closed (Reached right other) (fun x member => .seed (seeds x member))
    fun x y r edge => r.step (edges x y edge)

theorem Reached.congr (edges : ∀ x, Reached left start x → left x = right x) (seeds : ∀ x, x ∈ start ↔ x ∈ other)
    (y : α) : Reached left start y ↔ Reached right other y := by
  constructor
  · intro reached
    have both : Reached left start y ∧ Reached right other y :=
      reached.subset_of_closed (fun x => Reached left start x ∧ Reached right other x)
        (fun x member => ⟨.seed member, .seed ((seeds x).mp member)⟩)
        (fun x y ⟨l, r⟩ edge => ⟨l.step edge, r.step (edges x l ▸ edge)⟩)
    exact both.2
  · intro reached
    exact reached.subset_of_closed (Reached left start) (fun x member => .seed ((seeds x).mpr member))
      (fun x y l edge => l.step ((edges x l).symm ▸ edge))

theorem Reached.perm (same : start.Perm other) (y : α) : Reached next start y ↔ Reached next other y :=
  Reached.congr (fun _ _ => rfl) (fun _ => same.mem_iff) y

section

variable [DecidableEq α]

structure Visit (α : Type) where
  visited : List α
  queue : List α

def visit (next : α → List α) (s : Visit α) : Option (Visit α) :=
  match s.queue with
  | [] => none
  | x :: rest =>
    some (if x ∈ s.visited then ⟨s.visited, rest⟩ else ⟨s.visited ++ [x], rest ++ next x⟩)

def edgeCount (next : α → List α) (nodes : List α) : Nat :=
  (nodes.map fun x => (next x).length).sum

/-- Every node taken from the queue until it is empty, each once. `nodes` has to list the nodes with successors: it
    bounds the number of turns. -/
def close (next : α → List α) (nodes start : List α) : List α :=
  (Loop.run (visit next) (start.length + edgeCount next nodes) ⟨[], start⟩).visited

def unvisitedEdges (next : α → List α) (nodes : List α) (s : Visit α) : Nat :=
  s.queue.length + edgeCount next (nodes.filter (· ∉ s.visited))

theorem edgeCount_filter_visited (next : α → List α) (nodes visited : List α) (x : α)
    (fresh : x ∉ visited) (support : next x ≠ [] → x ∈ nodes) :
    edgeCount next (nodes.filter (· ∉ visited ++ [x])) + (next x).length ≤
      edgeCount next (nodes.filter (· ∉ visited)) := by
  have monotone : ∀ nodes : List α, edgeCount next (nodes.filter (· ∉ visited ++ [x])) ≤
      edgeCount next (nodes.filter (· ∉ visited)) := by
    intro nodes
    induction nodes with
    | nil => simp [edgeCount]
    | cons y nodes ih =>
      by_cases hy : y ∈ visited
      · simpa [hy, edgeCount] using ih
      · by_cases same : y = x
        · simp only [edgeCount] at ih
          simp [same, fresh, edgeCount]
          simp at ih
          omega
        · simpa [hy, same, edgeCount] using ih
  by_cases leaf : next x = []
  · simpa [leaf] using monotone nodes
  · have member := support leaf
    clear support
    induction nodes with
    | nil => simp at member
    | cons y nodes ih =>
      by_cases same : y = x
      · have := monotone nodes
        simp only [edgeCount] at this
        simp [same, fresh, edgeCount]
        simp at this
        omega
      · have inner := ih (by simpa [Ne.symm same] using member)
        by_cases hy : y ∈ visited
        · simpa [hy, edgeCount] using inner
        · simp only [edgeCount] at inner
          simp [hy, same, edgeCount]
          simp at inner
          omega

/-- A node is taken from the queue. If it was taken before it is dropped, else its successors are queued, in
    any order. -/
structure Turned (next : α → List α) (s t : Visit α) (x : α) (rest : List α) : Prop where
  taken : s.queue = x :: rest
  seen : x ∈ s.visited → t = ⟨s.visited, rest⟩
  visited : x ∉ s.visited → t.visited = s.visited ++ [x]
  queue : x ∉ s.visited → t.queue.Perm (rest ++ next x)

theorem visit_turned {s t : Visit α} (turn : visit next s = some t) : ∃ x rest, Turned next s t x rest := by
  unfold visit at turn
  cases taken : s.queue with
  | nil => simp [taken] at turn
  | cons x rest =>
    simp only [taken, Option.some.injEq] at turn
    subst turn
    refine ⟨x, rest, taken, ?_, ?_, ?_⟩
    · intro seen
      rw [if_pos seen]
    · intro fresh
      rw [if_neg fresh]
    · intro fresh
      rw [if_neg fresh]

theorem Turned.decreases (support : ∀ x, next x ≠ [] → x ∈ nodes) {x : α} (turned : Turned next s t x rest) :
    unvisitedEdges next nodes t < unvisitedEdges next nodes s := by
  unfold unvisitedEdges
  rw [turned.taken]
  by_cases seen : x ∈ s.visited
  · simp [turned.seen seen]
  · have bound := edgeCount_filter_visited next nodes s.visited x seen (support x)
    rw [turned.visited seen, (turned.queue seen).length_eq, length_append, length_cons]
    omega

structure VisitInv (next : α → List α) (start : List α) (s : Visit α) : Prop where
  sound : ∀ x, x ∈ s.visited ∨ x ∈ s.queue → Reached next start x
  seeds : ∀ x ∈ start, x ∈ s.visited ∨ x ∈ s.queue
  closed : ∀ x ∈ s.visited, ∀ y ∈ next x, y ∈ s.visited ∨ y ∈ s.queue

omit [DecidableEq α] in
theorem VisitInv.initial (same : queue.Perm start) : VisitInv next start ⟨[], queue⟩ where
  sound x member := .seed (same.mem_iff.mp (by simpa using member))
  seeds x member := .inr (same.mem_iff.mpr member)
  closed := by simp

theorem VisitInv.turn {next : α → List α} {start : List α} {s t : Visit α} {x : α} {rest : List α}
    (inv : VisitInv next start s) (turned : Turned next s t x rest) : VisitInv next start t := by
  have queued : Reached next start x := inv.sound x (.inr (by simp [turned.taken]))
  obtain ⟨sound, seeds, closed⟩ := inv
  simp only [turned.taken, mem_cons] at sound seeds closed
  by_cases seen : x ∈ s.visited
  · rw [turned.seen seen]
    constructor
    · intro y member
      exact sound y (member.imp_right .inr)
    · intro y member
      rcases seeds y member with done | rfl | waits
      · exact .inl done
      · exact .inl seen
      · exact .inr waits
    · intro y member z edge
      rcases closed y member z edge with done | rfl | waits
      · exact .inl done
      · exact .inl seen
      · exact .inr waits
  · constructor
    all_goals simp only [turned.visited seen, (turned.queue seen).mem_iff, mem_append, mem_singleton]
    · rintro y ((done | rfl) | waits | edge)
      · exact sound y (.inl done)
      · exact queued
      · exact sound y (.inr (.inr waits))
      · exact queued.step edge
    · intro y member
      rcases seeds y member with done | rfl | waits
      · exact .inl (.inl done)
      · exact .inl (.inr rfl)
      · exact .inr (.inl waits)
    · rintro y (member | rfl) z edge
      · rcases closed y member z edge with done | rfl | waits
        · exact .inl (.inl done)
        · exact .inl (.inr rfl)
        · exact .inr (.inl waits)
      · exact .inr (.inr edge)

omit [DecidableEq α] in
theorem VisitInv.mem_visited (inv : VisitInv next start s) (empty : s.queue = []) (y : α) :
    y ∈ s.visited ↔ Reached next start y := by
  obtain ⟨sound, seeds, closed⟩ := inv
  simp only [empty, not_mem_nil, or_false] at sound seeds closed
  exact ⟨sound y, fun reached => reached.subset_of_closed _ seeds fun x y member => closed x member y⟩

theorem visit_invariant (next : α → List α) (start : List α) (s t : Visit α)
    (inv : VisitInv next start s) (turn : visit next s = some t) : VisitInv next start t := by
  obtain ⟨x, rest, turned⟩ := visit_turned turn
  exact inv.turn turned

theorem visit_decreases (next : α → List α) (nodes : List α)
    (support : ∀ x, next x ≠ [] → x ∈ nodes) (s t : Visit α) (turn : visit next s = some t) :
    unvisitedEdges next nodes t < unvisitedEdges next nodes s := by
  obtain ⟨x, rest, turned⟩ := visit_turned turn
  exact turned.decreases support

theorem mem_close (support : ∀ x, next x ≠ [] → x ∈ nodes) (y : α) :
    y ∈ close next nodes start ↔ Reached next start y := by
  have inv := Loop.run_invariant (visit_invariant next start)
    (start.length + edgeCount next nodes) (.initial (.refl start))
  have done := Loop.run_finished (fun _ => True) (unvisitedEdges next nodes)
    (fun _ _ _ _ => trivial) (fun s t _ => visit_decreases next nodes support s t)
    (start.length + edgeCount next nodes) (s := ⟨[], start⟩) trivial
    (by simp [unvisitedEdges])
  unfold close
  revert inv done
  generalize Loop.run (visit next) _ _ = final
  intro inv done
  have empty : final.queue = [] := by
    unfold visit at done
    cases taken : final.queue with
    | nil => rfl
    | cons x rest => simp [taken] at done
  exact inv.mem_visited empty y

end

structure Pops (pop : List α → Option (α × List α)) : Prop where
  none_iff : ∀ l, pop l = none ↔ l = []
  perm : ∀ l x rest, pop l = some (x, rest) → l.Perm (x :: rest)

def popFront : List α → Option (α × List α)
  | [] => none
  | x :: rest => some (x, rest)

theorem popFront_pops : Pops (popFront (α := α)) where
  none_iff l := by cases l <;> simp [popFront]
  perm l x rest taken := by
    cases l with
    | nil => simp [popFront] at taken
    | cons y l =>
      simp only [popFront, Option.some.injEq, Prod.mk.injEq] at taken
      rw [taken.1, taken.2]

variable [DecidableEq α]

structure Frontier (α : Type) where
  marked : List α
  pending : List α

def offer (keep : α → Bool) (s : Frontier α) (y : α) : Frontier α :=
  if y ∈ s.marked then s
  else ⟨s.marked ++ [y], if keep y then s.pending ++ [y] else s.pending⟩

def expand (pop : List α → Option (α × List α)) (keep : α → Bool) (next : α → List α)
    (s : Frontier α) : Option (Frontier α) :=
  match pop s.pending with
  | none => none
  | some (x, rest) => some ((next x).foldl (offer keep) ⟨s.marked, rest⟩)

/-- The marks when nothing is pending any more, in the order they were set. `nodes` has to list the
    kept nodes: it bounds the number of turns. -/
def flood (pop : List α → Option (α × List α)) (keep : α → Bool) (next : α → List α)
    (nodes start : List α) : List α :=
  (Loop.run (expand pop keep next) nodes.length (start.foldl (offer keep) ⟨[], []⟩)).marked

def keptNext (keep : α → Bool) (next : α → List α) (x : α) : List α :=
  if keep x then next x else []

structure FrontierInv (keep : α → Bool) (next : α → List α) (start : List α)
    (s : Frontier α) : Prop where
  sound : ∀ x ∈ s.marked, Reached (keptNext keep next) start x
  waiting : ∀ x ∈ s.pending, x ∈ s.marked ∧ keep x = true
  nodup : s.marked.Nodup
  pendingNodup : s.pending.Nodup

theorem offer_marked (keep : α → Bool) (s : Frontier α) (y x : α) :
    x ∈ (offer keep s y).marked ↔ x ∈ s.marked ∨ x = y := by
  unfold offer
  split
  · rename_i seen
    exact ⟨.inl, fun member => member.elim id fun same => same ▸ seen⟩
  · simp

section

variable (keep : α → Bool) (l : List α) (s : Frontier α) (x : α)

theorem offers_marked : x ∈ (l.foldl (offer keep) s).marked ↔ x ∈ s.marked ∨ x ∈ l := by
  induction l generalizing s with
  | nil => simp
  | cons y l ih => rw [foldl_cons, ih, offer_marked, mem_cons, or_assoc]

theorem offers_keep_pending (member : x ∈ s.pending) : x ∈ (l.foldl (offer keep) s).pending := by
  induction l generalizing s with
  | nil => exact member
  | cons y l ih =>
    apply ih
    unfold offer
    split
    · exact member
    · split <;> simp [member]

theorem offers_pending (fresh : x ∉ s.marked) (offered : x ∈ l) (kept : keep x = true) :
    x ∈ (l.foldl (offer keep) s).pending := by
  induction l generalizing s with
  | nil => simp at offered
  | cons y l ih =>
    rw [foldl_cons]
    by_cases same : x = y
    · subst same
      apply offers_keep_pending
      simp [offer, fresh, kept]
    · apply ih _ _ (by simpa [same] using offered)
      simp [offer_marked, fresh, same]

end

theorem offers_waiting {keep : α → Bool} {l : List α} {s : Frontier α}
    (waiting : ∀ x ∈ s.pending, x ∈ s.marked ∧ keep x = true) :
    ∀ x ∈ (l.foldl (offer keep) s).pending, x ∈ (l.foldl (offer keep) s).marked ∧ keep x = true := by
  induction l generalizing s with
  | nil => exact waiting
  | cons y l ih =>
    apply ih
    unfold offer
    split
    · exact waiting
    · intro x member
      split at member
      · rename_i kept
        rcases mem_append.mp member with member | member
        · exact ⟨mem_append_left _ (waiting x member).1, (waiting x member).2⟩
        · rw [mem_singleton.mp member]
          exact ⟨by simp, kept⟩
      · exact ⟨mem_append_left _ (waiting x member).1, (waiting x member).2⟩

theorem offer_invariant (keep : α → Bool) (next : α → List α) (start : List α)
    (s : Frontier α) (y : α) (inv : FrontierInv keep next start s)
    (reached : Reached (keptNext keep next) start y) :
    FrontierInv keep next start (offer keep s y) := by
  have waiting := offers_waiting (l := [y]) inv.waiting
  rw [foldl_cons, foldl_nil] at waiting
  refine ⟨fun x member => ?_, waiting, ?_, ?_⟩
  · rcases (offer_marked keep s y x).mp member with old | rfl
    · exact inv.sound x old
    · exact reached
  all_goals
    unfold offer
    split
  · exact inv.nodup
  · rename_i fresh
    exact List.Nodup.append inv.nodup (by simp) (by simpa using fresh)
  · exact inv.pendingNodup
  · rename_i fresh
    have notPending : y ∉ s.pending := fun member => fresh (inv.waiting y member).1
    split
    · exact List.Nodup.append inv.pendingNodup (by simp) (by simpa using notPending)
    · exact inv.pendingNodup

theorem offers_invariant (keep : α → Bool) (next : α → List α) (start l : List α)
    (s : Frontier α) (inv : FrontierInv keep next start s)
    (reached : ∀ y ∈ l, Reached (keptNext keep next) start y) :
    FrontierInv keep next start (l.foldl (offer keep) s) := by
  induction l generalizing s with
  | nil => exact inv
  | cons y l ih =>
    exact ih _ (offer_invariant keep next start s y inv (reached y (by simp)))
      fun z member => reached z (mem_cons_of_mem _ member)

omit [DecidableEq α] in
theorem FrontierInv.pop (inv : FrontierInv keep next start s) (perm : s.pending.Perm (x :: rest)) :
    FrontierInv keep next start ⟨s.marked, rest⟩ where
  sound := inv.sound
  waiting y member := inv.waiting y (perm.mem_iff.mpr (mem_cons_of_mem _ member))
  nodup := inv.nodup
  pendingNodup := (nodup_cons.mp (perm.nodup_iff.mp inv.pendingNodup)).2

def Expanded (keep : α → Bool) (next : α → List α) (start : List α) (s : Frontier α) : Prop :=
  (∀ x ∈ start, x ∈ s.marked) ∧
    ∀ x ∈ s.marked, keep x = true → x ∈ s.pending ∨ ∀ y ∈ next x, y ∈ s.marked

def Draws (pop : List α → Option (α × List α)) : Prop :=
  ∀ l x rest, pop l = some (x, rest) → l.Perm (x :: rest)

theorem expand_expanded (draws : Draws pop) {start : List α} (waiting : ∀ x ∈ s.pending, x ∈ s.marked ∧ keep x = true)
    (expanded : Expanded keep next start s) (turn : expand pop keep next s = some t) :
    (∀ x ∈ t.pending, x ∈ t.marked ∧ keep x = true) ∧ Expanded keep next start t := by
  unfold expand at turn
  cases taken : pop s.pending with
  | none => simp [taken] at turn
  | some pair =>
    obtain ⟨x, rest⟩ := pair
    simp only [taken, Option.some.injEq] at turn
    subst turn
    have perm := draws _ _ _ taken
    refine ⟨offers_waiting fun y member => waiting y (perm.mem_iff.mpr (mem_cons_of_mem _ member)), ?_, ?_⟩
    · intro y member
      exact (offers_marked keep _ _ y).mpr (.inl (expanded.1 y member))
    · intro y member kept
      by_cases old : y ∈ s.marked
      · rcases expanded.2 y old kept with waiting | done
        · rcases mem_cons.mp (perm.mem_iff.mp waiting) with rfl | waiting
          · exact .inr fun z edge => (offers_marked keep _ _ z).mpr (.inr edge)
          · exact .inl (offers_keep_pending keep _ _ y waiting)
        · exact .inr fun z edge => (offers_marked keep _ _ z).mpr (.inl (done z edge))
      · have new := ((offers_marked keep _ _ y).mp member).resolve_left old
        exact .inl (offers_pending keep _ _ y old new kept)

theorem expand_drawn (draws : Draws pop) (keep : α → Bool) (next : α → List α) (start : List α) (s t : Frontier α)
    (inv : FrontierInv keep next start s ∧ Expanded keep next start s) (turn : expand pop keep next s = some t) :
    FrontierInv keep next start t ∧ Expanded keep next start t := by
  refine ⟨?_, (expand_expanded draws inv.1.waiting inv.2 turn).2⟩
  unfold expand at turn
  cases taken : pop s.pending with
  | none => simp [taken] at turn
  | some pair =>
    obtain ⟨x, rest⟩ := pair
    simp only [taken, Option.some.injEq] at turn
    subst turn
    have perm := draws _ _ _ taken
    have waits := inv.1.waiting x (perm.mem_iff.mpr (by simp))
    refine offers_invariant keep next start _ _ (inv.1.pop perm) fun y edge => ?_
    exact (inv.1.sound x waits.1).step (by simp [keptNext, waits.2, edge])

def outstanding (nodes : List α) (s : Frontier α) : Nat :=
  s.pending.length + (nodes.filter (· ∉ s.marked)).length

theorem unmarked_length (nodes marked : List α) (y : α) :
    (nodes.filter (· ∉ marked ++ [y])).length ≤ (nodes.filter (· ∉ marked)).length := by
  apply List.Sublist.length_le
  apply monotone_filter_right
  intro _ outside
  simp only [mem_append, mem_singleton, not_or, decide_eq_true_eq] at outside ⊢
  exact outside.1

theorem unmarked_length_lt (nodes marked : List α) (y : α) (member : y ∈ nodes) (fresh : y ∉ marked) :
    (nodes.filter (· ∉ marked ++ [y])).length < (nodes.filter (· ∉ marked)).length := by
  induction nodes with
  | nil => simp at member
  | cons x nodes ih =>
    have tail := unmarked_length nodes marked y
    by_cases same : x = y
    · subst same
      simp only [filter_cons, fresh, not_false_eq_true, decide_true, if_true, mem_append,
        mem_singleton, or_true, not_true_eq_false, decide_false, Bool.false_eq_true, if_false,
        length_cons] at tail ⊢
      omega
    · have inner := ih (by simpa [Ne.symm same] using member)
      by_cases seen : x ∈ marked
      · simpa [seen] using inner
      · simpa [seen, same] using inner

section

variable (keep : α → Bool) (nodes : List α) (support : ∀ x, keep x = true → x ∈ nodes)
include support

theorem offer_outstanding (s : Frontier α) (y : α) : outstanding nodes (offer keep s y) ≤ outstanding nodes s := by
  unfold offer
  split
  · exact Nat.le_refl _
  · rename_i fresh
    unfold outstanding
    dsimp only
    split
    · rename_i kept
      have := unmarked_length_lt nodes s.marked y (support y kept) fresh
      rw [length_append, length_singleton]
      omega
    · have := unmarked_length nodes s.marked y
      omega

theorem offers_outstanding (l : List α) (s : Frontier α) :
    outstanding nodes (l.foldl (offer keep) s) ≤ outstanding nodes s := by
  induction l generalizing s with
  | nil => exact Nat.le_refl _
  | cons y l ih => exact Nat.le_trans (ih _) (offer_outstanding keep nodes support s y)

end

theorem expand_fewer (draws : Draws pop) (keep : α → Bool) (next : α → List α) (nodes : List α)
    (support : ∀ x, keep x = true → x ∈ nodes) (s t : Frontier α) (turn : expand pop keep next s = some t) :
    outstanding nodes t < outstanding nodes s := by
  unfold expand at turn
  cases taken : pop s.pending with
  | none => simp [taken] at turn
  | some pair =>
    obtain ⟨x, rest⟩ := pair
    simp only [taken, Option.some.injEq] at turn
    subst turn
    have offered := offers_outstanding keep nodes support (next x) ⟨s.marked, rest⟩
    have length := (draws _ _ _ taken).length_eq
    simp only [outstanding, length_cons] at offered length ⊢
    omega

theorem offered_invariant (keep : α → Bool) (next : α → List α) (start : List α) :
    FrontierInv keep next start (start.foldl (offer keep) ⟨[], []⟩) ∧
      Expanded keep next start (start.foldl (offer keep) ⟨[], []⟩) := by
  refine ⟨offers_invariant keep next start start _ ⟨by simp, by simp, by simp, by simp⟩
    fun _ member => .seed member, fun x member => (offers_marked keep _ _ x).mpr (.inr member),
    fun x member kept => ?_⟩
  have offered := ((offers_marked keep _ _ x).mp member).resolve_left (by simp)
  exact .inl (offers_pending keep _ _ x (by simp) offered kept)

theorem nodup_flood (pops : Pops pop) (keep : α → Bool) (next : α → List α) (nodes start : List α) :
    (flood pop keep next nodes start).Nodup :=
  (Loop.run_invariant (expand_drawn pops.perm keep next start) nodes.length (offered_invariant keep next start)).1.nodup

theorem flood_finished {nodes : List α} (pops : Pops pop) (support : ∀ x, keep x = true → x ∈ nodes)
    (next : α → List α) (start : List α) :
    expand pop keep next (Loop.run (expand pop keep next) nodes.length (start.foldl (offer keep) ⟨[], []⟩)) = none :=
  Loop.run_finished (fun _ => True) (outstanding nodes)
    (fun _ _ _ _ => trivial) (fun s t _ => expand_fewer pops.perm keep next nodes support s t)
    nodes.length (s := start.foldl (offer keep) ⟨[], []⟩) trivial
    (Nat.le_trans (offers_outstanding keep nodes support start ⟨[], []⟩) (by simp [outstanding]))

theorem mem_flood (pops : Pops pop) (support : ∀ x, keep x = true → x ∈ nodes) (y : α) :
    y ∈ flood pop keep next nodes start ↔ Reached (keptNext keep next) start y := by
  have inv := Loop.run_invariant (expand_drawn pops.perm keep next start) nodes.length
    (offered_invariant keep next start)
  have done := flood_finished pops support next start
  unfold flood
  revert inv done
  generalize Loop.run (expand pop keep next) _ _ = final
  intro inv done
  have empty : final.pending = [] := by
    unfold expand at done
    cases taken : pop final.pending with
    | none => exact (pops.none_iff _).mp taken
    | some pair => simp [taken] at done
  refine ⟨inv.1.sound y, fun reached => reached.subset_of_closed _ inv.2.1 ?_⟩
  intro x z marked edge
  by_cases kept : keep x = true
  · rcases inv.2.2 x marked kept with waiting | closed
    · simp [empty] at waiting
    · exact closed z (by simpa [keptNext, kept] using edge)
  · simp [keptNext, kept] at edge

end Worklist
