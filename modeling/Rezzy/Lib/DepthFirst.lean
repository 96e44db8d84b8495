import Rezzy.Lib.Peel
import Rezzy.Lib.Worklist

namespace DepthFirst

open Peel Worklist List Loop

variable {α : Type} [DecidableEq α]

structure Walk (α : Type) where
  stack : List (α × Bool)
  active : List α
  done : List α
  hasCycle : Bool

def turn (next : α → List α) (s : Walk α) : Option (Walk α) :=
  if s.hasCycle then none
  else
    match s.stack with
    | [] => none
    | (x, true) :: rest => some ⟨rest, s.active.filter (· ≠ x), s.done ++ [x], false⟩
    | (x, false) :: rest =>
      if x ∈ s.active then some ⟨rest, s.active, s.done, true⟩
      else if x ∈ s.done then some ⟨rest, s.active, s.done, false⟩
      else some ⟨(next x).map (fun y => (y, false)) ++ (x, true) :: rest, x :: s.active, s.done, false⟩

def entries (next : α → List α) (nodes : List α) : Nat := edgeCount (fun x => x :: next x) nodes

/-- The walk from one root. `nodes` has to list the nodes: it bounds the number of turns. -/
def explore (next : α → List α) (nodes : List α) (s : Walk α) (root : α) : Walk α :=
  if s.hasCycle = true ∨ root ∈ s.done then s
  else Loop.run (turn next) (1 + entries next nodes) { s with stack := [(root, false)] }

def hasCycle (next : α → List α) (nodes : List α) : Bool :=
  (nodes.foldl (explore next nodes) ⟨[], [], [], false⟩).hasCycle

variable {next : α → List α} {nodes : List α} {s t : Walk α}

def frames (stack : List (α × Bool)) : List α := (stack.filter Prod.snd).map Prod.fst

section

omit [DecidableEq α]

@[simp]
theorem frames_enter (x : α) (rest : List (α × Bool)) : frames ((x, false) :: rest) = frames rest := by
  simp [frames]

@[simp]
theorem frames_leave (x : α) (rest : List (α × Bool)) : frames ((x, true) :: rest) = x :: frames rest := by
  simp [frames]

@[simp]
theorem frames_offered (offered : List α) (rest : List (α × Bool)) :
    frames (offered.map (fun y => (y, false)) ++ rest) = frames rest := by
  induction offered with
  | nil => rfl
  | cons y offered ih => rw [map_cons, cons_append, frames_enter, ih]

def Stacked (next : α → List α) : List (α × Bool) → Prop
  | [] => True
  | entry :: rest => (∀ below, (frames rest).head? = some below → entry.1 ∈ next below) ∧ Stacked next rest

theorem Stacked.offered (stacked : Stacked next ((x, true) :: rest)) {offered : List α}
    (edges : ∀ y ∈ offered, y ∈ next x) : Stacked next (offered.map (fun y => (y, false)) ++ (x, true) :: rest) := by
  induction offered with
  | nil => exact stacked
  | cons y offered ih =>
    rw [map_cons, cons_append]
    refine ⟨?_, ih fun z mem => edges z (mem_cons_of_mem _ mem)⟩
    intro _ top
    rw [frames_offered, frames_leave, head?_cons, Option.some.injEq] at top
    subst top
    exact edges y (mem_cons_self ..)

theorem Stacked.path (stacked : Stacked next stack) (first : (frames stack).head? = some top)
    (mem : x ∈ frames stack) : Relation.ReflTransGen (Cites next) top x := by
  induction stack generalizing top with
  | nil => cases mem
  | cons entry rest ih =>
    obtain ⟨z, leaving⟩ := entry
    cases leaving with
    | false =>
      rw [frames_enter] at first mem
      exact ih stacked.2 first mem
    | true =>
      rw [frames_leave] at first mem
      obtain rfl := Option.some.inj first
      rcases mem_cons.mp mem with rfl | older
      · exact .refl
      · cases below : frames rest with
        | nil =>
          rw [below] at older
          cases older
        | cons q others =>
          have head : (frames rest).head? = some q := by rw [below, head?_cons]
          exact .head (stacked.1 q head) (ih stacked.2 head older)

def Covered (next : α → List α) (done : List α) : List α → List (α × Bool) → Prop
  | _, [] => True
  | above, (x, leaving) :: rest =>
    (leaving = true → ∀ y ∈ next x, y ∈ done ∨ y ∈ above) ∧ Covered next done (x :: above) rest

theorem Covered.mono (covered : Covered next done above stack)
    (wider : ∀ y, y ∈ done ∨ y ∈ above → y ∈ more ∨ y ∈ higher) : Covered next more higher stack := by
  induction stack generalizing above higher with
  | nil => trivial
  | cons entry rest ih =>
    refine ⟨fun leaving y edge => wider y (covered.1 leaving y edge), ih covered.2 ?_⟩
    intro y
    rw [mem_cons, mem_cons]
    have old := wider y
    rintro (finished | rfl | mem)
    · exact (old (.inl finished)).imp_right .inr
    · exact .inr (.inl rfl)
    · exact (old (.inr mem)).imp_right .inr

theorem Covered.offered {done above offered : List α} (covered : Covered next done (offered.reverse ++ above) stack) :
    Covered next done above (offered.map (fun y => (y, false)) ++ stack) := by
  induction offered generalizing above with
  | nil => exact covered
  | cons y offered ih =>
    refine ⟨fun leaving => (by cases leaving), ih ?_⟩
    rwa [reverse_cons, append_assoc] at covered

end

section

theorem turn_cases (step : turn next s = some t) : s.hasCycle = false ∧ ∃ x rest,
    (s.stack = (x, true) :: rest ∧ t = ⟨rest, s.active.filter (· ≠ x), s.done ++ [x], false⟩) ∨
    (s.stack = (x, false) :: rest ∧ x ∈ s.active ∧ t = ⟨rest, s.active, s.done, true⟩) ∨
    (s.stack = (x, false) :: rest ∧ x ∈ s.done ∧ t = ⟨rest, s.active, s.done, false⟩) ∨
    (s.stack = (x, false) :: rest ∧ x ∉ s.active ∧ x ∉ s.done ∧
      t = ⟨(next x).map (fun y => (y, false)) ++ (x, true) :: rest, x :: s.active, s.done, false⟩) := by
  unfold turn at step
  split at step
  · cases step
  · rename_i clear
    refine ⟨Bool.eq_false_iff.mpr clear, ?_⟩
    split at step
    · cases step
    · rename_i x rest taken
      exact ⟨x, rest, .inl ⟨taken, (Option.some.inj step).symm⟩⟩
    · rename_i x rest taken
      refine ⟨x, rest, .inr ?_⟩
      split at step
      · rename_i active
        exact .inl ⟨taken, active, (Option.some.inj step).symm⟩
      · rename_i fresh
        split at step
        · rename_i done
          exact .inr (.inl ⟨taken, done, (Option.some.inj step).symm⟩)
        · rename_i new
          exact .inr (.inr ⟨taken, fresh, new, (Option.some.inj step).symm⟩)

theorem turn_none (stopped : turn next s = none) : s.hasCycle = true ∨ s.stack = [] := by
  unfold turn at stopped
  split at stopped
  · exact .inl ‹_›
  · split at stopped
    · exact .inr ‹_›
    · cases stopped
    · split at stopped
      · cases stopped
      · split at stopped <;> cases stopped

structure Coloured (next : α → List α) (nodes : List α) (s : Walk α) : Prop where
  inside : ∀ entry ∈ s.stack, entry.1 ∈ nodes
  active : s.active = frames s.stack
  nodup : (s.active ++ s.done).Nodup
  stacked : Stacked next s.stack
  first : ParentsFirst next s.done
  covered : s.hasCycle = false → Covered next s.done [] s.stack
  cycle : s.hasCycle = true → ∃ x ∈ nodes, Relation.TransGen (Cites next) x x

omit [DecidableEq α] in
theorem parentsFirst_append (first : ParentsFirst next done) (finished : ∀ y ∈ next x, y ∈ done) :
    ParentsFirst next (done ++ [x]) := by
  intro before n _ split
  rcases append_eq_append_iff.mp split with ⟨more, prior, last⟩ | ⟨more, prior, last⟩
  · cases more with
    | nil =>
      obtain ⟨rfl, _⟩ := cons.inj last
      rw [append_nil] at prior
      rwa [prior]
    | cons m more => simp at last
  · cases more with
    | nil =>
      obtain ⟨rfl, _⟩ := cons.inj last
      rw [append_nil] at prior
      rwa [← prior]
    | cons m more =>
      obtain ⟨rfl, _⟩ := cons.inj last
      exact first before n more prior

variable (closed : ∀ x ∈ nodes, ∀ y ∈ next x, y ∈ nodes)
include closed

theorem turn_coloured (inv : Coloured next nodes s) (step : turn next s = some t) : Coloured next nodes t := by
  obtain ⟨clear, x, rest, cases⟩ := turn_cases step
  have covered := inv.covered clear
  obtain ⟨inside, active, nodup, stacked, first, _, _⟩ := inv
  rcases cases with ⟨taken, rfl⟩ | ⟨taken, met, rfl⟩ | ⟨taken, finished, rfl⟩ | ⟨taken, fresh, new, rfl⟩
  all_goals
    rw [taken] at inside active stacked covered
    have deeper : ∀ entry ∈ rest, entry.1 ∈ nodes := fun entry mem => inside entry (mem_cons_of_mem _ mem)
    have own : x ∈ nodes := inside _ (mem_cons_self ..)
  · rw [frames_leave] at active
    rw [active, cons_append, nodup_cons] at nodup
    have left : s.active.filter (· ≠ x) = frames rest := by
      rw [active, filter_cons_of_neg (by simp)]
      refine filter_eq_self.mpr fun y mem => ?_
      have differ : y ≠ x := fun same => nodup.1 (same ▸ mem_append_left _ mem)
      simpa using differ
    have finished : ∀ y ∈ next x, y ∈ s.done := fun y edge => (covered.1 rfl y edge).resolve_right (by simp)
    constructor
    · exact deeper
    · exact left
    · rw [left, ← append_assoc]
      refine List.Nodup.append nodup.2 (by simp) ?_
      simpa using nodup.1
    · exact stacked.2
    · exact parentsFirst_append first finished
    · intro _
      refine covered.2.mono fun y => ?_
      simp only [mem_append, mem_singleton, not_mem_nil, or_false, imp_self]
    · intro found
      cases found
  · rw [frames_enter] at active
    constructor
    · exact deeper
    · exact active
    · exact nodup
    · exact stacked.2
    · exact first
    · intro none
      cases none
    · intro _
      rw [active] at met
      cases top : (frames rest).head? with
      | none =>
        rw [head?_eq_none_iff.mp top] at met
        cases met
      | some below =>
        have edge : Cites next x below := stacked.1 below top
        exact ⟨x, own, .head' edge (stacked.2.path top met)⟩
  · rw [frames_enter] at active
    constructor
    · exact deeper
    · exact active
    · exact nodup
    · exact stacked.2
    · exact first
    · intro _
      refine covered.2.mono fun y => ?_
      simp only [mem_singleton, not_mem_nil, or_false]
      rintro (old | rfl)
      · exact old
      · exact finished
    · intro found
      cases found
  · rw [frames_enter] at active
    constructor
    · intro entry mem
      rcases mem_append.mp mem with offered | older
      · obtain ⟨y, edge, rfl⟩ := mem_map.mp offered
        exact closed x own y edge
      · rcases mem_cons.mp older with rfl | older
        · exact own
        · exact deeper entry older
    · rw [frames_offered, frames_leave, active]
    · rw [cons_append, nodup_cons, mem_append]
      exact ⟨fun mem => mem.elim fresh new, nodup⟩
    · have entered : Stacked next ((x, true) :: rest) := stacked
      exact entered.offered fun y edge => edge
    · exact first
    · intro _
      apply Covered.offered
      refine ⟨fun _ y edge => .inr (by simpa using edge), covered.2.mono fun y => ?_⟩
      simp only [mem_cons, not_mem_nil, or_false]
      exact fun old => old.imp_right .inl
    · intro found
      cases found

end

variable (closed : ∀ x ∈ nodes, ∀ y ∈ next x, y ∈ nodes)

def pending (next : α → List α) (nodes : List α) (s : Walk α) : Nat :=
  s.stack.length + entries next (nodes.filter (· ∉ s.done ++ s.active))

theorem turn_pending (inv : Coloured next nodes s) (step : turn next s = some t) :
    pending next nodes t < pending next nodes s := by
  obtain ⟨_, x, rest, cases⟩ := turn_cases step
  unfold pending
  rcases cases with ⟨taken, rfl⟩ | ⟨taken, _, rfl⟩ | ⟨taken, _, rfl⟩ | ⟨taken, fresh, new, rfl⟩
  all_goals
    rw [taken, length_cons]
    dsimp only
  · have active := inv.active
    rw [taken, frames_leave] at active
    have same : nodes.filter (· ∉ s.done ++ [x] ++ s.active.filter (· ≠ x)) = nodes.filter (· ∉ s.done ++ s.active) := by
      refine filter_congr fun y _ => ?_
      by_cases own : y = x
      · simp [own, active]
      · simp [own]
    rw [same]
    omega
  · omega
  · omega
  · have same : nodes.filter (· ∉ s.done ++ x :: s.active) = nodes.filter (· ∉ s.done ++ s.active ++ [x]) := by
      refine filter_congr fun y _ => ?_
      by_cases own : y = x
      · simp [own]
      · simp [own]
    have own := inv.inside (x, false) (taken ▸ mem_cons_self ..)
    have bound := edgeCount_filter_visited (fun x => x :: next x) nodes (s.done ++ s.active) x
      (by simp [fresh, new]) fun _ => own
    rw [length_cons] at bound
    rw [same, length_append, length_map, length_cons]
    unfold entries
    omega

theorem turn_keeps (step : turn next s = some t) (clear : t.hasCycle = false) (x : α)
    (held : x ∈ s.done ∨ ∃ leaving, (x, leaving) ∈ s.stack) : x ∈ t.done ∨ ∃ leaving, (x, leaving) ∈ t.stack := by
  obtain ⟨_, y, rest, cases⟩ := turn_cases step
  rcases cases with ⟨taken, rfl⟩ | ⟨_, _, rfl⟩ | ⟨taken, finished, rfl⟩ | ⟨taken, _, _, rfl⟩
  · rcases held with old | ⟨leaving, mem⟩
    · exact .inl (mem_append_left _ old)
    · rw [taken] at mem
      rcases mem_cons.mp mem with same | deeper
      · obtain ⟨rfl, _⟩ := Prod.mk.inj same
        exact .inl (mem_append_right _ (mem_singleton_self x))
      · exact .inr ⟨leaving, deeper⟩
  · cases clear
  · rcases held with old | ⟨leaving, mem⟩
    · exact .inl old
    · rw [taken] at mem
      rcases mem_cons.mp mem with same | deeper
      · obtain ⟨rfl, _⟩ := Prod.mk.inj same
        exact .inl finished
      · exact .inr ⟨leaving, deeper⟩
  · rcases held with old | ⟨leaving, mem⟩
    · exact .inl old
    · rw [taken] at mem
      rcases mem_cons.mp mem with same | deeper
      · obtain ⟨rfl, _⟩ := Prod.mk.inj same
        exact .inr ⟨true, mem_append_right _ (mem_cons_self ..)⟩
      · exact .inr ⟨leaving, mem_append_right _ (mem_cons_of_mem _ deeper)⟩

theorem run_keeps (next : α → List α) (s : Walk α) (x : α) (held : x ∈ s.done ∨ ∃ leaving, (x, leaving) ∈ s.stack)
    (n : Nat) :
    (run (turn next) n s).hasCycle = false →
      x ∈ (run (turn next) n s).done ∨ ∃ leaving, (x, leaving) ∈ (run (turn next) n s).stack := by
  refine @Loop.run_invariant _ _ (fun w : Walk α => w.hasCycle = false →
    x ∈ w.done ∨ ∃ leaving, (x, leaving) ∈ w.stack) ?_ n s fun _ => held
  intro w _ kept step clear
  exact turn_keeps step clear x (kept (turn_cases step).1)

structure Settled (next : α → List α) (nodes roots : List α) (s : Walk α) : Prop where
  coloured : Coloured next nodes s
  rested : s.hasCycle = false → s.stack = [] ∧ ∀ x ∈ roots, x ∈ s.done

omit [DecidableEq α] in
theorem settled_empty (next : α → List α) (nodes : List α) : Settled next nodes [] ⟨[], [], [], false⟩ where
  coloured := by
    constructor
    · simp
    · rfl
    · exact nodup_nil
    · trivial
    · intro _ _ _ split
      simp at split
    · exact fun _ => trivial
    · intro found
      cases found
  rested _ := ⟨rfl, by simp⟩

include closed

theorem explore_settled (mem : root ∈ nodes) (inv : Settled next nodes roots s) :
    Settled next nodes (roots ++ [root]) (explore next nodes s root) := by
  unfold explore
  split
  · rename_i nothing
    refine ⟨inv.coloured, fun clear => ?_⟩
    have finished := nothing.resolve_left (by simp [clear])
    obtain ⟨empty, all⟩ := inv.rested clear
    exact ⟨empty, fun x listed => (mem_append.mp listed).elim (all x) fun last => by
      rwa [mem_singleton.mp last]⟩
  · rename_i fresh
    rw [not_or, Bool.not_eq_true] at fresh
    obtain ⟨empty, all⟩ := inv.rested fresh.1
    have active := inv.coloured.active
    rw [empty] at active
    have begun : Coloured next nodes { s with stack := [(root, false)] } := by
      constructor
      · simpa using mem
      · rw [frames_enter]
        exact active
      · exact inv.coloured.nodup
      · exact ⟨fun below top => (by cases top), trivial⟩
      · exact inv.coloured.first
      · exact fun _ => ⟨fun leaving => (by cases leaving), trivial⟩
      · exact inv.coloured.cycle
    have bound : pending next nodes { s with stack := [(root, false)] } ≤ 1 + entries next nodes := by
      exact Nat.add_le_add_left
        (((filter_sublist (l := nodes)).map fun x => (x :: next x).length).sum_le_sum (by simp)) 1
    have coloured := run_invariant (fun _ _ => turn_coloured closed) (1 + entries next nodes) begun
    have ends := run_finished (Coloured next nodes) (pending next nodes)
      (fun _ _ => turn_coloured closed) (fun _ _ => turn_pending) (1 + entries next nodes) begun bound
    have keeps := fun x (held : x ∈ s.done ∨ x = root) =>
      run_keeps next { s with stack := [(root, false)] } x
        (held.imp_right fun same => ⟨false, by simp [same]⟩) (1 + entries next nodes)
    revert coloured ends keeps
    generalize run (turn next) _ _ = final
    intro coloured ends keeps
    refine ⟨coloured, fun clear => ?_⟩
    have stack : final.stack = [] := (turn_none ends).resolve_left (by simp [clear])
    refine ⟨stack, fun x listed => ?_⟩
    have held : x ∈ s.done ∨ x = root := (mem_append.mp listed).imp (all x) mem_singleton.mp
    exact (keeps x held clear).resolve_right (by simp [stack])

theorem hasCycle_iff : hasCycle next nodes = true ↔ ∃ x ∈ nodes, Relation.TransGen (Cites next) x x := by
  have settled : ∀ roots after, nodes = roots ++ after →
      Settled next nodes roots (roots.foldl (explore next nodes) ⟨[], [], [], false⟩) := by
    intro roots
    induction roots using reverseRecOn with
    | nil => exact fun _ _ => settled_empty next nodes
    | append_singleton roots root ih =>
      intro after split
      have mem : root ∈ nodes := by simp [split]
      rw [foldl_append]
      exact explore_settled closed mem (ih (root :: after) (by simpa using split))
  obtain ⟨coloured, rested⟩ := settled nodes [] (append_nil nodes).symm
  refine ⟨coloured.cycle, ?_⟩
  rintro ⟨x, mem, path⟩
  by_contra none
  obtain ⟨_, all⟩ := rested (Bool.eq_false_iff.mpr none)
  exact coloured.first.acyclic (nodup_append.mp coloured.nodup).2.1 (all x mem) path

end DepthFirst
