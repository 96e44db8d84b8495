import Mathlib.Data.Finset.Card
import Mathlib.Algebra.BigOperators.Group.Finset.Basic
import Rezzy.Lib.Permuted
import Rezzy.Lib.Worklist

namespace Colouring

open Permuted Worklist List Function

variable {α : Type} [DecidableEq α]

structure Walk (α : Type) where
  queue : List α
  mask : α → Finset Nat
  log : List (α × Finset Nat)
  halted : Bool

def paint (colours : Finset Nat) (s : Walk α) (node : α) : Walk α :=
  if colours ⊆ s.mask node then s
  else { s with
    queue := s.queue ++ [node]
    mask := Function.update s.mask node (s.mask node ∪ colours) }

def start (seeds : List (α × Nat)) : Walk α :=
  seeds.foldl (fun s seed => paint {seed.2} s seed.1) ⟨[], fun _ => ∅, [], false⟩

def turn (first : α → α → Bool) (stop : Finset Nat → Bool) (next : α → List α) (s : Walk α) : Option (Walk α) :=
  if s.halted then none
  else
    match popFirst first s.queue with
    | none => none
    | some (x, rest) =>
      let popped : Walk α := ⟨rest, s.mask, s.log ++ [(x, s.mask x)], stop (s.mask x)⟩
      some (if stop (s.mask x) then popped else (next x).foldl (paint (s.mask x)) popped)

def Hits (seeds : List (α × Nat)) (next : α → List α) (colour : Nat) (node : α) : Prop :=
  ∃ root, (root, colour) ∈ seeds ∧ Relation.ReflTransGen (Edge next) root node

omit [DecidableEq α] in
theorem Hits.step {seeds : List (α × Nat)} {next : α → List α} {colour : Nat} {node other : α}
    (hits : Hits seeds next colour node) (edge : other ∈ next node) : Hits seeds next colour other := by
  obtain ⟨root, mem, path⟩ := hits
  exact ⟨root, mem, path.tail edge⟩

section

variable (colours : Finset Nat)

theorem paint_mask (s : Walk α) (node other : α) :
    (paint colours s node).mask other = if other = node then s.mask other ∪ colours else s.mask other := by
  unfold paint
  by_cases known : colours ⊆ s.mask node
  · rw [if_pos known]
    split
    · rename_i same
      rw [same, Finset.union_eq_left.mpr known]
    · rfl
  · rw [if_neg known]
    by_cases same : other = node
    · subst same
      simp
    · simp [same]

theorem paint_queue (s : Walk α) (node : α) :
    (paint colours s node).queue = if colours ⊆ s.mask node then s.queue else s.queue ++ [node] := by
  unfold paint
  split <;> rfl

@[simp] theorem paint_log (s : Walk α) (node : α) : (paint colours s node).log = s.log := by
  unfold paint
  split <;> rfl

@[simp] theorem paint_halted (s : Walk α) (node : α) : (paint colours s node).halted = s.halted := by
  unfold paint
  split <;> rfl

variable (nodes : List α) (s : Walk α)

theorem paints_mask (other : α) :
    (nodes.foldl (paint colours) s).mask other = if other ∈ nodes then s.mask other ∪ colours else s.mask other := by
  induction nodes generalizing s with
  | nil => rfl
  | cons node nodes ih =>
    rw [foldl_cons, ih, paint_mask]
    by_cases same : other = node
    · simp [same]
    · simp [same]

theorem mem_paints_queue (other : α) : other ∈ (nodes.foldl (paint colours) s).queue ↔
      other ∈ s.queue ∨ other ∈ nodes ∧ ¬colours ⊆ s.mask other := by
  induction nodes generalizing s with
  | nil => simp
  | cons node nodes ih =>
    rw [foldl_cons, ih, paint_mask, paint_queue, mem_cons]
    by_cases same : other = node
    · subst same
      by_cases known : colours ⊆ s.mask other
      · simp [known]
      · simp [known]
    · by_cases known : colours ⊆ s.mask node
      · simp [known, same]
      · simp [known, same]

@[simp] theorem paints_log : (nodes.foldl (paint colours) s).log = s.log := by
  induction nodes generalizing s with
  | nil => rfl
  | cons node nodes ih => rw [foldl_cons, ih, paint_log]

@[simp] theorem paints_halted : (nodes.foldl (paint colours) s).halted = s.halted := by
  induction nodes generalizing s with
  | nil => rfl
  | cons node nodes ih => rw [foldl_cons, ih, paint_halted]

end

variable {first : α → α → Bool} {stop : Finset Nat → Bool} {next : α → List α} {seeds : List (α × Nat)}

theorem turn_cases (step : turn first stop next s = some t) :
    s.halted = false ∧ ∃ x rest, popFirst first s.queue = some (x, rest) ∧
      t.log = s.log ++ [(x, s.mask x)] ∧ t.halted = stop (s.mask x) ∧
      ((stop (s.mask x) = true ∧ t.queue = rest ∧ t.mask = s.mask) ∨ (stop (s.mask x) = false ∧
          t = (next x).foldl (paint (s.mask x)) ⟨rest, s.mask, s.log ++ [(x, s.mask x)], false⟩)) := by
  unfold turn at step
  cases running : s.halted with
  | true => simp [running] at step
  | false =>
    rw [running, if_neg Bool.false_ne_true] at step
    cases popped : popFirst first s.queue with
    | none => simp [popped] at step
    | some pair =>
      obtain ⟨x, rest⟩ := pair
      rw [popped] at step
      dsimp only at step
      refine ⟨rfl, x, rest, rfl, ?_⟩
      cases ends : stop (s.mask x) with
      | true =>
        rw [ends, if_pos rfl] at step
        obtain rfl := Option.some.inj step
        exact ⟨rfl, rfl, .inl ⟨rfl, rfl, rfl⟩⟩
      | false =>
        rw [ends, if_neg Bool.false_ne_true] at step
        obtain rfl := Option.some.inj step
        exact ⟨by simp, by simp, .inr ⟨rfl, rfl⟩⟩

theorem turn_none (stopped : turn first stop next s = none) : s.halted = true ∨ s.queue = [] := by
  unfold turn at stopped
  split at stopped
  · rename_i halted
    exact .inl halted
  · cases popped : popFirst first s.queue with
    | none => exact .inr (popFirst_none.mp popped)
    | some pair => simp [popped] at stopped

structure Spreading (stop : Finset Nat → Bool) (next : α → List α) (seeds : List (α × Nat)) (s : Walk α) : Prop where
  sound : ∀ n, ∀ i ∈ s.mask n, Hits seeds next i n
  logged : ∀ entry ∈ s.log, entry.2 ⊆ s.mask entry.1 ∧ entry.2.Nonempty
  seeded : ∀ seed ∈ seeds, seed.2 ∈ s.mask seed.1
  queued : ∀ n ∈ s.queue, (s.mask n).Nonempty
  passed : s.halted = true ∨ ∀ n, (s.mask n).Nonempty → n ∈ s.queue ∨
    stop (s.mask n) = false ∧ (n, s.mask n) ∈ s.log ∧ ∀ p ∈ next n, s.mask n ⊆ s.mask p

theorem start_facts (seeds : List (α × Nat)) : (start seeds).log = [] ∧ (start seeds).halted = false ∧
      (∀ n i, i ∈ (start seeds).mask n ↔ (n, i) ∈ seeds) ∧
      ∀ n, n ∈ (start seeds).queue ↔ ((start seeds).mask n).Nonempty := by
  induction seeds using List.reverseRecOn with
  | nil => simp [start]
  | append_singleton seeds last ih =>
    obtain ⟨log, halted, masks, queue⟩ := ih
    have unfolded : start (seeds ++ [last]) = paint {last.2} (start seeds) last.1 := by
      simp [start, foldl_append]
    rw [unfolded]
    refine ⟨by simp [log], by simp [halted], fun n i => ?_, fun n => ?_⟩
    · rw [paint_mask, mem_append, mem_singleton]
      obtain ⟨node, colour⟩ := last
      by_cases same : n = node
      · simp [same, masks, or_comm]
      · simp [same, masks]
    · rw [paint_mask, paint_queue]
      obtain ⟨node, colour⟩ := last
      by_cases known : {colour} ⊆ (start seeds).mask node
      · rw [if_pos known, queue]
        split
        · rename_i same
          rw [same, Finset.union_eq_left.mpr known]
        · rfl
      · rw [if_neg known, mem_append, queue, mem_singleton]
        by_cases same : n = node
        · simp [same]
        · simp [same]

theorem start_spreading (seeds : List (α × Nat)) : Spreading stop next seeds (start seeds) := by
  obtain ⟨log, _, masks, queue⟩ := start_facts seeds
  refine ⟨fun n i mem => ⟨n, (masks n i).mp mem, .refl⟩, by simp [log], fun seed mem => (masks _ _).mpr mem,
    fun n mem => (queue n).mp mem, .inr fun n coloured => .inl ((queue n).mpr coloured)⟩

theorem turn_spreading (inv : Spreading stop next seeds s) (step : turn first stop next s = some t) :
    Spreading stop next seeds t := by
  obtain ⟨running, x, rest, popped, log, halted, cases⟩ := turn_cases step
  have perm := popFirst_perm popped
  have coloured := inv.queued x (perm.mem_iff.mpr (by simp))
  have passed := inv.passed.resolve_left (by simp [running])
  rcases cases with ⟨ends, queue, mask⟩ | ⟨goes, rfl⟩
  · refine ⟨mask ▸ inv.sound, fun entry mem => ?_, mask ▸ inv.seeded, fun n mem => ?_, .inl (halted.trans ends)⟩
    · rw [mask]
      rw [log] at mem
      rcases mem_append.mp mem with old | new
      · exact inv.logged entry old
      · rw [mem_singleton.mp new]
        exact ⟨Finset.Subset.refl _, coloured⟩
    · rw [mask]
      exact inv.queued n (perm.mem_iff.mpr (mem_cons_of_mem _ (queue ▸ mem)))
  · have grows : ∀ n, s.mask n ⊆ ((next x).foldl (paint (s.mask x))
        ⟨rest, s.mask, s.log ++ [(x, s.mask x)], false⟩).mask n := by
      intro n
      rw [paints_mask]
      split
      · exact Finset.subset_union_left
      · exact Finset.Subset.refl _
    refine ⟨fun n i mem => ?_, fun entry mem => ?_, fun seed mem => grows _ (inv.seeded seed mem),
      fun n mem => ?_, .inr fun n painted => ?_⟩
    · rw [paints_mask] at mem
      split at mem
      · rename_i edge
        rcases Finset.mem_union.mp mem with old | new
        · exact inv.sound n i old
        · exact (inv.sound x i new).step edge
      · exact inv.sound n i mem
    · rw [log] at mem
      rcases mem_append.mp mem with old | new
      · exact ⟨(inv.logged entry old).1.trans (grows _), (inv.logged entry old).2⟩
      · rw [mem_singleton.mp new]
        exact ⟨grows x, coloured⟩
    · rw [mem_paints_queue] at mem
      rcases mem with old | ⟨edge, _⟩
      · exact (inv.queued n (perm.mem_iff.mpr (mem_cons_of_mem _ old))).mono (grows n)
      · rw [paints_mask, if_pos edge]
        exact coloured.mono Finset.subset_union_right
    · rw [mem_paints_queue]
      by_cases fresh : n ∈ next x ∧ ¬s.mask x ⊆ s.mask n
      · exact .inl (.inr fresh)
      · have same : ((next x).foldl (paint (s.mask x))
            ⟨rest, s.mask, s.log ++ [(x, s.mask x)], false⟩).mask n = s.mask n := by
          rw [paints_mask]
          split
          · rename_i edge
            exact Finset.union_eq_left.mpr (not_not.mp fun missing => fresh ⟨edge, missing⟩)
          · rfl
        rw [same] at painted ⊢
        have onward : ∀ p ∈ next n, s.mask n ⊆ s.mask p ∨ n = x → s.mask n ⊆ ((next x).foldl (paint (s.mask x))
            ⟨rest, s.mask, s.log ++ [(x, s.mask x)], false⟩).mask p := by
          intro p edge either
          rcases either with before | rfl
          · exact before.trans (grows p)
          · rw [paints_mask, if_pos edge]
            exact Finset.subset_union_right
        by_cases taken : n = x
        · subst taken
          refine .inr ⟨goes, by simp, fun p edge => onward p edge (.inr rfl)⟩
        · rcases passed n painted with waits | ⟨open_, mem, closed⟩
          · exact .inl (.inl ((mem_cons.mp (perm.mem_iff.mp waits)).resolve_left taken))
          · exact .inr ⟨open_, by simp [mem], fun p edge => onward p edge (.inl (closed p edge))⟩

omit [DecidableEq α] in
theorem Spreading.ahead (inv : Spreading stop next seeds s) (running : s.halted = false) (hits : Hits seeds next i n) :
    i ∈ s.mask n ∨ ∃ x ∈ s.queue, Relation.TransGen (Edge next) x n := by
  obtain ⟨root, mem, path⟩ := hits
  induction path with
  | refl => exact .inl (inv.seeded _ mem)
  | @tail y n _ edge ih =>
    rcases ih with arrived | ⟨x, waits, ahead⟩
    · rcases inv.passed.resolve_left (by simp [running]) y ⟨i, arrived⟩ with waits | ⟨_, _, closed⟩
      · exact .inr ⟨y, waits, .single edge⟩
      · exact .inl (closed n edge arrived)
    · exact .inr ⟨x, waits, ahead.tail edge⟩

omit [DecidableEq α] in
theorem Spreading.exhausted (inv : Spreading stop next seeds s) (running : s.halted = false) (empty : s.queue = []) :
    (∀ i n, i ∈ s.mask n ↔ Hits seeds next i n) ∧
      ∀ n, (s.mask n).Nonempty → stop (s.mask n) = false ∧ (n, s.mask n) ∈ s.log := by
  refine ⟨fun i n => ⟨inv.sound n i, fun hits => ?_⟩, fun n coloured => ?_⟩
  · rcases inv.ahead running hits with arrived | ⟨x, waits, _⟩
    · exact arrived
    · simp [empty] at waits
  · rcases inv.passed.resolve_left (by simp [running]) n coloured with waits | ⟨open_, mem, _⟩
    · simp [empty] at waits
    · exact ⟨open_, mem⟩

structure Ending (stop : Finset Nat → Bool) (s : Walk α) : Prop where
  running : s.halted = false → ∀ entry ∈ s.log, stop entry.2 = false
  ended : s.halted = true → ∃ init g, s.log = init ++ [(g, s.mask g)] ∧ stop (s.mask g) = true ∧
    ∀ entry ∈ init, stop entry.2 = false

theorem start_ending (seeds : List (α × Nat)) : Ending stop (start seeds) := by
  obtain ⟨log, running, _, _⟩ := start_facts seeds
  exact ⟨by simp [log], by simp [running]⟩

theorem turn_ending (inv : Ending stop s) (step : turn first stop next s = some t) : Ending stop t := by
  obtain ⟨running, x, rest, _, log, halted, cases⟩ := turn_cases step
  have before := inv.running running
  rcases cases with ⟨ends, _, mask⟩ | ⟨goes, _⟩
  · refine ⟨fun still => ?_, fun _ => ⟨s.log, x, by rw [log, mask], by rw [mask, ends], before⟩⟩
    rw [halted, ends] at still
    cases still
  · refine ⟨fun _ entry mem => ?_, fun ended => ?_⟩
    · rw [log] at mem
      rcases mem_append.mp mem with old | new
      · exact before entry old
      · rw [mem_singleton.mp new]
        exact goes
    · rw [halted, goes] at ended
      cases ended

section

structure Downhill (first : α → α → Bool) (next : α → List α) : Prop where
  decides : ∀ l, Decides first l
  descends : ∀ n, ∀ p ∈ next n, first n p = true

section

omit [DecidableEq α]

theorem Downhill.trans (downhill : Downhill first next) {x y z : α} (before : first x y = true)
    (after : first y z = true) : first x z = true :=
  (downhill.decides [x, y, z]).trans x (by simp) y (by simp) z (by simp) before after

theorem Downhill.asymm (downhill : Downhill first next) (before : first x y = true) : first y x = false :=
  (downhill.decides [x, y]).asymm x (by simp) y (by simp) before

theorem Downhill.total (downhill : Downhill first next) (x y : α) : x = y ∨ first x y = true ∨ first y x = true := by
  by_cases same : x = y
  · exact .inl same
  · exact .inr ((downhill.decides [x, y]).total x (by simp) y (by simp) same)

theorem Downhill.path (downhill : Downhill first next) (path : Relation.TransGen (Edge next) x n) :
    first x n = true := by
  induction path with
  | single edge => exact downhill.descends _ _ edge
  | tail _ edge ih => exact downhill.trans ih (downhill.descends _ _ edge)

theorem Downhill.popped (downhill : Downhill first next) (popped : popFirst first l = some (x, rest)) (waits : y ∈ l) :
    y = x ∨ first x y = true := by
  rcases mem_cons.mp ((popFirst_perm popped).mem_iff.mp waits) with same | later
  · exact .inl same
  · have least := popFirst_least (downhill.decides l) popped y later
    rcases downhill.total y x with same | before | after
    · exact .inl same
    · rw [least] at before
      cases before
    · exact .inr after

end

structure Ordered (first : α → α → Bool) (next : α → List α) (seeds : List (α × Nat)) (s : Walk α) : Prop where
  final : ∀ entry ∈ s.log, ∀ i, Hits seeds next i entry.1 → i ∈ entry.2
  sorted : s.log.Pairwise fun a b => a.1 = b.1 ∨ first a.1 b.1 = true
  below : ∀ entry ∈ s.log, ∀ q ∈ s.queue, entry.1 = q ∨ first entry.1 q = true
  covered : s.halted = true → ∀ last ∈ s.log.getLast?, ∀ i n, Hits seeds next i n →
    (∃ colours, (n, colours) ∈ s.log) ∨ first last.1 n = true

theorem start_ordered (seeds : List (α × Nat)) : Ordered first next seeds (start seeds) := by
  obtain ⟨log, running, _, _⟩ := start_facts seeds
  exact ⟨by simp [log], by simp [log], by simp [log], by simp [running]⟩

theorem turn_ordered (downhill : Downhill first next) (spreading : Spreading stop next seeds s)
    (inv : Ordered first next seeds s) (step : turn first stop next s = some t) : Ordered first next seeds t := by
  obtain ⟨running, x, rest, popped, log, halted, cases⟩ := turn_cases step
  have perm := popFirst_perm popped
  have taken : x ∈ s.queue := perm.mem_iff.mpr (by simp)
  have complete : ∀ i, Hits seeds next i x → i ∈ s.mask x := by
    intro i hits
    rcases spreading.ahead running hits with arrived | ⟨y, waits, path⟩
    · exact arrived
    · have before := downhill.path path
      rcases downhill.popped popped waits with rfl | after
      · have never := downhill.asymm before
        rw [before] at never
        cases never
      · rw [downhill.asymm after] at before
        cases before
  refine ⟨fun entry mem => ?_, ?_, ?_, fun ended last ending i n hits => ?_⟩
  · rw [log] at mem
    rcases mem_append.mp mem with old | new
    · exact inv.final entry old
    · rw [mem_singleton.mp new]
      exact complete
  · rw [log, pairwise_append]
    refine ⟨inv.sorted, by simp, fun a old b new => ?_⟩
    rw [mem_singleton.mp new]
    exact inv.below a old x taken
  · have later : ∀ q ∈ t.queue, q = x ∨ first x q = true := by
      intro q waits
      rcases cases with ⟨_, queue, _⟩ | ⟨_, rfl⟩
      · exact downhill.popped popped (perm.mem_iff.mpr (mem_cons_of_mem _ (queue ▸ waits)))
      · rcases (mem_paints_queue _ _ _ q).mp waits with old | ⟨edge, _⟩
        · exact downhill.popped popped (perm.mem_iff.mpr (mem_cons_of_mem _ old))
        · exact .inr (downhill.descends x q edge)
    intro entry mem q waits
    rw [log] at mem
    rcases mem_append.mp mem with old | new
    · rcases later q waits with rfl | after
      · exact inv.below entry old q taken
      · rcases inv.below entry old x taken with same | before
        · exact .inr (same ▸ after)
        · exact .inr (downhill.trans before after)
    · rw [mem_singleton.mp new]
      exact (later q waits).imp Eq.symm id
  · rw [log, getLast?_append, getLast?_singleton, Option.some_or] at ending
    obtain rfl := Option.some.inj ending
    rw [log]
    have waiting : ∀ {y}, y ∈ s.queue → (∃ colours, (y, colours) ∈ s.log ++ [(x, s.mask x)]) ∨ first x y = true := by
      intro y waits
      rcases downhill.popped popped waits with rfl | after
      · exact .inl ⟨_, mem_append_right _ (mem_singleton_self _)⟩
      · exact .inr after
    rcases spreading.ahead running hits with arrived | ⟨y, waits, path⟩
    · rcases spreading.passed.resolve_left (by simp [running]) n ⟨i, arrived⟩ with waits | ⟨_, mem, _⟩
      · exact waiting waits
      · exact .inl ⟨_, mem_append_left _ mem⟩
    · have before := downhill.path path
      rcases downhill.popped popped waits with rfl | after
      · exact .inr before
      · exact .inr (downhill.trans after before)

theorem run_ordered (downhill : Downhill first next) (stop : Finset Nat → Bool) (seeds : List (α × Nat)) (n : Nat) :
    Ordered first next seeds (Loop.run (turn first stop next) n (start seeds)) := by
  have keeps : ∀ s t, Spreading stop next seeds s ∧ Ordered first next seeds s → turn first stop next s = some t →
      Spreading stop next seeds t ∧ Ordered first next seeds t :=
    fun s t both step => ⟨turn_spreading both.1 step, turn_ordered downhill both.1 both.2 step⟩
  exact (Loop.run_invariant keeps n ⟨start_spreading seeds, start_ordered seeds⟩).2

end

variable {nodes : List α} {k : Nat}

def unpainted (nodes : List α) (k : Nat) (s : Walk α) : Nat :=
  s.queue.length + (nodes.map fun n => k - (s.mask n).card).sum

theorem paint_unpainted (within : colours ⊆ Finset.range k) (own : s.mask node ⊆ Finset.range k)
    (mem : node ∈ nodes) : unpainted nodes k (paint colours s node) ≤ unpainted nodes k s := by
  unfold paint
  split
  · exact Nat.le_refl _
  · rename_i fresh
    have bound : (s.mask node ∪ colours).card ≤ k := by
      have card := Finset.card_le_card (Finset.union_subset own within)
      rwa [Finset.card_range] at card
    have more : (s.mask node).card < (s.mask node ∪ colours).card := by
      refine Finset.card_lt_card (Finset.ssubset_iff_subset_ne.mpr ⟨Finset.subset_union_left, fun same => fresh ?_⟩)
      rw [same]
      exact Finset.subset_union_right
    have fewer := sum_lt_sum (l := nodes)
      (fun n => k - (update s.mask node (s.mask node ∪ colours) n).card) (fun n => k - (s.mask n).card)
      (fun n _ => by
        by_cases same : n = node
        · subst same
          rw [update_self]
          omega
        · rw [update_of_ne same])
      ⟨node, mem, by rw [update_self]; omega⟩
    simp only [unpainted, length_append, length_singleton]
    omega

theorem paints_unpainted (within : colours ⊆ Finset.range k) (more : List α) (inside : ∀ n ∈ more, n ∈ nodes)
    (own : ∀ n, s.mask n ⊆ Finset.range k) :
    unpainted nodes k (more.foldl (paint colours) s) ≤ unpainted nodes k s := by
  induction more generalizing s with
  | nil => exact Nat.le_refl _
  | cons node more ih =>
    refine Nat.le_trans (ih (fun n mem => inside n (mem_cons_of_mem _ mem)) fun n => ?_)
      (paint_unpainted within (own node) (inside node (by simp)))
    rw [paint_mask]
    split
    · exact Finset.union_subset (own n) within
    · exact own n

omit [DecidableEq α] in
theorem Spreading.colours (inv : Spreading stop next seeds s) (within : ∀ seed ∈ seeds, seed.2 < k) (n : α) :
    s.mask n ⊆ Finset.range k := by
  intro i mem
  obtain ⟨root, seed, _⟩ := inv.sound n i mem
  exact Finset.mem_range.mpr (within _ seed)

theorem turn_unpainted (edges : ∀ x, ∀ p ∈ next x, p ∈ nodes) (within : ∀ seed ∈ seeds, seed.2 < k)
    (inv : Spreading stop next seeds s) (step : turn first stop next s = some t) :
    unpainted nodes k t < unpainted nodes k s := by
  obtain ⟨_, x, rest, popped, _, _, cases⟩ := turn_cases step
  have length := (popFirst_perm popped).length_eq
  rw [length_cons] at length
  rcases cases with ⟨_, queue, mask⟩ | ⟨_, rfl⟩
  · simp only [unpainted, queue, mask]
    omega
  · have spread := paints_unpainted (inv.colours within x) (next x) (edges x)
      (s := ⟨rest, s.mask, s.log ++ [(x, s.mask x)], false⟩) (inv.colours within)
    simp only [unpainted] at spread ⊢
    omega

theorem start_unpainted (nodes : List α) (seeds : List (α × Nat)) (k : Nat) :
    unpainted nodes k (start seeds) ≤ seeds.length + nodes.length * k := by
  have queue : (start seeds).queue.length ≤ seeds.length := by
    induction seeds using reverseRecOn with
    | nil => simp [start]
    | append_singleton seeds last ih =>
      have unfolded : start (seeds ++ [last]) = paint {last.2} (start seeds) last.1 := by
        simp [start, foldl_append]
      rw [unfolded, paint_queue, length_append, length_singleton]
      split
      · omega
      · rw [length_append, length_singleton]
        omega
  have sum := sum_le_card_nsmul (nodes.map fun n => k - ((start seeds).mask n).card) k (by
    intro _ mem
    obtain ⟨n, _, rfl⟩ := mem_map.mp mem
    exact Nat.sub_le _ _)
  rw [length_map, smul_eq_mul] at sum
  exact Nat.add_le_add queue sum

theorem run_ends (edges : ∀ x, ∀ p ∈ next x, p ∈ nodes) (within : ∀ seed ∈ seeds, seed.2 < k)
    (allowance : seeds.length + nodes.length * k ≤ n) :
    turn first stop next (Loop.run (turn first stop next) n (start seeds)) = none :=
  Loop.run_finished (Spreading stop next seeds) (unpainted nodes k) (fun _ _ inv step => turn_spreading inv step)
    (fun _ _ inv step => turn_unpainted edges within inv step) n (start_spreading seeds)
    (Nat.le_trans (start_unpainted nodes seeds k) allowance)

end Colouring
