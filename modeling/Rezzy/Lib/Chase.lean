import Mathlib.Data.List.Chain
import Mathlib.Data.List.Nodup
import Mathlib.Logic.Function.Basic
import Rezzy.Lib.Worklist

namespace Chase

open List Function
open Function (update)

variable {α : Type}

inductive Mark where
  | inProgress
  | done (position : Nat)
deriving DecidableEq

inductive Lands (link : α → Option α) (landmark : α → Option Nat) : α → Nat → Prop
  | here {x : α} {p : Nat} : landmark x = some p → Lands link landmark x p
  | next {x y : α} {p : Nat} : landmark x = none → link x = some y → Lands link landmark y p →
      Lands link landmark x p

def Settled (link : α → Option α) (landmark : α → Option Nat) (dead : Nat) (x : α) (p : Nat) : Prop :=
  Lands link landmark x p ∨ p = dead ∧ ∀ q, ¬Lands link landmark x q

theorem Lands.unique (left : Lands link landmark x p) (right : Lands link landmark x q) : p = q := by
  induction left with
  | here found =>
    cases right with
    | here other => exact Option.some.inj (found.symm.trans other)
    | next missing => simp [found] at missing
  | next missing step _ ih =>
    cases right with
    | here other => simp [missing] at other
    | next _ step' rest =>
      obtain rfl := Option.some.inj (step.symm.trans step')
      exact ih rest

theorem Settled.unique (left : Settled link landmark dead x p) (right : Settled link landmark dead x q) : p = q := by
  rcases left with lands | ⟨rfl, never⟩ <;> rcases right with lands' | ⟨rfl, never'⟩
  · exact lands.unique lands'
  · exact absurd lands (never' p)
  · exact absurd lands' (never q)
  · rfl

theorem Settled.step {link : α → Option α} {landmark : α → Option Nat} {dead p : Nat} {x y : α}
    (plain : landmark x = none) (edge : link x = some y) (settled : Settled link landmark dead y p) :
    Settled link landmark dead x p := by
  rcases settled with lands | ⟨rfl, never⟩
  · exact .inl (.next plain edge lands)
  · refine .inr ⟨rfl, fun q lands => ?_⟩
    cases lands with
    | here found => simp [plain] at found
    | next _ edge' rest =>
      obtain rfl := Option.some.inj (edge.symm.trans edge')
      exact never q rest

theorem Settled.congr {inside : α → Prop} (links : ∀ x, inside x → left x = right x)
    (closed : ∀ x y, inside x → left x = some y → inside y) (mem : inside x)
    (settled : Settled left landmark dead x p) : Settled right landmark dead x p := by
  have forward : ∀ {x q}, inside x → Lands left landmark x q → Lands right landmark x q := by
    intro x q mem lands
    induction lands with
    | here found => exact .here found
    | next plain edge _ ih => exact .next plain (links _ mem ▸ edge) (ih (closed _ _ mem edge))
  have backward : ∀ {x q}, inside x → Lands right landmark x q → Lands left landmark x q := by
    intro x q mem lands
    induction lands with
    | here found => exact .here found
    | next plain edge _ ih =>
      have edge := (links _ mem).trans edge
      exact .next plain edge (ih (closed _ _ mem edge))
  rcases settled with lands | ⟨rfl, never⟩
  · exact .inl (forward mem lands)
  · exact .inr ⟨rfl, fun q lands => never q (backward mem lands)⟩

structure Search (α : Type) where
  memo : α → Option Mark
  stack : List α

structure SearchInv (link : α → Option α) (landmark : α → Option Nat) (dead : Nat) (nodes : List α)
    (s : Search α) : Prop where
  landmarks : ∀ x p, landmark x = some p → s.memo x = some (.done p)
  right : ∀ x p, s.memo x = some (.done p) → Settled link landmark dead x p
  busy : ∀ x, s.memo x = some .inProgress → x ∈ s.stack
  chain : s.stack.IsChain fun upper lower => link lower = some upper
  underway : ∀ x ∈ s.stack.tail, s.memo x = some .inProgress
  nodup : s.stack.Nodup
  ready : ∀ top ∈ s.stack.head?, s.memo top = some .inProgress →
    ∃ y p, link top = some y ∧ s.memo y = some (.done p)
  inside : ∀ x ∈ s.stack, x ∈ nodes

section

variable {link : α → Option α} {landmark : α → Option Nat} {dead : Nat} {nodes : List α}

theorem SearchInv.plain {s : Search α} (inv : SearchInv link landmark dead nodes s) {x : α}
    (unknown : ∀ p, s.memo x ≠ some (.done p)) : landmark x = none := by
  cases found : landmark x with
  | none => rfl
  | some p => exact absurd (inv.landmarks x p found) (unknown p)

theorem SearchInv.pop (inv : SearchInv link landmark dead nodes ⟨memo, top :: rest⟩)
    (known : memo top = some (.done p)) : SearchInv link landmark dead nodes ⟨memo, rest⟩ where
  landmarks := inv.landmarks
  right := inv.right
  busy x marked := by
    rcases mem_cons.mp (inv.busy x marked) with rfl | member
    · simp [known] at marked
    · exact member
  chain := inv.chain.tail
  underway x member := inv.underway x (mem_of_mem_tail member)
  nodup := (nodup_cons.mp inv.nodup).2
  ready next head _ := ⟨top, p, inv.chain.rel_head? head, known⟩
  inside x member := inv.inside x (mem_cons_of_mem _ member)

theorem chain_link (chain : (top :: rest).IsChain fun upper lower => link lower = some upper) :
    ∀ x ∈ rest, ∃ y ∈ top :: rest, link x = some y := by
  induction rest generalizing top with
  | nil => simp
  | cons next rest ih =>
    obtain ⟨edge, below⟩ := isChain_cons_cons.mp chain
    intro x mem
    rcases mem_cons.mp mem with rfl | mem
    · exact ⟨top, by simp, edge⟩
    · obtain ⟨y, inside, edge⟩ := ih below x mem
      exact ⟨y, mem_cons_of_mem _ inside, edge⟩

section

variable {memo : α → Option Mark} {top y : α} {rest : List α}
  (inv : SearchInv link landmark dead nodes ⟨memo, top :: rest⟩) (unknown : ∀ p, memo top ≠ some (.done p))
  (edge : link top = some y)
include inv unknown edge

theorem SearchInv.circular (back : y ∈ top :: rest) : Settled link landmark dead top dead := by
  have plain : ∀ x ∈ top :: rest, landmark x = none := by
    intro x mem
    apply inv.plain
    rcases mem_cons.mp mem with rfl | mem
    · exact unknown
    · intro _ known
      rw [inv.underway x mem] at known
      simp at known
  have closed : ∀ x ∈ top :: rest, ∃ z ∈ top :: rest, link x = some z := by
    intro x mem
    rcases mem_cons.mp mem with rfl | mem
    · exact ⟨y, back, edge⟩
    · exact chain_link inv.chain x mem
  have never : ∀ x q, Lands link landmark x q → x ∉ top :: rest := by
    intro x q lands
    induction lands with
    | here found =>
      intro mem
      rw [plain _ mem] at found
      simp at found
    | next _ step _ ih =>
      intro mem
      obtain ⟨z, inside, step'⟩ := closed _ mem
      obtain rfl := Option.some.inj (step.symm.trans step')
      exact ih inside
  exact .inr ⟨rfl, fun q lands => never top q lands (by simp)⟩

theorem SearchInv.unmarked (fresh : memo y = none) : memo top = none := by
  cases marked : memo top with
  | none => rfl
  | some mark =>
    cases mark with
    | done p => exact absurd marked (unknown p)
    | inProgress =>
      obtain ⟨z, p, edge', known⟩ := inv.ready top (by simp) marked
      obtain rfl := Option.some.inj (edge.symm.trans edge')
      simp [fresh] at known

end

structure TableInv (link : α → Option α) (landmark : α → Option Nat) (dead : Nat)
    (memo : α → Option Mark) : Prop where
  landmarks : ∀ x p, landmark x = some p → memo x = some (.done p)
  right : ∀ x p, memo x = some (.done p) → Settled link landmark dead x p
  idle : ∀ x, memo x ≠ some .inProgress

theorem tableInv_initial : TableInv link landmark dead fun x => (landmark x).map .done where
  landmarks x p found := by simp [found]
  right x p known := by
    obtain ⟨q, found, same⟩ := Option.map_eq_some_iff.mp known
    exact .inl (.here (Mark.done.inj same ▸ found))
  idle x := by cases landmark x <;> simp

end

variable [DecidableEq α]

/-- One look at the top of the stack: drop it when its position is known, push its link when that one is unknown, and
    else note its position. -/
def turn (link : α → Option α) (dead : Nat) (s : Search α) : Option (Search α) :=
  match s.stack with
  | [] => none
  | top :: rest =>
    match s.memo top with
    | some (.done _) => some ⟨s.memo, rest⟩
    | _ =>
      let memo := update s.memo top (some .inProgress)
      match link top with
      | none => some ⟨update memo top (some (.done dead)), rest⟩
      | some y =>
        match memo y with
        | some (.done p) => some ⟨update memo top (some (.done p)), rest⟩
        | some .inProgress => some ⟨update memo top (some (.done dead)), rest⟩
        | none => some ⟨memo, y :: top :: rest⟩

/-- Look until the stack is empty. `nodes` has to list the start and every link: it bounds the number of
    turns. -/
def settle (link : α → Option α) (dead : Nat) (nodes : List α) (memo : α → Option Mark) (x : α) :
    α → Option Mark :=
  (Loop.run (turn link dead) (2 * nodes.length + 1) ⟨memo, [x]⟩).memo

def settleAll (link : α → Option α) (dead : Nat) (nodes : List α) (memo : α → Option Mark)
    (xs : List α) : α → Option Mark :=
  xs.foldl (settle link dead nodes) memo

theorem turn_cases {link : α → Option α} {dead : Nat} {s after : Search α} (step : turn link dead s = some after) :
    ∃ top rest, s.stack = top :: rest ∧ ((∃ p, s.memo top = some (.done p) ∧ after = ⟨s.memo, rest⟩) ∨
      ((∀ p, s.memo top ≠ some (.done p)) ∧ ((link top = none ∧ after = ⟨update s.memo top (some (.done dead)), rest⟩) ∨
        ∃ y, link top = some y ∧ ((∃ p, y ≠ top ∧ s.memo y = some (.done p) ∧
            after = ⟨update s.memo top (some (.done p)), rest⟩) ∨
          ((y = top ∨ s.memo y = some .inProgress) ∧ after = ⟨update s.memo top (some (.done dead)), rest⟩) ∨
          (y ≠ top ∧ s.memo y = none ∧ after = ⟨update s.memo top (some .inProgress), y :: top :: rest⟩))))) := by
  unfold turn at step
  cases hs : s.stack with
  | nil => simp [hs] at step
  | cons top rest =>
    refine ⟨top, rest, rfl, ?_⟩
    simp only [hs] at step
    split at step
    · rename_i p known
      exact .inl ⟨p, known, (Option.some.inj step).symm⟩
    · rename_i unknown
      refine .inr ⟨unknown, ?_⟩
      split at step
      · rename_i leaf
        exact .inl ⟨leaf, by simpa using (Option.some.inj step).symm⟩
      · rename_i y edge
        refine .inr ⟨y, edge, ?_⟩
        by_cases same : y = top
        · subst same
          simp only [update_self] at step
          exact .inr (.inl ⟨.inl rfl, by simpa using (Option.some.inj step).symm⟩)
        · simp only [update_of_ne same] at step
          split at step
          · rename_i p known
            exact .inl ⟨p, same, known, by simpa using (Option.some.inj step).symm⟩
          · rename_i busy
            exact .inr (.inl ⟨.inr busy, by simpa using (Option.some.inj step).symm⟩)
          · rename_i fresh
            exact .inr (.inr ⟨same, fresh, (Option.some.inj step).symm⟩)

variable {nodes : List α}

theorem SearchInv.note (inv : SearchInv link landmark dead nodes ⟨memo, top :: rest⟩)
    (unknown : ∀ p, memo top ≠ some (.done p)) (settled : Settled link landmark dead top p) :
    SearchInv link landmark dead nodes ⟨update memo top (some (.done p)), top :: rest⟩ := by
  have outside := (nodup_cons.mp inv.nodup).1
  refine ⟨?_, ?_, ?_, inv.chain, ?_, inv.nodup, ?_, inv.inside⟩ <;> dsimp only
  · intro x q found
    have differ : x ≠ top := by
      rintro rfl
      rw [inv.plain unknown] at found
      simp at found
    rw [update_of_ne differ]
    exact inv.landmarks x q found
  · intro x q marked
    by_cases same : x = top
    · subst same
      simp only [update_self, Option.some.injEq, Mark.done.injEq] at marked
      exact marked ▸ settled
    · rw [update_of_ne same] at marked
      exact inv.right x q marked
  · intro x marked
    by_cases same : x = top
    · simp [same]
    · rw [update_of_ne same] at marked
      exact inv.busy x marked
  · intro x mem
    have differ : x ≠ top := fun same => outside (same ▸ mem)
    rw [update_of_ne differ]
    exact inv.underway x mem
  · intro next head marked
    obtain rfl : top = next := by simpa using head
    simp at marked

theorem SearchInv.push (inv : SearchInv link landmark dead nodes ⟨memo, top :: rest⟩)
    (unknown : ∀ p, memo top ≠ some (.done p)) (edge : link top = some y) (fresh : memo y = none) (differ : y ≠ top)
    (inNodes : y ∈ nodes) :
    SearchInv link landmark dead nodes ⟨update memo top (some .inProgress), y :: top :: rest⟩ := by
  have outside : y ∉ rest := by
    intro mem
    have busy : memo y = some .inProgress := inv.underway y mem
    simp [fresh] at busy
  refine ⟨?_, ?_, ?_, ?_, ?_, ?_, ?_, ?_⟩ <;> dsimp only
  · intro x q found
    have other : x ≠ top := by
      rintro rfl
      rw [inv.plain unknown] at found
      simp at found
    rw [update_of_ne other]
    exact inv.landmarks x q found
  · intro x q marked
    by_cases same : x = top
    · simp [same] at marked
    · rw [update_of_ne same] at marked
      exact inv.right x q marked
  · intro x marked
    by_cases same : x = top
    · simp [same]
    · rw [update_of_ne same] at marked
      exact mem_cons_of_mem _ (inv.busy x marked)
  · exact isChain_cons_cons.mpr ⟨edge, inv.chain⟩
  · intro x mem
    by_cases same : x = top
    · simp [same]
    · rw [update_of_ne same]
      exact inv.underway x (by simpa [same] using mem)
  · exact nodup_cons.mpr ⟨by simp [differ, outside], inv.nodup⟩
  · intro next head marked
    obtain rfl : y = next := by simpa using head
    simp [update_of_ne differ, fresh] at marked
  · intro x mem
    rcases mem_cons.mp mem with rfl | mem
    · exact inNodes
    · exact inv.inside x mem

theorem turn_invariant (links : ∀ x y, link x = some y → y ∈ nodes) (s after : Search α)
    (inv : SearchInv link landmark dead nodes s) (step : turn link dead s = some after) :
    SearchInv link landmark dead nodes after := by
  obtain ⟨memo, stack⟩ := s
  obtain ⟨top, rest, hs, cases⟩ := turn_cases step
  obtain rfl : stack = top :: rest := hs
  rcases cases with ⟨p, known, rfl⟩ | ⟨unknown, ⟨leaf, rfl⟩ | ⟨y, edge, cases⟩⟩
  · exact inv.pop known
  · refine (inv.note unknown ?_).pop (update_self ..)
    refine .inr ⟨rfl, fun q lands => ?_⟩
    cases lands with
    | here found => simp [inv.plain unknown] at found
    | next _ edge => simp [leaf] at edge
  · rcases cases with ⟨p, _, known, rfl⟩ | ⟨back, rfl⟩ | ⟨differ, fresh, rfl⟩
    · exact (inv.note unknown (.step (inv.plain unknown) edge (inv.right y p known))).pop (update_self ..)
    · refine (inv.note unknown (inv.circular unknown edge ?_)).pop (update_self ..)
      rcases back with rfl | busy
      · simp
      · exact inv.busy y busy
    · exact inv.push unknown edge fresh differ (links top y edge)

def unsettled (nodes : List α) (s : Search α) : Nat :=
  2 * (nodes.filter fun x => s.memo x = none).length + s.stack.length

theorem unmarked_update_le (nodes : List α) (memo : α → Option Mark) (x : α) (mark : Mark) :
    (nodes.filter fun y => update memo x (some mark) y = none).length ≤
      (nodes.filter fun y => memo y = none).length := by
  apply List.Sublist.length_le
  apply monotone_filter_right
  intro y unmarked
  by_cases same : y = x
  · simp [same] at unmarked
  · simpa [update_of_ne same] using unmarked

theorem unmarked_update_lt (nodes : List α) (memo : α → Option Mark) (x : α) (mark : Mark)
    (mem : x ∈ nodes) (fresh : memo x = none) :
    (nodes.filter fun y => update memo x (some mark) y = none).length <
      (nodes.filter fun y => memo y = none).length := by
  induction nodes with
  | nil => simp at mem
  | cons z nodes ih =>
    have tail := unmarked_update_le nodes memo x mark
    by_cases same : z = x
    · subst same
      simp only [filter_cons, update_self, fresh, reduceCtorEq, decide_true, decide_false,
        Bool.false_eq_true, if_true, if_false, length_cons] at tail ⊢
      omega
    · have inner := ih (by simpa [Ne.symm same] using mem)
      simp only [filter_cons, update_of_ne same] at inner ⊢
      split
      · simpa using inner
      · exact inner

theorem turn_decreases (s after : Search α) (inv : SearchInv link landmark dead nodes s)
    (step : turn link dead s = some after) : unsettled nodes after < unsettled nodes s := by
  obtain ⟨memo, stack⟩ := s
  obtain ⟨top, rest, hs, cases⟩ := turn_cases step
  obtain rfl : stack = top :: rest := hs
  have shrinks := unmarked_update_le nodes memo top
  rcases cases with ⟨p, _, rfl⟩ | ⟨unknown, ⟨_, rfl⟩ | ⟨y, edge, ⟨p, _, _, rfl⟩ | ⟨_, rfl⟩ | ⟨_, fresh, rfl⟩⟩⟩
  · simp [unsettled]
  · have := shrinks (.done dead)
    simp only [unsettled, length_cons]
    omega
  · have := shrinks (.done p)
    simp only [unsettled, length_cons]
    omega
  · have := shrinks (.done dead)
    simp only [unsettled, length_cons]
    omega
  · have := unmarked_update_lt nodes memo top .inProgress (inv.inside top (by simp)) (inv.unmarked unknown edge fresh)
    simp only [unsettled, length_cons]
    omega

theorem turn_keeps_done (link : α → Option α) (dead : Nat) (x : α) (s after : Search α)
    (known : ∃ p, s.memo x = some (.done p)) (step : turn link dead s = some after) : ∃ p, after.memo x = some (.done p) := by
  obtain ⟨top, rest, -, cases⟩ := turn_cases step
  have noted : ∀ q, ∃ p, update s.memo top (some (.done q)) x = some (.done p) := by
    intro q
    by_cases same : x = top
    · exact ⟨q, by simp [same]⟩
    · rw [update_of_ne same]
      exact known
  rcases cases with ⟨_, _, rfl⟩ | ⟨unknown, ⟨_, rfl⟩ | ⟨y, _, ⟨p, _, _, rfl⟩ | ⟨_, rfl⟩ | ⟨_, _, rfl⟩⟩⟩
  · exact known
  · exact noted dead
  · exact noted p
  · exact noted dead
  · obtain ⟨p, known⟩ := known
    have differ : x ≠ top := fun same => unknown p (same ▸ known)
    exact ⟨p, (update_of_ne differ _ _).trans known⟩

theorem turn_keeps_start (link : α → Option α) (dead : Nat) (x : α) (s after : Search α)
    (waits : x ∈ s.stack ∨ ∃ p, s.memo x = some (.done p)) (step : turn link dead s = some after) :
    x ∈ after.stack ∨ ∃ p, after.memo x = some (.done p) := by
  rcases waits with mem | known
  · obtain ⟨top, rest, hs, cases⟩ := turn_cases step
    rw [hs] at mem
    rcases mem_cons.mp mem with rfl | mem
    · rcases cases with ⟨p, known, rfl⟩ | ⟨_, ⟨_, rfl⟩ | ⟨y, _, ⟨p, _, _, rfl⟩ | ⟨_, rfl⟩ | ⟨_, _, rfl⟩⟩⟩
      · exact .inr ⟨p, known⟩
      · exact .inr ⟨dead, by simp⟩
      · exact .inr ⟨p, by simp⟩
      · exact .inr ⟨dead, by simp⟩
      · exact .inl (by simp)
    · rcases cases with ⟨_, _, rfl⟩ | ⟨_, ⟨_, rfl⟩ | ⟨_, _, ⟨_, _, _, rfl⟩ | ⟨_, rfl⟩ | ⟨_, _, rfl⟩⟩⟩ <;> simp [mem]
  · exact .inr (turn_keeps_done link dead x s after known step)

theorem settle_spec (links : ∀ x y, link x = some y → y ∈ nodes) (inv : TableInv link landmark dead memo) (x : α)
    (inNodes : x ∈ nodes) : TableInv link landmark dead (settle link dead nodes memo x) ∧
      (∃ p, settle link dead nodes memo x x = some (.done p)) ∧
      ∀ y, (∃ p, memo y = some (.done p)) → ∃ p, settle link dead nodes memo x y = some (.done p) := by
  have initial : SearchInv link landmark dead nodes ⟨memo, [x]⟩ :=
    ⟨inv.landmarks, inv.right, fun y busy => absurd busy (inv.idle y), by simp, by simp, by simp,
      fun y _ busy => absurd busy (inv.idle y), by simpa using inNodes⟩
  have final := Loop.run_invariant (turn_invariant links) (2 * nodes.length + 1) initial
  have started := Loop.run_invariant (turn_keeps_start link dead x)
    (2 * nodes.length + 1) (s := ⟨memo, [x]⟩) (.inl (by simp))
  have kept := fun y => Loop.run_invariant (turn_keeps_done link dead y) (2 * nodes.length + 1) (s := ⟨memo, [x]⟩)
  have allowance : unsettled nodes ⟨memo, [x]⟩ ≤ 2 * nodes.length + 1 := by
    have := length_filter_le (fun y => decide (memo y = none)) nodes
    simp only [unsettled, length_singleton]
    omega
  have stopped := Loop.run_finished (SearchInv link landmark dead nodes) (unsettled nodes)
    (turn_invariant links) turn_decreases (2 * nodes.length + 1) initial allowance
  unfold settle
  revert final started kept stopped
  generalize Loop.run (turn link dead) _ _ = s
  obtain ⟨-, stack⟩ := s
  intro final started kept stopped
  have empty : stack = [] := by
    cases stack with
    | nil => rfl
    | cons top rest =>
      exfalso
      simp only [turn] at stopped
      split at stopped
      · simp at stopped
      · split at stopped
        · simp at stopped
        · split at stopped <;> simp at stopped
  subst empty
  refine ⟨⟨final.landmarks, final.right, fun y busy => ?_⟩, by simpa using started, fun y known => kept y known⟩
  simpa using final.busy y busy

theorem settleAll_spec (links : ∀ x y, link x = some y → y ∈ nodes) (xs : List α) (inNodes : ∀ x ∈ xs, x ∈ nodes)
    (inv : TableInv link landmark dead memo) : TableInv link landmark dead (settleAll link dead nodes memo xs) ∧
      ∀ x, (x ∈ xs ∨ ∃ p, memo x = some (.done p)) → ∃ p, settleAll link dead nodes memo xs x = some (.done p) := by
  unfold settleAll
  induction xs generalizing memo with
  | nil => exact ⟨inv, fun x known => by simpa using known⟩
  | cons first xs ih =>
    obtain ⟨inv', own, others⟩ := settle_spec links inv first (inNodes first (by simp))
    obtain ⟨final, known⟩ := ih (fun x mem => inNodes x (mem_cons_of_mem _ mem)) inv'
    refine ⟨final, fun x wanted => known x ?_⟩
    rcases wanted with mem | before
    · rcases mem_cons.mp mem with rfl | mem
      · exact .inr own
      · exact .inl mem
    · exact .inr (others x before)

end Chase
