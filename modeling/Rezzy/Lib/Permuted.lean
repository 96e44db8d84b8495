import Mathlib.Data.List.MinMax
import Mathlib.Data.List.Sort
import Mathlib.Data.List.Nodup
import Mathlib.Tactic.Common

namespace Permuted

open List

instance lawfulBEq_ordered {α : Type} [LinearOrder α] :
    @LawfulBEq α (instBEqOfDecidableEq (α := α)) := inferInstance

structure HashOrder (Site : Type) where
  iter : Site → {α : Type} → List α → List α
  perm : ∀ site {α : Type} (l : List α), (iter site l).Perm l

def HashOrder.asListed {Site : Type} : HashOrder Site := ⟨fun _ _ l => l, fun _ _ l => .refl l⟩

def HashOrder.reversed {Site : Type} : HashOrder Site := ⟨fun _ _ l => l.reverse, fun _ _ l => l.reverse_perm⟩

theorem HashOrder.iter_perm {Site : Type} (left right : HashOrder Site) (site : Site) (same : l.Perm m) :
    (left.iter site l).Perm (right.iter site m) := (left.perm site l).trans (same.trans (right.perm site m).symm)

variable {α σ τ : Type}

theorem foldl_perm (related : σ → σ → Prop) (refl : ∀ s, related s s)
    (trans : ∀ s t u, related s t → related t u → related s u)
    (keeps : ∀ s t x, related s t → related (step s x) (step t x))
    (commutes : ∀ s x y, related (step (step s x) y) (step (step s y) x)) {l m : List α} (same : l.Perm m)
    (start : related s t) : related (l.foldl step s) (m.foldl step t) := by
  have inOrder : ∀ (l : List α) {s t : σ}, related s t → related (l.foldl step s) (l.foldl step t) := by
    intro l
    induction l with
    | nil => exact id
    | cons x l ih => exact fun start => ih (keeps _ _ x start)
  induction same generalizing s t with
  | nil => exact start
  | cons x _ ih => exact ih (keeps _ _ x start)
  | swap x y l =>
    exact trans _ _ _ (inOrder l (commutes s y x)) (inOrder l (keeps _ _ y (keeps _ _ x start)))
  | trans _ _ ihl ihr => exact trans _ _ _ (ihl (refl s)) (ihr start)

section

/-- Take out an element that `first` puts before all others, from a pool without an order. -/
def popFirst (first : α → α → Bool) : List α → Option (α × List α)
  | [] => none
  | x :: rest =>
    match popFirst first rest with
    | none => some (x, [])
    | some (y, others) => if first y x then some (y, x :: others) else some (x, y :: others)

theorem popFirst_none : popFirst first l = none ↔ l = [] := by
  cases l with
  | nil => simp [popFirst]
  | cons x rest =>
    simp only [popFirst, reduceCtorEq, iff_false]
    cases popFirst first rest with
    | none => simp
    | some pair =>
      dsimp only
      split <;> simp

theorem popFirst_perm (taken : popFirst first l = some (x, rest)) : l.Perm (x :: rest) := by
  induction l generalizing x rest with
  | nil => simp [popFirst] at taken
  | cons y l ih =>
    simp only [popFirst] at taken
    cases inner : popFirst first l with
    | none =>
      simp only [inner, Option.some.injEq, Prod.mk.injEq] at taken
      obtain ⟨rfl, rfl⟩ := taken
      rw [popFirst_none.mp inner]
    | some pair =>
      obtain ⟨z, others⟩ := pair
      simp only [inner] at taken
      split at taken <;> simp only [Option.some.injEq, Prod.mk.injEq] at taken <;> obtain ⟨rfl, rfl⟩ := taken
      · exact ((ih inner).cons y).trans (.swap z y others)
      · exact (ih inner).cons y

structure Decides (first : α → α → Bool) (l : List α) : Prop where
  asymm : ∀ x ∈ l, ∀ y ∈ l, first x y = true → first y x = false
  trans : ∀ x ∈ l, ∀ y ∈ l, ∀ z ∈ l, first x y = true → first y z = true → first x z = true
  total : ∀ x ∈ l, ∀ y ∈ l, x ≠ y → first x y = true ∨ first y x = true

theorem Decides.subset {first : α → α → Bool} {l m : List α} (decides : Decides first l)
    (inside : ∀ x ∈ m, x ∈ l) : Decides first m where
  asymm x hx y hy := decides.asymm x (inside x hx) y (inside y hy)
  trans x hx y hy z hz := decides.trans x (inside x hx) y (inside y hy) z (inside z hz)
  total x hx y hy := decides.total x (inside x hx) y (inside y hy)

theorem popFirst_least (decides : Decides first l) (taken : popFirst first l = some (x, rest)) :
    ∀ y ∈ rest, first y x = false := by
  induction l generalizing x rest with
  | nil => simp [popFirst] at taken
  | cons z l ih =>
    have inner := decides.subset (m := l) fun _ => mem_cons_of_mem _
    simp only [popFirst] at taken
    cases below : popFirst first l with
    | none =>
      simp only [below, Option.some.injEq, Prod.mk.injEq] at taken
      simp [← taken.2]
    | some pair =>
      obtain ⟨least, others⟩ := pair
      have leastMem : least ∈ l := (popFirst_perm below).mem_iff.mpr (by simp)
      have otherMem : ∀ y ∈ others, y ∈ l := fun y mem =>
        (popFirst_perm below).mem_iff.mpr (mem_cons_of_mem _ mem)
      simp only [below] at taken
      split at taken <;> rename_i order <;> simp only [Option.some.injEq, Prod.mk.injEq] at taken <;>
        obtain ⟨rfl, rfl⟩ := taken <;> intro y mem <;> rcases mem_cons.mp mem with rfl | mem
      · exact decides.asymm _ (by simp [leastMem]) _ (by simp) order
      · exact ih inner below y mem
      · simpa using order
      · by_contra smaller
        have smaller : first y z = true := by simpa using smaller
        have notLeast := ih inner below y mem
        by_cases same : least = z
        · simp [← same, notLeast] at smaller
        · rcases decides.total least (by simp [leastMem]) z (by simp) same with before | before
          · exact order before
          · have := decides.trans y (by simp [otherMem y mem]) z (by simp) least (by simp [leastMem]) smaller before
            simp [notLeast] at this

theorem popFirst_congr {l m : List α} (decides : Decides first l) (same : l.Perm m) :
    Option.Rel (fun p q => p.1 = q.1 ∧ p.2.Perm q.2) (popFirst first l) (popFirst first m) := by
  cases hl : popFirst first l with
  | none =>
    obtain rfl := popFirst_none.mp hl
    rw [nil_perm.mp same, popFirst_none.mpr rfl]
    exact .none
  | some p =>
    obtain ⟨x, rest⟩ := p
    cases hm : popFirst first m with
    | none =>
      obtain rfl := popFirst_none.mp hm
      rw [perm_nil.mp same] at hl
      simp [popFirst] at hl
    | some q =>
      obtain ⟨y, others⟩ := q
      have permL := popFirst_perm hl
      have permM := popFirst_perm hm
      have decidesM := decides.subset (m := m) fun z mem => same.mem_iff.mpr mem
      have xMem : x ∈ l := permL.mem_iff.mpr (by simp)
      have yMem : y ∈ l := same.mem_iff.mpr (permM.mem_iff.mpr (by simp))
      have equal : x = y := by
        by_contra differ
        have yRest : y ∈ rest := by
          have := permL.mem_iff.mp yMem
          simpa [Ne.symm differ] using this
        have xOthers : x ∈ others := by
          have := permM.mem_iff.mp (same.mem_iff.mp xMem)
          simpa [differ] using this
        have notBefore := popFirst_least decides hl y yRest
        have notAfter := popFirst_least decidesM hm x xOthers
        rcases decides.total x xMem y yMem differ with before | before
        · simp [notAfter] at before
        · simp [notBefore] at before
      subst equal
      refine .some ⟨rfl, ?_⟩
      exact (perm_cons x).mp (permL.symm.trans (same.trans permM))

end

theorem sort_congr (before before' : α → α → Prop) [DecidableRel before] [DecidableRel before']
    [Std.Total before] [IsTrans α before] [Std.Total before'] [IsTrans α before'] {l m : List α}
    (agree : ∀ x ∈ l, ∀ y ∈ l, before' x y → before x y)
    (tells : ∀ x ∈ l, ∀ y ∈ l, before x y → before y x → x = y) (same : l.Perm m) :
    l.insertionSort before = m.insertionSort before' := by
  have perm := (perm_insertionSort before l).trans (same.trans (perm_insertionSort before' m).symm)
  have inside : ∀ x ∈ m.insertionSort before', x ∈ l := fun x mem =>
    same.mem_iff.mpr ((mem_insertionSort before').mp mem)
  have sorted : (m.insertionSort before').Pairwise before :=
    (pairwise_insertionSort before' m).imp_of_mem fun {x y} hx hy =>
      agree x (inside x hx) y (inside y hy)
  refine List.Perm.eq_of_pairwise ?_ (pairwise_insertionSort before l) sorted perm
  intro x y hx hy
  exact tells x ((mem_insertionSort before).mp hx) y (inside y hy)

variable (before : α → α → Prop) [DecidableRel before]

theorem sort_filter {l : List α} [Std.Total before] [IsTrans α before]
    (tells : ∀ x ∈ l, ∀ y ∈ l, before x y → before y x → x = y) (keep : α → Bool) :
    (l.filter keep).insertionSort before = (l.insertionSort before).filter keep := by
  have perm := (perm_insertionSort before (l.filter keep)).trans ((perm_insertionSort before l).filter keep).symm
  refine List.Perm.eq_of_pairwise ?_ (pairwise_insertionSort before _)
    ((pairwise_insertionSort before l).filter keep) perm
  intro x y hx hy
  have inLeft := mem_of_mem_filter ((mem_insertionSort before).mp hx)
  have inRight := (mem_insertionSort before).mp (mem_of_mem_filter hy)
  exact tells x inLeft y inRight

theorem argmin_perm {β : Type} [LinearOrder β] {f : α → β} {l m : List α}
    (tells : ∀ x ∈ l, ∀ y ∈ l, f x = f y → x = y) (same : l.Perm m) : l.argmin f = m.argmin f := by
  cases hl : l.argmin f with
  | none =>
    rw [argmin_eq_none.mp hl] at same
    rw [nil_perm.mp same]
    rfl
  | some x =>
    have xMem := argmin_mem hl
    cases hm : m.argmin f with
    | none =>
      rw [argmin_eq_none.mp hm] at same
      simp [perm_nil.mp same] at xMem
    | some y =>
      have yMem := same.mem_iff.mpr (argmin_mem hm)
      have below := le_of_mem_argmin yMem hl
      have above := le_of_mem_argmin (same.mem_iff.mp xMem) hm
      rw [tells x xMem y yMem (le_antisymm below above)]

theorem argmax_eq_of_dominated {β : Type} [LinearOrder β] {f : α → β} {l m : List α}
    (tells : ∀ x ∈ l, ∀ y ∈ m, f x = f y → x = y) (left : ∀ x ∈ l, ∃ y ∈ m, f x ≤ f y)
    (right : ∀ y ∈ m, ∃ x ∈ l, f y ≤ f x) : l.argmax f = m.argmax f := by
  cases hl : l.argmax f with
  | none =>
    cases hm : m.argmax f with
    | none => rfl
    | some y =>
      obtain ⟨x, inside, _⟩ := right y (argmax_mem hm)
      simp [argmax_eq_none.mp hl] at inside
  | some x =>
    have xMem := argmax_mem hl
    obtain ⟨y, yMem, le⟩ := left x xMem
    cases hm : m.argmax f with
    | none => simp [argmax_eq_none.mp hm] at yMem
    | some z =>
      have zMem := argmax_mem hm
      obtain ⟨w, wMem, above⟩ := right z zMem
      have upper : f x ≤ f z := le.trans (le_of_mem_argmax yMem hm)
      have lower : f z ≤ f x := above.trans (le_of_mem_argmax wMem hl)
      rw [tells x xMem z zMem (le_antisymm upper lower)]

end Permuted
