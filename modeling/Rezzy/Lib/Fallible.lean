import Mathlib.Control.Monad.Basic
import Rezzy.Lib.Loop

namespace Fallible

open List

theorem except_ok_bind {ε α β : Type} (a : α) (next : α → Except ε β) :
    ((Except.ok a : Except ε α) >>= next) = next a := rfl

section

variable {ε α β ι : Type} {related : α → β → Prop}

inductive Alike (related : α → β → Prop) : Except ε α → Except ε β → Prop where
  | ok {a : α} {b : β} (same : related a b) : Alike related (.ok a) (.ok b)
  | error (fault : ε) : Alike related (.error fault) (.error fault)

theorem Alike.mono {further : α → β → Prop} (alike : Alike related first second)
    (each : ∀ a b, related a b → further a b) : Alike further first second := by
  cases alike with
  | ok same => exact .ok (each _ _ same)
  | error fault => exact .error fault

theorem Alike.foldlM {step : α → ι → Except ε α} {other : β → ι → Except ε β} {l : List ι}
    (each : ∀ i ∈ l, ∀ a b, related a b → Alike related (step a i) (other b i)) {a : α} {b : β}
    (start : related a b) : Alike related (l.foldlM step a) (l.foldlM other b) := by
  induction l generalizing a b with
  | nil => exact .ok start
  | cons i rest ih =>
    rw [foldlM_cons, foldlM_cons]
    have turn := each i mem_cons_self a b start
    cases first : step a i with
    | error fault =>
      rw [first] at turn
      cases second : other b i with
      | error fault' =>
        rw [second] at turn
        cases turn
        exact .error fault
      | ok b' =>
        rw [second] at turn
        cases turn
    | ok a' =>
      rw [first] at turn
      cases second : other b i with
      | error fault' =>
        rw [second] at turn
        cases turn
      | ok b' =>
        rw [second] at turn
        cases turn with
        | ok same => exact ih (fun j inside => each j (mem_cons_of_mem i inside)) same

end

theorem forM_eq_ok {ε α : Type} {step : α → Except ε Unit} {l : List α} :
    l.forM step = .ok () ↔ ∀ a ∈ l, step a = .ok () := by
  induction l with
  | nil => exact iff_of_true rfl fun a none => absurd none not_mem_nil
  | cons a rest ih =>
    rw [forall_mem_cons, ← ih]
    refine (@Outcome.bind_eq_ok ε Unit Unit (step a) (fun _ => rest.forM step) ()).trans ?_
    exact ⟨fun ⟨_, first, others⟩ => ⟨first, others⟩, fun ⟨first, others⟩ => ⟨(), first, others⟩⟩

section

variable {ε ι : Type} {good counts : ι → Prop}

def Checks (step : Bool → ι → Except ε Bool) (good counts : ι → Prop) : Prop :=
  ∀ i flag out, step flag i = .ok out ↔ good i ∧ (out = true ↔ flag = true ∨ counts i)

theorem Checks.foldlM (checks : Checks step good counts) (l : List ι) (flag out : Bool) : l.foldlM step flag = .ok out ↔
      (∀ i ∈ l, good i) ∧ (out = true ↔ flag = true ∨ ∃ i ∈ l, counts i) := by
  induction l generalizing flag with
  | nil =>
    have same : flag = out ↔ (out = true ↔ flag = true) := by
      rw [← Bool.eq_iff_iff]
      exact eq_comm
    simpa [pure, Except.pure] using same
  | cons i rest ih =>
    rw [foldlM_cons, Outcome.bind_eq_ok]
    simp only [forall_mem_cons, exists_mem_cons_iff]
    constructor
    · rintro ⟨between, first, further⟩
      obtain ⟨fine, raised⟩ := (checks i flag between).mp first
      obtain ⟨others, last⟩ := (ih between).mp further
      exact ⟨⟨fine, others⟩, by rw [last, raised, or_assoc]⟩
    · rintro ⟨⟨fine, others⟩, last⟩
      classical
      refine ⟨decide (flag = true ∨ counts i), (checks i flag _).mpr ⟨fine, decide_eq_true_iff⟩, (ih _).mpr ⟨others, ?_⟩⟩
      rw [last, decide_eq_true_iff, or_assoc]

end

variable {ε α β ι : Type}

abbrev Run (ε α : Type) := ExceptT ε Option α

def returned (result : Except ε α) : Run ε α := ExceptT.mk (some result)

def unfinished : Run ε α := ExceptT.mk none

def Run.Returns (run : Run ε α) : Prop := ∃ result, run = returned result

/-- The run returns, and not with the fault that stands for a panic. -/
def Run.Ends (fatal : ε) (run : Run ε α) : Prop := ∃ result, run = returned result ∧ result ≠ .error fatal

def Run.Within (run more : Run ε α) : Prop := run = unfinished ∨ run = more

theorem Run.cases (run : Run ε α) :
    run = unfinished ∨ (∃ fault, run = returned (.error fault)) ∨ ∃ a, run = returned (.ok a) := by
  rcases run with _ | fault | a
  · exact .inl rfl
  · exact .inr (.inl ⟨fault, rfl⟩)
  · exact .inr (.inr ⟨a, rfl⟩)

theorem returned_inj (same : (returned first : Run ε α) = returned second) : first = second := Option.some.inj same

theorem returned_ne_unfinished (result : Except ε α) : (returned result : Run ε α) ≠ unfinished :=
  Option.some_ne_none result

@[simp]
theorem unfinished_bind (next : α → Run ε β) : (unfinished >>= next) = unfinished := rfl

@[simp]
theorem failed_bind (fault : ε) (next : α → Run ε β) :
    (returned (.error fault) >>= next) = returned (.error fault) := rfl

@[simp]
theorem ok_bind (a : α) (next : α → Run ε β) : (returned (.ok a) >>= next) = next a := rfl

theorem returned_bind (result : Except ε α) (next : α → Except ε β) :
    ((returned result : Run ε α) >>= fun a => returned (next a)) = returned (result >>= next) := by
  cases result <;> rfl

theorem returned_mapM {step : α → Run ε β} {next : α → Except ε β} {l : List α}
    (each : ∀ a ∈ l, step a = returned (next a)) : l.mapM step = returned (l.mapM next) := by
  induction l with
  | nil => rfl
  | cons a rest ih =>
    rw [mapM_cons, mapM_cons, each a mem_cons_self,
      ih fun b inside => each b (mem_cons_of_mem a inside), ← returned_bind]
    apply bind_congr
    intro b
    rw [← returned_bind]
    rfl

theorem returned_foldlM {step : β → α → Run ε β} {next : β → α → Except ε β} {l : List α}
    (each : ∀ a ∈ l, ∀ b, step b a = returned (next b a)) (b : β) :
    l.foldlM step b = returned (l.foldlM next b) := by
  induction l generalizing b with
  | nil => rfl
  | cons a rest ih =>
    rw [foldlM_cons, foldlM_cons, each a mem_cons_self, ← returned_bind]
    apply bind_congr
    intro c
    exact ih (fun d inside => each d (mem_cons_of_mem a inside)) c

theorem returns_returned (result : Except ε α) : (returned result : Run ε α).Returns := ⟨result, rfl⟩

theorem ends_returned {result : Except ε α} (fine : result ≠ .error fatal) : (returned result : Run ε α).Ends fatal :=
  ⟨result, rfl, fine⟩

theorem Run.Ends.bind {run : Run ε α} (ends : run.Ends fatal) {next : α → Run ε β}
    (each : ∀ a, run = returned (.ok a) → (next a).Ends fatal) : (run >>= next).Ends fatal := by
  obtain ⟨result, rfl, fine⟩ := ends
  cases result with
  | error fault => exact ends_returned fun same => fine (congrArg Except.error (Except.error.inj same))
  | ok a => exact each a rfl

theorem Run.Returns.of_bind {run : Run ε α} {next : α → Run ε β} (returns : (run >>= next).Returns) : run.Returns := by
  obtain ⟨result, ended⟩ := returns
  rcases run.cases with rfl | ⟨-, rfl⟩ | ⟨-, rfl⟩
  · exact absurd ended.symm (returned_ne_unfinished result)
  · exact returns_returned _
  · exact returns_returned _

theorem ok_of_bind {next : α → Run ε β} (ended : (run >>= next) = returned (.ok b)) :
    ∃ a, run = returned (.ok a) ∧ next a = returned (.ok b) := by
  rcases run.cases with rfl | ⟨fault, rfl⟩ | ⟨a, rfl⟩
  · exact absurd ended.symm (returned_ne_unfinished _)
  · cases returned_inj ended
  · exact ⟨a, rfl, ended⟩

theorem ok_of_foldlM {step : β → α → Run ε β} {l : List α} {b last : β} (ended : l.foldlM step b = returned (.ok last)) :
    ∀ a ∈ l, ∃ c d, step c a = returned (.ok d) := by
  induction l generalizing b with
  | nil => exact fun a none => absurd none not_mem_nil
  | cons first rest ih =>
    rw [foldlM_cons] at ended
    obtain ⟨c, turn, further⟩ := ok_of_bind ended
    intro a inside
    rcases mem_cons.mp inside with rfl | later
    · exact ⟨b, c, turn⟩
    · exact ih further a later

theorem foldlM_ok {step : β → α → Run ε β} {l : List α}
    (each : ∀ a ∈ l, ∀ b result, step b a = returned result → ∃ c, result = .ok c) {b : β}
    (returns : (l.foldlM step b).Returns) : ∃ c, l.foldlM step b = returned (.ok c) := by
  induction l generalizing b with
  | nil => exact ⟨b, rfl⟩
  | cons a rest ih =>
    rw [foldlM_cons] at returns ⊢
    obtain ⟨result, turn⟩ := returns.of_bind
    obtain ⟨c, rfl⟩ := each a mem_cons_self b result turn
    rw [turn, ok_bind] at returns ⊢
    exact ih (fun other inside => each other (mem_cons_of_mem a inside)) returns

theorem not_returns_unfinished : ¬(unfinished : Run ε α).Returns := by
  rintro ⟨result, ended⟩
  exact returned_ne_unfinished result ended.symm

theorem Run.Within.refl (run : Run ε α) : run.Within run := .inr rfl

theorem Run.Within.eq (within : run.Within more) (ended : run = returned result) : more = returned result := by
  rcases within with none | same
  · exact absurd (ended.symm.trans none) (returned_ne_unfinished result)
  · exact same.symm.trans ended

theorem Run.Within.bind {run more : Run ε α} (within : run.Within more) {next further : α → Run ε β}
    (each : ∀ a, (next a).Within (further a)) : (run >>= next).Within (more >>= further) := by
  rcases within with rfl | rfl
  · exact .inl (unfinished_bind next)
  · rcases run.cases with rfl | ⟨fault, rfl⟩ | ⟨a, rfl⟩
    · exact .refl unfinished
    · exact .refl (returned (.error fault))
    · exact each a

theorem Run.Within.foldlM {step further : β → α → Run ε β} (each : ∀ b a, (step b a).Within (further b a))
    (l : List α) (b : β) : (l.foldlM step b).Within (l.foldlM further b) := by
  induction l generalizing b with
  | nil => exact .refl _
  | cons a rest ih =>
    rw [foldlM_cons, foldlM_cons]
    exact (each b a).bind ih

end Fallible
