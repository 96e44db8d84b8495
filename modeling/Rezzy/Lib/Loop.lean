import Mathlib.Data.List.Basic
import Mathlib.Data.Option.Basic

namespace Loop

variable {σ τ : Type}

def run (body : σ → Option σ) : Nat → σ → σ
  | 0, s => s
  | n + 1, s =>
    match body s with
    | none => s
    | some next => run body n next

theorem run_of_stopped (stopped : body s = none) (n : Nat) : run body n s = s := by
  cases n <;> simp [run, stopped]

theorem run_of_step (step : body s = some next) (n : Nat) : run body (n + 1) s = run body n next := by
  simp [run, step]

theorem run_invariant {body : σ → Option σ} {inv : σ → Prop} (keeps : ∀ s next, inv s → body s = some next → inv next)
    (n : Nat) {s : σ} (start : inv s) : inv (run body n s) := by
  induction n generalizing s with
  | zero => exact start
  | succ n ih =>
    cases turn : body s with
    | none => rw [run_of_stopped turn]; exact start
    | some next => rw [run_of_step turn]; exact ih (keeps s next start turn)

theorem run_finished {body : σ → Option σ} (inv : σ → Prop) (measure : σ → Nat)
    (keeps : ∀ s next, inv s → body s = some next → inv next)
    (decreases : ∀ s next, inv s → body s = some next → measure next < measure s)
    (n : Nat) {s : σ} (start : inv s) (allowance : measure s ≤ n) : body (run body n s) = none := by
  induction n generalizing s with
  | zero =>
    cases turn : body s with
    | none => exact turn
    | some next =>
      have := decreases s next start turn
      omega
  | succ n ih =>
    cases turn : body s with
    | none => rw [run_of_stopped turn]; exact turn
    | some next =>
      rw [run_of_step turn]
      have := decreases s next start turn
      exact ih (keeps s next start turn) (by omega)

theorem run_add (body : σ → Option σ) (n m : Nat) (s : σ) : run body (n + m) s = run body m (run body n s) := by
  induction n generalizing s with
  | zero => simp [run]
  | succ n ih =>
    cases turn : body s with
    | none => rw [run_of_stopped turn, run_of_stopped turn, run_of_stopped turn]
    | some next =>
      rw [Nat.add_right_comm, run_of_step turn, run_of_step turn]
      exact ih next

theorem run_eq_of_finished (finished : body (run body n s) = none) (more : n ≤ m) : run body m s = run body n s := by
  obtain ⟨-, rfl⟩ := Nat.exists_eq_add_of_le more
  rw [run_add, run_of_stopped finished]

theorem run_congr (inv : σ → Prop) (keeps : ∀ s next, inv s → left s = some next → inv next)
    (agree : ∀ s, inv s → left s = right s) (n : Nat) (start : inv s) : run left n s = run right n s := by
  induction n generalizing s with
  | zero => rfl
  | succ n ih =>
    cases turn : left s with
    | none => rw [run_of_stopped turn, run_of_stopped ((agree s start).symm.trans turn)]
    | some next =>
      rw [run_of_step turn, run_of_step ((agree s start).symm.trans turn)]
      exact ih (keeps s next start turn)

theorem run_simulation (related : σ → τ → Prop) (step : ∀ s t, related s t → Option.Rel related (left s) (right t))
    (n : Nat) (start : related s t) : related (run left n s) (run right n t) := by
  induction n generalizing s t with
  | zero => exact start
  | succ n ih =>
    have turn := step s t start
    cases ls : left s with
    | none =>
      cases rt : right t with
      | none => rw [run_of_stopped ls, run_of_stopped rt]; exact start
      | some next => rw [ls, rt] at turn; cases turn
    | some nextLeft =>
      cases rt : right t with
      | none => rw [ls, rt] at turn; cases turn
      | some nextRight =>
        rw [ls, rt] at turn
        cases turn with
        | some kept => rw [run_of_step ls, run_of_step rt]; exact ih kept

theorem rel_strengthen {related kept : σ → τ → Prop} {turn : Option σ} {other : Option τ}
    (alike : Option.Rel related turn other) (more : ∀ s t, other = some t → related s t → kept s t) :
    Option.Rel kept turn other := by
  cases alike with
  | none => exact .none
  | some alike => exact .some (more _ _ rfl alike)

theorem stopped_of_rel {related : σ → τ → Prop} {turn : Option σ} (alike : Option.Rel related turn none) : turn = none := by
  cases alike
  rfl

theorem foldl_invariant {α : Type} {step : σ → α → σ} (inv : σ → Prop) {s : σ} (start : inv s) (l : List α)
    (keeps : ∀ before x after, l = before ++ x :: after → inv (before.foldl step s) →
      inv (step (before.foldl step s) x)) : inv (l.foldl step s) := by
  have prefixes : ∀ after before, l = before ++ after → inv (before.foldl step s) → inv (l.foldl step s) := by
    intro after
    induction after with
    | nil =>
      intro before split holds
      rw [split, List.append_nil]
      exact holds
    | cons x after ih =>
      intro before split holds
      refine ih (before ++ [x]) (by simp [split]) ?_
      rw [List.foldl_append]
      exact keeps before x after split holds
  exact prefixes l [] rfl start

end Loop

namespace Trace

variable {σ ε : Type}

def stateAt (step : σ → ε → σ) (start : σ) (inputs : List ε) (n : Nat) : σ := (inputs.take n).foldl step start

@[simp]
theorem stateAt_zero : stateAt step start inputs 0 = start := by simp [stateAt]

theorem stateAt_length : stateAt step start inputs inputs.length = inputs.foldl step start := by simp [stateAt]

theorem stateAt_succ (next : inputs[n]? = some input) :
    stateAt step start inputs (n + 1) = step (stateAt step start inputs n) input := by
  rw [stateAt, List.take_add_one, next, Option.toList_some, List.foldl_append]
  rfl

theorem stateAt_past (beyond : inputs[n]? = none) :
    stateAt step start inputs (n + 1) = stateAt step start inputs n := by
  rw [stateAt, List.take_add_one, beyond, Option.toList_none, List.append_nil]
  rfl

theorem stateAt_invariant (inv : Nat → σ → Prop) (first : inv 0 start)
    (kept : ∀ n input, inputs[n]? = some input → inv n (stateAt step start inputs n) →
      inv (n + 1) (step (stateAt step start inputs n) input)) (within : n ≤ inputs.length) :
    inv n (stateAt step start inputs n) := by
  induction n with
  | zero => rwa [stateAt_zero]
  | succ n ih =>
    have next : inputs[n]? = some inputs[n] := List.getElem?_eq_getElem within
    rw [stateAt_succ next]
    exact kept n _ next (ih (Nat.le_of_succ_le within))

theorem stateAt_until (holds : σ → Prop) (stops : Nat → Prop)
    (kept : ∀ n input, inputs[n]? = some input → holds (stateAt step start inputs n) → ¬stops n →
      holds (step (stateAt step start inputs n) input)) (later : i ≤ j) (now : holds (stateAt step start inputs i))
    (going : ∀ k, i ≤ k → k < j → ¬stops k) : holds (stateAt step start inputs j) := by
  induction later with
  | refl => exact now
  | @step j later ih =>
    have before := ih fun k from_i to_j => going k from_i (Nat.lt_succ_of_lt to_j)
    cases next : inputs[j]? with
    | none => rwa [stateAt_past next]
    | some input =>
      rw [stateAt_succ next]
      exact kept j input next before (going j later (Nat.lt_succ_self j))

end Trace

namespace Outcome

theorem bind_eq_ok {ε α γ : Type} {first : Except ε α} {next : α → Except ε γ} {value : γ} :
    (first >>= next) = .ok value ↔ ∃ between, first = .ok between ∧ next between = .ok value := by
  cases first with
  | error fault => simp [bind, Except.bind]
  | ok between => simp [bind, Except.bind]

/-- A computation that only ends with a value of which `post` holds, or fails as `allowed` says. -/
inductive Ensures {ε α : Type} (allowed : ε → Prop) (post : α → Prop) : Except ε α → Prop where
  | ok {value : α} (holds : post value) : Ensures allowed post (.ok value)
  | error {fault : ε} (expected : allowed fault) : Ensures allowed post (.error fault)

section

variable {ε α β : Type} {allowed : ε → Prop} {post mid : α → Prop}

theorem Ensures.bind {next : α → Except ε β} {last : β → Prop} (first : Ensures allowed mid outcome)
    (rest : ∀ value, mid value → Ensures allowed last (next value)) : Ensures allowed last (outcome >>= next) := by
  cases first with
  | ok holds => exact rest _ holds
  | error expected => exact .error expected

theorem Ensures.mono (first : Ensures allowed mid outcome) (weaker : ∀ value, mid value → post value) :
    Ensures allowed post outcome := by
  cases first with
  | ok holds => exact .ok (weaker _ holds)
  | error expected => exact .error expected

theorem Ensures.post_of (ensures : Ensures allowed post outcome) (ran : outcome = .ok value) : post value := by
  subst ran
  cases ensures
  assumption

theorem Ensures.allowed_of (ensures : Ensures allowed post outcome) (failed : outcome = .error fault) : allowed fault := by
  subst failed
  cases ensures
  assumption

end

theorem bind_ne_error {ε α β : Type} {first : Except ε α} {next : α → Except ε β} {fault : ε} (avoids : first ≠ .error fault)
    (nexts : ∀ value, first = .ok value → next value ≠ .error fault) : (first >>= next) ≠ .error fault := by
  cases first with
  | error other =>
    intro same
    exact avoids (congrArg Except.error (Except.error.inj same))
  | ok value => exact nexts value rfl

theorem mapM_ne_error {ε α β : Type} {f : α → Except ε β} {list : List α} {fault : ε}
    (each : ∀ item ∈ list, f item ≠ .error fault) : list.mapM f ≠ .error fault := by
  induction list with
  | nil => exact fun same => by cases same
  | cons first rest ih =>
    rw [List.mapM_cons]
    refine bind_ne_error (each first List.mem_cons_self) fun _ _ => ?_
    refine bind_ne_error (ih fun other mem => each other (List.mem_cons_of_mem _ mem)) fun _ _ same => ?_
    cases same

theorem foldlM_ne_error {ε α β : Type} {f : β → α → Except ε β} {list : List α} {fault : ε}
    (each : ∀ item ∈ list, ∀ state, f state item ≠ .error fault) (state : β) : list.foldlM f state ≠ .error fault := by
  induction list generalizing state with
  | nil => exact fun same => by cases same
  | cons first rest ih =>
    rw [List.foldlM_cons]
    refine bind_ne_error (each first List.mem_cons_self state) fun next _ => ?_
    exact ih (fun other mem => each other (List.mem_cons_of_mem _ mem)) next

theorem mapM_ok {ε α β : Type} {f : α → Except ε β} {g : α → β} {list : List α}
    (each : ∀ item ∈ list, f item = .ok (g item)) : list.mapM f = .ok (list.map g) := by
  induction list with
  | nil => rfl
  | cons first rest ih =>
    rw [List.mapM_cons, each first (List.mem_cons_self ..), ih fun item mem => each item (List.mem_cons_of_mem _ mem)]
    rfl

end Outcome
