import Mathlib.Data.Finset.Sort

namespace SetMachine

open Function (update update_of_ne update_self)

section

variable {σ α : Type} {next : σ → Option α × σ}

inductive Yields (next : σ → Option α × σ) : σ → List α → Prop where
  | done {state : σ} (ended : (next state).1 = none) : Yields next state []
  | item {state : σ} {a : α} {list : List α} (given : (next state).1 = some a) (rest : Yields next (next state).2 list) :
      Yields next state (a :: list)

theorem Yields.of_step {remaining : σ → List α}
    (step : ∀ state, (next state).1 = (remaining state).head? ∧ remaining (next state).2 = (remaining state).tail)
    (state : σ) : Yields next state (remaining state) := by
  generalize left : remaining state = list
  induction list generalizing state with
  | nil =>
    apply Yields.done
    rw [(step state).1, left]
    rfl
  | cons a list ih =>
    apply Yields.item
    · rw [(step state).1, left]
      rfl
    · apply ih
      rw [(step state).2, left]
      rfl

theorem sort_eq_of_ascending [LinearOrder α] {list : List α} {A : Finset α} (ascends : list.Pairwise (· < ·))
    (members : ∀ a, a ∈ list ↔ a ∈ A) : A.sort (· ≤ ·) = list := by
  have nodup : list.Nodup := ascends.imp ne_of_lt
  have same : A = list.toFinset := by
    ext a
    rw [List.mem_toFinset, members]
  rw [same]
  exact (List.toFinset_sort (r := (· ≤ ·)) nodup).mpr (ascends.imp le_of_lt)

end

inductive Setwise where
  | union
  | intersection
  | difference
deriving DecidableEq

inductive Op (V : Type) where
  | new (dst : Nat)
  | clone (dst src : Nat)
  | insert (dst : Nat) (value : V)
  | remove (dst : Nat) (value : V)
  | extend (dst : Nat) (values : List V)
  | assign (setwise : Setwise) (dst src : Nat)
  | combine (setwise : Setwise) (dst left right : Nat)

structure Implementation (S V : Type) where
  new : S
  insert : S → V → Bool × S
  remove : S → V → Bool × S
  extend : S → List V → Option S
  /-- With a flag for both operands being one object. -/
  assign : Setwise → Bool → S → S → Option S
  combine : Setwise → S → S → Option S

variable {S V : Type}

def Op.run (impl : Implementation S V) (registers : Nat → S) : Op V → Option (Nat → S)
  | .new dst => some (update registers dst impl.new)
  | .clone dst src => some (update registers dst (registers src))
  | .insert dst value => some (update registers dst (impl.insert (registers dst) value).2)
  | .remove dst value => some (update registers dst (impl.remove (registers dst) value).2)
  | .extend dst values => (impl.extend (registers dst) values).map (update registers dst)
  | .assign setwise dst src =>
    (impl.assign setwise (dst = src) (registers dst) (registers src)).map (update registers dst)
  | .combine setwise dst left right =>
    (impl.combine setwise (registers left) (registers right)).map (update registers dst)

def runAll (impl : Implementation S V) (registers : Nat → S) (program : List (Op V)) : Option (Nat → S) :=
  program.foldlM (Op.run impl) registers

variable [DecidableEq V]

def Setwise.apply : Setwise → Finset V → Finset V → Finset V
  | .union, A, B => A ∪ B
  | .intersection, A, B => A ∩ B
  | .difference, A, B => A \ B

def Op.onSets (sets : Nat → Finset V) : Op V → Nat → Finset V
  | .new dst => update sets dst ∅
  | .clone dst src => update sets dst (sets src)
  | .insert dst value => update sets dst ({value} ∪ sets dst)
  | .remove dst value => update sets dst ((sets dst).erase value)
  | .extend dst values => update sets dst (values.toFinset ∪ sets dst)
  | .assign setwise dst src => update sets dst (setwise.apply (sets dst) (sets src))
  | .combine setwise dst left right => update sets dst (setwise.apply (sets left) (sets right))

def setsAfter (program : List (Op V)) : Nat → Finset V := program.foldl Op.onSets fun _ => ∅

structure Refines (impl : Implementation S V) (Represents : S → Finset V → Prop) : Prop where
  new : Represents impl.new ∅
  insert : ∀ {s A} v, Represents s A →
    Represents (impl.insert s v).2 ({v} ∪ A) ∧ ((impl.insert s v).1 = true ↔ v ∉ A)
  remove : ∀ {s A} v, Represents s A →
    Represents (impl.remove s v).2 (A.erase v) ∧ ((impl.remove s v).1 = true ↔ v ∈ A)
  extend : ∀ {s A} values, Represents s A → ∃ t, impl.extend s values = some t ∧ Represents t (values.toFinset ∪ A)
  assign : ∀ {s A t B} setwise aliased, Represents s A → Represents t B → (aliased = true → s = t) →
    ∃ u, impl.assign setwise aliased s t = some u ∧ Represents u (setwise.apply A B)
  combine : ∀ {s A t B} setwise, Represents s A → Represents t B →
    ∃ u, impl.combine setwise s t = some u ∧ Represents u (setwise.apply A B)

variable {impl : Implementation S V} {Represents : S → Finset V → Prop} {registers : Nat → S} {sets : Nat → Finset V}

def Setwise.Combines : Setwise → (V → Prop) → (V → Prop) → V → Prop
  | .union, P, Q, v => P v ∨ Q v
  | .intersection, P, Q, v => P v ∧ Q v
  | .difference, P, Q, v => P v ∧ ¬Q v

theorem Setwise.mem_apply (setwise : Setwise) (A B : Finset V) (v : V) :
    setwise.Combines (· ∈ A) (· ∈ B) v ↔ v ∈ setwise.apply A B := by
  cases setwise <;> simp [Combines, apply]

theorem Refines.of_holds {Holds : (V → Prop) → S → Prop}
    (congr : ∀ {P Q s}, Holds P s → (∀ v, P v ↔ Q v) → Holds Q s) (new : Holds (fun _ => False) impl.new)
    (insert : ∀ {P s}, Holds P s → ∀ value, Holds (fun v => v = value ∨ P v) (impl.insert s value).2 ∧
      ((impl.insert s value).1 = true ↔ ¬P value))
    (remove : ∀ {P s}, Holds P s → ∀ value, Holds (fun v => P v ∧ v ≠ value) (impl.remove s value).2 ∧
      ((impl.remove s value).1 = true ↔ P value))
    (extend : ∀ {P s}, Holds P s → ∀ values, ∃ t, impl.extend s values = some t ∧ Holds (fun v => v ∈ values ∨ P v) t)
    (assign : ∀ {P Q s t} (setwise : Setwise) aliased, Holds P s → Holds Q t → (aliased = true → s = t) →
      ∃ u, impl.assign setwise aliased s t = some u ∧ Holds (setwise.Combines P Q) u)
    (combine : ∀ {P Q s t} (setwise : Setwise), Holds P s → Holds Q t →
      ∃ u, impl.combine setwise s t = some u ∧ Holds (setwise.Combines P Q) u) :
    Refines impl fun s A => Holds (· ∈ A) s := by
  constructor
  · exact congr new fun v => by simp
  · intro s A value holds
    obtain ⟨inserted, fresh⟩ := insert holds value
    exact ⟨congr inserted fun v => by simp, fresh⟩
  · intro s A value holds
    obtain ⟨removed, present⟩ := remove holds value
    exact ⟨congr removed fun v => Finset.mem_erase.trans and_comm |>.symm, present⟩
  · intro s A values holds
    obtain ⟨t, made, extended⟩ := extend holds values
    exact ⟨t, made, congr extended fun v => by simp⟩
  · intro s A t B setwise aliased left right same
    obtain ⟨u, made, holds⟩ := assign setwise aliased left right same
    exact ⟨u, made, congr holds (setwise.mem_apply A B)⟩
  · intro s A t B setwise left right
    obtain ⟨u, made, holds⟩ := combine setwise left right
    exact ⟨u, made, congr holds (setwise.mem_apply A B)⟩

omit [DecidableEq V] in
theorem represents_update (all : ∀ r, Represents (registers r) (sets r)) (dst : Nat) {s : S} {A : Finset V}
    (here : Represents s A) (r : Nat) : Represents (update registers dst s r) (update sets dst A r) := by
  by_cases same : r = dst
  · subst same
    rw [update_self, update_self]
    exact here
  · rw [update_of_ne same, update_of_ne same]
    exact all r

section

variable (refines : Refines impl Represents) (all : ∀ r, Represents (registers r) (sets r))
include refines all

theorem Refines.step (op : Op V) :
    ∃ after, op.run impl registers = some after ∧ ∀ r, Represents (after r) (op.onSets sets r) := by
  cases op with
  | new dst => exact ⟨_, rfl, represents_update all dst refines.new⟩
  | clone dst src => exact ⟨_, rfl, represents_update all dst (all src)⟩
  | insert dst value => exact ⟨_, rfl, represents_update all dst (refines.insert value (all dst)).1⟩
  | remove dst value => exact ⟨_, rfl, represents_update all dst (refines.remove value (all dst)).1⟩
  | extend dst values =>
    obtain ⟨t, made, represents⟩ := refines.extend values (all dst)
    exact ⟨_, congrArg (Option.map _) made, represents_update all dst represents⟩
  | assign setwise dst src =>
    have one : decide (dst = src) = true → registers dst = registers src :=
      fun same => congrArg registers (of_decide_eq_true same)
    obtain ⟨t, made, represents⟩ := refines.assign setwise (decide (dst = src)) (all dst) (all src) one
    exact ⟨_, congrArg (Option.map _) made, represents_update all dst represents⟩
  | combine setwise dst left right =>
    obtain ⟨t, made, represents⟩ := refines.combine setwise (all left) (all right)
    exact ⟨_, congrArg (Option.map _) made, represents_update all dst represents⟩

theorem Refines.runAll (program : List (Op V)) :
    ∃ after, runAll impl registers program = some after ∧ ∀ r, Represents (after r) (program.foldl Op.onSets sets r) := by
  induction program generalizing registers sets with
  | nil => exact ⟨registers, rfl, all⟩
  | cons op program ih =>
    obtain ⟨next, stepped, all⟩ := refines.step all op
    obtain ⟨after, ran, all⟩ := ih all
    refine ⟨after, ?_, all⟩
    unfold SetMachine.runAll
    rw [List.foldlM_cons, stepped]
    exact ran

end

theorem Refines.run (refines : Refines impl Represents) (program : List (Op V)) :
    ∃ after, SetMachine.runAll impl (fun _ => impl.new) program = some after ∧
      ∀ r, Represents (after r) (setsAfter program r) := refines.runAll (fun _ => refines.new) program

end SetMachine
