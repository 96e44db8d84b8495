import Mathlib

namespace SparseTrie

open List Set

variable {K V D : Type} (node : ℕ → V → V → V) (blank : V) (turn : K → ℕ → Bool)

def void : ℕ → V
  | 0 => blank
  | levels + 1 => node levels (void levels) (void levels)

def side (levels : ℕ) (right : Bool) (entries : List (K × V)) : List (K × V) :=
  entries.filter fun entry => turn entry.1 levels == right

def subtree : ℕ → List (K × V) → V
  | 0, entries => (entries.head?.map Prod.snd).getD blank
  | levels + 1, entries =>
    node levels (subtree levels (side turn levels false entries)) (subtree levels (side turn levels true entries))

def along (key : K) (bottom : ℕ) : ℕ → List (K × V) → List (K × V)
  | 0, entries => entries
  | steps + 1, entries => along key bottom steps (side turn (bottom + steps) (turn key (bottom + steps)) entries)

def siblings (key : K) (bottom : ℕ) : ℕ → List (K × V) → List V
  | 0, _ => []
  | steps + 1, entries =>
    siblings key bottom steps (side turn (bottom + steps) (turn key (bottom + steps)) entries) ++
      [subtree node blank turn (bottom + steps) (side turn (bottom + steps) (!turn key (bottom + steps)) entries)]

def ordered (key : K) (levels : ℕ) (own other : V) : V × V :=
  if turn key levels then (other, own) else (own, other)

def join (key : K) (levels : ℕ) (own other : V) : V :=
  node levels (ordered turn key levels own other).1 (ordered turn key levels own other).2

def climb (key : K) : ℕ → V → List V → V
  | _, value, [] => value
  | levels, value, step :: path => climb key (levels + 1) (join node turn key levels value step) path

def descend (key : K) : ℕ → List (K × V) → ℕ × List V
  | 0, _ => (0, [])
  | levels + 1, entries =>
    if entries.isEmpty then (levels + 1, [])
    else
      let (bottom, path) := descend key levels (side turn levels (turn key levels) entries)
      (bottom, path ++ [subtree node blank turn levels (side turn levels (!turn key levels) entries)])

variable {node blank turn} {key : K} {entries : List (K × V)} {levels bottom steps : ℕ} {value : V} {path : List V}

section

@[simp] theorem side_nil (right : Bool) : side turn levels right ([] : List (K × V)) = [] := rfl

theorem mem_side : entry ∈ side turn levels right entries ↔ entry ∈ entries ∧ turn entry.1 levels = right := by
  simp [side]

theorem along_succ : along turn key bottom (steps + 1) entries =
    along turn key bottom steps (side turn (bottom + steps) (turn key (bottom + steps)) entries) := rfl

@[simp] theorem along_nil : along turn key bottom steps ([] : List (K × V)) = [] := by
  induction steps with
  | zero => rfl
  | succ steps ih => rw [along_succ, side_nil, ih]

theorem mem_along : entry ∈ along turn key bottom steps entries ↔
    entry ∈ entries ∧ ∀ level < steps, turn entry.1 (bottom + level) = turn key (bottom + level) := by
  induction steps generalizing entries with
  | zero => simp [along]
  | succ steps ih =>
    rw [along_succ, ih, mem_side, Nat.forall_lt_succ_right]
    tauto

theorem along_above : along turn key bottom (steps + 1) entries =
    side turn bottom (turn key bottom) (along turn key (bottom + 1) steps entries) := by
  induction steps generalizing entries with
  | zero => rfl
  | succ steps ih =>
    rw [along_succ, ih]
    show side turn bottom (turn key bottom) (along turn key (bottom + 1) steps _) =
      side turn bottom (turn key bottom) (along turn key (bottom + 1) steps _)
    rw [Nat.add_right_comm bottom 1 steps]
    rfl

@[simp] theorem subtree_nil : subtree node blank turn levels [] = void node blank levels := by
  induction levels with
  | zero => rfl
  | succ levels ih =>
    show node levels (subtree node blank turn levels []) (subtree node blank turn levels []) = _
    rw [ih]
    rfl

theorem join_side : join node turn key levels (subtree node blank turn levels (side turn levels (turn key levels) entries))
    (subtree node blank turn levels (side turn levels (!turn key levels) entries)) =
      subtree node blank turn (levels + 1) entries := by
  unfold join ordered
  cases turn key levels with
  | false => rfl
  | true => rfl

theorem subtree_congr (same : ∀ entry, entry ∈ entries ↔ entry ∈ others)
    (single : ∀ one ∈ entries, ∀ other ∈ entries, (∀ level < levels, turn one.1 level = turn other.1 level) →
      one.2 = other.2) : subtree node blank turn levels entries = subtree node blank turn levels others := by
  induction levels generalizing entries others with
  | zero =>
    cases entries with
    | nil =>
      have none : others = [] := eq_nil_iff_forall_not_mem.mpr fun entry mem => nomatch (same entry).mpr mem
      rw [none]
    | cons first rest =>
      cases others with
      | nil => exact nomatch (same first).mp mem_cons_self
      | cons head tail =>
        exact single first mem_cons_self head ((same head).mpr mem_cons_self) fun level small => nomatch small
  | succ levels ih =>
    have sided (right : Bool) : subtree node blank turn levels (side turn levels right entries) =
        subtree node blank turn levels (side turn levels right others) := by
      apply ih
      · intro entry
        rw [mem_side, mem_side, same]
      · intro one oneIn other otherIn agree
        apply single one (mem_side.mp oneIn).1 other (mem_side.mp otherIn).1
        intro level small
        rcases Nat.lt_succ_iff_lt_or_eq.mp small with below | rfl
        · exact agree level below
        · rw [(mem_side.mp oneIn).2, (mem_side.mp otherIn).2]
    show node levels _ _ = node levels _ _
    rw [sided, sided]

theorem climb_append (more : List V) : climb node turn key levels value (path ++ more) =
    climb node turn key (levels + path.length) (climb node turn key levels value path) more := by
  induction path generalizing levels value with
  | nil => rfl
  | cons step path ih =>
    show climb node turn key (levels + 1) _ (path ++ more) = climb node turn key _ (climb node turn key (levels + 1) _ path) more
    rw [ih, length_cons, Nat.add_assoc, Nat.add_comm 1]

theorem climb_concat (step : V) : climb node turn key levels value (path ++ [step]) =
    join node turn key (levels + path.length) (climb node turn key levels value path) step := climb_append [step]

@[simp] theorem siblings_length : (siblings node blank turn key bottom steps entries).length = steps := by
  induction steps generalizing entries with
  | zero => rfl
  | succ steps ih =>
    unfold siblings
    rw [length_append, ih]
    rfl

theorem siblings_succ : siblings node blank turn key bottom (steps + 1) entries =
    siblings node blank turn key bottom steps (side turn (bottom + steps) (turn key (bottom + steps)) entries) ++
      [subtree node blank turn (bottom + steps) (side turn (bottom + steps) (!turn key (bottom + steps)) entries)] := rfl

theorem climb_siblings : climb node turn key bottom (subtree node blank turn bottom (along turn key bottom steps entries))
    (siblings node blank turn key bottom steps entries) = subtree node blank turn (bottom + steps) entries := by
  induction steps generalizing entries with
  | zero => rfl
  | succ steps ih =>
    rw [siblings_succ, climb_concat, siblings_length, along_succ, ih, join_side]
    rfl

theorem siblings_head : (siblings node blank turn key bottom (steps + 1) entries).head? =
    some (subtree node blank turn bottom (side turn bottom (!turn key bottom) (along turn key (bottom + 1) steps entries))) := by
  induction steps generalizing entries with
  | zero => rfl
  | succ steps ih =>
    rw [siblings_succ, head?_append, ih, along_succ, Nat.add_right_comm bottom 1 steps]
    rfl

variable (node blank turn)

def inputs : ℕ → List (K × V) → Set (ℕ × V × V)
  | 0, _ => ∅
  | levels + 1, entries =>
    {(levels, subtree node blank turn levels (side turn levels false entries),
      subtree node blank turn levels (side turn levels true entries))} ∪
      (inputs levels (side turn levels false entries) ∪ inputs levels (side turn levels true entries))

def climbInputs (key : K) : ℕ → V → List V → Set (ℕ × V × V)
  | _, _, [] => ∅
  | levels, value, step :: path =>
    {(levels, ordered turn key levels value step)} ∪
      climbInputs key (levels + 1) (join node turn key levels value step) path

def Binding (mark : V → D) (hashed : Set (ℕ × V × V)) : Prop :=
  ∀ ⦃levels : ℕ⦄ ⦃one other : V × V⦄, (levels, one) ∈ hashed → (levels, other) ∈ hashed →
    mark (node levels one.1 one.2) = mark (node levels other.1 other.2) → one = other

variable {node blank turn} {mark : V → D} {hashed : Set (ℕ × V × V)}

theorem inputs_side (right : Bool) : inputs node blank turn levels (side turn levels right entries) ⊆
    inputs node blank turn (levels + 1) entries := by
  cases right with
  | false => exact subset_union_of_subset_right subset_union_left _
  | true => exact subset_union_of_subset_right subset_union_right _

theorem inputs_along : inputs node blank turn bottom (along turn key bottom steps entries) ⊆
    inputs node blank turn (bottom + steps) entries := by
  induction steps generalizing entries with
  | zero => exact subset_rfl
  | succ steps ih => exact ih.trans (inputs_side _)

theorem mem_inputs_succ : (levels, ordered turn key levels
    (subtree node blank turn levels (side turn levels (turn key levels) entries))
      (subtree node blank turn levels (side turn levels (!turn key levels) entries))) ∈
        inputs node blank turn (levels + 1) entries := by
  apply Or.inl
  unfold ordered
  cases turn key levels with
  | false => rfl
  | true => rfl

theorem inputs_family {family : ℕ → Set (List (K × V))}
    (closed : ∀ level, ∀ held ∈ family (level + 1), ∀ right, side turn level right held ∈ family level)
    (mem : entries ∈ family levels) : inputs node blank turn levels entries ⊆
      {input | ∃ level < levels, ∃ held ∈ family (level + 1), input = (level,
        subtree node blank turn level (side turn level false held),
          subtree node blank turn level (side turn level true held))} := by
  induction levels generalizing entries with
  | zero => exact empty_subset _
  | succ levels ih =>
    unfold inputs
    rintro input (rfl | inside | inside)
    · exact ⟨levels, Nat.lt_succ_self _, entries, mem, rfl⟩
    all_goals
      obtain ⟨level, small, own⟩ := ih (closed levels entries mem _) inside
      exact ⟨level, small.trans (Nat.lt_succ_self _), own⟩

theorem climbInputs_concat (step : V) : climbInputs node turn key levels value (path ++ [step]) =
    climbInputs node turn key levels value path ∪
      {(levels + path.length, ordered turn key (levels + path.length) (climb node turn key levels value path) step)} := by
  induction path generalizing levels value with
  | nil =>
    show {_} ∪ ∅ = ∅ ∪ {_}
    rw [union_empty, empty_union]
    rfl
  | cons first path ih =>
    show {_} ∪ climbInputs node turn key (levels + 1) _ (path ++ [step]) = ({_} ∪ _) ∪ _
    rw [ih, union_assoc, length_cons, Nat.add_assoc, Nat.add_comm 1]
    rfl

theorem climbInputs_siblings : climbInputs node turn key bottom
    (subtree node blank turn bottom (along turn key bottom steps entries))
      (siblings node blank turn key bottom steps entries) ⊆ inputs node blank turn (bottom + steps) entries := by
  induction steps generalizing entries with
  | zero => exact empty_subset _
  | succ steps ih =>
    rw [siblings_succ, climbInputs_concat, siblings_length, along_succ, climb_siblings]
    apply union_subset
    · exact ih.trans (inputs_side _)
    · exact singleton_subset_iff.mpr mem_inputs_succ

theorem ordered_inj (same : ordered turn key levels own other = ordered turn key levels own' other') :
    own = own' ∧ other = other' := by
  unfold ordered at same
  cases sided : turn key levels with
  | false =>
    rw [sided] at same
    exact Prod.mk.inj same
  | true =>
    rw [sided] at same
    exact (Prod.mk.inj same).symm

theorem subtree_succ (key : K) : subtree node blank turn (levels + 1) entries = join node turn key levels
    (subtree node blank turn levels (side turn levels (turn key levels) entries))
      (subtree node blank turn levels (side turn levels (!turn key levels) entries)) := join_side.symm

variable (binding : Binding node mark hashed)
include binding

theorem climb_last (climbed : climbInputs node turn key bottom value (path ++ [step]) ⊆ hashed)
    (built : inputs node blank turn (bottom + path.length + 1) entries ⊆ hashed)
    (same : mark (climb node turn key bottom value (path ++ [step])) =
      mark (subtree node blank turn (bottom + path.length + 1) entries)) :
    climb node turn key bottom value path = subtree node blank turn (bottom + path.length)
        (side turn (bottom + path.length) (turn key (bottom + path.length)) entries) ∧
      step = subtree node blank turn (bottom + path.length)
        (side turn (bottom + path.length) (!turn key (bottom + path.length)) entries) := by
  rw [climb_concat, subtree_succ key] at same
  apply ordered_inj
  apply binding (climbed _) (built mem_inputs_succ) same
  rw [climbInputs_concat]
  exact Or.inr rfl

theorem climb_exact (climbed : climbInputs node turn key bottom value path ⊆ hashed)
    (built : inputs node blank turn (bottom + path.length) entries ⊆ hashed)
    (same : climb node turn key bottom value path = subtree node blank turn (bottom + path.length) entries) :
    value = subtree node blank turn bottom (along turn key bottom path.length entries) ∧
      path = siblings node blank turn key bottom path.length entries := by
  induction path using reverseRecOn generalizing entries with
  | nil => exact ⟨same, rfl⟩
  | append_singleton path step ih =>
    have long : (path ++ [step]).length = path.length + 1 := length_append
    rw [long] at built same ⊢
    obtain ⟨own, other⟩ := climb_last binding climbed built (congrArg mark same)
    have earlier : climbInputs node turn key bottom value path ⊆ hashed := by
      rw [climbInputs_concat] at climbed
      exact subset_union_left.trans climbed
    obtain ⟨below, beside⟩ := ih earlier ((inputs_side _).trans built) own
    refine ⟨below, ?_⟩
    rw [siblings_succ, ← beside, ← other]

theorem climb_marked (steps : path ≠ []) (climbed : climbInputs node turn key bottom value path ⊆ hashed)
    (built : inputs node blank turn (bottom + path.length) entries ⊆ hashed)
    (same : mark (climb node turn key bottom value path) = mark (subtree node blank turn (bottom + path.length) entries)) :
    climb node turn key bottom value path = subtree node blank turn (bottom + path.length) entries := by
  cases path using reverseRecOn with
  | nil => exact absurd rfl steps
  | append_singleton path step =>
    have long : (path ++ [step]).length = path.length + 1 := length_append
    rw [long] at built same ⊢
    obtain ⟨own, other⟩ := climb_last binding climbed built same
    rw [climb_concat, own]
    nth_rewrite 1 [other]
    exact (subtree_succ key).symm

theorem void_exact (voids : inputs node blank turn levels [] ⊆ hashed)
    (built : inputs node blank turn levels entries ⊆ hashed) (apart : ∀ entry ∈ entries, mark entry.2 ≠ mark blank)
    (same : mark (void node blank levels) = mark (subtree node blank turn levels entries)) : entries = [] := by
  induction levels generalizing entries with
  | zero =>
    cases entries with
    | nil => rfl
    | cons first rest => exact absurd same.symm (apart first mem_cons_self)
  | succ levels ih =>
    have blanks : (levels, void node blank levels, void node blank levels) ∈ hashed := by
      apply voids
      apply Or.inl
      rw [side_nil, side_nil, subtree_nil]
      rfl
    have children := binding blanks (built (Or.inl rfl)) same
    obtain ⟨left, right⟩ := Prod.mk.inj children
    have below : inputs node blank turn levels [] ⊆ inputs node blank turn (levels + 1) [] := by
      exact @inputs_side K V node blank turn [] levels false
    have bare (wanted : Bool) (equal : void node blank levels = subtree node blank turn levels (side turn levels wanted entries)) :
        side turn levels wanted entries = [] :=
      ih (below.trans voids) ((inputs_side wanted).trans built)
        (fun entry mem => apart entry (mem_side.mp mem).1) (congrArg mark equal)
    apply eq_nil_iff_forall_not_mem.mpr
    intro entry mem
    have taken : entry ∈ side turn levels (turn entry.1 levels) entries := mem_side.mpr ⟨mem, rfl⟩
    cases sided : turn entry.1 levels with
    | false =>
      rw [sided, bare false left] at taken
      cases taken
    | true =>
      rw [sided, bare true right] at taken
      cases taken

end

theorem descend_nil : descend node blank turn key levels ([] : List (K × V)) = (levels, []) := by
  cases levels with
  | zero => rfl
  | succ levels => rfl

theorem descend_succ (some : entries ≠ []) : descend node blank turn key (levels + 1) entries =
    ((descend node blank turn key levels (side turn levels (turn key levels) entries)).1,
      (descend node blank turn key levels (side turn levels (turn key levels) entries)).2 ++
        [subtree node blank turn levels (side turn levels (!turn key levels) entries)]) := by
  rw [descend, if_neg]
  rw [List.isEmpty_iff]
  exact some

theorem descend_leaves (gone : along turn key bottom steps entries = [])
    (last : ∀ above, steps = above + 1 → along turn key (bottom + 1) above entries ≠ []) :
    descend node blank turn key (bottom + steps) entries =
      (bottom, siblings node blank turn key bottom steps entries) := by
  induction steps generalizing entries with
  | zero =>
    rw [show entries = [] from gone]
    exact descend_nil
  | succ steps ih =>
    have some : entries ≠ [] := by
      rintro rfl
      exact last steps rfl along_nil
    have rest : descend node blank turn key (bottom + steps)
        (side turn (bottom + steps) (turn key (bottom + steps)) entries) = (bottom, siblings node blank turn key bottom steps
          (side turn (bottom + steps) (turn key (bottom + steps)) entries)) := by
      apply ih gone
      rintro above rfl gone'
      apply last (above + 1) rfl
      rwa [along_succ, Nat.add_right_comm bottom 1 above]
    show descend node blank turn key (bottom + steps + 1) entries = _
    rw [descend_succ some, rest]
    rfl

theorem descend_arrives (arrived : along turn key 0 levels entries ≠ []) :
    descend node blank turn key levels entries = (0, siblings node blank turn key 0 levels entries) := by
  induction levels generalizing entries with
  | zero => rfl
  | succ levels ih =>
    have some : entries ≠ [] := by
      rintro rfl
      exact arrived along_nil
    rw [along_succ, Nat.zero_add] at arrived
    rw [descend_succ some, ih arrived, siblings_succ, Nat.zero_add]

theorem exists_leave (gone : along turn key 0 levels entries = []) :
    ∃ bottom steps, bottom + steps = levels ∧ along turn key bottom steps entries = [] ∧
      ∀ above, steps = above + 1 → along turn key (bottom + 1) above entries ≠ [] := by
  induction levels generalizing entries with
  | zero => exact ⟨0, 0, rfl, gone, fun above one => nomatch one⟩
  | succ levels ih =>
    rw [along_succ, Nat.zero_add] at gone
    obtain ⟨bottom, steps, rfl, left, last⟩ := ih gone
    by_cases none : entries = []
    · subst none
      exact ⟨bottom + steps + 1, 0, rfl, rfl, fun above one => nomatch one⟩
    · refine ⟨bottom, steps + 1, rfl, left, ?_⟩
      intro above _
      obtain rfl : steps = above := by omega
      cases steps with
      | zero => exact none
      | succ steps =>
        have held := last steps rfl
        rwa [along_succ, Nat.add_right_comm bottom 1 steps]

end SparseTrie
