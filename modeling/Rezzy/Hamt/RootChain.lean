import Rezzy.Hamt.Gc

namespace Rezzy.Hamt

open List
open RefcountTable (decrement new)

variable {H : Type} [DecidableEq H]

def LinearRootChain.count (chain : LinearRootChain H) (hash : H) : Nat := chain.table.count hash

/-- A transition and then the retirement of the root before it; the panic of the first ends the run. -/
def LinearRootChain.transitionRetireOn (chain : LinearRootChain H) (delta : NodeHashDelta H) (newRoot : H) :
    LinearRootChain H × Except (RootChainFault H) (List H) :=
  match chain.transitionOn delta newRoot with
  | (both, .ok _) => both.retirePreviousOn
  | (both, .error fault) => (both, .error fault)

section

open RefcountTable

variable {table : RefcountTable H} {hashes : List H}

theorem count_increment (table : RefcountTable H) (hash other : H) :
    (table.increment hash).count other = if other = hash then saturatingSucc (table.count hash) else table.count other := by
  unfold increment RefcountTable.count
  by_cases same : other = hash
  · subst same
    simp
  · simp [same]

theorem count_applyNew (fits : ∀ hash, table.count hash < 2 ^ 64) (hashes : List H) (hash : H) :
    (table.applyNew hashes).count hash = min (table.count hash + hashes.count hash) (2 ^ 64 - 1) := by
  induction hashes generalizing table with
  | nil =>
    have small := fits hash
    simp only [applyNew, foldl_nil, count_nil]
    omega
  | cons first rest ih =>
    have step : ∀ other, (table.increment first).count other < 2 ^ 64 := by
      intro other
      have small := fits other
      rw [count_increment]
      unfold saturatingSucc
      split <;> omega
    have run : table.applyNew (first :: rest) = (table.increment first).applyNew rest := rfl
    rw [run, ih step, count_increment, count_cons]
    unfold saturatingSucc
    by_cases same : hash = first
    · subst same
      simp only [beq_self_eq_true, ↓reduceIte]
      omega
    · simp [same, Ne.symm same]

theorem count_requested (short : hashes.length < 2 ^ 64) (hash : H) :
    ((new : RefcountTable H).bootstrap hashes).count hash = hashes.count hash := by
  have run : (new : RefcountTable H).bootstrap hashes = RefcountTable.new.applyNew hashes := rfl
  have empty : ∀ hash, (new : RefcountTable H).count hash = 0 := fun _ => rfl
  have few := hashes.count_le_length (a := hash)
  rw [run, count_applyNew (fun hash => (empty hash).symm ▸ (by decide)), empty]
  omega

theorem decrement_spec (table : RefcountTable H) (zeroed : List H) (hash : H) :
    (∀ other, (decrement (table, zeroed) hash).1.count other =
      if other = hash then table.count hash - 1 else table.count other) ∧
    (decrement (table, zeroed) hash).2 = if table.count hash ≤ 1 then zeroed ++ [hash] else zeroed := by
  have remaining : (table.counts hash).elim 0 (· - 1) = table.count hash - 1 := by
    unfold RefcountTable.count
    cases table.counts hash <;> rfl
  unfold decrement
  dsimp only
  rw [remaining]
  split
  · rename_i last
    refine ⟨fun other => ?_, (if_pos (by omega)).symm⟩
    unfold RefcountTable.count at last ⊢
    by_cases same : other = hash
    · subst same
      simp [last]
    · simp [same]
  · rename_i more
    refine ⟨fun other => ?_, (if_neg (by omega)).symm⟩
    unfold RefcountTable.count
    by_cases same : other = hash
    · subst same
      simp
    · simp [same]

theorem decrements_spec (affordable : ∀ hash, hashes.count hash ≤ table.count hash) (zeroed : List H) :
    (∀ hash, (hashes.foldl decrement (table, zeroed)).1.count hash = table.count hash - hashes.count hash) ∧
    ∀ hash, hash ∈ (hashes.foldl decrement (table, zeroed)).2 ↔
      hash ∈ zeroed ∨ hash ∈ hashes ∧ table.count hash = hashes.count hash := by
  induction hashes generalizing table zeroed with
  | nil => simp
  | cons first rest ih =>
    obtain ⟨counts, reported⟩ := decrement_spec table zeroed first
    have paid : ∀ hash, rest.count hash ≤ (decrement (table, zeroed) first).1.count hash := by
      intro hash
      have enough := affordable hash
      rw [count_cons] at enough
      rw [counts]
      by_cases same : hash = first
      · subst same
        simp only [beq_self_eq_true, ↓reduceIte] at enough ⊢
        omega
      · simpa [same, Ne.symm same] using enough
    obtain ⟨left, zeroes⟩ := ih paid (decrement (table, zeroed) first).2
    rw [foldl_cons]
    refine ⟨fun hash => ?_, fun hash => ?_⟩
    · rw [left, counts, count_cons]
      by_cases same : hash = first
      · subst same
        simp only [beq_self_eq_true, ↓reduceIte]
        omega
      · simp [same, Ne.symm same]
    · have enough := affordable first
      rw [zeroes, counts, reported, mem_cons, count_cons]
      rw [count_cons_self] at enough
      by_cases same : hash = first
      · subst same
        have inRest : hash ∈ rest ↔ 0 < rest.count hash := count_pos_iff.symm
        simp only [beq_self_eq_true, ↓reduceIte, true_or, true_and, inRest]
        by_cases last : table.count hash ≤ 1
        · rw [if_pos last, mem_append, mem_singleton]
          simp only [or_true, true_or, true_iff]
          omega
        · rw [if_neg last]
          have less : table.count hash - 1 = rest.count hash ↔ table.count hash = rest.count hash + 1 := by omega
          rw [less]
          have some_ : table.count hash = rest.count hash + 1 → 0 < rest.count hash := by omega
          tauto
      · have listed : hash ∈ (if table.count first ≤ 1 then zeroed ++ [first] else zeroed) ↔ hash ∈ zeroed := by
          split <;> simp [same]
        rw [listed]
        simp [same, Ne.symm same]

theorem applySupersededOn_spec (table : RefcountTable H) (short : hashes.length < 2 ^ 64) :
    ((∀ hash, hashes.count hash ≤ table.count hash) →
      ∃ after zeroed, table.applySupersededOn hashes = (after, .ok zeroed) ∧
        (∀ hash, after.count hash = table.count hash - hashes.count hash) ∧
        ∀ hash, hash ∈ zeroed ↔ hash ∈ hashes ∧ table.count hash = hashes.count hash) ∧
    ((¬∀ hash, hashes.count hash ≤ table.count hash) →
      ∃ fault, table.applySupersededOn hashes = (table, .error fault)) := by
  unfold applySupersededOn
  dsimp only
  refine ⟨fun affordable => ?_, fun short => ?_⟩
  · have none : (hashes.find? fun hash =>
        table.count hash < (RefcountTable.new.bootstrap hashes).count hash) = none := by
      rw [find?_eq_none]
      intro hash _
      have enough := affordable hash
      rw [count_requested short]
      simpa using enough
    obtain ⟨counts, zeroes⟩ := decrements_spec affordable []
    rw [none]
    exact ⟨_, _, rfl, counts, fun hash => by simp [zeroes]⟩
  · cases found : hashes.find? fun hash =>
        table.count hash < (RefcountTable.new.bootstrap hashes).count hash with
    | some hash => exact ⟨⟨hash⟩, rfl⟩
    | none =>
      rw [find?_eq_none] at found
      refine absurd (fun hash => ?_) short
      by_cases mem : hash ∈ hashes
      · have enough := found hash mem
        rw [count_requested ‹_›] at enough
        simpa using enough
      · rw [count_eq_zero_of_not_mem mem]
        exact Nat.zero_le _

end

namespace LinearRootChain

variable (chain : LinearRootChain H) (delta : NodeHashDelta H) (newRoot : H)

def Affords : Prop := ∀ hash, delta.supersededNodeHashes.count hash ≤ chain.count hash

def AffordsBoth : Prop :=
  ∀ hash, delta.supersededNodeHashes.count hash ≤ chain.count hash + delta.newNodeHashes.count hash

def KeepsApart : Prop := ∀ hash ∈ delta.supersededNodeHashes, hash ∈ delta.newNodeHashes →
  delta.supersededNodeHashes.count hash < chain.count hash ∧
    chain.count hash + delta.newNodeHashes.count hash < 2 ^ 64

structure StepsAgree : Prop where
  fails : (chain.advanceOn delta newRoot).2.isOk = (chain.transitionRetireOn delta newRoot).2.isOk
  agrees : ∀ zeroed reported, (chain.advanceOn delta newRoot).2 = .ok zeroed →
    (chain.transitionRetireOn delta newRoot).2 = .ok reported →
      (∀ hash, (chain.advanceOn delta newRoot).1.count hash = (chain.transitionRetireOn delta newRoot).1.count hash) ∧
      ∀ hash, hash ∈ zeroed ↔ hash ∈ reported
  advance : ∀ fault, (chain.advanceOn delta newRoot).2 = .error fault →
    ∀ hash, (chain.advanceOn delta newRoot).1.count hash = chain.count hash
  transition : ∀ fault, (chain.transitionOn delta newRoot).2 = .error fault →
    ∀ hash, (chain.transitionOn delta newRoot).1.count hash = chain.count hash
  retire : ∀ fault, (chain.transitionOn delta newRoot).1.retirePreviousOn.2 = .error fault →
    ∀ hash, (chain.transitionOn delta newRoot).1.retirePreviousOn.1.count hash =
      (chain.transitionOn delta newRoot).1.count hash
  superseded : ∀ hashes fault, (chain.table.applySupersededOn hashes).2 = .error fault →
    ∀ hash, (chain.table.applySupersededOn hashes).1.count hash = chain.count hash

variable {chain delta newRoot}

theorem applySupersededOn_error {table : RefcountTable H} {hashes : List H} {fault : RefcountUnderflow H}
    (failed : (table.applySupersededOn hashes).2 = .error fault) : (table.applySupersededOn hashes).1 = table := by
  unfold RefcountTable.applySupersededOn at failed ⊢
  dsimp only at failed ⊢
  split at failed
  · rfl
  · cases failed

theorem retirePreviousOn_error (failed : chain.retirePreviousOn.2 = .error fault) (hash : H) :
    chain.retirePreviousOn.1.count hash = chain.count hash := by
  unfold retirePreviousOn at failed ⊢
  cases pending : chain.pendingRetirement with
  | none => rfl
  | some hashes =>
    rw [pending] at failed
    dsimp only at failed ⊢
    cases run : chain.table.applySupersededOn hashes with
    | mk table result =>
      rw [run] at failed
      cases result with
      | ok zeroed => cases failed
      | error underflow =>
        have kept := @applySupersededOn_error _ _ chain.table hashes underflow (by rw [run])
        rw [run] at kept
        dsimp only at kept ⊢
        rw [kept]
        rfl

theorem advanceOn_error (failed : (chain.advanceOn delta newRoot).2 = .error fault) (hash : H) :
    (chain.advanceOn delta newRoot).1.count hash = chain.count hash := by
  unfold advanceOn at failed ⊢
  split at failed
  · rename_i idle
    rw [if_pos idle]
    cases run : chain.table.applySupersededOn delta.supersededNodeHashes with
    | mk table result =>
      rw [run] at failed
      cases result with
      | ok zeroed => cases failed
      | error underflow =>
        have kept := @applySupersededOn_error _ _ chain.table delta.supersededNodeHashes underflow (by rw [run])
        rw [run] at kept
        dsimp only at kept ⊢
        rw [kept]
  · rename_i pending
    rw [if_neg pending]

theorem transitionOn_error (failed : (chain.transitionOn delta newRoot).2 = .error fault) (hash : H) :
    (chain.transitionOn delta newRoot).1.count hash = chain.count hash := by
  unfold transitionOn at failed ⊢
  split at failed
  · cases failed
  · rename_i pending
    rw [if_neg pending]

theorem stepsAgree_of (fails : (chain.advanceOn delta newRoot).2.isOk = (chain.transitionRetireOn delta newRoot).2.isOk)
    (agrees : ∀ zeroed reported, (chain.advanceOn delta newRoot).2 = .ok zeroed →
      (chain.transitionRetireOn delta newRoot).2 = .ok reported →
        (∀ hash, (chain.advanceOn delta newRoot).1.count hash =
          (chain.transitionRetireOn delta newRoot).1.count hash) ∧ ∀ hash, hash ∈ zeroed ↔ hash ∈ reported) :
    chain.StepsAgree delta newRoot where
  fails := fails
  agrees := agrees
  advance _ := advanceOn_error
  transition _ := transitionOn_error
  retire _ := retirePreviousOn_error
  superseded hashes fault failed hash := by
    rw [applySupersededOn_error failed]
    rfl

section

variable (idle : chain.pendingRetirement = none) (fits : ∀ hash, chain.count hash < 2 ^ 64)
  (short : delta.supersededNodeHashes.length < 2 ^ 64)

include idle fits short

theorem advanceOn_spec (newRoot : H) :
    (chain.Affords delta → ∃ after zeroed, chain.advanceOn delta newRoot = (after, .ok zeroed) ∧
      (∀ hash, after.count hash = min (chain.count hash - delta.supersededNodeHashes.count hash +
        delta.newNodeHashes.count hash) (2 ^ 64 - 1)) ∧
      ∀ hash, hash ∈ zeroed ↔ hash ∈ delta.supersededNodeHashes ∧
        chain.count hash = delta.supersededNodeHashes.count hash) ∧
    (¬chain.Affords delta → ∃ after fault, chain.advanceOn delta newRoot = (after, .error fault)) := by
  obtain ⟨paid, unpaid⟩ := applySupersededOn_spec chain.table short
  unfold advanceOn
  rw [idle, Option.isNone_none, if_pos rfl]
  refine ⟨fun affords => ?_, fun lacks => ?_⟩
  · obtain ⟨table, zeroed, run, counts, reports⟩ := paid affords
    rw [run]
    refine ⟨_, zeroed, rfl, fun hash => ?_, reports⟩
    have small : ∀ hash, table.count hash < 2 ^ 64 := by
      intro hash
      rw [counts]
      exact Nat.lt_of_le_of_lt (Nat.sub_le _ _) (fits hash)
    exact (count_applyNew small _ hash).trans (by rw [counts]; rfl)
  · obtain ⟨fault, run⟩ := unpaid lacks
    rw [run]
    exact ⟨_, _, rfl⟩

theorem transitionRetireOn_spec (newRoot : H) :
    (chain.AffordsBoth delta → ∃ after zeroed, chain.transitionRetireOn delta newRoot = (after, .ok zeroed) ∧
      (∀ hash, after.count hash = min (chain.count hash + delta.newNodeHashes.count hash) (2 ^ 64 - 1) -
        delta.supersededNodeHashes.count hash) ∧
      ∀ hash, hash ∈ zeroed ↔ hash ∈ delta.supersededNodeHashes ∧
        min (chain.count hash + delta.newNodeHashes.count hash) (2 ^ 64 - 1) = delta.supersededNodeHashes.count hash) ∧
    (¬chain.AffordsBoth delta → ∃ after fault, chain.transitionRetireOn delta newRoot = (after, .error fault)) := by
  have grown := count_applyNew fits delta.newNodeHashes
  obtain ⟨paid, unpaid⟩ := applySupersededOn_spec (chain.table.applyNew delta.newNodeHashes) short
  have affords : chain.AffordsBoth delta ↔ ∀ hash, delta.supersededNodeHashes.count hash ≤
      (chain.table.applyNew delta.newNodeHashes).count hash := by
    refine forall_congr' fun hash => ?_
    have few := Nat.lt_of_le_of_lt (count_le_length (a := hash) (l := delta.supersededNodeHashes)) short
    rw [grown]
    show _ ≤ chain.table.count hash + _ ↔ _
    omega
  unfold transitionRetireOn transitionOn
  rw [idle, Option.isNone_none, if_pos rfl]
  unfold retirePreviousOn
  dsimp only
  rw [affords]
  refine ⟨fun enough => ?_, fun lacks => ?_⟩
  · obtain ⟨table, zeroed, run, counts, reports⟩ := paid enough
    rw [run]
    refine ⟨_, zeroed, rfl, fun hash => ?_, fun hash => ?_⟩
    · exact (counts hash).trans (by rw [grown]; rfl)
    · rw [reports, grown]
      rfl
  · obtain ⟨fault, run⟩ := unpaid lacks
    rw [run]
    exact ⟨_, _, rfl⟩

end

theorem agrees_iff_keepsApart (fits : ∀ hash, chain.count hash < 2 ^ 64) (affords : chain.Affords delta) :
    (∀ hash, min (chain.count hash - delta.supersededNodeHashes.count hash + delta.newNodeHashes.count hash)
        (2 ^ 64 - 1) = min (chain.count hash + delta.newNodeHashes.count hash) (2 ^ 64 - 1) -
          delta.supersededNodeHashes.count hash) ∧
      (∀ hash ∈ delta.supersededNodeHashes, chain.count hash = delta.supersededNodeHashes.count hash ↔
        min (chain.count hash + delta.newNodeHashes.count hash) (2 ^ 64 - 1) =
          delta.supersededNodeHashes.count hash) ↔ chain.KeepsApart delta := by
  constructor
  · rintro ⟨counts, reports⟩ hash old new
    have size := fits hash
    have enough := affords hash
    have taken := count_pos_iff.mpr old
    have added := count_pos_iff.mpr new
    have same := counts hash
    have report := reports hash old
    have inside : chain.count hash + delta.newNodeHashes.count hash < 2 ^ 64 := by
      by_contra outside
      omega
    refine ⟨?_, inside⟩
    by_contra last
    omega
  · intro apart
    have each : ∀ hash ∈ delta.supersededNodeHashes, delta.newNodeHashes.count hash = 0 ∨
        delta.supersededNodeHashes.count hash < chain.count hash ∧
          chain.count hash + delta.newNodeHashes.count hash < 2 ^ 64 := by
      intro hash old
      by_cases new : hash ∈ delta.newNodeHashes
      · exact .inr (apart hash old new)
      · exact .inl (count_eq_zero_of_not_mem new)
    refine ⟨fun hash => ?_, fun hash old => ?_⟩
    · have size := fits hash
      have enough := affords hash
      by_cases old : hash ∈ delta.supersededNodeHashes
      · have cases := each hash old
        omega
      · rw [count_eq_zero_of_not_mem old]
        omega
    · have size := fits hash
      have enough := affords hash
      have cases := each hash old
      omega

/-- One step is as good as two just where the old counts alone pay and every hash of both lists keeps an older copy,
    or where neither step can be paid or begun. -/
theorem stepsAgree_iff (chain : LinearRootChain H) (delta : NodeHashDelta H) (newRoot : H)
    (fits : ∀ hash, chain.count hash < 2 ^ 64) (short : delta.supersededNodeHashes.length < 2 ^ 64) :
    chain.StepsAgree delta newRoot ↔
      chain.pendingRetirement.isSome ∨ ¬chain.AffordsBoth delta ∨ chain.Affords delta ∧ chain.KeepsApart delta := by
  cases pending : chain.pendingRetirement with
  | some hashes =>
    refine iff_of_true (stepsAgree_of ?_ ?_) (.inl rfl)
    all_goals
      unfold transitionRetireOn advanceOn transitionOn
      rw [pending, Option.isNone_some, if_neg (by decide)]
      dsimp only
    · rfl
    · intro zeroed _ ran
      cases ran
  | none =>
    obtain ⟨paid, unpaid⟩ := advanceOn_spec pending fits short newRoot
    obtain ⟨paidBoth, unpaidBoth⟩ := transitionRetireOn_spec pending fits short newRoot
    have wider : chain.Affords delta → chain.AffordsBoth delta :=
      fun affords hash => Nat.le_add_right_of_le (affords hash)
    rw [Option.isSome_none]
    by_cases both : chain.AffordsBoth delta
    · obtain ⟨later, reported, two, laterCounts, laterReports⟩ := paidBoth both
      by_cases affords : chain.Affords delta
      · obtain ⟨after, zeroed, one, counts, reports⟩ := paid affords
        simp only [Bool.false_eq_true, both, affords, not_true_eq_false, true_and, false_or]
        rw [← agrees_iff_keepsApart fits affords]
        constructor
        · intro agree
          obtain ⟨sameCounts, sameReports⟩ := agree.agrees zeroed reported (by rw [one]) (by rw [two])
          rw [one, two] at sameCounts
          refine ⟨fun hash => (counts hash).symm.trans ((sameCounts hash).trans (laterCounts hash)), fun hash old => ?_⟩
          have same := ((reports hash).symm.trans (sameReports hash)).trans (laterReports hash)
          simpa [old] using same
        · rintro ⟨sameCounts, sameReports⟩
          refine stepsAgree_of (by rw [one, two]; rfl) ?_
          rw [one, two]
          intro _ _ first second
          obtain rfl := Except.ok.inj first
          obtain rfl := Except.ok.inj second
          refine ⟨fun hash => (counts hash).trans ((sameCounts hash).trans (laterCounts hash).symm), fun hash => ?_⟩
          rw [reports, laterReports]
          exact and_congr_right (sameReports hash)
      · obtain ⟨after, fault, one⟩ := unpaid affords
        refine iff_of_false (fun agree => ?_) (by simp [both, affords])
        have fails := agree.fails
        rw [one, two] at fails
        cases fails
    · obtain ⟨later, failure, two⟩ := unpaidBoth both
      obtain ⟨after, fault, one⟩ := unpaid fun affords => both (wider affords)
      refine iff_of_true (stepsAgree_of (by rw [one, two]; rfl) ?_) (.inr (.inl both))
      rw [one]
      intro _ _ ran
      cases ran

def lone : LinearRootChain (Fin 3) := .bootstrap [0] 1

theorem stepsAgree_iff_lone : lone.StepsAgree ⟨[0], [1]⟩ 2 :=
  (stepsAgree_iff lone ⟨[0], [1]⟩ 2 (by decide) (by decide)).mpr (.inr (.inr ⟨by unfold Affords; decide, by
    unfold KeepsApart
    decide⟩))

/-- A node that the new root keeps is reported by the one step, and not by the two. -/
theorem advance_reports_kept :
    ∃ (chain : LinearRootChain (Fin 3)) (delta : NodeHashDelta (Fin 3)) (newRoot : Fin 3),
      (∀ hash, chain.count hash < 2 ^ 64) ∧ ¬chain.StepsAgree delta newRoot := by
  refine ⟨lone, ⟨[0], [0]⟩, 2, by decide, fun agree => ?_⟩
  have reports := (agree.agrees [0] [] rfl rfl).2 0
  exact absurd (reports.mp (mem_cons_self ..)) (not_mem_nil)

end LinearRootChain

end Rezzy.Hamt
