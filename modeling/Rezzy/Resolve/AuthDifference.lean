import Rezzy.Resolve.MultiSpec

namespace Rezzy.Resolve

open Basespec Auth State Permuted EventAuth List Worklist Option

open Worklist (Reached Edge)
open Prod (fst snd)

variable {Id : Type} [LinearOrder Id]

/-- The walks over a lookup that returns an event's depth and auth events. `nodes` lists the ids it knows. -/
def EventAuth.ofLookup (nodes : List Id) (lookup : Id → Option (Nat × List Id)) : EventAuth Id where
  nodes := nodes
  known id := (lookup id).isSome
  depthOf id := ((lookup id).map fst).getD 0
  authOf id := ((lookup id).map snd).getD []

def lookupEdges (lookup : Id → Option (Nat × List Id)) (id : Id) : List Id :=
  ((lookup id).map snd).getD []

def ConflictedAncestor (lookup : Id → Option (Nat × List Id)) (conflictedIds : List Id) (state : SharedState Id)
    (id : Id) : Prop :=
  (lookup id).isSome ∧ ∃ seed ∈ stateValues state, seed ∈ conflictedIds ∧
    Relation.TransGen (Edge (lookupEdges lookup)) seed id

section

variable {nodes : List Id} {lookup : Id → Option (Nat × List Id)} {unconflictedState : SharedState Id}
  {conflictedIds : List Id}

omit [LinearOrder Id] in
theorem ofLookup_support (lists : ∀ id, (lookup id).isSome → id ∈ nodes) (id : Id)
    (known : (EventAuth.ofLookup nodes lookup).known id = true) : id ∈ (EventAuth.ofLookup nodes lookup).nodes :=
  lists id known

variable (nodes lookup) in
omit [LinearOrder Id] in
theorem ofLookup_kept (keep : Id → Bool) : Worklist.keptNext (EventAuth.ofLookup nodes lookup).known
        (fun id => ((EventAuth.ofLookup nodes lookup).authOf id).filter keep) =
      fun id => (lookupEdges lookup id).filter keep := by
  funext id
  cases found : lookup id <;> simp [keptNext, ofLookup, lookupEdges, found]

variable (unconflictedState) in
theorem mem_unconflictedMarks (lists : ∀ id, (lookup id).isSome → id ∈ nodes) (id : Id) :
    id ∈ flood (popFirst (deeper (ofLookup nodes lookup).depthOf))
        (ofLookup nodes lookup).known (ofLookup nodes lookup).authOf
        (ofLookup nodes lookup).nodes (stateValues unconflictedState) ↔
      Reached (lookupEdges lookup) (stateValues unconflictedState) id := by
  have edges : keptNext (ofLookup nodes lookup).known (ofLookup nodes lookup).authOf = lookupEdges lookup := by
    simpa using ofLookup_kept nodes lookup fun _ => true
  rw [mem_flood (popFirst_pops _) (ofLookup_support lists), edges]

variable (unconflictedState) in
theorem unconflictedClosure_cases (lists : ∀ id, (lookup id).isSome → id ∈ nodes) :
    (∃ missing, unconflictedClosure (ofLookup nodes lookup) unconflictedState = .error missing ∧
      Reached (lookupEdges lookup) (stateValues unconflictedState) missing ∧ lookup missing = none) ∨
    ∃ visited, unconflictedClosure (ofLookup nodes lookup) unconflictedState = .ok visited ∧
      (∀ id, id ∈ visited ↔ Reached (lookupEdges lookup) (stateValues unconflictedState) id) ∧
      ∀ id ∈ visited, (lookup id).isSome := by
  have marks := mem_unconflictedMarks unconflictedState lists
  unfold unconflictedClosure
  dsimp only
  revert marks
  generalize flood (α := Id) _ _ _ _ _ = visited
  intro marks
  cases found : visited.find? fun id => !(ofLookup nodes lookup).known id with
  | some missing =>
    have unknown := find?_some found
    refine .inl ⟨missing, rfl, (marks missing).mp (mem_of_find?_eq_some found), ?_⟩
    simpa [ofLookup] using unknown
  | none =>
    refine .inr ⟨visited, rfl, marks, fun id mem => ?_⟩
    have known := find?_eq_none.mp found id mem
    simpa [ofLookup, isSome_iff_ne_none] using known

variable (conflictedIds) in
theorem mem_conflictedChain_lookup (lists : ∀ id, (lookup id).isSome → id ∈ nodes)
    (closure : ∀ id, id ∈ visited ↔ Reached (lookupEdges lookup) (stateValues unconflictedState) id)
    (state : SharedState Id) (id : Id) :
    id ∈ conflictedChain (ofLookup nodes lookup) visited conflictedIds state ↔
      id ∉ visited ∧ ConflictedAncestor lookup conflictedIds state id := by
  have auth : (ofLookup nodes lookup).authOf = lookupEdges lookup := rfl
  have known : (ofLookup nodes lookup).known id = (lookup id).isSome := rfl
  unfold conflictedChain ConflictedAncestor
  rw [mem_filter, mem_flood (popFirst_pops _) (ofLookup_support lists), ofLookup_kept, auth, known]
  constructor
  · intro ⟨reached, isKnown⟩
    have outside : id ∉ visited ∧ ∃ seed ∈ stateValues state, seed ∈ conflictedIds ∧
        Relation.TransGen (Edge (lookupEdges lookup)) seed id := by
      refine reached.subset_of_closed (fun id => id ∉ visited ∧ ∃ seed ∈ stateValues state, seed ∈ conflictedIds ∧
        Relation.TransGen (Edge (lookupEdges lookup)) seed id) (fun x mem => ?_) fun x y both edge => ?_
      · obtain ⟨seed, listed, edge⟩ := mem_flatMap.mp mem
        obtain ⟨listed, conflicted⟩ := mem_filter.mp listed
        obtain ⟨edge, fresh⟩ := mem_filter.mp edge
        exact ⟨of_decide_eq_true fresh, seed, listed, of_decide_eq_true conflicted, .single edge⟩
      · obtain ⟨edge, fresh⟩ := mem_filter.mp edge
        obtain ⟨seed, listed, conflicted, path⟩ := both.2
        exact ⟨of_decide_eq_true fresh, seed, listed, conflicted, path.tail edge⟩
    exact ⟨outside.1, isKnown, outside.2⟩
  · intro ⟨fresh, isKnown, seed, listed, conflicted, path⟩
    refine ⟨?_, isKnown⟩
    clear isKnown known
    induction path with
    | single edge =>
      exact .seed (mem_flatMap.mpr ⟨seed, mem_filter.mpr ⟨listed, decide_eq_true conflicted⟩,
        mem_filter.mpr ⟨edge, decide_eq_true fresh⟩⟩)
    | tail _ edge ih =>
      have before := ih fun inside => fresh ((closure _).mpr (((closure _).mp inside).step edge))
      exact before.step (mem_filter.mpr ⟨edge, decide_eq_true fresh⟩)

end

section

variable {nodes : List Id} {lookup : Id → Option (Nat × List Id)}

theorem authDifference_ok (order : Order) (stateMaps : List (SharedState Id)) (conflictedIds : List Id)
    (lists : ∀ id, (lookup id).isSome → id ∈ nodes)
    (closed : unconflictedClosure (ofLookup nodes lookup) unconflictedState = .ok visited)
    (closure : ∀ id, id ∈ visited ↔ Reached (lookupEdges lookup) (stateValues unconflictedState) id) :
    ∃ diff, authDifference order unconflictedState stateMaps conflictedIds (ofLookup nodes lookup) = .ok diff ∧
      diff.Pairwise (· < ·) ∧
      ∀ id, id ∈ diff ↔ (∃ state ∈ stateMaps, ConflictedAncestor lookup conflictedIds state id) ∧
        ¬Reached (lookupEdges lookup) (stateValues unconflictedState) id ∧
        ∃ state ∈ stateMaps, ¬ConflictedAncestor lookup conflictedIds state id := by
  have chains := fun state id => mem_conflictedChain_lookup conflictedIds lists closure state id
  refine ⟨_, by rw [authDifference, closed]; rfl, ?_, fun id => ?_⟩
  · refine ((pairwise_insertionSort (· ≤ ·) _).and ?_).imp fun {a b} both => lt_of_le_of_ne both.1 both.2
    rw [← List.Nodup, (perm_insertionSort _ _).nodup_iff]
    exact ((order.perm _ _).nodup_iff.mpr (nodup_dedup _)).filter _
  · rw [mem_insertionSort, mem_filter, (order.perm _ _).mem_iff, mem_dedup, mem_flatten]
    simp only [List.mem_map, exists_exists_and_eq_and, List.all_map, Function.comp_apply,
      decide_eq_true_eq, Bool.not_eq_true', List.all_eq_false, chains, ← closure]
    constructor
    · rintro ⟨⟨state, mem, fresh, ancestor⟩, other, listed, missed⟩
      exact ⟨⟨state, mem, ancestor⟩, fresh, other, listed, fun found => missed ⟨fresh, found⟩⟩
    · rintro ⟨⟨state, mem, ancestor⟩, fresh, other, listed, missed⟩
      exact ⟨⟨state, mem, fresh, ancestor⟩, other, listed, fun both => missed both.2⟩

/-- The difference fails just when part of the unconflicted closure is missing, and else lists the ancestors outside
    it that some maps reach and others do not. The depths only decide which missing event is named. -/
theorem authDifference_exact (order : Order) (unconflictedState : SharedState Id)
    (stateMaps : List (SharedState Id)) (conflictedIds : List Id)
    (lists : ∀ id, (lookup id).isSome → id ∈ nodes) :
    ((∃ missing, authDifference order unconflictedState stateMaps conflictedIds (.ofLookup nodes lookup) =
        .error missing) ↔
      ∃ id, Reached (lookupEdges lookup) (stateValues unconflictedState) id ∧ lookup id = none) ∧
    (∀ missing, authDifference order unconflictedState stateMaps conflictedIds (.ofLookup nodes lookup) =
        .error missing →
      Reached (lookupEdges lookup) (stateValues unconflictedState) missing ∧ lookup missing = none) ∧
    (∀ diff, authDifference order unconflictedState stateMaps conflictedIds (.ofLookup nodes lookup) = .ok diff →
      diff.Pairwise (· < ·) ∧
      ∀ id, id ∈ diff ↔ (∃ state ∈ stateMaps, ConflictedAncestor lookup conflictedIds state id) ∧
        ¬Reached (lookupEdges lookup) (stateValues unconflictedState) id ∧
        ∃ state ∈ stateMaps, ¬ConflictedAncestor lookup conflictedIds state id) ∧
    (∀ (other : Order) (maps : List (SharedState Id)), maps.Perm stateMaps →
      authDifference other unconflictedState maps conflictedIds (.ofLookup nodes lookup) =
        authDifference order unconflictedState stateMaps conflictedIds (.ofLookup nodes lookup)) ∧
    ∀ deepened : Id → Option (Nat × List Id), (∀ id, (deepened id).map Prod.snd = (lookup id).map Prod.snd) →
      ∀ diff, authDifference order unconflictedState stateMaps conflictedIds (.ofLookup nodes lookup) = .ok diff →
        authDifference order unconflictedState stateMaps conflictedIds (.ofLookup nodes deepened) = .ok diff := by
  have fails : ∀ {missing}, unconflictedClosure (EventAuth.ofLookup nodes lookup) unconflictedState = .error missing →
      ∀ (other : Order) (maps : List (SharedState Id)),
        authDifference other unconflictedState maps conflictedIds (.ofLookup nodes lookup) = .error missing := by
    intro missing closed other maps
    rw [authDifference, closed]
    rfl
  rcases unconflictedClosure_cases unconflictedState lists with
    ⟨missing, closed, reached, unknown⟩ | ⟨visited, closed, closure, covered⟩
  · have failed := fails closed order stateMaps
    refine ⟨⟨fun _ => ⟨missing, reached, unknown⟩, fun _ => ⟨missing, failed⟩⟩, fun id error => ?_,
      fun diff ok => ?_, fun other maps _ => ?_, fun _ _ diff ok => ?_⟩
    · rw [failed] at error
      obtain rfl := Except.error.inj error
      exact ⟨reached, unknown⟩
    · rw [failed] at ok
      cases ok
    · rw [failed, fails closed other maps]
    · rw [failed] at ok
      cases ok
  · obtain ⟨found, ok, ascending, members⟩ := authDifference_ok order stateMaps conflictedIds lists closed closure
    have same : ∀ {other : List Id}, other.Pairwise (· < ·) → (∀ id, id ∈ other ↔ id ∈ found) → other = found := by
      intro other sorted alike
      refine List.Perm.eq_of_pairwise (fun a b _ _ less more => absurd less (lt_asymm more)) sorted ascending ?_
      exact (List.perm_ext_iff_of_nodup (sorted.imp fun less => ne_of_lt less)
        (ascending.imp fun less => ne_of_lt less)).mpr alike
    have none : ¬∃ id, Reached (lookupEdges lookup) (stateValues unconflictedState) id ∧ lookup id = none := by
      rintro ⟨id, reached, unknown⟩
      have known := covered id ((closure id).mpr reached)
      simp [unknown] at known
    refine ⟨⟨fun ⟨missing, error⟩ => ?_, fun missing => absurd missing none⟩, fun id error => ?_, fun diff same => ?_,
      fun other maps perm => ?_, fun deepened alike diff same' => ?_⟩
    · rw [ok] at error
      cases error
    · rw [ok] at error
      cases error
    · rw [ok] at same
      obtain rfl := Except.ok.inj same
      exact ⟨ascending, members⟩
    · obtain ⟨diff, result, sorted, alike⟩ := authDifference_ok other maps conflictedIds lists closed closure
      rw [ok, result, same sorted fun id => ?_]
      rw [alike, members]
      simp only [perm.mem_iff]
    · rw [ok] at same'
      obtain rfl := Except.ok.inj same'
      have knows : ∀ id, (deepened id).isSome = (lookup id).isSome := fun id => by
        rw [← Option.isSome_map (f := Prod.snd), alike, Option.isSome_map]
      have edges : lookupEdges deepened = lookupEdges lookup := funext fun id => by
        rw [lookupEdges, alike, lookupEdges]
      have ancestors : ConflictedAncestor deepened conflictedIds = ConflictedAncestor lookup conflictedIds := by
        funext state id
        simp only [ConflictedAncestor, knows, edges]
      have listsToo : ∀ id, (deepened id).isSome → id ∈ nodes := fun id known => lists id (knows id ▸ known)
      rcases unconflictedClosure_cases unconflictedState listsToo with
        ⟨missing, _, reached, unknown⟩ | ⟨visitedToo, closedToo, closureToo, _⟩
      · refine absurd ⟨missing, edges ▸ reached, ?_⟩ none
        rw [← Option.not_isSome_iff_eq_none, ← knows, unknown]
        simp
      · obtain ⟨diff, result, sorted, alike⟩ := authDifference_ok order stateMaps conflictedIds listsToo closedToo closureToo
        rw [result, same sorted fun id => ?_]
        rw [alike, members, ancestors, edges]

end

namespace Sample

open Basespec.Sample

def missingBehind (first second : Nat) (id : Nat) : Option (Nat × List Nat) :=
  if id = 2 then some (first, [12]) else if id = 3 then some (second, [13]) else none

def chainLookup (id : Nat) : Option (Nat × List Nat) :=
  if id = 1 then some (0, []) else if id = 2 then some (1, [1]) else if id = 3 then some (2, [2]) else none

theorem chainLookup_listed (id : Nat) (known : (chainLookup id).isSome) : id ∈ [1, 2, 3] := by
  unfold chainLookup at known
  grind

end Sample

open Sample Basespec.Sample

theorem authDifference_exact_chain :
    ((∃ missing, authDifference .asListed (stateOf [create "12"]) [stateOf [joinA []], stateOf [openLevels]] [2, 3]
        (.ofLookup [1, 2, 3] chainLookup) = .error missing) ↔
      ∃ id, Reached (lookupEdges chainLookup) (stateValues (stateOf [create "12"])) id ∧ chainLookup id = none) ∧
    authDifference .asListed (stateOf [create "12"]) [stateOf [joinA []], stateOf [openLevels]] [2, 3]
      (.ofLookup [1, 2, 3] chainLookup) = .ok [2] ∧
    ∀ id, id ∈ [2] ↔
      (∃ state ∈ [stateOf [joinA []], stateOf [openLevels]], ConflictedAncestor chainLookup [2, 3] state id) ∧
        ¬Reached (lookupEdges chainLookup) (stateValues (stateOf [create "12"])) id ∧
        ∃ state ∈ [stateOf [joinA []], stateOf [openLevels]], ¬ConflictedAncestor chainLookup [2, 3] state id := by
  have computed : authDifference .asListed (stateOf [create "12"]) [stateOf [joinA []], stateOf [openLevels]] [2, 3]
      (.ofLookup [1, 2, 3] chainLookup) = .ok [2] := by decide +kernel
  have exact_ := authDifference_exact .asListed (stateOf [create "12"]) [stateOf [joinA []], stateOf [openLevels]]
    [2, 3] chainLookup_listed
  exact ⟨exact_.1, computed, (exact_.2.2.1 [2] computed).2⟩

/-- Which of two missing events is named depends on the depths of the events that cite them. -/
theorem missing_depends_on_depth :
    (∀ id, (missingBehind 1 2 id).map Prod.snd = (missingBehind 2 1 id).map Prod.snd) ∧
    authDifference .asListed (stateOf [joinA [], openLevels]) [] [] (.ofLookup [2, 3] (missingBehind 1 2)) ≠
      authDifference .asListed (stateOf [joinA [], openLevels]) [] [] (.ofLookup [2, 3] (missingBehind 2 1)) := by
  have first : authDifference .asListed (stateOf [joinA [], openLevels]) [] []
      (.ofLookup [2, 3] (missingBehind 1 2)) = .error 13 := by decide +kernel
  have second : authDifference .asListed (stateOf [joinA [], openLevels]) [] []
      (.ofLookup [2, 3] (missingBehind 2 1)) = .error 12 := by decide +kernel
  refine ⟨fun id => ?_, ?_⟩
  · unfold missingBehind
    grind
  · rw [first, second]
    exact fun same => absurd (Except.error.inj same) (by decide)

end Rezzy.Resolve
