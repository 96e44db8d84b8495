import Rezzy.Basespec.CanonicalNumbers
import Rezzy.Lib.Overlay

namespace Rezzy.Json.Value

mutual

def beq : Value → Value → Bool
  | .null, .null => true
  | .bool a, .bool b => a = b
  | .number a, .number b => a = b
  | .string a, .string b => a = b
  | .array a, .array b => beqItems a b
  | .object a, .object b => beqMembers a b
  | _, _ => false

def beqItems : List Value → List Value → Bool
  | [], [] => true
  | a :: as, b :: bs => beq a b && beqItems as bs
  | _, _ => false

def beqMembers : List (String × Value) → List (String × Value) → Bool
  | [], [] => true
  | (key, a) :: as, (key', b) :: bs => key = key' && beq a b && beqMembers as bs
  | _, _ => false

end

mutual

theorem beq_iff (a b : Value) : beq a b = true ↔ a = b := by
  cases a with
  | null => cases b <;> simp [beq]
  | bool a => cases b <;> simp [beq]
  | number a => cases b <;> simp [beq]
  | string a => cases b <;> simp [beq]
  | array as => cases b <;> simp [beq, beqItems_iff as]
  | object as => cases b <;> simp [beq, beqMembers_iff as]

theorem beqItems_iff (as bs : List Value) : beqItems as bs = true ↔ as = bs := by
  cases as with
  | nil => cases bs <;> simp [beqItems]
  | cons a as => cases bs <;> simp [beqItems, beq_iff a, beqItems_iff as]

theorem beqMembers_iff (as bs : List (String × Value)) : beqMembers as bs = true ↔ as = bs := by
  cases as with
  | nil => cases bs <;> simp [beqMembers]
  | cons a as =>
    obtain ⟨-, v⟩ := a
    cases bs <;> simp [beqMembers, Prod.ext_iff, beq_iff v, beqMembers_iff as]

end

instance instDecidableEqValue : DecidableEq Value := fun a b => decidable_of_iff _ (beq_iff a b)

end Rezzy.Json.Value

namespace Rezzy.Basespec

open Json

section

def remainderMember (preservedInner remainder : Object.Members) (e : String × Value) : Object.Members :=
  if Sorted.lookup preservedInner e.1 ≠ some e.2 then Sorted.assign remainder e.1 e.2 else remainder

def remainderTurn (redactedObj out : Object.Members) (e : String × Value) : Object.Members :=
  if Sorted.lookup redactedObj e.1 = some e.2 then out
  else
    match Sorted.lookup redactedObj e.1, e.2 with
    | some (.object preservedInner), .object fullInner =>
      let remainder := fullInner.foldl (remainderMember preservedInner) []
      if remainder.isEmpty then out else Sorted.assign out e.1 (.object remainder)
    | _, _ => Sorted.assign out e.1 e.2

def redactableContentRemainder (content redacted : Value) : Value :=
  match content with
  | .object contentObj =>
    let redactedObj := match redacted with
      | .object m => m
      | _ => []
    .object (contentObj.foldl (remainderTurn redactedObj) [])
  | _ => .object []

def splitRedactionContent (content : Value) (eventType roomVersion : String) : Value × Value :=
  let rule := redactionPreservedKeys eventType roomVersion
  let redacted := redactContent content rule
  let redactable := redactableContentRemainder content redacted
  (redacted, redactable)

end

open Sorted

section

inductive LeafPath : Object.Members → List String → Prop
  | leaf {members : Object.Members} {key : String} {v : Value} (inside : (key, v) ∈ members)
    (bare : ∀ inner, v = .object inner → inner = []) : LeafPath members [key]
  | inner {members inner : Object.Members} {key : String} {path : List String} (inside : (key, .object inner) ∈ members)
    (deeper : LeafPath inner path) : LeafPath members (key :: path)

def mergeValue (kept : Option Value) (stripped : Value) : Value :=
  match kept, stripped with
  | some (.object inner), .object rest => .object (overlay (fun _ v => v) inner rest)
  | _, v => v

def mergeContent (kept stripped : Object.Members) : Object.Members := overlay mergeValue kept stripped

inductive Part : Value → Value → Prop
  | whole (v : Value) : Part v v
  | some {inner : Object.Members} (test : String × Value → Bool) (filled : inner.filter test ≠ []) :
    Part (.object inner) (.object (inner.filter test))

structure Selected (kept content : Object.Members) : Prop where
  sorted : SortedKeys kept
  part : ∀ key w, lookup kept key = .some w → ∃ v, lookup content key = .some v ∧ Part v w

def strippedValue (kept : Object.Members) (key : String) (v : Value) : Option Value :=
  if lookup kept key = .some v then none
  else
    match lookup kept key, v with
    | .some (.object inner), .object full =>
      let remainder := full.foldl (remainderMember inner) []
      if remainder.isEmpty then none else .some (.object remainder)
    | _, v => .some v

theorem remainderTurn_foldl (kept : Object.Members) (sorted : SortedKeys content) :
    content.foldl (remainderTurn kept) [] =
      content.filterMap fun e => (strippedValue kept e.1 e.2).map (Prod.mk e.1) := by
  apply foldl_assign_some _ _ sorted
  · intro out e skipped
    unfold strippedValue at skipped
    unfold remainderTurn
    split
    · rfl
    · rename_i differs
      rw [if_neg differs] at skipped
      split
      · rename_i inner full found given
        rw [found, given] at skipped
        dsimp only at skipped
        split at skipped
        · rename_i empty
          exact if_pos empty
        · cases skipped
      · rename_i other
        split at skipped
        · rename_i inner full found given
          exact absurd given (other inner full found)
        · cases skipped
  · intro out e _ put
    unfold strippedValue at put
    unfold remainderTurn
    split
    · rename_i same
      rw [if_pos same] at put
      cases put
    · rename_i differs
      rw [if_neg differs] at put
      split
      · rename_i inner full found given
        rw [found, given] at put
        dsimp only at put
        split at put
        · cases put
        · rename_i some_
          cases put
          exact if_neg some_
      · rename_i other
        split at put
        · rename_i inner full found given
          exact absurd given (other inner full found)
        · cases put
          rfl

theorem remainderMember_foldl {inner : Object.Members} (sorted : SortedKeys inner) (test : String × Value → Bool) :
    inner.foldl (remainderMember (inner.filter test)) [] = inner.filter fun e => !test e := by
  have ordered : SortedKeys (inner.filter test) := sorted.filter _
  rw [foldl_assign_some (f := fun key v => if lookup (inner.filter test) key ≠ .some v then .some v else none) _ _ sorted,
    ← List.filterMap_eq_filter (p := fun e => !test e)]
  · apply List.filterMap_congr
    intro e mem
    have selected : lookup (inner.filter test) e.1 = .some e.2 ↔ test e = true := by
      rw [← mem_iff_lookup ordered, List.mem_filter]
      exact and_iff_right mem
    unfold Option.guard
    cases chosen : test e <;> simp [selected, chosen]
  · intro out e skipped
    split at skipped
    · cases skipped
    · rename_i same
      exact if_neg same
  · intro out e _ put
    split at put
    · rename_i differs
      cases put
      exact if_pos differs
    · cases put

theorem strippedValue_cases (selected : Selected kept content) (ordered : Ordered (.object content)) {key : String}
    {v : Value} (found : lookup content key = .some v) :
    (lookup kept key = none ∧ strippedValue kept key v = .some v) ∨
    (lookup kept key = .some v ∧ strippedValue kept key v = none) ∨
    ∃ inner test, v = .object inner ∧ SortedKeys inner ∧ inner.filter test ≠ [] ∧
      inner.filter (fun e => !test e) ≠ [] ∧ lookup kept key = .some (.object (inner.filter test)) ∧
      strippedValue kept key v = .some (.object (inner.filter fun e => !test e)) := by
  unfold strippedValue
  cases taken : lookup kept key with
  | none => exact .inl ⟨rfl, rfl⟩
  | some w =>
    obtain ⟨v', found', part⟩ := selected.part key w taken
    rw [found] at found'
    cases found'
    cases part with
    | whole => exact .inr (.inl ⟨rfl, if_pos rfl⟩)
    | @some inner test filled =>
      have sorted := ordered key inner found
      by_cases all : inner.filter test = inner
      · rw [all]
        exact .inr (.inl ⟨rfl, if_pos rfl⟩)
      · have differs : ¬(Option.some (Value.object (inner.filter test)) = .some (.object inner)) := by
          rw [Option.some.injEq, Value.object.injEq]
          exact all
        have rest : inner.filter (fun e => !test e) ≠ [] := by
          intro none
          apply all
          rw [List.filter_eq_self]
          intro e mem
          simpa using List.filter_eq_nil_iff.mp none e mem
        refine .inr (.inr ⟨inner, test, rfl, sorted, filled, rest, rfl, ?_⟩)
        rw [if_neg differs]
        dsimp only
        rw [remainderMember_foldl sorted, if_neg (by simpa using rest)]

variable {kept content : Object.Members}

def stripped (kept content : Object.Members) : Object.Members := content.foldl (remainderTurn kept) []

theorem stripped_sorted (sorted : SortedKeys content) : SortedKeys (stripped kept content) := by
  unfold stripped
  rw [remainderTurn_foldl kept sorted]
  exact sorted.filterMap _

theorem lookup_stripped (sorted : SortedKeys content) (key : String) :
    lookup (stripped kept content) key = (lookup content key).bind (strippedValue kept key) := by
  unfold stripped
  rw [remainderTurn_foldl kept sorted, lookup_filterMap sorted]

theorem overlay_parts {inner : Object.Members} (sorted : SortedKeys inner) (test : String × Value → Bool) :
    overlay (fun _ v => v) (inner.filter test) (inner.filter fun e => !test e) = inner := by
  obtain ⟨ordered, found⟩ := overlay_spec (fun _ v => v) (sorted.filter test) (sorted.filter fun e => !test e)
  apply ordered.ext_lookup sorted
  intro key
  rw [found]
  cases whole : lookup inner key with
  | none =>
    have absent : ∀ test', lookup (inner.filter test') key = none := fun test' =>
      lookup_eq_none.mpr fun e mem => lookup_eq_none.mp whole e (List.mem_filter.mp mem).1
    rw [absent, absent]
    rfl
  | some v =>
    have mem := mem_of_lookup whole
    cases chosen : test (key, v) with
    | true =>
      have taken : lookup (inner.filter test) key = .some v :=
        lookup_of_mem (sorted.filter test) (List.mem_filter.mpr ⟨mem, chosen⟩)
      have left : lookup (inner.filter fun e => !test e) key = none := by
        rw [lookup_eq_none]
        rintro ⟨_, w⟩ given rfl
        obtain ⟨inside, free⟩ := List.mem_filter.mp given
        obtain rfl := Option.some.inj (whole.symm.trans (lookup_of_mem sorted inside))
        simp [chosen] at free
      rw [taken, left]
      rfl
    | false =>
      have left : lookup (inner.filter fun e => !test e) key = .some v :=
        lookup_of_mem (sorted.filter _) (List.mem_filter.mpr ⟨mem, by simp [chosen]⟩)
      rw [left]
      rfl

theorem mergeContent_stripped (selected : Selected kept content) (sorted : SortedKeys content)
    (ordered : Ordered (.object content)) : mergeContent kept (stripped kept content) = content := by
  obtain ⟨whole, found⟩ := overlay_spec mergeValue selected.sorted (stripped_sorted sorted)
  apply whole.ext_lookup sorted
  intro key
  rw [found, lookup_stripped sorted]
  cases given : lookup content key with
  | none =>
    cases taken : lookup kept key with
    | none => rfl
    | some w =>
      obtain ⟨v, inside, -⟩ := selected.part key w taken
      rw [given] at inside
      cases inside
  | some v =>
    rw [Option.bind_some]
    rcases strippedValue_cases selected ordered given with ⟨taken, left⟩ | ⟨taken, left⟩ |
      ⟨inner, test, rfl, members, filled, rest, taken, left⟩
    · rw [taken, left]
      cases v <;> rfl
    · rw [taken, left]
      rfl
    · rw [taken, left, Option.map_some, mergeValue, overlay_parts members]
      rfl

theorem mem_stripped (sorted : SortedKeys content) (inside : (key, w) ∈ stripped kept content) :
    ∃ v, lookup content key = .some v ∧ strippedValue kept key v = .some w := by
  have found := lookup_of_mem (stripped_sorted sorted) inside
  rw [lookup_stripped sorted] at found
  exact Option.bind_eq_some_iff.mp found

theorem stripped_members {P : Value → Prop} (hereditary : Hereditary P) (selected : Selected kept content)
    (sorted : SortedKeys content) (ordered : Ordered (.object content)) (each : ∀ m ∈ content, P m.2) :
    ∀ m ∈ stripped kept content, P m.2 := by
  rintro ⟨key, w⟩ inside
  obtain ⟨v, found, left⟩ := mem_stripped sorted inside
  have whole := each _ (mem_of_lookup found)
  rcases strippedValue_cases selected ordered found with ⟨_, rest⟩ | ⟨_, rest⟩ | ⟨inner, test, rfl, _, _, _, _, rest⟩
  · rw [rest] at left
    cases left
    exact whole
  · rw [rest] at left
    cases left
  · rw [rest] at left
    cases left
    exact hereditary.filter inner _ whole

theorem leafPath_apart (selected : Selected kept content) (sorted : SortedKeys content)
    (ordered : Ordered (.object content)) (left : LeafPath kept path) : ¬LeafPath (stripped kept content) path := by
  -- what both parts have at a key are parts of one object there
  have shared : ∀ key w x, (key, w) ∈ kept → (key, x) ∈ stripped kept content → ∃ inner test, SortedKeys inner ∧
      inner.filter test ≠ [] ∧ inner.filter (fun e => !test e) ≠ [] ∧ w = .object (inner.filter test) ∧
      x = .object (inner.filter fun e => !test e) := by
    intro key w x one other
    have taken' := lookup_of_mem selected.sorted one
    obtain ⟨v, found, left'⟩ := mem_stripped sorted other
    rcases strippedValue_cases selected ordered found with ⟨taken, _⟩ | ⟨_, left⟩ |
      ⟨inner, test, rfl, members, filled, rest, taken, left⟩
    · rw [taken] at taken'
      cases taken'
    · rw [left] at left'
      cases left'
    · rw [taken] at taken'
      rw [left] at left'
      exact ⟨inner, test, members, filled, rest, (Option.some.inj taken').symm, (Option.some.inj left').symm⟩
  intro right
  cases left with
  | leaf one bare =>
    cases right with
    | leaf other _ =>
      obtain ⟨inner, test, _, filled, _, rfl, _⟩ := shared _ _ _ one other
      exact filled (bare _ rfl)
    | inner other _ =>
      obtain ⟨inner, test, _, filled, _, rfl, _⟩ := shared _ _ _ one other
      exact filled (bare _ rfl)
  | inner one deeper =>
    cases right with
    | leaf other bare =>
      obtain ⟨inner, test, _, _, rest, _, rfl⟩ := shared _ _ _ one other
      exact rest (bare _ rfl)
    | inner other deeper' =>
      obtain ⟨inner, test, members, _, _, same, same'⟩ := shared _ _ _ one other
      cases same
      cases same'
      have both : ∀ key w x, (key, w) ∈ inner.filter test → (key, x) ∈ inner.filter (fun e => !test e) → False := by
        intro key w x first second
        obtain ⟨inside, chosen⟩ := List.mem_filter.mp first
        obtain ⟨inside', free⟩ := List.mem_filter.mp second
        obtain rfl := Option.some.inj ((lookup_of_mem members inside).symm.trans (lookup_of_mem members inside'))
        simp [chosen] at free
      cases deeper with
      | leaf first _ =>
        cases deeper' with
        | leaf second _ => exact both _ _ _ first second
        | inner second _ => exact both _ _ _ first second
      | inner first _ =>
        cases deeper' with
        | leaf second _ => exact both _ _ _ first second
        | inner second _ => exact both _ _ _ first second

end

theorem redactContent_selected (sorted : SortedKeys content) (ordered : Ordered (.object content))
    (rule : RedactionRule) : ∃ kept, redactContent (.object content) rule = .object kept ∧ Selected kept content := by
  cases rule with
  | none => exact ⟨[], rfl, .nil, nofun⟩
  | all => exact ⟨content, rfl, sorted, fun key w found => ⟨w, found, .whole w⟩⟩
  | keys paths =>
    obtain ⟨keptSorted, kept⟩ := lookup_keepPath ordered paths
    refine ⟨_, rfl, keptSorted, fun key w found => ?_⟩
    rw [kept] at found
    obtain ⟨v, given, taken⟩ := Option.bind_eq_some_iff.mp found
    refine ⟨v, given, ?_⟩
    by_cases direct : key ∈ directPaths paths
    · rw [keptValue_direct direct] at taken
      cases taken
      exact .whole w
    · cases v with
      | object inner =>
        rw [keptValue_object direct] at taken
        split at taken
        · cases taken
        · rename_i filled
          cases taken
          exact .some _ (by simpa using filled)
      | _ =>
        rw [keptValue_leaf direct (by simp)] at taken
        cases taken

theorem splitRedactionContent_object
    (redacted : redactContent (.object content) (redactionPreservedKeys eventType roomVersion) = .object kept) :
    splitRedactionContent (.object content) eventType roomVersion = (.object kept, .object (stripped kept content)) := by
  unfold splitRedactionContent
  dsimp only
  rw [redacted]
  rfl

theorem stripped_self (sorted : SortedKeys content) : stripped content content = [] := by
  apply (stripped_sorted sorted).ext_lookup .nil
  intro key
  rw [lookup_stripped sorted]
  cases found : lookup content key with
  | none => rfl
  | some v =>
    unfold strippedValue
    rw [Option.bind_some, if_pos found]
    rfl

end Rezzy.Basespec
