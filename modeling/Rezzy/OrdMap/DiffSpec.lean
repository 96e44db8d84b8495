import Rezzy.OrdMap.Diff

namespace Rezzy.OrdMap

open Fenced Sorted Option Node
open PersistentOrdMap (diff diffWalker eq)
open List (forall_mem_cons mem_cons pairwise_cons)

variable {K V : Type} [LinearOrder K] [DecidableEq V]

def diffEntries : List (K × V) → List (K × V) → List (DiffItem K V)
  | [], news => news.map fun e => .add e.1 e.2
  | old :: olds, [] => (old :: olds).map fun e => .remove e.1 e.2
  | old :: olds, new :: news =>
    if old.1 < new.1 then .remove old.1 old.2 :: diffEntries olds (new :: news)
    else if new.1 < old.1 then .add new.1 new.2 :: diffEntries (old :: olds) news
    else if old.2 ≠ new.2 then .update old new :: diffEntries olds news
    else diffEntries olds news

theorem diffEntries_nil (olds : List (K × V)) : diffEntries olds [] = olds.map fun e => .remove e.1 e.2 := by
  cases olds with
  | nil => rw [diffEntries]; rfl
  | cons old olds => rw [diffEntries]

theorem diffEntries_shared (shared olds news : List (K × V)) :
    diffEntries (shared ++ olds) (shared ++ news) = diffEntries olds news := by
  induction shared with
  | nil => rfl
  | cons e shared ih =>
    rw [List.cons_append, List.cons_append, diffEntries, if_neg (lt_irrefl _), if_neg (lt_irrefl _),
      if_neg (not_not.mpr rfl), ih]

def Tidy (node : Node K V) : Prop := node = .leaf [] ∨ ∃ height lo hi, Valid height lo hi node

section

omit [DecidableEq V]

theorem Valid.firstKey {node : Node K V} (valid : Valid height lo hi node) :
    node.firstKey = node.entries.head?.map Prod.fst := by
  induction height generalizing lo hi node with
  | zero =>
    cases node with
    | leaf entries => rw [Node.firstKey, entries_leaf]
    | internal keys children => exact valid.elim
  | succ height ih =>
    cases node with
    | leaf entries => exact valid.elim
    | internal keys children =>
      obtain ⟨_, row⟩ := valid
      obtain ⟨first, rest, low, rfl, inner⟩ : ∃ first rest high, children = first :: rest ∧ Valid height lo high first := by
        cases row with
        | last inner => exact ⟨_, _, _, rfl, inner⟩
        | link inner _ => exact ⟨_, _, _, rfl, inner⟩
      obtain ⟨e, es, split⟩ := List.exists_cons_of_ne_nil inner.fills.ne_nil
      have least : (internal keys (first :: rest)).firstKey = first.firstKey := by
        rw [Node.firstKey]
        rfl
      rw [least, ih inner, entries_internal]
      simp [split]

theorem Tidy.firstKey {node : Node K V} (tidy : Tidy node) : node.firstKey = node.entries.head?.map Prod.fst := by
  rcases tidy with rfl | ⟨height, lo, hi, valid⟩
  · rw [Node.firstKey, entries_leaf]
  · exact valid.firstKey

theorem Tidy.entries_nil {node : Node K V} (tidy : Tidy node) (empty : node.firstKey = none) : node.entries = [] := by
  rw [tidy.firstKey] at empty
  simpa using empty

theorem Tidy.child {keys : List K} {children : List (Node K V)} (tidy : Tidy (.internal keys children))
    {child : Node K V} (mem : child ∈ children) : Tidy child := by
  rcases tidy with absurd | ⟨height, lo, hi, valid⟩
  · cases absurd
  · cases height with
    | zero => exact valid.elim
    | succ height =>
      obtain ⟨low, high, inner⟩ := valid.2.mem mem
      exact .inr ⟨height, low, high, inner⟩

end

def TidyCursor (cursor : Cursor K V) : Prop :=
  ∀ items idx height, Frame.nodes items idx height ∈ cursor → ∀ node ∈ items, Tidy node

namespace TidyCursor

omit [DecidableEq V]

variable {cursor : Cursor K V}

theorem head (tidy : TidyCursor cursor) : TidyCursor cursor.head.2 :=
  fun items idx height mem => tidy items idx height (cursor.head_suffix.subset mem)

theorem stands (tidy : TidyCursor cursor) (stands : cursor.Stands (.node node)) : Tidy node := by
  cases stands with
  | node found => exact tidy _ _ _ (List.mem_cons_self ..) node (List.mem_of_getElem? found)

theorem skip (tidy : TidyCursor cursor) : TidyCursor cursor.skip := by
  cases cursor with
  | nil => exact tidy
  | cons frame stack =>
    intro _ _ _ mem
    cases frame with
    | nodes own at_ level =>
      rcases mem_cons.mp mem with same | mem
      · cases same
        exact tidy _ _ _ (List.mem_cons_self ..)
      · exact tidy _ _ _ (List.mem_cons_of_mem _ mem)
    | entries own at_ =>
      rcases mem_cons.mp mem with same | mem
      · cases same
      · exact tidy _ _ _ (List.mem_cons_of_mem _ mem)

theorem expand (tidy : TidyCursor cursor) (stands : cursor.Stands (.node node)) : TidyCursor cursor.expand := by
  have inner := tidy.stands stands
  have rest := tidy.skip
  cases stands with
  | node found =>
    rw [Cursor.expand, found]
    cases node with
    | leaf entries =>
      intro items idx height mem
      rcases mem_cons.mp mem with same | mem
      · cases same
      · exact rest _ _ _ mem
    | internal keys children =>
      intro items idx height mem
      rcases mem_cons.mp mem with same | mem
      · cases same
        exact fun child mem => inner.child mem
      · exact rest _ _ _ mem

end TidyCursor

omit [DecidableEq V] in
theorem Beyond.least {key : K} (tidy : TidyCursor cursor) (beyond : Beyond key cursor) :
    cursor.remaining = [] ∨ ∃ e rest, cursor.remaining = e :: rest ∧ key < e.1 := by
  cases beyond with
  | finished nothing => exact .inl nothing
  | entry stands less => exact .inr ⟨_, _, stands.skip_entry.1, less⟩
  | node stands least less =>
    rw [(tidy.stands stands).firstKey] at least
    obtain ⟨e, first, rfl⟩ := map_eq_some_iff.mp least
    obtain ⟨rest, split⟩ := List.head?_eq_some_iff.mp first
    refine .inr ⟨e, rest ++ cursor.skip.remaining, ?_, less⟩
    rw [stands.skip_node.1, split]
    rfl

theorem diffEntries_remove {key : K} {value : V} (beyond : news = [] ∨ ∃ e rest, news = e :: rest ∧ key < e.1) :
    diffEntries ((key, value) :: olds) news = .remove key value :: diffEntries olds news := by
  rcases beyond with rfl | ⟨e, rest, rfl, less⟩
  · rw [diffEntries_nil, diffEntries_nil]
    rfl
  · rw [diffEntries, if_pos less]

theorem diffEntries_add {key : K} {value : V} (beyond : olds = [] ∨ ∃ e rest, olds = e :: rest ∧ key < e.1) :
    diffEntries olds ((key, value) :: news) = .add key value :: diffEntries olds news := by
  rcases beyond with rfl | ⟨e, rest, rfl, less⟩
  · rw [diffEntries, diffEntries]
    rfl
  · rw [diffEntries, if_neg less.not_gt, if_pos less]

def SoundPtrEq (ptrEq : PtrEq K V) : Prop :=
  ∀ left right ln rn, ptrEq left right = true → Cursor.Stands (.node ln) left → Cursor.Stands (.node rn) right → ln = rn

def DiffWalker.pending (walker : DiffWalker K V) : List (DiffItem K V) :=
  diffEntries walker.left.remaining walker.right.remaining

omit [DecidableEq V] in
def DiffWalker.Tidy (walker : DiffWalker K V) : Prop := TidyCursor walker.left ∧ TidyCursor walker.right

def Turn.Tells (pending : List (DiffItem K V)) : Turn K V → Prop
  | done => pending = []
  | emit item after => pending = item :: after.pending
  | again after => pending = after.pending

section

variable {ptrEq : PtrEq K V} (sound : SoundPtrEq ptrEq)

include sound

theorem Step.pending (step : Step ptrEq left right turn) (tidy : DiffWalker.Tidy ⟨left, right, 0⟩) :
    (∀ after ∈ turn.walker?, after.Tidy) ∧ turn.Tells (diffEntries left.remaining right.remaining) := by
  obtain ⟨leftTidy, rightTidy⟩ := tidy
  cases step with
  | finish leftDone rightDone =>
    refine ⟨fun _ moved => (nomatch moved), ?_⟩
    rw [leftDone, rightDone, diffEntries]
    rfl
  | remove stands beyond =>
    refine ⟨fun _ moved => by cases moved; exact ⟨leftTidy.skip, rightTidy⟩, ?_⟩
    rw [stands.skip_entry.1, diffEntries_remove (beyond.least rightTidy)]
    rfl
  | add stands beyond =>
    refine ⟨fun _ moved => by cases moved; exact ⟨leftTidy, rightTidy.skip⟩, ?_⟩
    rw [stands.skip_entry.1, diffEntries_add (beyond.least leftTidy)]
    rfl
  | update leftStands rightStands differ =>
    refine ⟨fun _ moved => by cases moved; exact ⟨leftTidy.skip, rightTidy.skip⟩, ?_⟩
    rw [leftStands.skip_entry.1, rightStands.skip_entry.1, diffEntries, if_neg (lt_irrefl _), if_neg (lt_irrefl _),
      if_pos differ]
    rfl
  | agree leftStands rightStands =>
    refine ⟨fun _ moved => by cases moved; exact ⟨leftTidy.skip, rightTidy.skip⟩, ?_⟩
    rw [leftStands.skip_entry.1, rightStands.skip_entry.1]
    exact diffEntries_shared [_] _ _
  | shared leftStands rightStands same =>
    refine ⟨fun _ moved => by cases moved; exact ⟨leftTidy.skip, rightTidy.skip⟩, ?_⟩
    rw [leftStands.skip_node.1, rightStands.skip_node.1, sound _ _ _ _ same leftStands rightStands]
    exact diffEntries_shared _ _ _
  | hollowLeft stands empty =>
    refine ⟨fun _ moved => by cases moved; exact ⟨leftTidy.skip, rightTidy⟩, ?_⟩
    rw [stands.skip_node.1, (leftTidy.stands stands).entries_nil empty]
    rfl
  | hollowRight stands empty =>
    refine ⟨fun _ moved => by cases moved; exact ⟨leftTidy, rightTidy.skip⟩, ?_⟩
    rw [stands.skip_node.1, (rightTidy.stands stands).entries_nil empty]
    rfl
  | openLeft stands =>
    refine ⟨fun _ moved => by cases moved; exact ⟨leftTidy.expand stands, rightTidy⟩, ?_⟩
    change diffEntries left.remaining right.remaining = diffEntries left.expand.remaining right.remaining
    rw [stands.expand.1]
  | openRight stands =>
    refine ⟨fun _ moved => by cases moved; exact ⟨leftTidy, rightTidy.expand stands⟩, ?_⟩
    change diffEntries left.remaining right.remaining = diffEntries left.remaining right.expand.remaining
    rw [stands.expand.1]
  | openBoth leftStands rightStands =>
    refine ⟨fun _ moved => by cases moved; exact ⟨leftTidy.expand leftStands, rightTidy.expand rightStands⟩, ?_⟩
    change diffEntries left.remaining right.remaining = diffEntries left.expand.remaining right.expand.remaining
    rw [leftStands.expand.1, rightStands.expand.1]

variable (walker : DiffWalker K V) (tidy : walker.Tidy)
include tidy

theorem DiffWalker.turn_pending :
    (∀ after ∈ (walker.turn ptrEq).walker?, after.Tidy) ∧ (walker.turn ptrEq).Tells walker.pending := by
  have meaning := (walker.turn_step ptrEq).pending sound ⟨tidy.1.head, tidy.2.head⟩
  rw [walker.left.head_spec.1, walker.right.head_spec.1] at meaning
  exact meaning

theorem DiffWalker.nextItem_pending : (walker.nextItem ptrEq = none → walker.pending = []) ∧
      ∀ item after, walker.nextItem ptrEq = some (item, after) → walker.pending = item :: after.pending ∧ after.Tidy := by
  fun_induction nextItem ptrEq walker with
  | case1 walker turn =>
    obtain ⟨_, meaning⟩ := walker.turn_pending sound tidy
    rw [turn] at meaning
    exact ⟨fun _ => meaning, fun _ _ found => absurd found.symm (some_ne_none _)⟩
  | case2 walker item after turn =>
    obtain ⟨kept, meaning⟩ := walker.turn_pending sound tidy
    rw [turn] at kept meaning
    refine ⟨fun missing => absurd missing (some_ne_none _), fun _ _ same => ?_⟩
    cases same
    exact ⟨meaning, kept _ rfl⟩
  | case3 walker between turn ih =>
    obtain ⟨kept, meaning⟩ := walker.turn_pending sound tidy
    rw [turn] at kept meaning
    have same : walker.pending = between.pending := meaning
    rw [same]
    exact ih (kept _ rfl)

theorem DiffWalker.items_eq : walker.items ptrEq = walker.pending := by
  fun_induction items ptrEq walker with
  | case1 walker done => exact ((walker.nextItem_pending sound tidy).1 done).symm
  | case2 walker item after next ih =>
    obtain ⟨split, tidy⟩ := (walker.nextItem_pending sound tidy).2 _ _ next
    rw [ih tidy, split]

end

section

variable {olds news : List (K × V)}

def DiffItem.key : DiffItem K V → K
  | add key _ | remove key _ => key
  | update old _ => old.1

def DiffItem.newValue? : DiffItem K V → Option V
  | add _ value => some value
  | update _ new => some new.2
  | remove _ _ => none

def diffAt (key : K) : Option V → Option V → Option (DiffItem K V)
  | none, some new => some (.add key new)
  | some old, none => some (.remove key old)
  | some old, some new => if old ≠ new then some (.update (key, old) (key, new)) else none
  | none, none => none

def diffOf (olds news : List (K × V)) (key : K) : Option (DiffItem K V) :=
  diffAt key (lookup olds key) (lookup news key)

section

omit [LinearOrder K]

theorem diffAt_self (key : K) (value : Option V) : diffAt key value value = none := by
  cases value with
  | none => rfl
  | some value => exact if_neg (not_not.mpr rfl)

theorem eq_of_diffAt_none {old new : Option V} (same : diffAt key old new = none) : old = new := by
  cases old with
  | none =>
    cases new with
    | none => rfl
    | some new => cases same
  | some old =>
    cases new with
    | none => cases same
    | some new =>
      by_cases differ : old = new
      · rw [differ]
      · rw [diffAt, if_pos differ] at same
        cases same

theorem key_of_diffAt {old new : Option V} (found : diffAt key old new = some item) :
    item.key = key ∧ item.newValue? = new := by
  cases old with
  | none =>
    cases new with
    | none => cases found
    | some new => cases found; exact ⟨rfl, rfl⟩
  | some old =>
    cases new with
    | none => cases found; exact ⟨rfl, rfl⟩
    | some new =>
      rw [diffAt] at found
      split at found
      · cases found
        exact ⟨rfl, rfl⟩
      · cases found

theorem diffAt_eq_add {value : V} : diffAt key old new = some (.add key value) ↔ old = none ∧ new = some value := by
  rcases old with _ | a <;> rcases new with _ | b
  · simp [diffAt]
  · simp [diffAt]
  · simp [diffAt]
  · by_cases same : a = b <;> simp [diffAt, same]

theorem diffAt_eq_remove {value : V} :
    diffAt key old new = some (.remove key value) ↔ old = some value ∧ new = none := by
  rcases old with _ | a <;> rcases new with _ | b
  · simp [diffAt]
  · simp [diffAt]
  · simp [diffAt]
  · by_cases same : a = b <;> simp [diffAt, same]

theorem diffAt_eq_update {old new : Option V} : diffAt before.1 old new = some (.update before after) ↔
      before.1 = after.1 ∧ old = some before.2 ∧ new = some after.2 ∧ before.2 ≠ after.2 := by
  obtain ⟨-, -⟩ := before
  obtain ⟨-, -⟩ := after
  rcases old with _ | a <;> rcases new with _ | b
  · simp [diffAt]
  · simp [diffAt]
  · simp [diffAt]
  · by_cases same : a = b
    · simp only [diffAt, same, ne_eq, not_true_eq_false, if_false, some_inj]
      constructor
      · intro found
        cases found
      · rintro ⟨_, rfl, rfl, differ⟩
        exact absurd rfl differ
    · simp only [diffAt, ne_eq, same, not_false_eq_true, if_true, some_inj, DiffItem.update.injEq, Prod.mk.injEq]
      constructor
      · rintro ⟨⟨_, rfl⟩, rfl, rfl⟩
        exact ⟨rfl, rfl, rfl, same⟩
      · rintro ⟨rfl, rfl, rfl, _⟩
        simp

end

def Lists (items : List (DiffItem K V)) (at_ : K → Option (DiffItem K V)) : Prop :=
  ∀ item, item ∈ items ↔ at_ item.key = some item

omit [LinearOrder K] [DecidableEq V] in
theorem Lists.cons {rest : List (DiffItem K V)} {before after : K → Option (DiffItem K V)} {first : DiffItem K V}
    (listed : Lists rest after) (here : before first.key = some first) (gone : after first.key = none)
    (same : ∀ key, key ≠ first.key → before key = after key) : Lists (first :: rest) before := by
  intro item
  rw [mem_cons, listed]
  by_cases own : item.key = first.key
  · rw [own, here, gone, some_inj]
    exact ⟨fun either => (either.resolve_right (nomatch ·)).symm, fun given => .inl given.symm⟩
  · rw [same _ own]
    exact ⟨fun either => either.resolve_left fun given => own (congrArg DiffItem.key given), .inr⟩

theorem lists_adds (sorted : SortedKeys news) : Lists (news.map fun e => .add e.1 e.2) (diffOf [] news) := by
  induction news with
  | nil => intro item; simp [diffOf, diffAt]
  | cons new news ih =>
    obtain ⟨first, sorted⟩ := pairwise_cons.mp sorted
    have above : lookup news new.1 = none := lookup_of_above first
    refine (ih sorted).cons ?_ ?_ fun key other => ?_
    · simp [diffOf, DiffItem.key, lookup_cons, diffAt]
    · simp [diffOf, DiffItem.key, above, diffAt]
    · have other : key ≠ new.1 := other
      rw [diffOf, diffOf, lookup_cons, if_neg other]

theorem lists_removes (sorted : SortedKeys olds) : Lists (olds.map fun e => .remove e.1 e.2) (diffOf olds []) := by
  induction olds with
  | nil => intro item; simp [diffOf, diffAt]
  | cons old olds ih =>
    obtain ⟨first, sorted⟩ := pairwise_cons.mp sorted
    have above : lookup olds old.1 = none := lookup_of_above first
    refine (ih sorted).cons ?_ ?_ fun key other => ?_
    · simp [diffOf, DiffItem.key, lookup_cons, diffAt]
    · simp [diffOf, DiffItem.key, above, diffAt]
    · have other : key ≠ old.1 := other
      rw [diffOf, diffOf, lookup_cons, if_neg other]

omit [DecidableEq V] in
theorem above_cons (sorted : SortedKeys (e :: rest)) {key : K} (less : key < e.1) : Above (e :: rest) key :=
  forall_mem_cons.mpr ⟨less, fun a mem => less.trans ((pairwise_cons.mp sorted).1 a mem)⟩

theorem diffEntries_lists (oldSorted : SortedKeys olds) (newSorted : SortedKeys news) :
    Lists (diffEntries olds news) (diffOf olds news) := by
  fun_induction diffEntries olds news with
  | case1 news => exact lists_adds newSorted
  | case2 old olds => exact lists_removes oldSorted
  | case3 old olds new news less ih =>
    obtain ⟨first, sorted⟩ := pairwise_cons.mp oldSorted
    have gone : lookup olds old.1 = none := lookup_of_above first
    have absent : lookup (new :: news) old.1 = none := lookup_of_above (above_cons newSorted less)
    refine (ih sorted newSorted).cons ?_ ?_ fun key other => ?_
    · simp [diffOf, DiffItem.key, lookup_cons old, absent, diffAt]
    · simp [diffOf, DiffItem.key, gone, absent, diffAt]
    · have other : key ≠ old.1 := other
      rw [diffOf, diffOf, lookup_cons old, if_neg other]
  | case4 old olds new news _ less ih =>
    obtain ⟨first, sorted⟩ := pairwise_cons.mp newSorted
    have gone : lookup news new.1 = none := lookup_of_above first
    have absent : lookup (old :: olds) new.1 = none := lookup_of_above (above_cons oldSorted less)
    refine (ih oldSorted sorted).cons ?_ ?_ fun key other => ?_
    · simp [diffOf, DiffItem.key, lookup_cons new, absent, diffAt]
    · simp [diffOf, DiffItem.key, gone, absent, diffAt]
    · have other : key ≠ new.1 := other
      rw [diffOf, diffOf, lookup_cons new, if_neg other]
  | case5 old olds new news notLess notMore differ ih =>
    have same : old.1 = new.1 := le_antisymm (not_lt.mp notMore) (not_lt.mp notLess)
    obtain ⟨oldFirst, oldSorted⟩ := pairwise_cons.mp oldSorted
    obtain ⟨newFirst, newSorted⟩ := pairwise_cons.mp newSorted
    have oldGone : lookup olds old.1 = none := lookup_of_above oldFirst
    have newGone : lookup news old.1 = none := by rw [same]; exact lookup_of_above newFirst
    refine (ih oldSorted newSorted).cons ?_ ?_ fun key other => ?_
    · obtain ⟨ok, ov⟩ := old
      obtain ⟨nk, nv⟩ := new
      cases same
      simp [diffOf, DiffItem.key, lookup_cons, diffAt, differ]
    · simp [diffOf, DiffItem.key, oldGone, newGone, diffAt]
    · have other : key ≠ old.1 := other
      rw [diffOf, diffOf, lookup_cons, lookup_cons, if_neg other, if_neg (same ▸ other)]
  | case6 old olds new news notLess notMore equal ih =>
    have same : old.1 = new.1 := le_antisymm (not_lt.mp notMore) (not_lt.mp notLess)
    obtain ⟨oldFirst, oldSorted⟩ := pairwise_cons.mp oldSorted
    obtain ⟨newFirst, newSorted⟩ := pairwise_cons.mp newSorted
    intro item
    rw [ih oldSorted newSorted]
    -- neither list has the shared key a second time, and its values agree
    have unchanged : diffOf (old :: olds) (new :: news) = diffOf olds news := by
      funext key
      rw [diffOf, diffOf, lookup_cons, lookup_cons, ← same]
      by_cases own : key = old.1
      · rw [if_pos own, if_pos own, not_not.mp equal, diffAt_self, own, lookup_of_above oldFirst,
          lookup_of_above (same ▸ newFirst : Above news old.1)]
        rfl
      · rw [if_neg own, if_neg own]
    rw [unchanged]

theorem key_mem_of_diffOf (found : diffOf olds news key = some item) :
    (∃ e ∈ olds, e.1 = key) ∨ ∃ e ∈ news, e.1 = key := by
  by_contra neither
  obtain ⟨notOld, notNew⟩ := not_or.mp neither
  have old : lookup olds key = none := lookup_eq_none.mpr fun e mem same => notOld ⟨e, mem, same⟩
  have new : lookup news key = none := lookup_eq_none.mpr fun e mem same => notNew ⟨e, mem, same⟩
  rw [diffOf, old, new] at found
  cases found

theorem diffEntries_sorted (oldSorted : SortedKeys olds) (newSorted : SortedKeys news) :
    (diffEntries olds news).Pairwise fun a b => a.key < b.key := by
  have later : ∀ {key : K} {olds news : List (K × V)}, SortedKeys olds → SortedKeys news → Above olds key →
      Above news key → ∀ item ∈ diffEntries olds news, key < item.key := by
    intro key olds news oldSorted newSorted oldAbove newAbove item mem
    rcases key_mem_of_diffOf ((diffEntries_lists oldSorted newSorted item).mp mem) with
      ⟨e, listed, same⟩ | ⟨e, listed, same⟩
    · exact same ▸ oldAbove e listed
    · exact same ▸ newAbove e listed
  fun_induction diffEntries olds news with
  | case1 news => exact List.pairwise_map.mpr newSorted
  | case2 old olds => exact List.pairwise_map.mpr oldSorted
  | case3 old olds new news less ih =>
    obtain ⟨first, sorted⟩ := pairwise_cons.mp oldSorted
    exact pairwise_cons.mpr ⟨later sorted newSorted first (above_cons newSorted less), ih sorted newSorted⟩
  | case4 old olds new news _ less ih =>
    obtain ⟨first, sorted⟩ := pairwise_cons.mp newSorted
    exact pairwise_cons.mpr ⟨later oldSorted sorted (above_cons oldSorted less) first, ih oldSorted sorted⟩
  | case5 old olds new news notLess notMore _ ih =>
    have same : old.1 = new.1 := le_antisymm (not_lt.mp notMore) (not_lt.mp notLess)
    obtain ⟨oldFirst, oldSorted⟩ := pairwise_cons.mp oldSorted
    obtain ⟨newFirst, newSorted⟩ := pairwise_cons.mp newSorted
    have newLater : Above news old.1 := same ▸ newFirst
    exact pairwise_cons.mpr ⟨later oldSorted newSorted oldFirst newLater, ih oldSorted newSorted⟩
  | case6 old olds new news _ _ _ ih =>
    exact ih (pairwise_cons.mp oldSorted).2 (pairwise_cons.mp newSorted).2

theorem diffEntries_eq_nil (oldSorted : SortedKeys olds) (newSorted : SortedKeys news) :
    diffEntries olds news = [] ↔ olds = news := by
  constructor
  · intro nothing
    refine oldSorted.ext_lookup newSorted fun key => ?_
    refine eq_of_diffAt_none (eq_none_iff_forall_ne_some.mpr fun item found => ?_ : diffOf olds news key = none)
    have listed := (diffEntries_lists oldSorted newSorted item).mpr ((key_of_diffAt found).1.symm ▸ found)
    rw [nothing] at listed
    cases listed
  · rintro rfl
    have shared := diffEntries_shared olds [] []
    rw [List.append_nil, diffEntries] at shared
    exact shared

end

section

omit [DecidableEq V]

def DiffItem.applyTo (unique : Nat → Bool) (map : PersistentOrdMap K V) (item : DiffItem K V) :
    Option (PersistentOrdMap K V) :=
  match item with
  | add key value => (map.insert key value).map Prod.snd
  | update _ new => (map.insert new.1 new.2).map Prod.snd
  | remove key _ => (map.remove unique key).map Prod.snd

def applyDiff (unique : Nat → Bool) (map : PersistentOrdMap K V) (items : List (DiffItem K V)) :
    Option (PersistentOrdMap K V) :=
  items.foldlM (DiffItem.applyTo unique) map

def DiffItem.Proper : DiffItem K V → Prop
  | update old new => old.1 = new.1
  | _ => True

theorem DiffItem.applyTo_spec (unique : Nat → Bool) (formed : WellFormed map) {item : DiffItem K V}
    (proper : item.Proper) :
    ∃ after, item.applyTo unique map = some after ∧ WellFormed after ∧
      ∀ key, after.get key = if key = item.key then item.newValue? else map.get key := by
  have sorted := formed.sorted
  cases item with
  | add own value =>
    obtain ⟨after, computed, kept, contents⟩ := formed.insert own value
    refine ⟨after, by rw [applyTo, computed]; rfl, kept, fun key => ?_⟩
    rw [kept.get, contents, lookup_assign sorted, formed.get]
    rfl
  | update old new =>
    obtain ⟨after, computed, kept, contents⟩ := formed.insert new.1 new.2
    refine ⟨after, by rw [applyTo, computed]; rfl, kept, fun key => ?_⟩
    have same : old.1 = new.1 := proper
    rw [kept.get, contents, lookup_assign sorted, formed.get, ← same]
    rfl
  | remove own value =>
    obtain ⟨after, computed, kept, contents⟩ := formed.remove unique own
    refine ⟨after, by rw [applyTo, computed]; rfl, kept, fun key => ?_⟩
    rw [kept.get, contents, lookup_erase sorted, formed.get]
    rfl

theorem applyDiff_spec (unique : Nat → Bool) (formed : WellFormed map) {items : List (DiffItem K V)}
    (proper : ∀ item ∈ items, item.Proper) (sorted : items.Pairwise fun a b => a.key < b.key) :
    ∃ after, applyDiff unique map items = some after ∧ WellFormed after ∧
      (∀ item ∈ items, after.get item.key = item.newValue?) ∧
      ∀ key, (∀ item ∈ items, item.key ≠ key) → after.get key = map.get key := by
  induction items generalizing map with
  | nil => exact ⟨map, rfl, formed, fun _ mem => absurd mem List.not_mem_nil, fun _ _ => rfl⟩
  | cons first items ih =>
    obtain ⟨firstProper, proper⟩ := forall_mem_cons.mp proper
    obtain ⟨least, sorted⟩ := pairwise_cons.mp sorted
    obtain ⟨between, applied, formed, reads⟩ := first.applyTo_spec unique formed firstProper
    obtain ⟨after, rest, formed, changed, kept⟩ := ih formed proper sorted
    refine ⟨after, ?_, formed, forall_mem_cons.mpr ⟨?_, changed⟩, fun key others => ?_⟩
    · rw [applyDiff, List.foldlM_cons, applied]
      exact rest
    · rw [kept _ fun item mem => (least item mem).ne', reads, if_pos rfl]
    · obtain ⟨notFirst, others⟩ := forall_mem_cons.mp others
      rw [kept key others, reads, if_neg fun same => notFirst same.symm]

end

variable {ptrEq : PtrEq K V} {old new : PersistentOrdMap K V}

omit [DecidableEq V] in
theorem WellFormed.tidy {map : PersistentOrdMap K V} (formed : WellFormed map) : Tidy map.root := by
  rcases formed.tree with valid | ⟨empty, _⟩
  · exact .inr ⟨_, _, _, valid⟩
  · exact .inl empty

omit [DecidableEq V] in
theorem tidy_new {map : PersistentOrdMap K V} (formed : WellFormed map) :
    TidyCursor (Cursor.new map.root map.height) := by
  intro _ _ _ mem _ inside
  cases List.mem_singleton.mp mem
  rw [List.mem_singleton.mp inside]
  exact formed.tidy

omit [LinearOrder K] [DecidableEq V] in
theorem remaining_new (root : Node K V) (height : Nat) : (Cursor.new root height).remaining = root.entries := by
  simp [Cursor.new, Cursor.remaining, Frame.remaining]

section

variable (sound : SoundPtrEq ptrEq) (oldFormed : WellFormed old) (newFormed : WellFormed new)
include sound oldFormed newFormed

theorem diff_eq : old.diff ptrEq new = diffEntries old.root.entries new.root.entries := by
  rw [diff, DiffWalker.items_eq sound _ ⟨tidy_new oldFormed, tidy_new newFormed⟩, DiffWalker.pending,
    diffWalker, remaining_new, remaining_new]

theorem eq_iff_entries : old.eq ptrEq new = true ↔ old.root.entries = new.root.entries := by
  have next := (old.diffWalker new).nextItem_pending sound ⟨tidy_new oldFormed, tidy_new newFormed⟩
  have pending : (old.diffWalker new).pending = diffEntries old.root.entries new.root.entries := by
    rw [DiffWalker.pending, diffWalker, remaining_new, remaining_new]
  rw [pending] at next
  rw [eq, Bool.or_eq_true, Bool.and_eq_true, beq_iff_eq, isNone_iff_eq_none]
  constructor
  · rintro (same | ⟨_, finished⟩)
    · exact congrArg Node.entries (sound _ _ _ _ same (.node rfl) (.node rfl))
    · exact (diffEntries_eq_nil oldFormed.sorted newFormed.sorted).mp (next.1 finished)
  · intro same
    refine .inr ⟨by rw [oldFormed.len, newFormed.len, same], ?_⟩
    cases found : (old.diffWalker new).nextItem ptrEq with
    | none => rfl
    | some step =>
      have more := (next.2 step.1 step.2 found).1
      rw [(diffEntries_eq_nil oldFormed.sorted newFormed.sorted).mpr same] at more
      cases more

theorem mem_diff (item : DiffItem K V) :
    item ∈ old.diff ptrEq new ↔ diffAt item.key (old.get item.key) (new.get item.key) = some item := by
  rw [diff_eq sound oldFormed newFormed, diffEntries_lists oldFormed.sorted newFormed.sorted, diffOf, oldFormed.get,
    newFormed.get]

end

omit [LinearOrder K] in
theorem proper_of_diffAt {old new : Option V} (found : diffAt item.key old new = some item) : item.Proper := by
  cases item with
  | add own value => trivial
  | remove own value => trivial
  | update before after => exact (diffAt_eq_update.mp found).1

theorem applyDiff_diff (sound : SoundPtrEq ptrEq) (oldFormed : WellFormed old) (newFormed : WellFormed new)
    (unique : Nat → Bool) :
    ∃ result, applyDiff unique old (old.diff ptrEq new) = some result ∧ WellFormed result ∧
      result.root.entries = new.root.entries := by
  have listed := mem_diff sound oldFormed newFormed
  have sorted : (old.diff ptrEq new).Pairwise fun a b => a.key < b.key := by
    rw [diff_eq sound oldFormed newFormed]
    exact diffEntries_sorted oldFormed.sorted newFormed.sorted
  have proper : ∀ item ∈ old.diff ptrEq new, item.Proper := fun item mem =>
    proper_of_diffAt ((listed item).mp mem)
  obtain ⟨result, applied, formed, changed, kept⟩ := applyDiff_spec unique oldFormed proper sorted
  refine ⟨result, applied, formed, formed.sorted.ext_lookup newFormed.sorted fun key => ?_⟩
  rw [← formed.get, ← newFormed.get]
  cases found : diffAt key (old.get key) (new.get key) with
  | none =>
    rw [← eq_of_diffAt_none found]
    refine kept key fun item mem same => ?_
    have here := (listed item).mp mem
    rw [same, found] at here
    cases here
  | some item =>
    obtain ⟨rfl, value⟩ := key_of_diffAt found
    rw [changed item ((listed item).mpr found), value]

/-- The diff of two well-formed maps lists in key order exactly what was added, removed and changed; it is empty
    exactly for equal maps, and applied to the old map it yields the new one. -/
theorem diff_exact (oldFormed : WellFormed old) (newFormed : WellFormed new) (sound : SoundPtrEq ptrEq) :
    (old.diff ptrEq new).Pairwise (fun a b => a.key < b.key) ∧
      (∀ key value, DiffItem.add key value ∈ old.diff ptrEq new ↔ old.get key = none ∧ new.get key = some value) ∧
      (∀ key value, DiffItem.remove key value ∈ old.diff ptrEq new ↔ old.get key = some value ∧ new.get key = none) ∧
      (∀ before after, DiffItem.update before after ∈ old.diff ptrEq new ↔ before.1 = after.1 ∧
        old.get before.1 = some before.2 ∧ new.get after.1 = some after.2 ∧ before.2 ≠ after.2) ∧
      (old.eq ptrEq new = true ↔ old.diff ptrEq new = []) ∧
      ∀ unique, ∃ result, applyDiff unique old (old.diff ptrEq new) = some result ∧ WellFormed result ∧
        result.root.entries = new.root.entries ∧ result.eq ptrEq new = true := by
  refine ⟨?_, fun key value => ?_, fun key value => ?_, fun before after => ?_, ?_, fun unique => ?_⟩
  · rw [diff_eq sound oldFormed newFormed]
    exact diffEntries_sorted oldFormed.sorted newFormed.sorted
  · rw [mem_diff sound oldFormed newFormed]
    exact diffAt_eq_add
  · rw [mem_diff sound oldFormed newFormed]
    exact diffAt_eq_remove
  · rw [mem_diff sound oldFormed newFormed]
    refine diffAt_eq_update.trans ⟨?_, ?_⟩
    · rintro ⟨same, removed, put, differ⟩
      exact ⟨same, removed, same ▸ put, differ⟩
    · rintro ⟨same, removed, put, differ⟩
      rw [← same] at put
      exact ⟨same, removed, put, differ⟩
  · rw [eq_iff_entries sound oldFormed newFormed, diff_eq sound oldFormed newFormed,
      diffEntries_eq_nil oldFormed.sorted newFormed.sorted]
  · obtain ⟨result, applied, formed, same⟩ := applyDiff_diff sound oldFormed newFormed unique
    exact ⟨result, applied, formed, same, (eq_iff_entries sound formed newFormed).mpr same⟩

namespace Sample

def short : PersistentOrdMap Nat Nat := ⟨.leaf [(1, 10)], 0, 1⟩

def tall : PersistentOrdMap Nat Nat := ⟨.internal [2] [.leaf [(1, 10)], .leaf [(2, 20)]], 1, 2⟩

def sharedLeaves : PtrEq Nat Nat := fun left right =>
  match left.head.1, right.head.1 with
  | some (.node (.leaf a)), some (.node (.leaf b)) => a == b
  | _, _ => false

theorem short_formed : WellFormed short where
  tree := .inl ⟨by simp [SortedKeys], by simp, by simp [maxFanout], fun _ _ => .none _⟩
  len := by rw [short, entries_leaf]; rfl

theorem tall_formed : WellFormed tall where
  tree := by
    refine .inl ⟨by simp [maxFanout], .link ?_ (.last ?_)⟩
    · exact ⟨by simp [SortedKeys], by simp, by simp [maxFanout], by simp [Within]⟩
    · exact ⟨by simp [SortedKeys], by simp, by simp [maxFanout], by simp [Within]⟩
  len := by
    rw [tall, entries_internal]
    simp

omit [LinearOrder K] [DecidableEq V] in
theorem head_of_stands {cursor : Cursor K V} (stands : cursor.Stands item) : cursor.head.1 = some item := by
  cases stands with
  | node found => rw [Cursor.head, found]
  | entry found => rw [Cursor.head, found]

theorem sharedLeaves_sound : SoundPtrEq sharedLeaves := by
  intro _ _ ln rn same leftStands rightStands
  rw [sharedLeaves, head_of_stands leftStands, head_of_stands rightStands] at same
  cases ln with
  | internal _ _ => cases same
  | leaf a =>
    cases rn with
    | internal _ _ => cases same
    | leaf b => rw [beq_iff_eq.mp same]

end Sample

theorem diff_exact_shared_leaf : DiffItem.add 2 20 ∈ Sample.short.diff Sample.sharedLeaves Sample.tall := by
  have exact_ := diff_exact Sample.short_formed Sample.tall_formed Sample.sharedLeaves_sound
  refine (exact_.2.1 2 20).mpr ⟨?_, ?_⟩
  · rw [Sample.short_formed.get]
    rw [Sample.short, Node.entries_leaf]
    rfl
  · rw [Sample.tall_formed.get, Sample.tall, Node.entries_internal]
    simp [lookup]

end Rezzy.OrdMap
