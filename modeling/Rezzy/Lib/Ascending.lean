import Mathlib.Data.List.Sort

namespace Ascending

open List Option

variable {α κ : Type} [LinearOrder κ]

def Ascends (f : α → κ) (list : List α) : Prop := list.Pairwise fun a b => f a < f b

def entryAt (f : α → κ) (list : List α) (key : κ) : Option α := list.find? fun a => decide (f a = key)

def search (f : α → κ) (list : List α) (key : κ) : Except Nat Nat :=
  let pos := (list.takeWhile fun a => decide (f a < key)).length
  match list[pos]? with
  | some a => if f a = key then .ok pos else .error pos
  | none => .error pos

structure Place (f : α → κ) (list : List α) (key : κ) (before : List α) (found : Option α) (after : List α) :
    Prop where
  split : list = before ++ (found.toList ++ after)
  below : ∀ a ∈ before, f a < key
  same : ∀ a, found = some a → f a = key
  above : ∀ a ∈ after, key < f a

variable {f : α → κ} {list before after : List α} {found new : Option α} {key other : κ} {a : α}

theorem entryAt_some (found : entryAt f list key = some a) : a ∈ list ∧ f a = key :=
  ⟨mem_of_find?_eq_some found, by simpa using find?_some found⟩

theorem entryAt_none : entryAt f list key = none ↔ ∀ a ∈ list, f a ≠ key := by
  simp [entryAt]

theorem entryAt_cons (a : α) (list : List α) (key : κ) :
    entryAt f (a :: list) key = if f a = key then some a else entryAt f list key := by
  unfold entryAt
  rw [find?_cons]
  by_cases same : f a = key
  · simp [same]
  · simp [same]

theorem entryAt_append : entryAt f (before ++ after) key = (entryAt f before key).or (entryAt f after key) :=
  find?_append

@[simp] theorem entryAt_nil : entryAt f [] key = none := rfl

theorem entryAt_of_below (below : ∀ a ∈ list, f a < key) : entryAt f list key = none :=
  entryAt_none.mpr fun a mem => (below a mem).ne

theorem entryAt_of_above (above : ∀ a ∈ list, key < f a) : entryAt f list key = none :=
  entryAt_none.mpr fun a mem => (above a mem).ne'

theorem Ascends.nil : Ascends f [] := List.Pairwise.nil

theorem Ascends.entryAt_of_mem (ascends : Ascends f list) (mem : a ∈ list) : entryAt f list (f a) = some a := by
  induction list with
  | nil => cases mem
  | cons first rest ih =>
    obtain ⟨less, ascends⟩ := pairwise_cons.mp ascends
    rw [entryAt_cons]
    rcases mem_cons.mp mem with rfl | mem
    · rw [if_pos rfl]
    · rw [if_neg (less a mem).ne, ih ascends mem]

theorem Ascends.ext (ascends : Ascends f list) (ascending : Ascends f others)
    (same : ∀ key, entryAt f list key = entryAt f others key) : list = others := by
  apply List.Pairwise.eq_of_mem_iff ascends ascending
  intro a
  constructor
  · intro mem
    exact (entryAt_some ((same (f a)).symm.trans (ascends.entryAt_of_mem mem))).1
  · intro mem
    exact (entryAt_some ((same (f a)).trans (ascending.entryAt_of_mem mem))).1

theorem Ascends.place (ascends : Ascends f list) (key : κ) : ∃ before found after, Place f list key before found after := by
  induction list with
  | nil => exact ⟨[], none, [], rfl, by simp, by simp, by simp⟩
  | cons first rest ih =>
    obtain ⟨less, ascends⟩ := pairwise_cons.mp ascends
    rcases lt_trichotomy (f first) key with below | same | above
    · obtain ⟨before, found, after, place⟩ := ih ascends
      refine ⟨first :: before, found, after, ?_, ?_, place.same, place.above⟩
      · rw [place.split, cons_append]
      · exact forall_mem_cons.mpr ⟨below, place.below⟩
    · exact ⟨[], some first, rest, rfl, by simp, fun a held => Option.some.inj held ▸ same, same ▸ less⟩
    · refine ⟨[], none, first :: rest, rfl, by simp, by simp, ?_⟩
      exact forall_mem_cons.mpr ⟨above, fun a mem => above.trans (less a mem)⟩

namespace Place

theorem takeWhile (place : Place f list key before found after) :
    (list.takeWhile fun a => decide (f a < key)) = before := by
  rw [place.split, takeWhile_append_of_pos fun a mem => decide_eq_true (place.below a mem)]
  have stop : (found.toList ++ after).takeWhile (fun a => decide (f a < key)) = [] := by
    cases found with
    | none =>
      cases after with
      | nil => rfl
      | cons a rest => simp [(place.above a mem_cons_self).le]
    | some a => simp [place.same a rfl]
  rw [stop, append_nil]

theorem dropWhile (place : Place f list key before found after) :
    (list.dropWhile fun a => decide (f a < key)) = found.toList ++ after := by
  have whole := takeWhile_append_dropWhile (p := fun a => decide (f a < key)) (l := list)
  rw [place.takeWhile] at whole
  exact append_cancel_left (whole.trans place.split)

theorem search_found (place : Place f list key before (some a) after) : search f list key = .ok before.length := by
  unfold search
  have at' : list[before.length]? = some a := by
    rw [place.split]
    simp
  simp only [place.takeWhile, at', place.same a rfl, if_pos]

theorem search_absent (place : Place f list key before none after) : search f list key = .error before.length := by
  unfold search
  have at' : list[before.length]? = after.head? := by
    rw [place.split]
    cases after <;> simp
  simp only [place.takeWhile, at']
  cases after with
  | nil => rfl
  | cons a rest => simp [(place.above a mem_cons_self).ne']

theorem search_isOk (place : Place f list key before found after) : (search f list key).isOk = found.isSome := by
  cases found with
  | none => rw [place.search_absent]; rfl
  | some a => rw [place.search_found]; rfl

theorem entryAt (place : Place f list key before found after) : entryAt f list key = found := by
  rw [place.split, entryAt_append, entryAt_append, entryAt_of_below place.below, entryAt_of_above place.above,
    none_or, or_none]
  cases found with
  | none => rfl
  | some a => rw [toList_some, entryAt_cons, if_pos (place.same a rfl)]

section

theorem present (place : Place id items key front (some item) back) : key ∈ items := by
  have same : item = key := place.same item rfl
  exact same ▸ (entryAt_some place.entryAt).1

theorem missing (place : Place id items key front none back) : key ∉ items :=
  fun mem => entryAt_none.mp place.entryAt key mem rfl

variable (place : Place f list key before found after)
include place

theorem put (same : ∀ a, new = some a → f a = key) : Place f (before ++ (new.toList ++ after)) key before new after :=
  ⟨rfl, place.below, same, place.above⟩

theorem entryAt_other (differs : other ≠ key) :
    Ascending.entryAt f list other = Ascending.entryAt f (before ++ after) other := by
  rw [place.split, entryAt_append, entryAt_append, entryAt_append]
  have skipped : Ascending.entryAt f found.toList other = none := by
    apply entryAt_none.mpr
    intro a mem
    rw [place.same a (mem_toList.mp mem)]
    exact differs.symm
  rw [skipped, none_or]

theorem entryAt_put (same : ∀ a, new = some a → f a = key) :
    Ascending.entryAt f (before ++ (new.toList ++ after)) other =
      if other = key then new else Ascending.entryAt f list other := by
  split
  · rename_i here
    rw [here, (place.put same).entryAt]
  · rename_i elsewhere
    rw [(place.put same).entryAt_other elsewhere, place.entryAt_other elsewhere]

theorem ascends_put (same : ∀ a, new = some a → f a = key)
    (ascends : Ascends f list) : Ascends f (before ++ (new.toList ++ after)) := by
  unfold Ascends at ascends ⊢
  rw [place.split] at ascends
  obtain ⟨left, right, _⟩ := pairwise_append.mp ascends
  obtain ⟨_, right, _⟩ := pairwise_append.mp right
  rw [pairwise_append, pairwise_append]
  refine ⟨left, ⟨?_, right, ?_⟩, ?_⟩
  · cases new <;> simp
  · intro a mem b later
    rw [same a (mem_toList.mp mem)]
    exact place.above b later
  · intro a mem b later
    rcases mem_append.mp later with held | later
    · rw [same b (mem_toList.mp held)]
      exact place.below a mem
    · exact (place.below a mem).trans (place.above b later)

end

theorem eraseIdx (place : Place f list key before (some a) after) : list.eraseIdx before.length = before ++ after := by
  rw [place.split, eraseIdx_append_of_length_le le_rfl, Nat.sub_self]
  rfl

theorem set (place : Place f list key before (some a) after) (item : α) :
    list.set before.length item = before ++ (item :: after) := by
  rw [place.split, set_append_right _ _ le_rfl, Nat.sub_self]
  rfl

theorem insertIdx (place : Place f list key before none after) (item : α) :
    list.insertIdx before.length item = before ++ (item :: after) := by
  rw [place.split, toList_none, nil_append]
  clear place
  induction before with
  | nil => rfl
  | cons first rest ih => rw [cons_append, length_cons, insertIdx_succ_cons, ih, cons_append]

theorem getLast? (place : Place f list key before found after) :
    list.getLast? = after.getLast?.or (found.or before.getLast?) := by
  rw [place.split, getLast?_append, getLast?_append]
  cases found <;> simp

end Place

def apartWalk (f : α → κ) (apart : α → α → Bool) : List α → List α → Bool
  | a :: as, b :: bs =>
    if f a < f b then apartWalk f apart as (b :: bs)
    else if f b < f a then apartWalk f apart (a :: as) bs
    else if apart a b then apartWalk f apart as bs else false
  | _, _ => true
termination_by as bs => as.length + bs.length

theorem apartWalk_iff {apart : α → α → Bool} {as bs : List α} (left : Ascends f as) (right : Ascends f bs) :
    apartWalk f apart as bs = true ↔ ∀ a ∈ as, ∀ b ∈ bs, f a = f b → apart a b = true := by
  fun_induction apartWalk f apart as bs with
  | case1 a as b bs less ih =>
    obtain ⟨_, left⟩ := pairwise_cons.mp left
    rw [ih left right]
    constructor
    · intro all
      refine forall_mem_cons.mpr ⟨?_, all⟩
      intro c mem same
      rcases mem_cons.mp mem with rfl | mem
      · exact absurd same less.ne
      · exact absurd same (less.trans ((pairwise_cons.mp right).1 c mem)).ne
    · exact fun all => (forall_mem_cons.mp all).2
  | case2 a as b bs less more ih =>
    obtain ⟨_, right⟩ := pairwise_cons.mp right
    rw [ih left right]
    constructor
    · intro all c mem
      refine forall_mem_cons.mpr ⟨?_, all c mem⟩
      intro same
      rcases mem_cons.mp mem with rfl | mem
      · exact absurd same more.ne'
      · exact absurd same (more.trans ((pairwise_cons.mp left).1 c mem)).ne'
    · exact fun all c mem => (forall_mem_cons.mp (all c mem)).2
  | case3 a as b bs less more clear ih =>
    have same : f a = f b := le_antisymm (not_lt.mp more) (not_lt.mp less)
    obtain ⟨first, left⟩ := pairwise_cons.mp left
    obtain ⟨second, right⟩ := pairwise_cons.mp right
    rw [ih left right]
    constructor
    · intro all
      refine forall_mem_cons.mpr ⟨forall_mem_cons.mpr ⟨fun _ => clear, ?_⟩, ?_⟩
      · exact fun c mem equal => absurd equal (same ▸ second c mem).ne
      · intro c mem
        refine forall_mem_cons.mpr ⟨?_, all c mem⟩
        exact fun equal => absurd equal (same ▸ first c mem).ne'
    · exact fun all c mem => (forall_mem_cons.mp ((forall_mem_cons.mp all).2 c mem)).2
  | case4 a as b bs less more clash =>
    have same : f a = f b := le_antisymm (not_lt.mp more) (not_lt.mp less)
    constructor
    · exact fun impossible => absurd impossible Bool.false_ne_true
    · exact fun all => absurd (all a mem_cons_self b mem_cons_self same) clash
  | case5 as bs stop =>
    refine iff_of_true rfl ?_
    intro a left' b right'
    cases as with
    | nil => cases left'
    | cons first as =>
      cases bs with
      | nil => cases right'
      | cons second bs => exact (stop _ _ _ _ rfl rfl).elim

end Ascending
