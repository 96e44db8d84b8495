import Mathlib

namespace Fenced

open List

inductive Row {K α : Type} (P : Option K → Option K → α → Prop) :
    Option K → Option K → List K → List α → Prop
  | last {lo hi : Option K} {item : α} (fits : P lo hi item) : Row P lo hi [] [item]
  | link {lo hi : Option K} {key : K} {keys : List K} {item : α} {items : List α}
    (fits : P lo (some key) item) (rest : Row P (some key) hi keys items) :
    Row P lo hi (key :: keys) (item :: items)

section

variable {K α : Type} {P : Option K → Option K → α → Prop} {lo hi : Option K} {keys : List K} {items : List α}

theorem Row.length (row : Row P lo hi keys items) : items.length = keys.length + 1 := by
  induction row with
  | last => rfl
  | link _ _ ih => rw [length_cons, ih, length_cons]

theorem Row.mem (row : Row P lo hi keys items) (mem : item ∈ items) : ∃ low high, P low high item := by
  induction row with
  | last fits =>
    rw [mem_singleton.mp mem]
    exact ⟨_, _, fits⟩
  | link fits _ ih =>
    rcases mem_cons.mp mem with rfl | mem
    · exact ⟨_, _, fits⟩
    · exact ih mem

theorem Row.map {β : Type} {Q : Option K → Option K → β → Prop} (f : α → β)
    (maps : ∀ lo hi x, P lo hi x → Q lo hi (f x)) (row : Row P lo hi keys items) : Row Q lo hi keys (items.map f) := by
  induction row with
  | last fits => exact .last (maps _ _ _ fits)
  | link fits _ ih => exact .link (maps _ _ _ fits) ih

theorem Row.imp {Q : Option K → Option K → α → Prop} (stronger : ∀ lo hi x, P lo hi x → Q lo hi x)
    (row : Row P lo hi keys items) : Row Q lo hi keys items := by
  have mapped := row.map (Q := Q) id stronger
  rwa [map_id] at mapped

theorem Row.cut (row : Row P lo hi keys items) (some_left : 0 < mid) (some_right : mid < items.length) :
    ∃ key, keys.drop (mid - 1) = key :: keys.drop mid ∧ Row P lo (some key) (keys.take (mid - 1)) (items.take mid) ∧
      Row P (some key) hi (keys.drop mid) (items.drop mid) := by
  induction row generalizing mid with
  | last => simp only [length_singleton] at some_right; omega
  | @link lo hi key keys item items fits rest ih =>
    cases mid with
    | zero => omega
    | succ mid =>
      rw [Nat.add_sub_cancel]
      cases mid with
      | zero => exact ⟨key, rfl, .last fits, rest⟩
      | succ mid =>
        have inside : mid + 1 < items.length := Nat.lt_of_succ_lt_succ some_right
        obtain ⟨cut, split, left, right⟩ := ih (Nat.succ_pos mid) inside
        exact ⟨cut, split, .link fits left, right⟩

theorem Row.append (row : Row P lo (some key) keys items) (rest : Row P (some key) hi more others) :
    Row P lo hi (keys ++ key :: more) (items ++ others) := by
  generalize stop : some key = till at row
  induction row with
  | last fits =>
    subst stop
    exact .link fits rest
  | link fits _ ih => exact .link fits (ih stop)

def chunked {β : Type} (make : List α → Option β) : List Nat → List α → Option (List β)
  | [], _ => some []
  | size :: sizes, items => do
    let item ← make (items.take size)
    let rest ← chunked make sizes (items.drop size)
    some (item :: rest)

theorem length_chunked (computed : chunked make sizes items = some made) : made.length = sizes.length := by
  induction sizes generalizing items made with
  | nil => cases computed; rfl
  | cons size sizes ih =>
    obtain ⟨item, _, computed⟩ := Option.bind_eq_some_iff.mp computed
    obtain ⟨rest, below, computed⟩ := Option.bind_eq_some_iff.mp computed
    cases computed
    rw [length_cons, ih below, length_cons]

theorem flatten_chunked {β γ : Type} {make : List α → Option β} {sizes : List Nat} {items : List α} {made : List β}
    {read : α → List γ} {readMade : β → List γ}
    (same : ∀ group item, make group = some item → readMade item = (group.map read).flatten)
    (total : sizes.sum = items.length) (computed : chunked make sizes items = some made) :
    (made.map readMade).flatten = (items.map read).flatten := by
  induction sizes generalizing items made with
  | nil =>
    cases computed
    rw [eq_nil_of_length_eq_zero total.symm]
    rfl
  | cons size sizes ih =>
    obtain ⟨item, first, computed⟩ := Option.bind_eq_some_iff.mp computed
    obtain ⟨rest, below, computed⟩ := Option.bind_eq_some_iff.mp computed
    cases computed
    have fewer : sizes.sum = (items.drop size).length := by
      rw [sum_cons] at total
      rw [length_drop]
      omega
    rw [map_cons, flatten_cons, same _ _ first, ih fewer below, ← flatten_append, ← map_append, take_append_drop]

theorem Row.chunked {β : Type} {Q : Option K → Option K → β → Prop} {make : List α → Option β} {keyOf : α → K}
    {keyMade : β → K} {most : Nat}
    (makes : ∀ lo hi first group, (first :: group).length ≤ most → Row P lo hi (group.map keyOf) (first :: group) →
      ∃ made, make (first :: group) = some made ∧ keyMade made = keyOf first ∧ Q lo hi made)
    {sizes : List Nat} (few : ∀ size ∈ sizes, 0 < size ∧ size ≤ most) {first : α} {rest : List α}
    (total : sizes.sum = (first :: rest).length) (row : Row P lo hi (rest.map keyOf) (first :: rest)) :
    ∃ head tail, Fenced.chunked make sizes (first :: rest) = some (head :: tail) ∧ keyMade head = keyOf first ∧
      Row Q lo hi (tail.map keyMade) (head :: tail) := by
  induction sizes generalizing lo first rest with
  | nil => simp at total
  | cons size sizes ih =>
    obtain ⟨⟨one, small⟩, later⟩ := forall_mem_cons.mp few
    obtain ⟨size, rfl⟩ := Nat.exists_eq_add_of_lt one
    rw [Nat.zero_add] at *
    by_cases last : (first :: rest).length = size + 1
    · have whole : (first :: rest).take (size + 1) = first :: rest := take_of_length_le (Nat.le_of_eq last)
      have nothing : sizes = [] := by
        cases sizes with
        | nil => rfl
        | cons next _ =>
          have := (later next (mem_cons_self ..)).1
          rw [sum_cons, sum_cons] at total
          omega
      obtain ⟨made, computed, same, fits⟩ := makes lo hi first rest (by omega) row
      refine ⟨made, [], ?_, same, .last fits⟩
      rw [nothing, Fenced.chunked, whole, computed]
      rfl
    · rw [sum_cons] at total
      obtain ⟨key, split, left, right⟩ := row.cut one (by omega)
      rw [Nat.add_sub_cancel] at split left
      obtain ⟨next, others, remaining⟩ : ∃ next others, rest.drop size = next :: others := by
        refine exists_cons_of_ne_nil ?_
        rw [Ne, drop_eq_nil_iff]
        rw [length_cons] at total last
        omega
      have keys : (rest.map keyOf).drop size = keyOf next :: others.map keyOf := by
        rw [← map_drop, remaining, map_cons]
      rw [keys, List.cons.injEq] at split
      obtain ⟨rfl, rightKeys⟩ := split
      rw [← rightKeys, drop_succ_cons, remaining] at right
      obtain ⟨made, computed, same, fits⟩ := makes lo (some (keyOf next)) first (rest.take size)
        (by rw [length_cons, length_take]; omega) (by rwa [map_take])
      have fewer : sizes.sum = (next :: others).length := by
        rw [← remaining, length_drop]
        rw [length_cons] at total
        omega
      obtain ⟨head, tail, below, sameHead, row⟩ := ih later fewer right
      refine ⟨made, head :: tail, ?_, same, ?_⟩
      · rw [Fenced.chunked, take_succ_cons, computed, drop_succ_cons, remaining, below]
        rfl
      · rw [map_cons, sameHead]
        exact .link fits row

end

variable {K α : Type} [LinearOrder K]

def Within (lo hi : Option K) (key : K) : Prop := (∀ low ∈ lo, low ≤ key) ∧ ∀ high ∈ hi, key < high

variable {P : Option K → Option K → α → Prop} {lo hi : Option K} {keys : List K} {items : List α} {key : K}

theorem Within.none (key : K) : Within none none key := ⟨by simp, by simp⟩

theorem Within.below (within : Within lo (some high) key) : key < high := within.2 high rfl

theorem Within.above (within : Within (some low) hi key) : low ≤ key := within.1 low rfl

theorem Within.raise (within : Within lo hi key) (more : low ≤ key) : Within (some low) hi key :=
  ⟨fun _ known => Option.mem_some.mp known ▸ more, within.2⟩

theorem Within.cap (within : Within lo hi key) (less : key < high) : Within lo (some high) key :=
  ⟨within.1, fun _ known => Option.mem_some.mp known ▸ less⟩

/-- A key's item in a row: what stands on either side of it, and that anything that fits its range
    may replace it. -/
structure Hole (P : Option K → Option K → α → Prop) (lo hi : Option K) (key : K) (leftKeys rightKeys : List K)
    (left right : List α) (low high : Option K) : Prop where
  length_eq : leftKeys.length = left.length
  passed : ∀ k ∈ leftKeys, k ≤ key
  ahead : ∀ k ∈ rightKeys, key < k
  within : Within low high key
  before : ∀ x ∈ left, ∃ start stop, P start (some stop) x ∧ stop ≤ key
  after : ∀ x ∈ right, ∃ start stop, P (some start) stop x ∧ key < start
  plug : ∀ {ks xs}, Row P low high ks xs → Row P lo hi (leftKeys ++ (ks ++ rightKeys)) (left ++ (xs ++ right))

variable (ranged : ∀ lo hi x, P lo hi x → ∃ key, Within lo hi key)

include ranged

theorem Row.range (row : Row P lo hi keys items) : ∃ key, Within lo hi key := by
  induction row with
  | last fits => exact ranged _ _ _ fits
  | @link lo hi key keys item items fits rest ih =>
    obtain ⟨first, within⟩ := ranged _ _ _ fits
    obtain ⟨later, beyond⟩ := ih
    refine ⟨later, fun low known => ?_, beyond.2⟩
    exact le_trans (within.1 low known) (within.below.le.trans beyond.above)

theorem Row.keys_within (row : Row P lo hi keys items) : ∀ key ∈ keys, Within lo hi key := by
  induction row with
  | last => exact fun _ mem => absurd mem not_mem_nil
  | @link lo hi key keys item items fits rest ih =>
    obtain ⟨first, within⟩ := ranged _ _ _ fits
    have low : ∀ low ∈ lo, low ≤ key := fun low known => le_trans (within.1 low known) within.below.le
    intro k mem
    rcases mem_cons.mp mem with rfl | mem
    · obtain ⟨later, beyond⟩ := rest.range ranged
      exact ⟨low, fun high known => lt_of_le_of_lt beyond.above (beyond.2 high known)⟩
    · have inside := ih k mem
      exact ⟨fun l known => le_trans (low l known) inside.above, inside.2⟩

theorem Row.items_above (row : Row P lo hi keys items) (start : lo = some low) (less : key < low) :
    ∀ x ∈ items, ∃ start stop, P (some start) stop x ∧ key < start := by
  induction row generalizing low with
  | last fits =>
    subst start
    intro x mem
    rw [mem_singleton.mp mem]
    exact ⟨low, _, fits, less⟩
  | @link lo hi first keys item items fits rest ih =>
    subst start
    obtain ⟨k, within⟩ := ranged _ _ _ fits
    refine forall_mem_cons.mpr ⟨⟨low, _, fits, less⟩, ih rfl ?_⟩
    exact less.trans (lt_of_le_of_lt within.above within.below)

theorem Row.hole (row : Row P lo hi keys items) (within : Within lo hi key) :
    ∃ leftKeys rightKeys left item right low high, keys = leftKeys ++ rightKeys ∧ items = left ++ item :: right ∧
      P low high item ∧ Hole P lo hi key leftKeys rightKeys left right low high := by
  induction row with
  | @last lo hi item fits =>
    refine ⟨[], [], [], item, [], lo, hi, rfl, rfl, fits, ⟨rfl, by simp, by simp, within, by simp, by simp, ?_⟩⟩
    exact fun row => by simpa using row
  | @link lo hi first keys item items fits rest ih =>
    by_cases passed : first ≤ key
    · obtain ⟨leftKeys, rightKeys, left, found, right, low, high, rfl, rfl, inside, hole⟩ := ih (within.raise passed)
      refine ⟨first :: leftKeys, rightKeys, item :: left, found, right, low, high, rfl, rfl, inside, ?_⟩
      exact {
        length_eq := congrArg Nat.succ hole.length_eq
        passed := forall_mem_cons.mpr ⟨passed, hole.passed⟩
        ahead := hole.ahead
        within := hole.within
        before := forall_mem_cons.mpr ⟨⟨lo, first, fits, passed⟩, hole.before⟩
        after := hole.after
        plug := fun row => .link fits (hole.plug row) }
    · have short : key < first := not_le.mp passed
      refine ⟨[], first :: keys, [], item, items, lo, some first, rfl, rfl, fits, ?_⟩
      exact {
        length_eq := rfl
        passed := by simp
        ahead := forall_mem_cons.mpr ⟨short, fun k mem => short.trans_le (rest.keys_within ranged k mem).above⟩
        within := within.cap short
        before := by simp
        after := rest.items_above ranged rfl short
        plug := fun row => row.append rest }

variable (widen : ∀ lo hi lo' hi' x, (∀ key, Within lo hi key → Within lo' hi' key) → P lo hi x → P lo' hi' x)

include widen

theorem Row.extend {lo' hi' : Option K} (row : Row P lo hi keys items)
    (wider : ∀ key, Within lo hi key → Within lo' hi' key) : Row P lo' hi' keys items := by
  induction row generalizing lo' with
  | last fits => exact .last (widen _ _ _ _ _ wider fits)
  | @link lo hi key keys item items fits rest ih =>
    obtain ⟨first, held⟩ := ranged _ _ _ fits
    obtain ⟨later, beyond⟩ := rest.range ranged
    refine .link (widen _ _ _ _ _ (fun k within => ?_) fits) (ih fun k within => ?_)
    · have less : k < later := within.below.trans_le beyond.above
      exact ⟨(wider k ⟨within.1, fun high known => less.trans (beyond.2 high known)⟩).1, within.2⟩
    · have more : first ≤ k := held.below.le.trans within.above
      exact ⟨within.1, (wider k ⟨fun low known => le_trans (held.1 low known) more, within.2⟩).2⟩

theorem Row.drop (row : Row P lo hi keys items) {idx : Nat} (inside : idx < items.length)
    (others : 1 < items.length) : Row P lo hi (keys.eraseIdx (idx - 1)) (items.eraseIdx idx) := by
  induction row generalizing idx with
  | last => simp at others
  | @link lo hi key keys item items fits rest ih =>
    obtain ⟨first, held⟩ := ranged _ _ _ fits
    cases idx with
    | zero =>
      refine rest.extend ranged widen fun k within => ⟨fun low known => ?_, within.2⟩
      exact le_trans (held.1 low known) (held.below.le.trans within.above)
    | succ idx =>
      rw [Nat.add_sub_cancel, eraseIdx_cons_succ]
      cases idx with
      | zero =>
        -- the second item goes: the first one takes over its range
        cases rest with
        | last only =>
          obtain ⟨second, next⟩ := ranged _ _ _ only
          refine .last (widen _ _ _ _ _ (fun k within => ⟨within.1, fun high known => ?_⟩) fits)
          exact within.below.trans (lt_of_le_of_lt next.above (next.2 high known))
        | @link _ _ key' _ _ _ only rest =>
          obtain ⟨second, next⟩ := ranged _ _ _ only
          refine .link (widen _ _ _ _ _ (fun k within => ⟨within.1, fun high known => ?_⟩) fits) rest
          rw [← Option.mem_some.mp known]
          exact within.below.trans (lt_of_le_of_lt next.above next.below)
      | succ idx =>
        have inside : idx + 1 < items.length := Nat.lt_of_succ_lt_succ inside
        exact .link fits (ih inside (by omega))

end Fenced
