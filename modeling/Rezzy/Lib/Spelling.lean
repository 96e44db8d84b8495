import Mathlib.Data.List.Basic
import Mathlib.Tactic.Common

namespace Spelling

open List Except Prod

variable {β ε α γ : Type}

abbrev Reader (β ε α : Type) := List β → Nat → Except ε (α × Nat)

def slice (buf : List β) (start stop : Nat) : Option (List β) :=
  if start ≤ stop ∧ stop ≤ buf.length then some ((buf.drop start).take (stop - start)) else none

def Spelled (buf : List β) (start stop : Nat) (items : List β) : Prop :=
  ∃ before after, buf = before ++ (items ++ after) ∧ before.length = start ∧ stop = start + items.length

theorem Spelled.stop_le (spelled : Spelled buf start stop items) : stop ≤ buf.length := by
  obtain ⟨-, -, rfl, rfl, rfl⟩ := spelled
  simp only [length_append]
  omega

theorem Spelled.whole : Spelled buf 0 stop items ∧ stop = buf.length ↔ buf = items ∧ stop = items.length := by
  constructor
  · rintro ⟨⟨before, after, rfl, none, rfl⟩, whole⟩
    obtain rfl := length_eq_zero_iff.mp none
    simp only [nil_append, length_append] at whole ⊢
    have rest : after = [] := length_eq_zero_iff.mp (by omega)
    simp [rest]
  · rintro ⟨rfl, rfl⟩
    exact ⟨⟨[], [], by simp⟩, rfl⟩

theorem slice_eq_some : slice buf start stop = some items ↔ Spelled buf start stop items := by
  unfold slice
  constructor
  · intro sliced
    split at sliced
    · rename_i fits
      rw [← Option.some.inj sliced]
      refine ⟨buf.take start, buf.drop stop, ?_, ?_, ?_⟩
      · have rest : (buf.drop start).drop (stop - start) = buf.drop stop := by
          rw [drop_drop]
          congr 1
          omega
        rw [← rest, take_append_drop, take_append_drop]
      · rw [length_take]
        omega
      · rw [length_take, length_drop]
        omega
    · cases sliced
  · intro spelled
    have bound := spelled.stop_le
    obtain ⟨before, after, rfl, rfl, rfl⟩ := spelled
    rw [if_pos ⟨Nat.le_add_right _ _, bound⟩, drop_left, Nat.add_sub_cancel_left, take_left]

theorem Spelled.append : Spelled buf start stop (left ++ right) ↔
      ∃ middle, Spelled buf start middle left ∧ Spelled buf middle stop right := by
  constructor
  · rintro ⟨before, after, rfl, rfl, rfl⟩
    refine ⟨before.length + left.length, ⟨before, right ++ after, by simp, rfl, rfl⟩,
      ⟨before ++ left, after, by simp, by simp, ?_⟩⟩
    simp only [length_append]
    omega
  · rintro ⟨middle, ⟨before, after, split, rfl, rfl⟩, ⟨more, rest, again, length, rfl⟩⟩
    have same : more = before ++ left := by
      have first : buf.take (before.length + left.length) = before ++ left := by
        rw [split, ← append_assoc, ← length_append, take_left]
      have second : buf.take (before.length + left.length) = more := by
        rw [again, ← length, take_left]
      exact second.symm.trans first
    refine ⟨before, rest, ?_, rfl, ?_⟩
    · rw [again, same]
      simp
    · simp only [length_append]
      omega

theorem Spelled.nil : Spelled buf start stop [] ↔ stop = start ∧ start ≤ buf.length := by
  constructor
  · intro spelled
    have bound := spelled.stop_le
    obtain ⟨-, -, -, -, rfl⟩ := spelled
    exact ⟨rfl, bound⟩
  · rintro ⟨rfl, bound⟩
    refine ⟨buf.take stop, buf.drop stop, ?_, ?_, rfl⟩
    · rw [nil_append, take_append_drop]
    · rw [length_take]
      omega

def Exact (write : α → Option (List β)) (read : Reader β ε α) : Prop :=
  ∀ buf start value stop, read buf start = .ok (value, stop) ↔
    ∃ items, write value = some items ∧ Spelled buf start stop items

def readPair (first : Reader β ε α) (second : Reader β ε γ) : Reader β ε (α × γ) := fun buf start => do
  let (left, middle) ← first buf start
  let (right, stop) ← second buf middle
  return ((left, right), stop)

def writePair (first : α → Option (List β)) (second : γ → Option (List β)) (pair : α × γ) :
    Option (List β) := do
  let left ← first pair.1
  let right ← second pair.2
  return left ++ right

theorem readPair_eq_ok : readPair first second buf start = .ok (pair, stop) ↔
      ∃ middle, first buf start = .ok (pair.1, middle) ∧ second buf middle = .ok (pair.2, stop) := by
  obtain ⟨-, -⟩ := pair
  unfold readPair
  cases one : first buf start with
  | error e => simp [bind, Except.bind]
  | ok read =>
    obtain ⟨-, middle⟩ := read
    cases two : second buf middle with
    | error e =>
      simp only [bind, Except.bind, two, reduceCtorEq, ok.injEq, mk.injEq, false_iff]
      rintro ⟨m, ⟨-, rfl⟩, found⟩
      rw [two] at found
      cases found
    | ok read =>
      simp only [bind, Except.bind, two, pure, Except.pure, ok.injEq, mk.injEq]
      constructor
      · rintro ⟨⟨rfl, rfl⟩, rfl⟩
        exact ⟨middle, ⟨rfl, rfl⟩, two⟩
      · rintro ⟨m, ⟨rfl, rfl⟩, found⟩
        obtain rfl := ok.inj (two.symm.trans found)
        exact ⟨⟨rfl, rfl⟩, rfl⟩

theorem writePair_eq_some : writePair first second pair = some items ↔
      ∃ left right, first pair.1 = some left ∧ second pair.2 = some right ∧ items = left ++ right := by
  unfold writePair
  cases first pair.1 <;> cases second pair.2 <;> simp [bind, Option.bind, eq_comm]

theorem Exact.pair {writeLeft : α → Option (List β)} {readLeft : Reader β ε α}
    {writeRight : γ → Option (List β)} {readRight : Reader β ε γ} (left : Exact writeLeft readLeft)
    (right : Exact writeRight readRight) :
    Exact (writePair writeLeft writeRight) (readPair readLeft readRight) := by
  intro buf _ _ _
  rw [readPair_eq_ok]
  simp only [writePair_eq_some, left buf, right buf]
  constructor
  · rintro ⟨middle, ⟨one, writesOne, spellsOne⟩, ⟨two, writesTwo, spellsTwo⟩⟩
    exact ⟨one ++ two, ⟨one, two, writesOne, writesTwo, rfl⟩, Spelled.append.mpr ⟨middle, spellsOne, spellsTwo⟩⟩
  · rintro ⟨items, ⟨one, two, writesOne, writesTwo, rfl⟩, spelled⟩
    obtain ⟨middle, spellsOne, spellsTwo⟩ := Spelled.append.mp spelled
    exact ⟨middle, ⟨one, writesOne, spellsOne⟩, ⟨two, writesTwo, spellsTwo⟩⟩

def readMany (read : Reader β ε α) : Nat → Reader β ε (List α)
  | 0, _, start => .ok ([], start)
  | count + 1, buf, start => do
    let (value, middle) ← read buf start
    let (values, stop) ← readMany read count buf middle
    return (value :: values, stop)

def writeMany (write : α → Option (List β)) : List α → Option (List β)
  | [] => some []
  | value :: values => do
    let items ← write value
    let rest ← writeMany write values
    return items ++ rest

theorem readMany_succ {read : Reader β ε α} {count : Nat} {buf : List β} {start stop : Nat}
    {values : List α} : readMany read (count + 1) buf start = .ok (values, stop) ↔
      ∃ value rest middle, values = value :: rest ∧ read buf start = .ok (value, middle) ∧
        readMany read count buf middle = .ok (rest, stop) := by
  rw [readMany]
  cases one : read buf start with
  | error e => simp [bind, Except.bind]
  | ok found =>
    obtain ⟨value, middle⟩ := found
    cases more : readMany read count buf middle with
    | error e =>
      simp only [bind, Except.bind, more, reduceCtorEq, ok.injEq, mk.injEq, false_iff]
      rintro ⟨v, rest, m, -, ⟨-, rfl⟩, found⟩
      rw [more] at found
      cases found
    | ok found =>
      obtain ⟨rest, last⟩ := found
      simp only [bind, Except.bind, more, pure, Except.pure, ok.injEq, mk.injEq]
      constructor
      · rintro ⟨rfl, rfl⟩
        exact ⟨value, rest, middle, rfl, ⟨rfl, rfl⟩, more⟩
      · rintro ⟨v, r, m, rfl, ⟨rfl, rfl⟩, found⟩
        obtain ⟨rfl, rfl⟩ := mk.inj (ok.inj (more.symm.trans found))
        exact ⟨rfl, rfl⟩

theorem writeMany_cons : writeMany write (value :: values) = some items ↔
      ∃ one rest, write value = some one ∧ writeMany write values = some rest ∧ items = one ++ rest := by
  rw [writeMany]
  cases write value <;> cases writeMany write values <;> simp [bind, Option.bind, eq_comm]

theorem Exact.many {write : α → Option (List β)} {read : Reader β ε α} (exact : Exact write read)
    {count : Nat} {buf : List β} {start stop : Nat} {values : List α} (inside : start ≤ buf.length) :
    readMany read count buf start = .ok (values, stop) ↔
      values.length = count ∧ ∃ items, writeMany write values = some items ∧ Spelled buf start stop items := by
  induction count generalizing start values with
  | zero =>
    rw [readMany, length_eq_zero_iff]
    constructor
    · intro read
      obtain ⟨rfl, rfl⟩ := mk.inj (ok.inj read)
      exact ⟨rfl, [], rfl, Spelled.nil.mpr ⟨rfl, inside⟩⟩
    · rintro ⟨rfl, items, writes, spelled⟩
      obtain rfl := Option.some.inj writes
      rw [(Spelled.nil.mp spelled).1]
  | succ count ih =>
    rw [readMany_succ]
    constructor
    · rintro ⟨value, rest, middle, rfl, one, more⟩
      obtain ⟨items, writes, spelled⟩ := (exact buf start value middle).mp one
      obtain ⟨length, others, writesOthers, spelledOthers⟩ := (ih spelled.stop_le).mp more
      exact ⟨by simp [length], items ++ others, writeMany_cons.mpr ⟨items, others, writes, writesOthers, rfl⟩,
        Spelled.append.mpr ⟨middle, spelled, spelledOthers⟩⟩
    · rintro ⟨length, items, writes, spelled⟩
      cases values with
      | nil => simp at length
      | cons value rest =>
        obtain ⟨one, others, writesOne, writesOthers, rfl⟩ := writeMany_cons.mp writes
        obtain ⟨middle, spelledOne, spelledOthers⟩ := Spelled.append.mp spelled
        exact ⟨value, rest, middle, rfl, (exact buf start value middle).mpr ⟨one, writesOne, spelledOne⟩,
          (ih spelledOne.stop_le).mpr ⟨by simpa using length, others, writesOthers, spelledOthers⟩⟩

end Spelling
