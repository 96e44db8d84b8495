import Rezzy.Json.Grammar

namespace Rezzy.Json

open List

def digitsValue (ds : Bytes) : Nat := ds.foldl (fun n d => n * 10 + (d.toNat - 0x30)) 0

/-- The shortest decimal spelling of an integer: no plus sign, no leading zero, no minus zero. -/
inductive ShortestSpelling : Int → Bytes → Prop
  | natural {ds : Bytes} (whole : IntPart ds) : ShortestSpelling (digitsValue ds) ds
  | negative {ds : Bytes} (whole : IntPart ds) (nonzero : ds ≠ [0x30]) : ShortestSpelling (-digitsValue ds) (0x2d :: ds)

def SafeInteger (b : Bytes) : Prop :=
  ∃ n : Int, ShortestSpelling n b ∧ -(maxSafeInteger : Int) ≤ n ∧ n ≤ (maxSafeInteger : Int)

/-- A plus sign before the digits of an integer in the safe range. -/
def PlusSigned (b : Bytes) : Prop :=
  ∃ ds, b = 0x2b :: ds ∧ Digits ds ∧ digitsValue ds ≤ maxSafeInteger

def CanonicalIntegerExact (value : String) : Prop :=
  isCanonicalIntegerStr value = true ↔ SafeInteger (asBytes value)

theorem parseDigits_eq_some : parseDigits ds = some n ↔ Digits ds ∧ digitsValue ds = n := by
  unfold parseDigits Digits digitsValue
  split
  · rename_i bad
    refine ⟨fun same => by simp at same, fun given => ?_⟩
    rcases bad with empty | bad
    · exact absurd empty given.1.1
    · exact absurd (all_eq_true.mpr given.1.2) bad
  · rename_i good
    obtain ⟨some_, all⟩ := not_or.mp good
    rw [Option.some.injEq]
    exact ⟨fun same => ⟨⟨some_, all_eq_true.mp (not_not.mp all)⟩, same⟩, fun given => given.2⟩

theorem IntPart.toDigits (whole : IntPart ds) : Digits ds := by
  cases whole with
  | zero => exact ⟨nofun, forall_mem_singleton.mpr (by decide)⟩
  | digits leading rest =>
    refine ⟨nofun, forall_mem_cons.mpr ⟨?_, rest⟩⟩
    have low : (0x30 : UInt8) ≤ _ := UInt8.le_trans (by decide) leading.1
    simp [isAsciiDigit, low, leading.2]

theorem intPart_iff : IntPart ds ↔ Digits ds ∧ (ds = [0x30] ∨ ds.head? ≠ some 0x30) := by
  constructor
  · intro whole
    refine ⟨whole.toDigits, ?_⟩
    cases whole with
    | zero => exact .inl rfl
    | digits leading rest =>
      right
      rintro ⟨⟩
      exact absurd leading.1 (by decide)
  · rintro ⟨⟨some_, all⟩, rfl | leading⟩
    · exact .zero
    · cases ds with
      | nil => exact absurd rfl some_
      | cons d ds =>
        obtain ⟨first, rest⟩ := forall_mem_cons.mp all
        have other : ¬d = 0x30 := fun same => leading (congrArg some same)
        refine .digits ?_ rest
        rw [← UInt8.toNat_inj] at other
        simp only [isAsciiDigit, Bool.and_eq_true, decide_eq_true_iff, UInt8.le_iff_toNat_le, UInt8.reduceToNat] at first other ⊢
        omega

theorem digits_plain {b : Bytes} (digits : ∀ d ∈ b, isAsciiDigit d = true) :
    b.any (fun b => b = 0x2e || b = 0x65 || b = 0x45) = false := by
  rw [any_eq_false]
  intro d mem marked
  have digit := digits d mem
  simp only [Bool.or_eq_true, decide_eq_true_iff] at marked
  rcases marked with (rfl | rfl) | rfl <;> exact absurd digit (by decide)

theorem filter_any_iff {α : Type} {read : Option α} {p q : α → Bool} (within : ∀ n, q n = true → p n = true) :
    (read.filter p).any q = true ↔ ∃ n, read = some n ∧ q n = true := by
  cases read with
  | none => simp
  | some n =>
    by_cases good : p n = true
    · simp [Option.filter, good]
    · have other := mt (within n) good
      simp [Option.filter, good, other]

theorem parsed_iff : ((parseI64 (x :: s)).any
    (fun n => decide (-(maxSafeInteger : Int) ≤ n ∧ n ≤ (maxSafeInteger : Int))) ||
      (parseU64 (x :: s)).any fun n => decide (n ≤ maxSafeInteger)) = true ↔
      ∃ n, parseDigits (if x = 0x2b ∨ x = 0x2d then s else x :: s) = some n ∧ n ≤ maxSafeInteger := by
  have wide : ∀ n : Int, decide (-(maxSafeInteger : Int) ≤ n ∧ n ≤ (maxSafeInteger : Int)) = true →
      decide (-2 ^ 63 ≤ n ∧ n ≤ 2 ^ 63 - 1) = true := by
    intro n safe
    have range := of_decide_eq_true safe
    unfold maxSafeInteger at range
    exact decide_eq_true (by omega)
  have long : ∀ n : Nat, decide (n ≤ maxSafeInteger) = true → decide (n ≤ 2 ^ 64 - 1) = true := by
    intro n safe
    have range := of_decide_eq_true safe
    unfold maxSafeInteger at range
    exact decide_eq_true (by omega)
  have unsigned : parseDigits ((0x2d : UInt8) :: s) = none := by
    refine if_pos (.inr ?_)
    simp [isAsciiDigit]
  unfold parseI64 parseU64
  rw [Bool.or_eq_true, filter_any_iff wide, filter_any_iff long]
  by_cases plus : x = 0x2b
  · rw [if_pos plus, if_pos plus, if_pos (.inl plus)]
    cases parseDigits s <;> simp
  · by_cases minus : x = 0x2d
    · rw [if_neg plus, if_neg plus, if_pos minus, if_pos (.inr minus), minus, unsigned]
      cases parseDigits s <;> simp
    · rw [if_neg plus, if_neg plus, if_neg minus, if_neg (not_or.mpr ⟨plus, minus⟩)]
      cases parseDigits (x :: s) <;> simp

theorem safeInteger_cons : SafeInteger (x :: s) ↔
    if x = 0x2d then IntPart s ∧ s ≠ [0x30] ∧ digitsValue s ≤ maxSafeInteger
    else IntPart (x :: s) ∧ digitsValue (x :: s) ≤ maxSafeInteger := by
  constructor
  · rintro ⟨n, spelled, range⟩
    generalize shape : x :: s = b at spelled
    cases spelled with
    | natural whole =>
      have sign : x ≠ 0x2d := by
        rintro rfl
        exact absurd (whole.toDigits.2 0x2d (by simp [← shape])) (by decide)
      rw [if_neg sign]
      exact ⟨whole, by omega⟩
    | negative whole nonzero =>
      obtain ⟨rfl, rfl⟩ := cons.inj shape
      rw [if_pos rfl]
      exact ⟨whole, nonzero, by omega⟩
  · split
    · rename_i minus
      rintro ⟨whole, nonzero, range⟩
      rw [minus]
      exact ⟨-digitsValue s, .negative whole nonzero, by omega, by omega⟩
    · rintro ⟨whole, range⟩
      exact ⟨digitsValue (x :: s), .natural whole, by omega, by omega⟩

theorem isCanonicalIntegerStr_iff (value : String) :
    isCanonicalIntegerStr value = true ↔ SafeInteger (asBytes value) ∨ PlusSigned (asBytes value) := by
  have minusZero : value = "-0" ↔ asBytes value = [0x2d, 0x30] := by
    rw [show [0x2d, 0x30] = asBytes "-0" by decide, asBytes_injective.eq_iff]
  unfold isCanonicalIntegerStr
  simp only [minusZero]
  generalize asBytes value = b
  cases b with
  | nil =>
    refine iff_of_false (by simp) ?_
    rintro (⟨n, spelled, _⟩ | ⟨ds, shape, _⟩)
    · generalize shape : ([] : Bytes) = b at spelled
      cases spelled with
      | natural whole => exact whole.toDigits.1 shape.symm
      | negative whole => cases shape
    · cases shape
  | cons x s =>
    rw [safeInteger_cons, Bool.ite_eq_true_distrib, parsed_iff]
    simp only [parseDigits_eq_some]
    by_cases minus : x = 0x2d
    · subst minus
      have unsigned : ¬PlusSigned (0x2d :: s) := by
        rintro ⟨ds, shape, _⟩
        exact absurd (cons.inj shape).1 (by decide)
      by_cases digits : Digits s
      · have plain := digits_plain digits.2
        simp [unsigned, digits, digits.1, plain, intPart_iff]
        tauto
      · simp [unsigned, digits, intPart_iff]
    · by_cases plus : x = 0x2b
      · subst plus
        have signed : ¬Digits (0x2b :: s) := fun digits => absurd (digits.2 0x2b mem_cons_self) (by decide)
        by_cases digits : Digits s
        · have plain := digits_plain digits.2
          simp [PlusSigned, digits, signed, plain, intPart_iff]
        · simp [PlusSigned, digits, signed, intPart_iff]
      · have unsigned : ¬PlusSigned (x :: s) := by
          rintro ⟨ds, shape, _⟩
          exact plus (cons.inj shape).1
        by_cases digits : Digits (x :: s)
        · have plain := digits_plain digits.2
          simp [unsigned, digits, plus, minus, plain, intPart_iff]
          tauto
        · simp [unsigned, digits, plus, minus, intPart_iff]

theorem isCanonicalIntegerStr_exact_iff (value : String) :
    CanonicalIntegerExact value ↔ ¬PlusSigned (asBytes value) := by
  unfold CanonicalIntegerExact
  rw [isCanonicalIntegerStr_iff]
  constructor
  · intro exact_ plus
    obtain ⟨n, spelled, _⟩ := exact_.mp (.inr plus)
    obtain ⟨ds, shape, _⟩ := plus
    rw [shape] at spelled
    cases spelled with
    | natural whole => exact absurd (whole.toDigits.2 0x2b List.mem_cons_self) (by decide)
  · exact fun none => ⟨fun accepted => accepted.resolve_right none, .inl⟩

/-- A plus sign passes, since the integer parsers of the standard library take it. -/
theorem plus_accepted : ¬∀ value, CanonicalIntegerExact value := by
  intro exact_
  refine (isCanonicalIntegerStr_exact_iff "+5").mp (exact_ "+5") ⟨[0x35], by decide, ⟨nofun, List.forall_mem_singleton.mpr (by decide)⟩, ?_⟩
  simp [digitsValue, maxSafeInteger]

end Rezzy.Json
