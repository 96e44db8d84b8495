import Rezzy.Json.Grammar
import Rezzy.Json.Parser

namespace Rezzy.Json

open Scan List
open Json.Parser (number numberByte)

def Stops (test : UInt8 → Bool) (r : Bytes) : Prop := ∀ x ∈ r.head?, test x = false

theorem Stops.nil : Stops test [] := fun _ first => nomatch first

theorem Stops.cons {test : UInt8 → Bool} {x : UInt8} {r : Bytes} (solid : test x = false) : Stops test (x :: r) := by
  rintro y ⟨⟩
  exact solid

theorem Stops.imp (stops : Stops test r) (weaker : ∀ x, test x = false → other x = false) : Stops other r :=
  fun x first => weaker x (stops x first)

theorem numberByte_false (other : numberByte b = false) :
    isAsciiDigit b = false ∧ b ≠ 0x2e ∧ b ≠ 0x65 ∧ b ≠ 0x45 := by
  simp only [numberByte, Bool.or_eq_false_iff, decide_eq_false_iff_not] at other
  obtain ⟨⟨⟨⟨⟨-, -⟩, dot⟩, e⟩, bigE⟩, digit⟩ := other
  exact ⟨digit, dot, e, bigE⟩

theorem numberByte_of_digit (digit : isAsciiDigit b = true) : numberByte b = true := by
  simp [numberByte, digit]

section

theorem someDigits_sound (scanned : someDigits s = some r) : ∃ d, s = d ++ r ∧ Digits d := by
  unfold someDigits at scanned
  split at scanned
  · cases scanned
  · rename_i one
    cases scanned
    exact ⟨_, takeWhile_append_dropWhile.symm, one, blank_takeWhile _ _⟩

theorem someDigits_complete (digits : Digits d) (stops : Stops isAsciiDigit r) : someDigits (d ++ r) = some r := by
  unfold someDigits
  rw [Blank.takeWhile digits.2 stops, if_neg digits.1, Blank.dropWhile_run digits.2 stops]

theorem integerDigits_sound (scanned : integerDigits s = some r) : ∃ i, s = i ++ r ∧ IntPart i := by
  cases s with
  | nil => cases scanned
  | cons b s =>
    simp only [integerDigits] at scanned
    split at scanned
    · rename_i zero
      cases scanned
      exact ⟨[b], rfl, zero ▸ .zero⟩
    · split at scanned
      · rename_i leading
        cases scanned
        refine ⟨b :: s.takeWhile isAsciiDigit, ?_, .digits leading (blank_takeWhile _ _)⟩
        rw [cons_append, takeWhile_append_dropWhile]
      · cases scanned

theorem integerDigits_complete (int : IntPart i) (stops : Stops isAsciiDigit r) : integerDigits (i ++ r) = some r := by
  cases int with
  | zero => rfl
  | @digits d ds leading rest =>
    have other : d ≠ 0x30 := by
      rintro rfl
      exact absurd leading.1 (by decide)
    rw [cons_append, integerDigits, if_neg other, if_pos leading, Blank.dropWhile_run rest stops]

theorem fractionDigits_sound (scanned : fractionDigits s = some r) : ∃ f, s = f ++ r ∧ Fraction f := by
  cases s with
  | nil => cases scanned; exact ⟨[], rfl, .none⟩
  | cons b s =>
    simp only [fractionDigits] at scanned
    split at scanned
    · rename_i dot
      obtain ⟨d, rfl, digits⟩ := someDigits_sound scanned
      exact ⟨b :: d, rfl, dot ▸ .some digits⟩
    · cases scanned
      exact ⟨[], rfl, .none⟩

theorem fractionDigits_complete (fraction : Fraction f) (stops : Stops isAsciiDigit r)
    (other : ∀ x ∈ r.head?, x ≠ 0x2e) : fractionDigits (f ++ r) = some r := by
  cases fraction with
  | none =>
    cases r with
    | nil => rfl
    | cons x r => rw [nil_append, fractionDigits, if_neg (other x rfl)]
  | some digits => rw [cons_append, fractionDigits, if_pos rfl, someDigits_complete digits stops]

theorem exponentDigits_sound (scanned : exponentDigits s = some r) : ∃ e, s = e ++ r ∧ Exponent e := by
  cases s with
  | nil => cases scanned; exact ⟨[], rfl, .none⟩
  | cons b s =>
    simp only [exponentDigits] at scanned
    split at scanned
    · rename_i mark
      obtain ⟨d, split, digits⟩ := someDigits_sound scanned
      cases s with
      | nil => exact ⟨b :: d, by rw [cons_append, ← split]; rfl, .bare mark digits⟩
      | cons sign s =>
        simp only [optionalSign] at split
        split at split
        · rename_i signs
          exact ⟨b :: sign :: d, by rw [split]; rfl, .signed mark signs digits⟩
        · exact ⟨b :: d, by rw [split]; rfl, .bare mark digits⟩
    · cases scanned
      exact ⟨[], rfl, .none⟩

theorem optionalSign_digits (digits : Digits d) (r : Bytes) : optionalSign (d ++ r) = d ++ r := by
  obtain ⟨some_, all⟩ := digits
  cases d with
  | nil => exact absurd rfl some_
  | cons x d =>
    have digit := all x mem_cons_self
    rw [cons_append, optionalSign, if_neg]
    rintro (rfl | rfl) <;> exact absurd digit (by decide)

theorem exponentDigits_complete (exponent : Exponent e) (stops : Stops isAsciiDigit r)
    (other : ∀ x ∈ r.head?, x ≠ 0x65 ∧ x ≠ 0x45) : exponentDigits (e ++ r) = some r := by
  cases exponent with
  | none =>
    cases r with
    | nil => rfl
    | cons x r => rw [nil_append, exponentDigits, if_neg (by simp [other x rfl])]
  | bare mark digits =>
    rw [cons_append, exponentDigits, if_pos mark, optionalSign_digits digits, someDigits_complete digits stops]
  | signed mark signs digits =>
    rw [cons_append, cons_append, exponentDigits, if_pos mark, optionalSign, if_pos signs,
      someDigits_complete digits stops]

end

theorem optionalMinus_sound (s : Bytes) : ∃ m, s = m ++ optionalMinus s ∧ (m = [] ∨ m = [0x2d]) := by
  cases s with
  | nil => exact ⟨[], rfl, .inl rfl⟩
  | cons b s =>
    simp only [optionalMinus]
    split
    · rename_i minus
      exact ⟨[b], rfl, .inr (by rw [minus])⟩
    · exact ⟨[], rfl, .inl rfl⟩

theorem IntPart.head (int : IntPart i) : ∃ d ds, i = d :: ds ∧ isAsciiDigit d = true := by
  cases int with
  | zero => exact ⟨_, _, rfl, rfl⟩
  | @digits d ds leading _ =>
    refine ⟨d, ds, rfl, ?_⟩
    have low : (0x30 : UInt8) ≤ d := UInt8.le_trans (by decide) leading.1
    simp [isAsciiDigit, low, leading.2]

theorem optionalMinus_complete (sign : m = [] ∨ m = [0x2d]) (int : IntPart i) (r : Bytes) :
    optionalMinus (m ++ (i ++ r)) = i ++ r := by
  rcases sign with rfl | rfl
  · obtain ⟨d, ds, rfl, digit⟩ := int.head
    rw [nil_append, cons_append, optionalMinus, if_neg]
    rintro rfl
    exact absurd digit (by decide)
  · rfl

section

theorem tail_sound (scanned : fractionDigits s >>= exponentDigits = some r) :
    ∃ f e, s = f ++ (e ++ r) ∧ Fraction f ∧ Exponent e := by
  obtain ⟨between, first, second⟩ := Option.bind_eq_some_iff.mp scanned
  obtain ⟨f, rfl, fraction⟩ := fractionDigits_sound first
  obtain ⟨e, rfl, exponent⟩ := exponentDigits_sound second
  exact ⟨f, e, rfl, fraction, exponent⟩

theorem Exponent.head (exponent : Exponent e) (stops : Stops numberByte r) :
    ∀ x ∈ (e ++ r).head?, isAsciiDigit x = false ∧ x ≠ 0x2e := by
  intro x first
  cases exponent with
  | none => exact (numberByte_false (stops x first)).imp_right And.left
  | bare mark _ => cases first; rcases mark with rfl | rfl <;> decide
  | signed mark _ _ => cases first; rcases mark with rfl | rfl <;> decide

theorem tail_complete (fraction : Fraction f) (exponent : Exponent e) (stops : Stops numberByte r) :
    fractionDigits (f ++ (e ++ r)) >>= exponentDigits = some r := by
  have head := exponent.head stops
  rw [fractionDigits_complete fraction (fun x first => (head x first).1) fun x first => (head x first).2]
  apply exponentDigits_complete exponent
  · exact stops.imp fun x other => (numberByte_false other).1
  · exact fun x first => (numberByte_false (stops x first)).2.2

theorem tail_stops (fraction : Fraction f) (exponent : Exponent e) (stops : Stops numberByte r) :
    Stops isAsciiDigit (f ++ (e ++ r)) := by
  cases fraction with
  | none => exact fun x first => (exponent.head stops x first).1
  | some _ => exact .cons (by decide)

end

theorem NumberText.bytes (spelled : NumberText b) : Blank numberByte b := by
  have digits : ∀ {ds : Bytes}, (∀ d ∈ ds, isAsciiDigit d = true) → Blank numberByte ds :=
    fun all x mem => numberByte_of_digit (all x mem)
  have cons : ∀ {x : UInt8} {ds : Bytes}, numberByte x = true → Blank numberByte ds →
      Blank numberByte (x :: ds) := fun first rest => forall_mem_cons.mpr ⟨first, rest⟩
  cases spelled with
  | mk sign whole fraction exponent =>
    refine .append ?_ (.append ?_ (.append ?_ ?_))
    · rcases sign with rfl | rfl
      · exact .nil
      · exact cons rfl .nil
    · obtain ⟨d, ds, shape, digit⟩ := whole.head
      cases whole with
      | zero => exact cons rfl .nil
      | digits _ rest =>
        cases shape
        exact cons (numberByte_of_digit digit) (digits rest)
    · cases fraction with
      | none => exact .nil
      | some all => exact cons rfl (digits all.2)
    · cases exponent with
      | none => exact .nil
      | bare mark all => rcases mark with rfl | rfl <;> exact cons rfl (digits all.2)
      | signed mark signs all =>
        rcases mark with rfl | rfl <;> rcases signs with rfl | rfl <;> exact cons rfl (cons rfl (digits all.2))

theorem NumberText.head (spelled : NumberText b) : ∃ x rest, b = x :: rest ∧ (x = 0x2d ∨ isAsciiDigit x = true) := by
  cases spelled with
  | @mk _ _ frac exp sign whole _ _ =>
    rcases sign with rfl | rfl
    · obtain ⟨d, ds, rfl, digit⟩ := whole.head
      exact ⟨d, ds ++ (frac ++ exp), rfl, .inr digit⟩
    · exact ⟨0x2d, _, rfl, .inl rfl⟩

theorem numberParts_sound (scanned : numberParts b = some r) : ∃ text, b = text ++ r ∧ NumberText text := by
  obtain ⟨between, first, second⟩ := Option.bind_eq_some_iff.mp scanned
  obtain ⟨m, shape, sign⟩ := optionalMinus_sound b
  obtain ⟨i, parts, whole⟩ := integerDigits_sound first
  obtain ⟨f, e, rfl, fraction, exponent⟩ := tail_sound second
  refine ⟨m ++ (i ++ (f ++ e)), ?_, .mk sign whole fraction exponent⟩
  rw [shape, parts]
  simp only [append_assoc]

theorem numberParts_complete (spelled : NumberText text) (stops : Stops numberByte r) :
    numberParts (text ++ r) = some r := by
  cases spelled with
  | mk sign whole fraction exponent =>
    simp only [append_assoc]
    unfold numberParts
    rw [optionalMinus_complete sign whole, integerDigits_complete whole (tail_stops fraction exponent stops)]
    exact tail_complete fraction exponent stops

theorem validNumber_iff (s : String) : validNumber s = true ↔ NumberText (asBytes s) := by
  unfold validNumber
  rw [decide_eq_true_iff]
  constructor
  · intro accepted
    obtain ⟨text, shape, spelled⟩ := numberParts_sound accepted
    rw [shape, append_nil]
    exact spelled
  · intro spelled
    have whole := numberParts_complete spelled .nil
    rwa [append_nil] at whole

theorem number_sound (read : number formatFinite s = .ok (v, r)) :
    ∃ source, s = asBytes source ++ r ∧ NumberText (asBytes source) ∧
      v = .number (Number.parse formatFinite source) := by
  unfold number at read
  split at read
  · cases read
  · rename_i source decoded
    split at read
    · rename_i accepted
      cases read
      refine ⟨source, ?_, (validNumber_iff source).mp accepted, rfl⟩
      rw [fromUtf8_eq_some.mp decoded, takeWhile_append_dropWhile]
    · cases read

theorem number_complete (formatFinite : String → Option String) (spelled : NumberText (asBytes source))
    (stops : Stops numberByte r) :
    number formatFinite (asBytes source ++ r) = .ok (.number (Number.parse formatFinite source), r) := by
  unfold number
  rw [spelled.bytes.takeWhile stops, spelled.bytes.dropWhile_run stops, fromUtf8_eq_some.mpr rfl]
  simp only [(validNumber_iff source).mpr spelled, if_true]

end Rezzy.Json
