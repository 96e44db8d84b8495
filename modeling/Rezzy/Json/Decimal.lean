import Rezzy.Json.StringSpec

namespace Rezzy.Json

open List UInt8 String Int Nat
open Number (parse)

def floatMark (b : UInt8) : Bool := b = 0x2e || b = 0x65 || b = 0x45

namespace Number

def asI64 (number : Number) : Option Int := parseI64 (asBytes number.source)

def asU64 (number : Number) : Option Nat := parseU64 (asBytes number.source)

def ofInt (i : Int) : Number := ⟨toString i⟩

end Number

section

theorem asBytes_digitChar (small : n < 10) : asBytes (ofList [n.digitChar]) = [UInt8.ofNat (48 + n)] := by
  have code := toNat_digitChar_of_lt_ten small
  have one : asBytes (ofList [n.digitChar]) = utf8EncodeChar n.digitChar := by
    rw [asBytes_eq_flatMap]
    simp
  rw [one]
  rcases Parser.encode_cases n.digitChar with ⟨_, encoded⟩ | ⟨wide, _⟩
  · rw [encoded, code]
  · omega

theorem digit_toNat (small : n < 10) : (UInt8.ofNat (48 + n)).toNat = 48 + n := by
  apply toNat_ofNat_of_lt'
  show 48 + n < 256
  omega

theorem isAsciiDigit_ofNat (small : n < 10) : isAsciiDigit (UInt8.ofNat (48 + n)) = true := by
  have value := digit_toNat small
  simp only [isAsciiDigit, Bool.and_eq_true, decide_eq_true_iff, le_iff_toNat_le, value, UInt8.reduceToNat]
  omega

theorem asBytes_small (small : n < 10) : asBytes (toString n) = [UInt8.ofNat (48 + n)] := by
  have shown : toString n = ofList (toDigits 10 n) := rfl
  rw [shown, toDigits_of_lt_base small, asBytes_digitChar small]

theorem asBytes_append_digit (positive : 0 < n) (small : k < 10) :
    asBytes (toString (n * 10 + k)) = asBytes (toString n) ++ [UInt8.ofNat (48 + k)] := by
  have shown : ∀ n : Nat, toString n = ofList (toDigits 10 n) := fun _ => rfl
  have front : (n * 10 + k) / 10 = n := by omega
  have last : (n * 10 + k) % 10 = k := by omega
  rw [shown, toDigits_of_base_le (by decide) (by omega), ofList_append, asBytes_append, front, last,
    asBytes_digitChar small, ← shown]

theorem decimal_induction {motive : Nat → Prop} (digit : ∀ n, 0 < n → n < 10 → motive n)
    (append : ∀ n k, 0 < n → k < 10 → motive n → motive (n * 10 + k)) (positive : 0 < n) : motive n := by
  induction n using Nat.strongRecOn with
  | _ n ih =>
    by_cases small : n < 10
    · exact digit n positive small
    · have whole : n / 10 * 10 + n % 10 = n := by omega
      rw [← whole]
      exact append (n / 10) (n % 10) (by omega) (by omega) (ih (n / 10) (by omega) (by omega))

theorem decimal_digits (positive : 0 < n) : ∃ d ds, asBytes (toString n) = d :: ds ∧
    (0x31 ≤ d ∧ d ≤ 0x39) ∧ ∀ d ∈ ds, isAsciiDigit d = true := by
  apply decimal_induction _ _ positive
  · intro n positive small
    refine ⟨UInt8.ofNat (48 + n), [], asBytes_small small, ?_, by simp⟩
    have value := digit_toNat small
    simp only [le_iff_toNat_le, value, UInt8.reduceToNat]
    omega
  · rintro n k positive small ⟨d, ds, digits, leading, rest⟩
    refine ⟨d, ds ++ [UInt8.ofNat (48 + k)], ?_, leading, ?_⟩
    · rw [asBytes_append_digit positive small, digits, cons_append]
    · intro x mem
      rcases mem_append.mp mem with mem | mem
      · exact rest x mem
      · rw [mem_singleton.mp mem]
        exact isAsciiDigit_ofNat small

theorem natural_text (n : Nat) : IntPart (asBytes (toString n)) := by
  rcases Nat.eq_zero_or_pos n with rfl | positive
  · have text : asBytes (toString 0) = [0x30] := by decide
    rw [text]
    exact .zero
  · obtain ⟨d, ds, digits, leading, rest⟩ := decimal_digits positive
    rw [digits]
    exact .digits leading rest

theorem digit_of_byte {d : UInt8} (digit : isAsciiDigit d = true) : ∃ k < 10, d = UInt8.ofNat (48 + k) := by
  simp only [isAsciiDigit, Bool.and_eq_true, decide_eq_true_iff, le_iff_toNat_le, UInt8.reduceToNat] at digit
  refine ⟨d.toNat - 48, by omega, ?_⟩
  have same : 48 + (d.toNat - 48) = d.toNat := by omega
  rw [same, UInt8.ofNat_toNat]

theorem IntPart.natural (whole : IntPart b) : ∃ n : Nat, b = asBytes (toString n) := by
  cases whole with
  | zero => exact ⟨0, by decide⟩
  | @digits d ds leading rest =>
    suffices spelled : ∃ n : Nat, 0 < n ∧ d :: ds = asBytes (toString n) from spelled.imp fun n given => given.2
    induction ds using reverseRecOn with
    | nil =>
      have low : (0x30 : UInt8) ≤ d := UInt8.le_trans (by decide) leading.1
      obtain ⟨k, small, rfl⟩ := digit_of_byte (d := d) (by simp [isAsciiDigit, low, leading.2])
      refine ⟨k, ?_, (asBytes_small small).symm⟩
      have first := le_iff_toNat_le.mp leading.1
      rw [digit_toNat small] at first
      simp only [UInt8.reduceToNat] at first
      omega
    | append_singleton ds last ih =>
      obtain ⟨n, positive, same⟩ := ih fun x mem => rest x (mem_append_left _ mem)
      obtain ⟨k, small, rfl⟩ := digit_of_byte (rest last (by simp))
      refine ⟨n * 10 + k, by omega, ?_⟩
      rw [asBytes_append_digit positive small, ← same, cons_append]

theorem foldl_digits (positive : 0 < n) :
    (asBytes (toString n)).foldl (fun m d => m * 10 + (d.toNat - 0x30)) 0 = n := by
  apply decimal_induction _ _ positive
  · intro n positive small
    rw [asBytes_small small, foldl_cons, foldl_nil, digit_toNat small]
    omega
  · intro n _ positive small ih
    rw [asBytes_append_digit positive small, foldl_append, ih, foldl_cons, foldl_nil, digit_toNat small]
    omega

theorem parseDigits_toString (n : Nat) : parseDigits (asBytes (toString n)) = some n := by
  rcases Nat.eq_zero_or_pos n with rfl | positive
  · decide
  · obtain ⟨d, ds, digits, leading, rest⟩ := decimal_digits positive
    have low : (0x30 : UInt8) ≤ d := UInt8.le_trans (by decide) leading.1
    have all : (asBytes (toString n)).all isAsciiDigit = true := by
      rw [digits, all_eq_true]
      exact forall_mem_cons.mpr ⟨by simp [isAsciiDigit, low, leading.2], rest⟩
    have some_ : asBytes (toString n) ≠ [] := by
      rw [digits]
      exact cons_ne_nil d ds
    unfold parseDigits
    rw [if_neg, foldl_digits positive]
    rw [all]
    simpa using some_

theorem negative_bytes (n : Nat) : asBytes (toString (negSucc n)) = 0x2d :: asBytes (toString (n + 1)) := by
  have sign : asBytes "-" = [0x2d] := by decide
  rw [← singleton_append, ← sign, ← asBytes_append]
  rfl

theorem integer_text (i : Int) : ∃ minus int, asBytes (toString i) = minus ++ int ∧ IntPart int ∧
    (minus = [] ∨ minus = [0x2d] ∧ int ≠ [0x30]) := by
  cases i with
  | ofNat n => exact ⟨[], _, rfl, natural_text n, .inl rfl⟩
  | negSucc n =>
    obtain ⟨d, ds, digits, leading, _⟩ := decimal_digits (succ_pos n)
    refine ⟨[0x2d], asBytes (toString (n + 1)), negative_bytes n, natural_text (n + 1), .inr ⟨rfl, ?_⟩⟩
    rw [digits]
    rintro ⟨⟩
    exact absurd leading.1 (by decide)

theorem digit_unsigned (digit : isAsciiDigit d = true) : d ≠ 0x2b ∧ d ≠ 0x2d := by
  constructor
  · rintro rfl
    exact absurd digit (by decide)
  · rintro rfl
    exact absurd digit (by decide)

theorem natural_bytes (n : Nat) : ∃ d ds, asBytes (toString n) = d :: ds ∧ d ≠ 0x2b ∧ d ≠ 0x2d := by
  obtain ⟨d, ds, shape, digit⟩ := (natural_text n).head
  exact ⟨d, ds, shape, digit_unsigned digit⟩

theorem Number.asI64_ofInt (i : Int) : (ofInt i).asI64 = if -2 ^ 63 ≤ i ∧ i ≤ 2 ^ 63 - 1 then some i else none := by
  unfold asI64 ofInt
  cases i with
  | ofNat n =>
    obtain ⟨d, ds, shape, notPlus, notMinus⟩ := natural_bytes n
    have digits := parseDigits_toString n
    have text : asBytes (toString (Int.ofNat n)) = d :: ds := shape
    rw [shape] at digits
    rw [text, parseI64, if_neg notPlus, if_neg notMinus, digits]
    simp [Option.filter]
  | negSucc n =>
    rw [negative_bytes, parseI64, if_neg (by decide), if_pos rfl, parseDigits_toString]
    have value : -((n : Int) + 1) = negSucc n := by omega
    simp [Option.filter, value]

theorem Number.asU64_ofInt (i : Int) : (ofInt i).asU64 = if 0 ≤ i ∧ i ≤ 2 ^ 64 - 1 then some i.toNat else none := by
  unfold asU64 ofInt
  cases i with
  | ofNat n =>
    obtain ⟨d, ds, shape, notPlus, _⟩ := natural_bytes n
    have digits := parseDigits_toString n
    have text : asBytes (toString (Int.ofNat n)) = d :: ds := shape
    rw [shape] at digits
    rw [text, parseU64, if_neg notPlus, digits]
    simp [Option.filter]
  | negSucc n =>
    have sign : ¬ ((0x2d :: asBytes (toString (n + 1)) : Bytes).all isAsciiDigit = true) := by
      rw [all_cons]
      simp [isAsciiDigit]
    have none : parseDigits (0x2d :: asBytes (toString (n + 1))) = none := if_pos (.inr sign)
    rw [negative_bytes, parseU64, if_neg (by decide), none, if_neg (by omega)]
    rfl

theorem natural_injective {n m : Nat} (same : asBytes (toString n) = asBytes (toString m)) : n = m := by
  have digits := parseDigits_toString n
  rw [same, parseDigits_toString] at digits
  exact (Option.some.inj digits).symm

theorem Number.ofInt_injective : Function.Injective Number.ofInt := by
  intro i j same
  have bytes : asBytes (toString i) = asBytes (toString j) := congrArg (fun k => asBytes k.source) same
  have signs : ∀ n m : Nat, asBytes (toString n) ≠ asBytes (toString (negSucc m)) := by
    intro n m same
    obtain ⟨d, ds, shape, _, notMinus⟩ := natural_bytes n
    rw [shape, negative_bytes] at same
    exact notMinus (cons.inj same).1
  cases i with
  | ofNat n =>
    cases j with
    | ofNat m => exact congrArg Int.ofNat (natural_injective bytes)
    | negSucc m => exact absurd bytes (signs n m)
  | negSucc n =>
    cases j with
    | ofNat m => exact absurd bytes.symm (signs m n)
    | negSucc m =>
      rw [negative_bytes, negative_bytes] at bytes
      exact congrArg negSucc (Nat.succ.inj (natural_injective (cons.inj bytes).2))

end

def Number.Kept (formatFinite : String → Option String) (n : Number) : Prop :=
  NumberText (asBytes n.source) ∧ parse formatFinite n.source = n

variable {formatFinite : String → Option String}

theorem digit_not_mark (digit : isAsciiDigit d = true) : floatMark d = false := by
  have other : ∀ b : UInt8, isAsciiDigit b = false → d ≠ b := by
    rintro b wrong rfl
    exact absurd digit (by simp [wrong])
  simp [floatMark, other 0x2e (by decide), other 0x65 (by decide), other 0x45 (by decide)]

theorem IntPart.unmarked (whole : IntPart int) : ∀ d ∈ int, floatMark d = false := by
  intro d mem
  obtain ⟨first, rest, shape, digit⟩ := whole.head
  cases whole with
  | zero =>
    rw [mem_singleton.mp mem]
    decide
  | digits _ others =>
    cases shape
    rcases mem_cons.mp mem with rfl | mem
    · exact digit_not_mark digit
    · exact digit_not_mark (others d mem)

theorem Number.parse_unmarked {source : String} (negative : source ≠ "-0")
    (unmarked : ∀ b ∈ asBytes source, floatMark b = false) : parse formatFinite source = ⟨source⟩ := by
  have none : (asBytes source).any floatMark = false := by simpa using unmarked
  unfold parse
  rw [if_neg negative]
  exact if_neg fun some_ => Bool.false_ne_true (none.symm.trans some_)

theorem kept_ofInt (i : Int) : (Number.ofInt i).Kept formatFinite := by
  obtain ⟨minus, int, text, whole, sign⟩ := integer_text i
  have spelled : NumberText (asBytes (toString i)) := by
    have number := NumberText.mk (sign.imp_right And.left) whole .none .none
    rwa [append_nil, append_nil, ← text] at number
  refine ⟨spelled, Number.parse_unmarked ?_ ?_⟩
  · intro (same : toString i = "-0")
    have negative : asBytes "-0" = [0x2d, 0x30] := by decide
    rw [same, negative] at text
    rcases sign with rfl | ⟨rfl, other⟩
    · obtain ⟨d, ds, rfl, digit⟩ := whole.head
      cases text
      exact absurd digit (by decide)
    · exact other (cons.inj text).2.symm
  · intro b (mem : b ∈ asBytes (toString i))
    rw [text] at mem
    rcases mem_append.mp mem with mem | mem
    · rcases sign with rfl | ⟨rfl, _⟩
      · cases mem
      · rw [mem_singleton.mp mem]
        decide
    · exact whole.unmarked b mem

theorem kept_negativeZero (formatted : formatFinite "-0.0" = some "-0.0") : Number.Kept formatFinite ⟨"-0.0"⟩ := by
  refine ⟨(validNumber_iff "-0.0").mp (by decide), ?_⟩
  have marked : ((asBytes "-0.0").any fun b => b = 0x2e || b = 0x65 || b = 0x45) = true := by decide
  have same : normalizeExponent "-0.0" = "-0.0" := by decide
  unfold parse
  rw [if_neg (by decide), if_pos marked, formatted]
  dsimp only
  rw [same]

structure FormatsFloats (formatFinite : String → Option String) : Prop where
  marked : ∀ source formatted, formatFinite source = some formatted → (asBytes formatted).any floatMark = true
  negativeZero : formatFinite "-0.0" = some "-0.0"

theorem formatsFloats_zeroOnly : FormatsFloats fun source => if source = "-0.0" then some "-0.0" else none := by
  constructor
  · intro _ _ shown
    split at shown
    · cases shown
      decide
    · cases shown
  · exact if_pos rfl

theorem asBytes_ofList (cs : List Char) : asBytes (ofList cs) = cs.flatMap utf8EncodeChar := by
  rw [asBytes_eq_flatMap, toList_ofList]

theorem normalizeExponent_marked (marked : (asBytes formatted).any floatMark = true) :
    (asBytes (normalizeExponent formatted)).any floatMark = true := by
  unfold normalizeExponent
  split
  · split
    · exact marked
    · have e : utf8EncodeChar 'e' = [0x65] := by decide
      rw [asBytes_ofList, flatMap_append, flatMap_append, any_append, any_append, flatMap_cons, e]
      simp [floatMark]
  · exact marked

theorem parseDigits_digits (parsed : parseDigits b = some n) : ∀ d ∈ b, isAsciiDigit d = true := by
  unfold parseDigits at parsed
  split at parsed
  · cases parsed
  · rename_i shape
    simpa using (not_or.mp shape).2

theorem parseDigits_unmarked (parsed : parseDigits b = some n) : ∀ d ∈ b, floatMark d = false :=
  fun d mem => digit_not_mark (parseDigits_digits parsed d mem)

theorem parseI64_unmarked (parsed : parseI64 b = some i) : ∀ d ∈ b, floatMark d = false := by
  cases b with
  | nil => cases parsed
  | cons b s =>
    have some_ := (Option.filter_eq_some_iff.mp parsed).1
    split at some_
    · rename_i plus
      cases digits : parseDigits s with
      | none => simp [digits] at some_
      | some n => exact forall_mem_cons.mpr ⟨by rw [plus]; decide, parseDigits_unmarked digits⟩
    · split at some_
      · rename_i minus
        cases digits : parseDigits s with
        | none => simp [digits] at some_
        | some n => exact forall_mem_cons.mpr ⟨by rw [minus]; decide, parseDigits_unmarked digits⟩
      · cases digits : parseDigits (b :: s) with
        | none => simp [digits] at some_
        | some n => exact parseDigits_unmarked digits

theorem parseU64_unmarked (parsed : parseU64 b = some n) : ∀ d ∈ b, floatMark d = false := by
  cases b with
  | nil => cases parsed
  | cons b s =>
    have some_ := (Option.filter_eq_some_iff.mp parsed).1
    split at some_
    · rename_i plus
      exact forall_mem_cons.mpr ⟨by rw [plus]; decide, parseDigits_unmarked some_⟩
    · exact parseDigits_unmarked some_

theorem Number.parse_cases (floats : FormatsFloats formatFinite) (source : String) :
    (asBytes (parse formatFinite source).source).any floatMark = true ∨
      source ≠ "-0" ∧ (∀ b ∈ asBytes source, floatMark b = false) ∧ parse formatFinite source = ⟨source⟩ := by
  by_cases negative : source = "-0"
  · left
    have zero : parse formatFinite "-0" = ⟨"-0.0"⟩ := rfl
    rw [negative, zero]
    decide
  · by_cases marked : (asBytes source).any floatMark = true
    · left
      cases float : formatFinite source with
      | some formatted =>
        have shown : parse formatFinite source = ⟨normalizeExponent formatted⟩ := by
          simp only [parse, negative, float, if_false]
          exact if_pos marked
        rw [shown]
        exact normalizeExponent_marked (floats.marked _ _ float)
      | none =>
        have kept : parse formatFinite source = ⟨source⟩ := by
          simp only [parse, negative, float, if_false, ite_self]
        rw [kept]
        exact marked
    · have unmarked : ∀ b ∈ asBytes source, floatMark b = false := by simpa using marked
      exact .inr ⟨negative, unmarked, Number.parse_unmarked negative unmarked⟩

theorem NumberText.integer (spelled : NumberText (asBytes source)) (negative : source ≠ "-0")
    (unmarked : ∀ b ∈ asBytes source, floatMark b = false) : ∃ i, (⟨source⟩ : Number) = .ofInt i := by
  generalize text : asBytes source = b at spelled unmarked
  cases spelled with
  | @mk minus int frac exp sign whole fraction exponent =>
    have noFraction : frac = [] := by
      cases fraction with
      | none => rfl
      | some _ => exact absurd (unmarked 0x2e (by simp)) (by decide)
    have noExponent : exp = [] := by
      cases exponent with
      | none => rfl
      | @bare e _ mark _ => exact absurd (unmarked e (by simp)) (by rcases mark with rfl | rfl <;> decide)
      | @signed e _ _ mark _ _ => exact absurd (unmarked e (by simp)) (by rcases mark with rfl | rfl <;> decide)
    obtain ⟨n, rfl⟩ := whole.natural
    rw [noFraction, noExponent, append_nil, append_nil] at text
    rcases sign with rfl | rfl
    · exact ⟨Int.ofNat n, congrArg Number.mk (asBytes_injective text)⟩
    · cases n with
      | zero =>
        have zero : asBytes "-0" = [0x2d] ++ asBytes (toString 0) := by decide
        exact absurd (asBytes_injective (text.trans zero.symm)) negative
      | succ n => exact ⟨Int.negSucc n, congrArg Number.mk (asBytes_injective (text.trans (negative_bytes n).symm))⟩

theorem Number.parse_integer (floats : FormatsFloats formatFinite) {source : String}
    (spelled : NumberText (asBytes source))
    (unmarked : (asBytes (parse formatFinite source).source).any floatMark = false) :
    ∃ i, parse formatFinite source = .ofInt i := by
  rcases Number.parse_cases floats source with marked | ⟨negative, plain, same⟩
  · rw [marked] at unmarked
    cases unmarked
  · rw [same]
    exact spelled.integer negative plain

theorem kept_parsed (floats : FormatsFloats formatFinite) (spelled : NumberText (asBytes source))
    (integer : ((parse formatFinite source).asI64.isSome || (parse formatFinite source).asU64.isSome) = true) :
    (parse formatFinite source).Kept formatFinite := by
  have unmarked : ∀ b ∈ asBytes (parse formatFinite source).source, floatMark b = false := by
    rcases Bool.or_eq_true_iff.mp integer with some_ | some_
    · obtain ⟨i, parsed⟩ := Option.isSome_iff_exists.mp some_
      exact parseI64_unmarked parsed
    · obtain ⟨n, parsed⟩ := Option.isSome_iff_exists.mp some_
      exact parseU64_unmarked parsed
  obtain ⟨i, same⟩ := Number.parse_integer floats spelled (by simpa using unmarked)
  rw [same]
  exact kept_ofInt i

end Rezzy.Json
