import Rezzy.Json.DescentSpec
import Rezzy.Json.StringSpec

namespace Rezzy.Json

open List Outcome Json.Parser Option

namespace Tokenizer

def isAsciiHexdigit (b : UInt8) : Bool := (toDigit16 b).isSome

def escapeLetters : Bytes := [0x22, 0x5c, 0x2f, 0x62, 0x66, 0x6e, 0x72, 0x74]

def skipHexdigits : Nat → Bytes → Except Error (Bytes × Bytes)
  | 0, s => .ok ([], s)
  | _ + 1, [] => .error .unexpectedEnd
  | n + 1, b :: s =>
    if isAsciiHexdigit b then do
      let (digits, s) ← skipHexdigits n s
      .ok (b :: digits, s)
    else .error .invalidEscape

def rawLoop : Nat → Bytes → Except Error (Bytes × Bytes)
  | _, [] => .error .unexpectedEnd
  | 0, _ => .error .unexpectedEnd
  | fuel + 1, b :: s =>
    if b = quote then .ok ([], s)
    else if b = backslash then
      match s with
      | [] => .error .unexpectedEnd
      | esc :: s =>
        if esc ∈ escapeLetters then do
          let (raw, s) ← rawLoop fuel s
          .ok (b :: esc :: raw, s)
        else if esc = 0x75 then do
          let (digits, s) ← skipHexdigits 4 s
          let (raw, s) ← rawLoop fuel s
          .ok (b :: esc :: (digits ++ raw), s)
        else .error .invalidEscape
    else if b < 0x20 then .error .invalidString
    else do
      let (raw, s) ← rawLoop fuel s
      .ok (b :: raw, s)

def stringRaw (s : Bytes) : Except Error (Bytes × Bytes) := rawLoop s.length s

def leadingZero : Bytes → Bool
  | b :: d :: _ => b = 0x30 && isAsciiDigit d
  | _ => false

def numberRest (s : Bytes) : Option Bytes :=
  let s := optionalMinus s
  if leadingZero s then none
  else do
    let s ← someDigits s
    let s ← fractionDigits s
    exponentDigits s

def skipNumber (s : Bytes) : Except Error (Unit × Bytes) :=
  match numberRest s with
  | some s => .ok ((), s)
  | none => .error .invalidNumber

def skipper : Descent Bytes Unit Unit where
  text := stringRaw
  number := skipNumber
  null := ()
  bool _ := ()
  string _ := ()
  array _ := ()
  empty := ()
  insert _ _ _ := .ok ()
  object _ := ()

def skipValue (left : Nat) (s : Bytes) : Except Error (Bytes × Bytes) := do
  let (_, rest) ← skipper.value left s
  let start := ws s
  .ok (start.take (start.length - rest.length), rest)

def unescapeLoop : Nat → String → Bytes → Bytes → Except Error String
  | _, out, run, [] => if run = [] then .ok out else Parser.pushSegment out run
  | 0, _, _, _ => .error .unexpectedEnd
  | fuel + 1, out, run, b :: s =>
    if b = backslash then do
      let out ← Parser.pushSegment out run
      match s with
      | [] => .error .unexpectedEnd
      | esc :: s =>
        if esc = 0x75 then do
          let (c, s) ← unicodeEscape s
          unescapeLoop fuel (out.push c) [] s
        else
          match simpleEscape esc with
          | some c => unescapeLoop fuel (out.push c) [] s
          | none => .error .invalidEscape
    else unescapeLoop fuel out (run ++ [b]) s

def unescapeRawString (input : Bytes) : Except Error String := unescapeLoop input.length "" [] input

def decodeKey (key : Bytes) : Except Error String :=
  if backslash ∈ key then
    match unescapeRawString key with
    | .ok decoded => .ok decoded
    | .error _ => .error .invalidString
  else
    match fromUtf8 key with
    | some key => .ok key
    | none => .error .invalidString

inductive ValueType where
  | null
  | bool
  | number
  | string
  | array
  | object
deriving DecidableEq, Repr

def valueType (b : UInt8) : Option ValueType :=
  if b = 0x6e then some .null
  else if b = 0x74 ∨ b = 0x66 then some .bool
  else if b = 0x2d ∨ isAsciiDigit b then some .number
  else if b = quote then some .string
  else if b = openBracket then some .array
  else if b = openBrace then some .object
  else none

/-- A member of an object located in the source bytes. -/
structure MemberSpan where
  key : String
  rawValue : Bytes
  valueType : ValueType

section

variable {κ : Type}

def walkMember (visit : κ → Bytes → ValueType → Bytes → Except Error κ) (k : κ) (s : Bytes) : Except Error (κ × Bytes) := do
  let (key, s) ← stringRaw (ws s).tail
  match ws s with
  | [] => .error .invalidToken
  | b :: s =>
    if b ≠ colon then .error .invalidToken
    else
      match (ws s).head? >>= valueType with
      | none => .error .invalidToken
      | some type => do
        let (raw, s) ← skipValue maxDepth s
        let k ← visit k key type raw
        .ok (k, s)

def walkRawObjectMembers (visit : κ → Bytes → ValueType → Bytes → Except Error κ) (k : κ) (s : Bytes) :
    Except Error (κ × Bytes) :=
  match ws s with
  | [] => .error .invalidToken
  | b :: s =>
    if b ≠ openBrace then .error .invalidToken
    else
      match ws s with
      | [] => .error .unexpectedEnd
      | b :: rest =>
        if b = closeBrace then .ok (k, rest)
        else Scan.separated isAsciiWhitespace comma closeBrace .invalidToken (walkMember visit) s.length k (b :: rest)

end

def objectMembers (s : Bytes) : Except Error (List MemberSpan × Bytes) :=
  walkRawObjectMembers (fun members key type raw => do
    let key ← decodeKey key
    .ok (members ++ [⟨key, raw, type⟩])) [] s

end Tokenizer

open Scan

inductive RawText : Bytes → Prop
  | done : RawText []
  | plain {x : UInt8} {b : Bytes} (plain : Parser.plainByte x = true) (rest : RawText b) : RawText (x :: b)
  | short {e : UInt8} {b : Bytes} (letter : e ∈ Tokenizer.escapeLetters) (rest : RawText b) :
    RawText (backslash :: e :: b)
  | unicode {h b : Bytes} {n : Nat} (digits : Hex4 h n) (rest : RawText b) : RawText (backslash :: 0x75 :: (h ++ b))

def skipReading : Reading Bytes Unit where
  text raw b := raw = b ∧ RawText b
  null := ()
  bool _ := ()
  number _ := ()
  string _ := ()
  array _ := ()
  names _ := True
  object _ := ()

def Skippable (n : Nat) (b : Bytes) : Prop := Spells isAsciiWhitespace skipReading n () b

theorem RawText.ofRun (plain : Blank Parser.plainByte run) (rest : RawText b) : RawText (run ++ b) := by
  induction run with
  | nil => exact rest
  | cons x run ih =>
    exact .plain (plain x mem_cons_self) (ih fun y mem => plain y (mem_cons_of_mem _ mem))

theorem letter_iff : e ∈ Tokenizer.escapeLetters ↔ ∃ c, (e, c) ∈ shortEscapes := by
  constructor
  · intro mem
    simp only [Tokenizer.escapeLetters, mem_cons, not_mem_nil, or_false] at mem
    rcases mem with rfl | rfl | rfl | rfl | rfl | rfl | rfl | rfl <;> simp [shortEscapes]
  · rintro ⟨c, mem⟩
    simp only [shortEscapes, mem_cons, Prod.mk.injEq, not_mem_nil, or_false] at mem
    rcases mem with ⟨rfl, _⟩ | ⟨rfl, _⟩ | ⟨rfl, _⟩ | ⟨rfl, _⟩ | ⟨rfl, _⟩ | ⟨rfl, _⟩ | ⟨rfl, _⟩ | ⟨rfl, _⟩ <;> decide

theorem Text.raw (text : Text cs b) : RawText b := by
  induction text with
  | done => exact .done
  | plain unescaped _ ih => exact .ofRun ((unescaped_iff _).mp unescaped) ih
  | short escape _ ih => exact .short (letter_iff.mpr ⟨_, escape⟩) ih
  | unicode escape _ ih =>
    cases escape with
    | unit digits _ => exact .unicode digits ih
    | pair first _ second _ _ =>
      rw [append_assoc]
      exact .unicode first (.unicode second ih)

namespace Tokenizer

section

theorem skipHexdigits_sound (read : skipHexdigits n s = .ok (h, r)) :
    s = h ++ r ∧ h.length = n ∧ ∀ x ∈ h, (toDigit16 x).isSome = true := by
  induction n generalizing s h with
  | zero =>
    cases read
    exact ⟨rfl, rfl, fun x mem => nomatch mem⟩
  | succ n ih =>
    cases s with
    | nil => cases read
    | cons x s =>
      simp only [skipHexdigits] at read
      split at read
      · rename_i digit
        obtain ⟨⟨h', r'⟩, more, done⟩ := bind_eq_ok.mp read
        cases done
        obtain ⟨rfl, length, all⟩ := ih more
        exact ⟨rfl, by rw [length_cons, length], forall_mem_cons.mpr ⟨digit, all⟩⟩
      · cases read

theorem hex4_of_digits (length : h.length = 4) (all : ∀ x ∈ h, (toDigit16 x).isSome = true) : ∃ n, Hex4 h n := by
  match h, length with
  | [a, b, c, d], _ =>
    obtain ⟨i, first⟩ := isSome_iff_exists.mp (all a (by simp))
    obtain ⟨j, second⟩ := isSome_iff_exists.mp (all b (by simp))
    obtain ⟨k, third⟩ := isSome_iff_exists.mp (all c (by simp))
    obtain ⟨l, fourth⟩ := isSome_iff_exists.mp (all d (by simp))
    exact ⟨_, .mk first second third fourth⟩

theorem skipHexdigits_complete (digits : Hex4 h n) (r : Bytes) : skipHexdigits 4 (h ++ r) = .ok (h, r) := by
  cases digits with
  | mk first second third fourth =>
    simp [skipHexdigits, isAsciiHexdigit, first, second, third, fourth, bind, Except.bind]

theorem rawLoop_sound (read : rawLoop fuel s = .ok (raw, r)) : s = raw ++ quote :: r ∧ RawText raw := by
  induction fuel generalizing s raw with
  | zero => cases s <;> cases read
  | succ fuel ih =>
    cases s with
    | nil => cases read
    | cons b s =>
      simp only [rawLoop] at read
      split at read
      · rename_i closes
        cases read
        exact ⟨by rw [closes]; rfl, .done⟩
      split at read
      · rename_i escapes
        subst escapes
        split at read
        · cases read
        · rename_i esc s
          split at read
          · rename_i letter
            obtain ⟨⟨raw', r'⟩, more, done⟩ := bind_eq_ok.mp read
            cases done
            obtain ⟨rfl, text⟩ := ih more
            exact ⟨rfl, .short letter text⟩
          split at read
          · rename_i unicode
            obtain ⟨⟨h, s₁⟩, digits, onward⟩ := bind_eq_ok.mp read
            obtain ⟨⟨raw', r'⟩, more, done⟩ := bind_eq_ok.mp onward
            cases done
            obtain ⟨rfl, length, all⟩ := skipHexdigits_sound digits
            obtain ⟨n, hex⟩ := hex4_of_digits length all
            obtain ⟨rfl, text⟩ := ih more
            exact ⟨by simp [unicode], unicode ▸ .unicode hex text⟩
          · cases read
      split at read
      · cases read
      · rename_i notQuote notBackslash notControl
        obtain ⟨⟨raw', r'⟩, more, done⟩ := bind_eq_ok.mp read
        cases done
        obtain ⟨rfl, text⟩ := ih more
        have next : Parser.plainByte b = true := plainByte_iff.mpr ⟨notQuote, notBackslash, UInt8.not_lt.mp notControl⟩
        exact ⟨rfl, .plain next text⟩

theorem rawLoop_complete (text : RawText raw) (fuel : Nat) (r : Bytes) :
    rawLoop (fuel + raw.length + 1) (raw ++ quote :: r) = .ok (raw, r) := by
  induction text generalizing fuel with
  | done => exact if_pos rfl
  | @plain x b plain _ ih =>
    obtain ⟨notQuote, notBackslash, printable⟩ := plainByte_iff.mp plain
    have shape : fuel + (x :: b).length + 1 = fuel + b.length + 1 + 1 := by
      rw [length_cons]
      omega
    rw [shape, cons_append, rawLoop.eq_def]
    dsimp only
    rw [if_neg notQuote, if_neg notBackslash, if_neg (UInt8.not_lt.mpr printable), ih]
    rfl
  | @short e b letter _ ih =>
    have shape : fuel + (backslash :: e :: b).length + 1 = fuel + 1 + b.length + 1 + 1 := by
      simp only [length_cons]
      omega
    rw [shape, cons_append, cons_append, rawLoop, if_neg (by decide), if_pos rfl]
    rw [if_pos letter, ih]
    rfl
  | @unicode h b n digits _ ih =>
    have shape : fuel + (backslash :: 0x75 :: (h ++ b)).length + 1 = fuel + 1 + h.length + b.length + 1 + 1 := by
      simp only [length_cons, length_append]
      omega
    rw [shape, cons_append, cons_append, rawLoop, if_neg (by decide), if_pos rfl]
    rw [if_neg (by decide), if_pos rfl, append_assoc, skipHexdigits_complete digits]
    dsimp only [bind, Except.bind]
    rw [ih]

theorem stringRaw_sound (read : stringRaw s = .ok (raw, r)) : s = raw ++ quote :: r ∧ RawText raw := rawLoop_sound read

theorem stringRaw_complete (text : RawText raw) (r : Bytes) : stringRaw (raw ++ quote :: r) = .ok (raw, r) := by
  have whole := rawLoop_complete text r.length r
  have length : (raw ++ quote :: r).length = r.length + raw.length + 1 := by
    simp only [length_append, length_cons]
    omega
  unfold stringRaw
  rw [length]
  exact whole

theorem digits_of_single (single : leadingZero s = false) : someDigits s = integerDigits s := by
  cases s with
  | nil => rfl
  | cons b s =>
    unfold someDigits
    rw [integerDigits]
    by_cases zero : b = 0x30
    · subst zero
      rw [if_pos rfl, takeWhile_cons_of_pos (by decide), if_neg (by simp), dropWhile_cons_of_pos (by decide)]
      cases s with
      | nil => rfl
      | cons d s =>
        have other : isAsciiDigit d = false := single
        rw [dropWhile_cons_of_neg (by simp [other])]
    · rw [if_neg zero]
      by_cases leading : 0x31 ≤ b ∧ b ≤ 0x39
      · have digit : isAsciiDigit b = true := by
          have low : (0x30 : UInt8) ≤ b := UInt8.le_trans (by decide) leading.1
          simp [isAsciiDigit, low, leading.2]
        rw [if_pos leading, takeWhile_cons_of_pos digit, if_neg (by simp), dropWhile_cons_of_pos digit]
      · have other : isAsciiDigit b = false := by
          apply Bool.eq_false_iff.mpr
          intro digit
          simp only [isAsciiDigit, Bool.and_eq_true, decide_eq_true_iff] at digit
          rw [← UInt8.toNat_inj] at zero
          simp only [UInt8.le_iff_toNat_le, UInt8.reduceToNat] at digit leading zero
          omega
        rw [if_neg leading, takeWhile_cons_of_neg (by simp [other]), if_pos rfl]

theorem IntPart.single (int : IntPart i) (stops : Stops isAsciiDigit r) : leadingZero (i ++ r) = false := by
  cases int with
  | zero =>
    cases r with
    | nil => rfl
    | cons d r => exact stops d rfl
  | @digits d ds leading _ =>
    have other : d ≠ 0x30 := by
      rintro rfl
      exact absurd leading.1 (by decide)
    cases hs : ds ++ r with
    | nil => rw [cons_append, hs]; rfl
    | cons x rest => rw [cons_append, hs]; simp [leadingZero, other]

theorem numberRest_eq (single : leadingZero (optionalMinus s) = false) : numberRest s = numberParts s := by
  unfold numberRest numberParts
  dsimp only
  rw [single, if_neg Bool.false_ne_true, digits_of_single single]

theorem skipNumber_sound (read : skipNumber s = .ok (u, r)) : ∃ text, s = text ++ r ∧ NumberText text := by
  unfold skipNumber at read
  split at read
  · rename_i rest scanned
    cases read
    cases single : leadingZero (optionalMinus s) with
    | true => simp [numberRest, single] at scanned
    | false => exact numberParts_sound (numberRest_eq single ▸ scanned)
  · cases read

theorem skipNumber_complete (spelled : NumberText text) (stops : Stops Parser.numberByte r) :
    skipNumber (text ++ r) = .ok ((), r) := by
  have single : leadingZero (optionalMinus (text ++ r)) = false := by
    cases spelled with
    | mk sign whole fraction exponent =>
      simp only [append_assoc]
      rw [optionalMinus_complete sign whole]
      exact IntPart.single whole (tail_stops fraction exponent stops)
  unfold skipNumber
  rw [numberRest_eq single, numberParts_complete spelled stops]

theorem numberText_string (spelled : NumberText b) : ∃ s, asBytes s = b := by
  have ascii : ∀ x ∈ b, x.toNat < 0x80 := by
    intro x mem
    have taken := spelled.bytes x mem
    simp only [Parser.numberByte, isAsciiDigit, Bool.or_eq_true, Bool.and_eq_true, decide_eq_true_iff] at taken
    rcases taken with ((((rfl | rfl) | rfl) | rfl) | rfl) | ⟨_, high⟩
    · decide
    · decide
    · decide
    · decide
    · decide
    · exact Nat.lt_of_le_of_lt (UInt8.le_iff_toNat_le.mp high) (by decide)
  exact asciiString ascii

end

theorem skipper_means : skipper.Means skipReading where
  text := {
    sound := fun {raw s r} read => by
      obtain ⟨rfl, text⟩ := stringRaw_sound read
      exact ⟨raw ++ [quote], by simp, raw, rfl, rfl, text⟩
    complete := fun {raw b r} spelled _ => by
      obtain ⟨_, rfl, rfl, text⟩ := spelled
      rw [append_assoc]
      exact stringRaw_complete text r }
  number := {
    sound := fun {u s r} read => by
      obtain ⟨text, rfl, spelled⟩ := skipNumber_sound read
      obtain ⟨source, rfl⟩ := numberText_string spelled
      exact ⟨_, rfl, source, rfl, spelled, rfl⟩
    complete := fun {u b r} spelled stops => by
      obtain ⟨_, rfl, spelled, _⟩ := spelled
      exact skipNumber_complete spelled stops }
  null := rfl
  bool := rfl
  string := rfl
  array := rfl
  object := by
    intro members _
    have folded : members.foldlM (fun c m => skipper.insert c m.1 m.2) skipper.empty = .ok () := by
      induction members with
      | nil => rfl
      | cons m members ih => exact ih
    exact ⟨fun _ => ⟨trivial, rfl⟩, fun _ => ⟨(), folded, rfl⟩⟩

end Tokenizer

end Rezzy.Json
