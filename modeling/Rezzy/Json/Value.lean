import Mathlib.Data.String.Basic
import Rezzy.Lib.Sorted

namespace Rezzy.Json

abbrev Bytes := List UInt8

def asBytes (s : String) : Bytes := s.toByteArray.data.toList

def fromUtf8 (b : Bytes) : Option String := String.fromUTF8? b.toByteArray

theorem asBytes_eq_flatMap (s : String) : asBytes s = s.toList.flatMap String.utf8EncodeChar := by
  have encoded : s.toByteArray = (s.toList.flatMap String.utf8EncodeChar).toByteArray := by
    conv_lhs => rw [← String.ofList_toList (s := s)]
    rfl
  unfold asBytes
  rw [encoded, List.data_toByteArray]

theorem asBytes_append (s t : String) : asBytes (s ++ t) = asBytes s ++ asBytes t := by
  simp [asBytes_eq_flatMap]

theorem asBytes_injective : Function.Injective asBytes := by
  intro _ _ same
  apply String.toByteArray_inj.mp
  exact ByteArray.ext (Array.toList_inj.mp same)

theorem fromUtf8_eq_some : fromUtf8 b = some s ↔ asBytes s = b := by
  unfold fromUtf8 String.fromUTF8?
  constructor
  · intro decoded
    split at decoded
    · cases decoded
      show b.toByteArray.data.toList = b
      rw [List.data_toByteArray]
    · cases decoded
  · rintro rfl
    have whole : (asBytes s).toByteArray = s.toByteArray := by
      apply ByteArray.ext
      rw [List.data_toByteArray, asBytes, Array.toArray_toList]
    rw [whole, dif_pos s.isValidUTF8]
    rfl

abbrev quote : UInt8 := 0x22
abbrev backslash : UInt8 := 0x5c
abbrev comma : UInt8 := 0x2c
abbrev colon : UInt8 := 0x3a
abbrev openBracket : UInt8 := 0x5b
abbrev closeBracket : UInt8 := 0x5d
abbrev openBrace : UInt8 := 0x7b
abbrev closeBrace : UInt8 := 0x7d

def isAsciiDigit (b : UInt8) : Bool := 0x30 ≤ b && b ≤ 0x39

def isAsciiWhitespace (b : UInt8) : Bool := b = 0x20 || b = 0x09 || b = 0x0a || b = 0x0c || b = 0x0d

def toDigit16 (b : UInt8) : Option Nat :=
  if 0x30 ≤ b ∧ b ≤ 0x39 then some (b.toNat - 0x30)
  else if 0x61 ≤ b ∧ b ≤ 0x66 then some (b.toNat - 0x61 + 10)
  else if 0x41 ≤ b ∧ b ≤ 0x46 then some (b.toNat - 0x41 + 10)
  else none

def pairScalar (high low : Nat) : Nat := 0x10000 + (high - 0xd800) * 0x400 + (low - 0xdc00)

structure Number where
  source : String
deriving DecidableEq, Repr

inductive Value where
  | null
  | bool (value : Bool)
  | number (number : Number)
  | string (text : String)
  | array (items : List Value)
  | object (members : List (String × Value))

namespace Object

abbrev Members := List (String × Value)

def insert (members : Members) (key : String) (value : Value) : Members × Option Value :=
  (Sorted.assign members key value, Sorted.lookup members key)

end Object

def normalizeExponent (formatted : String) : String :=
  match formatted.toList.dropWhile (· ≠ 'e') with
  | 'e' :: rest =>
    if rest.head? = some '-' then formatted
    else String.ofList (formatted.toList.takeWhile (· ≠ 'e') ++ ['e', '+'] ++ rest)
  | _ => formatted

namespace Number

/-- `formatFinite` reads a decimal as a binary float and formats it; it gives nothing where the float is not
    finite. -/
def parse (formatFinite : String → Option String) (source : String) : Number :=
  if source = "-0" then ⟨"-0.0"⟩
  else if (asBytes source).any (fun b => b = 0x2e || b = 0x65 || b = 0x45) then
    match formatFinite source with
    | some formatted => ⟨normalizeExponent formatted⟩
    | none => ⟨source⟩
  else ⟨source⟩

end Number

section

def maxSafeInteger : Nat := 2 ^ 53 - 1

def parseDigits (digits : Bytes) : Option Nat :=
  if digits = [] ∨ ¬ digits.all isAsciiDigit then none
  else some (digits.foldl (fun n d => n * 10 + (d.toNat - 0x30)) 0)

def parseI64 : Bytes → Option Int
  | [] => none
  | b :: s =>
    let parsed : Option Int :=
      if b = 0x2b then (parseDigits s).map fun n => n
      else if b = 0x2d then (parseDigits s).map fun n => -n
      else (parseDigits (b :: s)).map fun n => n
    parsed.filter fun n => -2 ^ 63 ≤ n ∧ n ≤ 2 ^ 63 - 1

def parseU64 : Bytes → Option Nat
  | [] => none
  | b :: s => (if b = 0x2b then parseDigits s else parseDigits (b :: s)).filter fun n => n ≤ 2 ^ 64 - 1

def isCanonicalIntegerStr (value : String) : Bool :=
  let bytes := asBytes value
  let digits := if bytes.head? = some 0x2d then bytes.tail else bytes
  if digits = [] ∨ digits ≠ [0x30] ∧ digits.head? = some 0x30 ∨ value = "-0" ∨
      bytes.any (fun b => b = 0x2e || b = 0x65 || b = 0x45) then false
  else
    (parseI64 bytes).any (fun n => -(maxSafeInteger : Int) ≤ n ∧ n ≤ (maxSafeInteger : Int)) ||
      (parseU64 bytes).any (fun n => n ≤ maxSafeInteger)

end

namespace Number

def asStr (number : Number) : String := number.source

end Number

def hexDigitByte (n : Nat) : UInt8 := if n < 10 then UInt8.ofNat (0x30 + n) else UInt8.ofNat (0x61 + (n - 10))

def pushEscape (byte : UInt8) : Bytes :=
  if byte = quote then [backslash, quote]
  else if byte = backslash then [backslash, backslash]
  else if byte = 0x08 then [backslash, 0x62]
  else if byte = 0x0c then [backslash, 0x66]
  else if byte = 0x0a then [backslash, 0x6e]
  else if byte = 0x0d then [backslash, 0x72]
  else if byte = 0x09 then [backslash, 0x74]
  else [backslash, 0x75, 0x30, 0x30, hexDigitByte (byte.toNat / 16), hexDigitByte (byte.toNat % 16)]

def writeRuns : Bytes → Bytes → Bytes
  | run, [] => run
  | run, byte :: rest =>
    if 0x20 ≤ byte ∧ byte ≠ quote ∧ byte ≠ backslash then writeRuns (run ++ [byte]) rest
    else run ++ pushEscape byte ++ writeRuns [] rest

def writeString (value : String) : Bytes := quote :: (writeRuns [] (asBytes value) ++ [quote])

def separator (first : Bool) : Bytes := if first then [] else [comma]

mutual

def writeValueInto : Value → Bytes
  | .null => asBytes "null"
  | .bool v => asBytes (if v then "true" else "false")
  | .number n => asBytes n.asStr
  | .string s => writeString s
  | .array items => openBracket :: (writeItemsInto true items ++ [closeBracket])
  | .object members => openBrace :: (writeMembersInto true members ++ [closeBrace])

def writeItemsInto : Bool → List Value → Bytes
  | _, [] => []
  | first, item :: items => separator first ++ writeValueInto item ++ writeItemsInto false items

def writeMembersInto : Bool → List (String × Value) → Bytes
  | _, [] => []
  | first, (key, item) :: members =>
    separator first ++ writeString key ++ colon :: writeValueInto item ++ writeMembersInto false members

end

def writeStringValue (value : Value) : Bytes := writeValueInto value

mutual

def writeValueFiltered (exclude : String → Bool) : Value → Bytes
  | .object members => openBrace :: (writeMembersFiltered exclude true members ++ [closeBrace])
  | .array items => openBracket :: (writeItemsFiltered exclude true items ++ [closeBracket])
  | .null => asBytes "null"
  | .bool v => asBytes (if v then "true" else "false")
  | .number n => asBytes n.asStr
  | .string s => writeString s

def writeItemsFiltered (exclude : String → Bool) : Bool → List Value → Bytes
  | _, [] => []
  | first, item :: items =>
    separator first ++ writeValueFiltered exclude item ++ writeItemsFiltered exclude false items

def writeMembersFiltered (exclude : String → Bool) : Bool → List (String × Value) → Bytes
  | _, [] => []
  | first, (key, item) :: members =>
    if exclude key then writeMembersFiltered exclude first members
    else separator first ++ writeString key ++ colon :: writeValueFiltered exclude item ++
      writeMembersFiltered exclude false members

end

def writeStringValueFiltered (value : Value) (exclude : String → Bool) : Bytes := writeValueFiltered exclude value

end Rezzy.Json
