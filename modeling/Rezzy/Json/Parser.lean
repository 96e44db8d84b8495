import Rezzy.Json.Value
import Rezzy.Lib.Scan

/-! A reader's position in its input is modelled by the bytes still to be read. -/

namespace Rezzy.Json

/-- The errors of the parser. Those of the tokenizer are named as its own and pass for these. -/
inductive Error where
  | unexpectedEnd
  | invalidToken
  | invalidNumber
  | invalidString
  | invalidEscape
  | trailingCharacters
  | depthLimitExceeded
  | duplicateKey
deriving DecidableEq, Repr

def maxDepth : Nat := 128

def simpleEscape (escape : UInt8) : Option Char :=
  if escape = 0x22 then some '"'
  else if escape = 0x5c then some '\\'
  else if escape = 0x2f then some '/'
  else if escape = 0x62 then some '\x08'
  else if escape = 0x66 then some '\x0c'
  else if escape = 0x6e then some '\n'
  else if escape = 0x72 then some '\r'
  else if escape = 0x74 then some '\t'
  else none

def charFromU32 (scalar : Nat) : Option Char :=
  if scalar.isValidChar then some (Char.ofNat scalar) else none

section

def optionalMinus : Bytes → Bytes
  | [] => []
  | b :: s => if b = 0x2d then s else b :: s

def integerDigits : Bytes → Option Bytes
  | [] => none
  | b :: s =>
    if b = 0x30 then some s
    else if 0x31 ≤ b ∧ b ≤ 0x39 then some (s.dropWhile isAsciiDigit)
    else none

def someDigits (s : Bytes) : Option Bytes :=
  if s.takeWhile isAsciiDigit = [] then none else some (s.dropWhile isAsciiDigit)

def fractionDigits : Bytes → Option Bytes
  | [] => some []
  | b :: s => if b = 0x2e then someDigits s else some (b :: s)

def optionalSign : Bytes → Bytes
  | [] => []
  | b :: s => if b = 0x2b ∨ b = 0x2d then s else b :: s

def exponentDigits : Bytes → Option Bytes
  | [] => some []
  | b :: s => if b = 0x65 ∨ b = 0x45 then someDigits (optionalSign s) else some (b :: s)

def numberParts (s : Bytes) : Option Bytes := do
  let s ← integerDigits (optionalMinus s)
  let s ← fractionDigits s
  exponentDigits s

def validNumber (s : String) : Bool := numberParts (asBytes s) = some []

def ws (s : Bytes) : Bytes := s.dropWhile isAsciiWhitespace

def word (expected s : Bytes) : Except Error Bytes :=
  if s.take expected.length = expected then .ok (s.drop expected.length) else .error .invalidToken

/-- `rounds` digits of a `u16`, four of which do not overflow it. -/
def hexDigits : Nat → Nat → Bytes → Except Error (Nat × Bytes)
  | 0, n, s => .ok (n, s)
  | _ + 1, _, [] => .error .unexpectedEnd
  | rounds + 1, n, b :: s =>
    match toDigit16 b with
    | some digit => hexDigits rounds (n * 16 + digit) s
    | none => .error .invalidEscape

def hex4 (s : Bytes) : Except Error (Nat × Bytes) := hexDigits 4 0 s

def scalarFrom (high : Nat) (s : Bytes) : Except Error (Nat × Bytes) :=
  if 0xd800 ≤ high ∧ high ≤ 0xdbff then
    if s.take 2 = [backslash, 0x75] then do
      let (low, s) ← hex4 (s.drop 2)
      if 0xdc00 ≤ low ∧ low ≤ 0xdfff then .ok (pairScalar high low, s)
      else .error .invalidEscape
    else .error .invalidEscape
  else .ok (high, s)

def unicodeEscape (s : Bytes) : Except Error (Char × Bytes) := do
  let (high, s) ← hex4 s
  let (scalar, s) ← scalarFrom high s
  match charFromU32 scalar with
  | some c => .ok (c, s)
  | none => .error .invalidEscape

end

structure Descent (τ V M : Type) where
  text : Bytes → Except Error (τ × Bytes)
  number : Bytes → Except Error (V × Bytes)
  null : V
  bool : Bool → V
  string : τ → V
  array : List V → V
  empty : M
  insert : M → τ → V → Except Error M
  object : M → V

namespace Descent

variable {τ V M : Type}

def readArray (D : Descent τ V M) (value : Bytes → Except Error (V × Bytes)) (s : Bytes) : Except Error (V × Bytes) :=
  match ws s with
  | [] => .error .unexpectedEnd
  | b :: rest =>
    if b = closeBracket then .ok (D.array [], rest)
    else do
      let (values, s) ← Scan.separated isAsciiWhitespace comma closeBracket .invalidToken
        (fun values s => do
          let (v, s) ← value s
          .ok (values ++ [v], s)) s.length [] (b :: rest)
      .ok (D.array values, s)

def readMember (D : Descent τ V M) (value : Bytes → Except Error (V × Bytes)) (members : M) (s : Bytes) :
    Except Error (M × Bytes) :=
  match ws s with
  | [] => .error .invalidToken
  | b :: s =>
    if b ≠ quote then .error .invalidToken
    else do
      let (key, s) ← D.text s
      match ws s with
      | [] => .error .invalidToken
      | b :: s =>
        if b ≠ colon then .error .invalidToken
        else do
          let (v, s) ← value s
          let members ← D.insert members key v
          .ok (members, s)

def readObject (D : Descent τ V M) (value : Bytes → Except Error (V × Bytes)) (s : Bytes) : Except Error (V × Bytes) :=
  match ws s with
  | [] => .error .invalidToken
  | b :: rest =>
    if b = closeBrace then .ok (D.object D.empty, rest)
    else do
      let (members, s) ← Scan.separated isAsciiWhitespace comma closeBrace .invalidToken (D.readMember value)
        s.length D.empty (b :: rest)
      .ok (D.object members, s)

def dispatch (D : Descent τ V M) (array object : Bytes → Except Error (V × Bytes)) (s : Bytes) :
    Except Error (V × Bytes) :=
  match ws s with
  | [] => .error .unexpectedEnd
  | b :: rest =>
    if b = 0x6e then do
      let s ← word (asBytes "null") (b :: rest)
      .ok (D.null, s)
    else if b = 0x74 then do
      let s ← word (asBytes "true") (b :: rest)
      .ok (D.bool true, s)
    else if b = 0x66 then do
      let s ← word (asBytes "false") (b :: rest)
      .ok (D.bool false, s)
    else if b = quote then do
      let (t, s) ← D.text rest
      .ok (D.string t, s)
    else if b = openBracket then array rest
    else if b = openBrace then object rest
    else if b = 0x2d ∨ isAsciiDigit b then D.number (b :: rest)
    else .error .invalidToken

/-- A value where `left` more containers may be opened: the depth limit less the depth of the reader. -/
def value (D : Descent τ V M) : Nat → Bytes → Except Error (V × Bytes)
  | 0 => D.dispatch (fun _ => .error .depthLimitExceeded) fun _ => .error .depthLimitExceeded
  | left + 1 => D.dispatch (D.readArray (D.value left)) (D.readObject (D.value left))

end Descent

namespace Parser

def plainByte (b : UInt8) : Bool := b ≠ quote && b ≠ backslash && 0x20 ≤ b

def pushSegment (out : String) (run : Bytes) : Except Error String :=
  match fromUtf8 run with
  | some part => .ok (out ++ part)
  | none => .error .invalidString

/-- The loop over segments: what is decoded, the run of plain bytes since, and what is left. Every turn takes a byte,
    so the length of the input is allowance enough. -/
def segments : Nat → String → Bytes → Bytes → Except Error (String × Bytes)
  | _, _, _, [] => .error .unexpectedEnd
  | 0, _, _, _ => .error .unexpectedEnd
  | fuel + 1, out, run, b :: s =>
    if b = quote then do
      let out ← pushSegment out run
      .ok (out, s)
    else if b = backslash then do
      let out ← pushSegment out run
      match s with
      | [] => .error .unexpectedEnd
      | escaped :: s =>
        if escaped = 0x75 then do
          let (c, s) ← unicodeEscape s
          segments fuel (out.push c) [] s
        else
          match simpleEscape escaped with
          | some c => segments fuel (out.push c) [] s
          | none => .error .invalidEscape
    else if b < 0x20 then .error .invalidString
    else segments fuel out (run ++ [b]) s

def string (s : Bytes) : Except Error (String × Bytes) :=
  let start := s.takeWhile plainByte
  match s.dropWhile plainByte with
  | [] => .error .unexpectedEnd
  | b :: rest => do
    let text ← pushSegment "" start
    if b = quote then .ok (text, rest) else segments s.length text [] (b :: rest)

def numberByte (b : UInt8) : Bool :=
  b = 0x2d || b = 0x2b || b = 0x2e || b = 0x65 || b = 0x45 || isAsciiDigit b

def number (formatFinite : String → Option String) (s : Bytes) : Except Error (Value × Bytes) :=
  match fromUtf8 (s.takeWhile numberByte) with
  | none => .error .invalidNumber
  | some source =>
    if validNumber source then .ok (.number (Number.parse formatFinite source), s.dropWhile numberByte)
    else .error .invalidNumber

def insert (strict : Bool) (values : Object.Members) (key : String) (value : Value) : Except Error Object.Members :=
  let (values, replaced) := Object.insert values key value
  if replaced.isSome && strict then .error .duplicateKey else .ok values

def descent (formatFinite : String → Option String) (strict : Bool) : Descent String Value Object.Members where
  text := string
  number := number formatFinite
  null := .null
  bool := .bool
  string := .string
  array := .array
  empty := []
  insert := insert strict
  object := .object

def value (formatFinite : String → Option String) (strict : Bool) : Nat → Bytes → Except Error (Value × Bytes) :=
  (descent formatFinite strict).value

end Parser

namespace Value

def parseScalarWith (formatFinite : String → Option String) (input : Bytes) (strict : Bool) : Except Error Value := do
  let (value, rest) ← Parser.value formatFinite strict maxDepth input
  if ws rest = [] then .ok value else .error .trailingCharacters

def parse (formatFinite : String → Option String) (input : String) : Except Error Value :=
  parseScalarWith formatFinite (asBytes input) false

def parseStrict (formatFinite : String → Option String) (input : String) : Except Error Value :=
  parseScalarWith formatFinite (asBytes input) true

def parseBytes (formatFinite : String → Option String) (input : Bytes) : Except Error Value :=
  parseScalarWith formatFinite input false

end Value

end Rezzy.Json
