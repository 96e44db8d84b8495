import Rezzy.Json.Decimal
import Rezzy.Json.RawWriter

namespace Rezzy.Json

open Scan List Json.Parser UInt8

section

theorem writeRuns_append {s : Bytes} (plain : Blank Parser.plainByte s) (run rest : Bytes) :
    writeRuns run (s ++ rest) = writeRuns (run ++ s) rest := by
  induction s generalizing run with
  | nil => rw [nil_append, append_nil]
  | cons b s ih =>
    obtain ⟨notQuote, notBackslash, printable⟩ := plainByte_iff.mp (plain b mem_cons_self)
    rw [cons_append, writeRuns, if_pos ⟨printable, notQuote, notBackslash⟩,
      ih fun x mem => plain x (mem_cons_of_mem _ mem), append_assoc]
    rfl

theorem writeRuns_run (run s : Bytes) : writeRuns run s = run ++ writeRuns [] s := by
  induction s generalizing run with
  | nil => rw [writeRuns, writeRuns, append_nil]
  | cons b s ih =>
    rw [writeRuns, writeRuns]
    split
    · rw [ih, ih ([] ++ [b]), nil_append, append_assoc]
    · rw [nil_append, append_assoc]

theorem hexDigitByte_digit : ∀ n < 16, toDigit16 (hexDigitByte n) = some n := by decide

theorem pushEscape_text (ascii : c.toNat ≤ 0x7f) (rest : Text cs b) :
    Text (c :: cs) (pushEscape (ofNat c.toNat) ++ b) := by
  have value : (ofNat c.toNat).toNat = c.toNat := toNat_ofNat_of_lt' (by
    show c.toNat < 256
    omega)
  have named : ∀ (byte : UInt8) (d : Char), ofNat c.toNat = byte → byte.toNat = d.toNat → c = d := by
    intro byte d same code
    rw [← same, value] at code
    exact Char.toNat_inj.mp code
  have short : ∀ {byte letter : UInt8} {d : Char}, ofNat c.toNat = byte → byte.toNat = d.toNat →
      (letter, d) ∈ shortEscapes → Text (c :: cs) ([backslash, letter] ++ b) := by
    intro byte letter d same code escape
    rw [named byte d same code]
    exact .short escape rest
  unfold pushEscape
  split
  · rename_i same
    exact short (d := '"') same (by decide) (by decide)
  split
  · rename_i same
    exact short (d := '\\') same (by decide) (by decide)
  split
  · rename_i same
    exact short (d := '\x08') same (by decide) (by decide)
  split
  · rename_i same
    exact short (d := '\x0c') same (by decide) (by decide)
  split
  · rename_i same
    exact short (d := '\n') same (by decide) (by decide)
  split
  · rename_i same
    exact short (d := '\r') same (by decide) (by decide)
  split
  · rename_i same
    exact short (d := '\t') same (by decide) (by decide)
  · have zero : toDigit16 0x30 = some 0 := by decide
    have digits := Hex4.mk zero zero (hexDigitByte_digit (c.toNat / 16) (by omega))
      (hexDigitByte_digit (c.toNat % 16) (by omega))
    rw [value]
    exact .unicode (.unit digits (by omega)) rest

theorem writeRuns_text (cs : List Char) : Text cs (writeRuns [] (cs.flatMap String.utf8EncodeChar)) := by
  induction cs with
  | nil => exact .done
  | cons c cs ih =>
    rw [flatMap_cons]
    by_cases unescaped : Unescaped c
    · rw [writeRuns_append ((unescaped_iff c).mp unescaped), nil_append, writeRuns_run]
      exact .plain unescaped ih
    · rcases encode_cases c with ⟨ascii, encoded⟩ | ⟨_, bytes⟩
      · rw [encoded, singleton_append, writeRuns, if_neg, nil_append]
        · exact pushEscape_text ascii ih
        · rintro ⟨printable, notQuote, notBackslash⟩
          apply unescaped
          rw [unescaped_iff, encoded]
          intro b mem
          rw [mem_singleton.mp mem]
          exact plainByte_iff.mpr ⟨notQuote, notBackslash, printable⟩
      · exact absurd ((unescaped_iff c).mpr fun b mem => plainByte_of_high (bytes b mem)) unescaped

theorem writeString_text (s : String) : ∃ b, writeString s = quote :: (b ++ [quote]) ∧ Text s.toList b := by
  refine ⟨_, rfl, ?_⟩
  rw [asBytes_eq_flatMap]
  exact writeRuns_text s.toList

theorem writeItemsInto_eq (first : Bool) (items : List Value) :
    writeItemsInto first items = joined first (items.map writeValueInto) := by
  induction items generalizing first with
  | nil => rw [writeItemsInto, map_nil, joined]
  | cons item items ih => rw [writeItemsInto, map_cons, joined, ih]

theorem writeMembersInto_eq (first : Bool) (members : List (String × Value)) :
    writeMembersInto first members = joined first (members.map fun m => writtenMember m.1 (writeValueInto m.2)) := by
  induction members generalizing first with
  | nil => rw [writeMembersInto, map_nil, joined]
  | cons m members ih =>
    rw [writeMembersInto, map_cons, joined, writtenMember, ih, append_assoc (separator first)]

section

variable {α : Type} {P : α → Bytes → Prop}

theorem joined_separated (each : ∀ x ∈ a :: as, P x (write x)) :
    Separated blank comma P (a :: as) (joined true ((a :: as).map write)) := by
  induction as generalizing a with
  | nil =>
    rw [map_singleton, joined, joined]
    exact .last (each a mem_cons_self) .nil
  | cons a' as ih =>
    have more := ih fun x mem => each x (mem_cons_of_mem _ mem)
    exact .link (each a mem_cons_self) .nil more

theorem joined_contents (each : ∀ x ∈ as, P x (write x)) : Contents blank P as (joined true (as.map write)) := by
  cases as with
  | nil => exact .none .nil
  | cons a as => exact .some (joined_separated each)

end

theorem Contents.part {α : Type} {P : α → Bytes → Prop} {items : List α} (contents : Contents blank P items b) {a : α}
    (mem : a ∈ items) : ∃ part, P a part := by
  cases contents with
  | none _ => cases mem
  | some list =>
    obtain ⟨part, item, _⟩ := list.part mem
    exact ⟨part, item⟩

def Encoded (b : Bytes) : Prop := ∃ t, asBytes t = b

theorem Encoded.nil : Encoded [] := ⟨"", by decide⟩

theorem Encoded.append (left : Encoded a) (right : Encoded b) : Encoded (a ++ b) := by
  obtain ⟨s, rfl⟩ := left
  obtain ⟨t, rfl⟩ := right
  exact ⟨s ++ t, asBytes_append s t⟩

theorem Encoded.ascii {b : Bytes} (low : ∀ x ∈ b, x.toNat < 0x80) : Encoded b := asciiString low

theorem Encoded.cons {x : UInt8} {b : Bytes} (low : x.toNat < 0x80) (rest : Encoded b) : Encoded (x :: b) :=
  .append (.ascii (b := [x]) (by simpa using low)) rest

theorem Encoded.char (c : Char) : Encoded (String.utf8EncodeChar c) := by
  refine ⟨String.ofList [c], ?_⟩
  rw [asBytes_ofList, flatMap_cons, flatMap_nil, append_nil]

theorem hexDigit_ascii (digit : toDigit16 d = some n) : d.toNat < 0x80 := by
  unfold toDigit16 at digit
  simp only [le_iff_toNat_le, reduceToNat] at digit
  split at digit
  · omega
  split at digit
  · omega
  split at digit
  · omega
  · cases digit

theorem Hex4.encoded (digits : Hex4 h n) : Encoded h := by
  cases digits with
  | mk first second third fourth =>
    exact .cons (hexDigit_ascii first) (.cons (hexDigit_ascii second) (.cons (hexDigit_ascii third)
      (.cons (hexDigit_ascii fourth) .nil)))

theorem Text.encoded (text : Text cs b) : Encoded b := by
  induction text with
  | done => exact .nil
  | @plain c _ _ _ _ ih => exact .append (.char c) ih
  | short escape _ ih =>
    have letters : ∀ e ∈ shortEscapes, e.1.toNat < 0x80 := by decide
    exact .cons (by decide) (.cons (letters _ escape) ih)
  | unicode escape _ ih =>
    apply Encoded.cons (by decide)
    apply Encoded.cons (by decide)
    apply Encoded.append _ ih
    cases escape with
    | unit digits _ => exact digits.encoded
    | pair first _ second _ _ => exact .append first.encoded (.cons (by decide) (.cons (by decide) second.encoded))

theorem joined_encoded (each : ∀ out ∈ outs, Encoded out) (first : Bool) : Encoded (joined first outs) := by
  induction outs generalizing first with
  | nil => exact .nil
  | cons out outs ih =>
    refine .append (.append ?_ (each out mem_cons_self)) (ih (fun o mem => each o (mem_cons_of_mem _ mem)) _)
    cases first with
    | true => exact .nil
    | false => exact .cons (by decide) .nil

theorem writeString_encoded (s : String) : Encoded (writeString s) := by
  obtain ⟨b, shape, text⟩ := writeString_text s
  rw [shape]
  exact .cons (by decide) (.append text.encoded (.cons (by decide) .nil))

end

namespace Value

/-- Nested at most `n` deep, the members of every object sorted by name. -/
inductive Formed : Nat → Value → Prop
  | null {n : Nat} : Formed n .null
  | bool {n : Nat} (v : Bool) : Formed n (.bool v)
  | number {n : Nat} (k : Number) : Formed n (.number k)
  | string {n : Nat} (s : String) : Formed n (.string s)
  | array {n : Nat} {items : List Value} (inner : ∀ item ∈ items, Formed n item) : Formed (n + 1) (.array items)
  | object {n : Nat} {members : Object.Members} (sorted : Sorted.SortedKeys members)
    (inner : ∀ m ∈ members, Formed n m.2) : Formed (n + 1) (.object members)

inductive EachNumber (good : Number → Prop) : Value → Prop
  | null : EachNumber good .null
  | bool (v : Bool) : EachNumber good (.bool v)
  | number {k : Number} (holds : good k) : EachNumber good (.number k)
  | string (s : String) : EachNumber good (.string s)
  | array {items : List Value} (inner : ∀ item ∈ items, EachNumber good item) : EachNumber good (.array items)
  | object {members : Object.Members} (inner : ∀ m ∈ members, EachNumber good m.2) : EachNumber good (.object members)

theorem EachNumber.imp {good other : Number → Prop} {v : Value} (numbers : v.EachNumber good)
    (weaker : ∀ k, good k → other k) : v.EachNumber other := by
  induction numbers with
  | null => exact .null
  | bool v => exact .bool v
  | number holds => exact .number (weaker _ holds)
  | string s => exact .string s
  | array _ ih => exact .array ih
  | object _ ih => exact .object ih

theorem EachNumber.and {good other : Number → Prop} {v : Value} (left : v.EachNumber good)
    (right : v.EachNumber other) : v.EachNumber fun k => good k ∧ other k := by
  induction left with
  | null => exact .null
  | bool v => exact .bool v
  | number holds =>
    cases right with
    | number others => exact .number ⟨holds, others⟩
  | string s => exact .string s
  | array _ ih =>
    cases right with
    | array inner => exact .array fun item mem => ih item mem (inner item mem)
  | object _ ih =>
    cases right with
    | object inner => exact .object fun m mem => ih m mem (inner m mem)

end Value

section

variable {formatFinite : String → Option String}

theorem writeValueInto_encoded (formed : v.Formed n) : Encoded (writeValueInto v) := by
  induction formed with
  | null => exact ⟨_, rfl⟩
  | bool v => exact ⟨_, rfl⟩
  | number k => exact ⟨_, rfl⟩
  | string s => exact writeString_encoded s
  | array _ ih =>
    rw [writeValueInto, writeItemsInto_eq]
    refine .cons (by decide) (.append (joined_encoded ?_ true) (.cons (by decide) .nil))
    intro out mem
    obtain ⟨item, listed, rfl⟩ := mem_map.mp mem
    exact ih item listed
  | object _ _ ih =>
    rw [writeValueInto, writeMembersInto_eq]
    refine .cons (by decide) (.append (joined_encoded ?_ true) (.cons (by decide) .nil))
    intro out mem
    obtain ⟨m, listed, rfl⟩ := mem_map.mp mem
    exact .append (writeString_encoded m.1) (.cons (by decide) (ih m listed))

theorem sorted_allowed (sorted : Sorted.SortedKeys members) (strict : Bool) :
    Parser.allowedNames strict (members.map Prod.fst) := by
  cases strict with
  | false => trivial
  | true => exact pairwise_map.mpr (sorted.imp fun below => below.ne)

theorem writeValueInto_spells (formed : v.Formed n) (numbers : v.EachNumber (Number.Kept formatFinite)) :
    Spells isAsciiWhitespace (reading formatFinite (Parser.allowedNames strict)) n v (writeValueInto v) := by
  induction formed with
  | null => exact .leaf .null
  | bool v =>
    cases v with
    | true => exact .leaf .yes
    | false => exact .leaf .no
  | number k =>
    cases numbers with
    | number kept =>
      obtain ⟨spelled, same⟩ := kept
      have read : (reading formatFinite (Parser.allowedNames strict)).number k.source = .number k :=
        congrArg Value.number same
      rw [writeValueInto, ← read]
      exact .leaf (.number spelled)
  | string s =>
    obtain ⟨b, shape, text⟩ := writeString_text s
    rw [writeValueInto, shape]
    exact .leaf (.string text)
  | array _ ih =>
    cases numbers with
    | array inner =>
      rw [writeValueInto, writeItemsInto_eq]
      refine .inr (.array (joined_contents ?_))
      intro item mem
      exact .mk .nil (ih item mem (inner item mem))
  | @object n members sorted _ ih =>
    cases numbers with
    | object inner =>
      have whole : (reading formatFinite (Parser.allowedNames strict)).object members = .object members :=
        congrArg Value.object sorted.assignAll_self
      rw [writeValueInto, writeMembersInto_eq, ← whole]
      refine .inr (.object (joined_contents ?_) (sorted_allowed sorted strict))
      intro m mem
      obtain ⟨b, shape, text⟩ := writeString_text m.1
      have value : Led isAsciiWhitespace (Spells isAsciiWhitespace (reading formatFinite (Parser.allowedNames strict)) n)
          m.2 (writeValueInto m.2) := .mk .nil (ih m mem (inner m mem))
      have key : (reading formatFinite (Parser.allowedNames strict)).text m.1 b := text
      have spelled := Member.mk .nil key .nil value
      rw [writtenMember, shape]
      simpa using spelled

theorem parse_written (formed : v.Formed maxDepth) (numbers : v.EachNumber (Number.Kept formatFinite)) :
    ∃ t, asBytes t = writeStringValue v ∧ Value.parse formatFinite t = .ok v := by
  obtain ⟨t, same⟩ := writeValueInto_encoded formed
  refine ⟨t, same, parseScalarWith_iff.mpr ?_⟩
  have spelled : Spells isAsciiWhitespace (reading formatFinite (Parser.allowedNames false)) maxDepth v
      (writeValueInto v) := writeValueInto_spells formed numbers
  have document := Document.mk .nil spelled .nil
  rwa [nil_append, append_nil, ← same] at document

def Parsed (formatFinite : String → Option String) (k : Number) : Prop :=
  ∃ source, NumberText (asBytes source) ∧ k = Number.parse formatFinite source

theorem spells_formed {names : List String → Prop}
    (spelled : Spells isAsciiWhitespace (reading formatFinite names) n v b) :
    v.Formed n ∧ v.EachNumber (Parsed formatFinite) := by
  have ofLeaf : ∀ {n v b}, Leaf (reading formatFinite names) v b → v.Formed n ∧ v.EachNumber (Parsed formatFinite) := by
    intro n v b leaf
    cases leaf with
    | null => exact ⟨.null, .null⟩
    | yes => exact ⟨.bool true, .bool true⟩
    | no => exact ⟨.bool false, .bool false⟩
    | number number => exact ⟨.number _, .number ⟨_, number, rfl⟩⟩
    | string _ => exact ⟨.string _, .string _⟩
  induction n generalizing v b with
  | zero => exact ofLeaf spelled
  | succ n ih =>
    rcases spelled with leaf | container
    · exact ofLeaf leaf
    · cases container with
      | @array items _ contents =>
        have inner : ∀ item ∈ items, item.Formed n ∧ item.EachNumber (Parsed formatFinite) := by
          intro item mem
          obtain ⟨part, _, value⟩ := contents.part mem
          exact ih value
        exact ⟨.array fun item mem => (inner item mem).1, .array fun item mem => (inner item mem).2⟩
      | @object members _ contents _ =>
        have inner : ∀ m ∈ Sorted.assignAll members, m.2.Formed n ∧ m.2.EachNumber (Parsed formatFinite) := by
          intro m mem
          obtain ⟨part, spelled⟩ := contents.part (Sorted.mem_assignAll mem)
          cases spelled with
          | mk _ _ _ value =>
            cases value with
            | mk _ value => exact ih value
        exact ⟨.object (Sorted.assignAll_sorted members) fun m mem => (inner m mem).1,
          .object fun m mem => (inner m mem).2⟩

theorem parse_formed (parsed : Value.parse formatFinite t = .ok v) :
    v.Formed maxDepth ∧ v.EachNumber (Parsed formatFinite) := by
  have document := parseScalarWith_iff.mp parsed
  generalize asBytes t = input at document
  cases document with
  | mk _ value _ => exact spells_formed value

end

def Number.Integral (k : Number) : Prop := ∃ i : Int, (-2 ^ 63 ≤ i ∧ i < 2 ^ 64) ∧ k = .ofInt i

/-- An integer of 64 bits as the parser keeps it. It keeps `-0` as a float. -/
def Number.ParsedIntegral (k : Number) : Prop := (k.asI64.isSome || k.asU64.isSome) = true ∨ k = ⟨"-0.0"⟩

variable {formatFinite : String → Option String}

theorem written_round_trip (floats : FormatsFloats formatFinite) :
    (∀ v : Value, v.Formed maxDepth → v.EachNumber Number.Integral →
      ∃ t, asBytes t = writeStringValue v ∧ Value.parse formatFinite t = .ok v) ∧
    (∀ v w : Value, v.Formed maxDepth → v.EachNumber Number.Integral → w.Formed maxDepth →
      w.EachNumber Number.Integral → writeStringValue v = writeStringValue w → v = w) ∧
    (∀ t v, Value.parse formatFinite t = .ok v → v.EachNumber Number.ParsedIntegral →
      ∃ t', asBytes t' = writeStringValue v ∧ Value.parse formatFinite t' = .ok v) := by
  have integral : ∀ v : Value, v.Formed maxDepth → v.EachNumber Number.Integral →
      ∃ t, asBytes t = writeStringValue v ∧ Value.parse formatFinite t = .ok v := by
    intro v formed numbers
    apply parse_written formed (numbers.imp _)
    rintro k ⟨i, _, rfl⟩
    exact kept_ofInt i
  refine ⟨integral, ?_, ?_⟩
  · intro v w formed numbers formed' numbers' same
    obtain ⟨t, written, parsed⟩ := integral v formed numbers
    obtain ⟨t', written', parsed'⟩ := integral w formed' numbers'
    rw [asBytes_injective (written.trans (same.trans written'.symm)), parsed'] at parsed
    exact (Except.ok.inj parsed).symm
  · intro t v parsed numbers
    obtain ⟨formed, given⟩ := parse_formed parsed
    apply parse_written formed ((given.and numbers).imp _)
    rintro k ⟨⟨source, spelled, rfl⟩, integer | zero⟩
    · exact kept_parsed floats spelled integer
    · rw [zero]
      exact kept_negativeZero floats.negativeZero

/-- Two writings and a text with negative zero, where floats other than this one are not formatted. -/
theorem written_round_trip_sample :
    let formatFinite := fun source : String => if source = "-0.0" then some "-0.0" else none
    (∃ t, asBytes t = writeStringValue (.array [.number (.ofInt (-7)), .string "\n"]) ∧
      Value.parse formatFinite t = .ok (.array [.number (.ofInt (-7)), .string "\n"])) ∧
    ∃ t, asBytes t = writeStringValue (.array [.number ⟨"-0.0"⟩, .number ⟨"12"⟩]) ∧
      Value.parse formatFinite t = .ok (.array [.number ⟨"-0.0"⟩, .number ⟨"12"⟩]) := by
  intro formatFinite
  obtain ⟨written, _, parsed⟩ := written_round_trip formatsFloats_zeroOnly
  constructor
  · apply written
    · apply Value.Formed.array
      simp [Value.Formed.number, Value.Formed.string]
    · apply Value.EachNumber.array
      simp only [forall_mem_cons, not_mem_nil, false_implies, implies_true, and_true]
      exact ⟨.number ⟨-7, by decide, rfl⟩, .string _⟩
  · apply parsed "[-0, 12]"
    · rfl
    · apply Value.EachNumber.array
      simp only [forall_mem_cons, not_mem_nil, false_implies, implies_true, and_true]
      exact ⟨.number (.inr rfl), .number (.inl (by decide))⟩

end Rezzy.Json
