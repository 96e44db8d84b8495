import Rezzy.Json.Value
import Rezzy.Lib.Scan

namespace Rezzy.Json

open Scan List

section

def Digits (b : Bytes) : Prop := b ≠ [] ∧ ∀ d ∈ b, isAsciiDigit d = true

inductive IntPart : Bytes → Prop
  | zero : IntPart [0x30]
  | digits {d : UInt8} {ds : Bytes} (leading : 0x31 ≤ d ∧ d ≤ 0x39) (rest : ∀ d ∈ ds, isAsciiDigit d = true) :
    IntPart (d :: ds)

inductive Fraction : Bytes → Prop
  | none : Fraction []
  | some {ds : Bytes} (digits : Digits ds) : Fraction (0x2e :: ds)

inductive Exponent : Bytes → Prop
  | none : Exponent []
  | bare {e : UInt8} {ds : Bytes} (mark : e = 0x65 ∨ e = 0x45) (digits : Digits ds) : Exponent (e :: ds)
  | signed {e sign : UInt8} {ds : Bytes} (mark : e = 0x65 ∨ e = 0x45) (signs : sign = 0x2b ∨ sign = 0x2d)
    (digits : Digits ds) : Exponent (e :: sign :: ds)

/-- `number = [ minus ] int [ frac ] [ exp ]` -/
inductive NumberText : Bytes → Prop
  | mk {minus int frac exp : Bytes} (sign : minus = [] ∨ minus = [0x2d]) (whole : IntPart int)
    (fraction : Fraction frac) (exponent : Exponent exp) : NumberText (minus ++ (int ++ (frac ++ exp)))

/-- `unescaped = %x20-21 / %x23-5B / %x5D-10FFFF` -/
def Unescaped (c : Char) : Prop := 0x20 ≤ c.toNat ∧ c ≠ '"' ∧ c ≠ '\\'

def shortEscapes : List (UInt8 × Char) :=
  [(0x22, '"'), (0x5c, '\\'), (0x2f, '/'), (0x62, '\x08'), (0x66, '\x0c'), (0x6e, '\n'), (0x72, '\r'), (0x74, '\t')]

inductive Hex4 : Bytes → Nat → Prop
  | mk {a b c d : UInt8} {i j k l : Nat} (first : toDigit16 a = some i) (second : toDigit16 b = some j)
    (third : toDigit16 c = some k) (fourth : toDigit16 d = some l) :
    Hex4 [a, b, c, d] (((i * 16 + j) * 16 + k) * 16 + l)

/-- What follows `\u`: the digits of a scalar value, or of the two surrogates of a pair. -/
inductive UnicodeEscape : Char → Bytes → Prop
  | unit {h : Bytes} {n : Nat} {c : Char} (digits : Hex4 h n) (scalar : c.toNat = n) : UnicodeEscape c h
  | pair {h l : Bytes} {high low : Nat} {c : Char} (first : Hex4 h high) (leads : 0xd800 ≤ high ∧ high ≤ 0xdbff)
    (second : Hex4 l low) (trails : 0xdc00 ≤ low ∧ low ≤ 0xdfff)
    (scalar : c.toNat = pairScalar high low) :
    UnicodeEscape c (h ++ backslash :: 0x75 :: l)

inductive Text : List Char → Bytes → Prop
  | done : Text [] []
  | plain {c : Char} {cs : List Char} {b : Bytes} (unescaped : Unescaped c) (rest : Text cs b) :
    Text (c :: cs) (String.utf8EncodeChar c ++ b)
  | short {e : UInt8} {c : Char} {cs : List Char} {b : Bytes} (escape : (e, c) ∈ shortEscapes) (rest : Text cs b) :
    Text (c :: cs) (backslash :: e :: b)
  | unicode {e : Bytes} {c : Char} {cs : List Char} {b : Bytes} (escape : UnicodeEscape c e) (rest : Text cs b) :
    Text (c :: cs) (backslash :: 0x75 :: (e ++ b))

theorem Text.append (left : Text cs a) (right : Text ds b) : Text (cs ++ ds) (a ++ b) := by
  induction left with
  | done => exact right
  | plain unescaped _ ih =>
    rw [append_assoc]
    exact .plain unescaped ih
  | short escape _ ih => exact .short escape ih
  | @unicode e _ _ _ escape _ ih =>
    simp only [cons_append, append_assoc]
    exact .unicode escape ih

end

/-- What the parts of a text stand for: which texts may stand between quotes, which lists of names an object may
    have, and the values. -/
structure Reading (τ V : Type) where
  text : τ → Bytes → Prop
  null : V
  bool : Bool → V
  number : String → V
  string : τ → V
  array : List V → V
  names : List τ → Prop
  object : List (τ × V) → V

section

variable {τ V : Type}

inductive Leaf (R : Reading τ V) : V → Bytes → Prop
  | null : Leaf R R.null (asBytes "null")
  | yes : Leaf R (R.bool true) (asBytes "true")
  | no : Leaf R (R.bool false) (asBytes "false")
  | number {s : String} (spelled : NumberText (asBytes s)) : Leaf R (R.number s) (asBytes s)
  | string {t : τ} {b : Bytes} (text : R.text t b) : Leaf R (R.string t) (quote :: (b ++ [quote]))

inductive Led (blank : UInt8 → Bool) (P : V → Bytes → Prop) : V → Bytes → Prop
  | mk {v : V} {w b : Bytes} (before : Blank blank w) (value : P v b) : Led blank P v (w ++ b)

inductive Member (blank : UInt8 → Bool) (text : τ → Bytes → Prop) (P : V → Bytes → Prop) : τ × V → Bytes → Prop
  | mk {name : τ} {v : V} {w t w' b : Bytes} (before : Blank blank w) (key : text name t) (behind : Blank blank w')
    (value : Led blank P v b) : Member blank text P (name, v) (w ++ quote :: (t ++ quote :: (w' ++ colon :: b)))

inductive Contents {α : Type} (blank : UInt8 → Bool) (P : α → Bytes → Prop) : List α → Bytes → Prop
  | none {w : Bytes} (blanks : Blank blank w) : Contents blank P [] w
  | some {items : List α} {b : Bytes} (list : Separated blank comma P items b) : Contents blank P items b

inductive Container (blank : UInt8 → Bool) (R : Reading τ V) (P : V → Bytes → Prop) : V → Bytes → Prop
  | array {items : List V} {b : Bytes} (contents : Contents blank (Led blank P) items b) :
    Container blank R P (R.array items) (openBracket :: (b ++ [closeBracket]))
  | object {members : List (τ × V)} {b : Bytes} (contents : Contents blank (Member blank R.text P) members b)
    (names : R.names (members.map Prod.fst)) :
    Container blank R P (R.object members) (openBrace :: (b ++ [closeBrace]))

def Spells (blank : UInt8 → Bool) (R : Reading τ V) : Nat → V → Bytes → Prop
  | 0, v, b => Leaf R v b
  | n + 1, v, b => Leaf R v b ∨ Container blank R (Spells blank R n) v b

/-- `JSON-text = ws value ws` -/
inductive Document (blank : UInt8 → Bool) (R : Reading τ V) (n : Nat) : V → Bytes → Prop
  | mk {v : V} {w b w' : Bytes} (before : Blank blank w) (value : Spells blank R n v b) (behind : Blank blank w') :
    Document blank R n v (w ++ (b ++ w'))

variable {blank : UInt8 → Bool} {R : Reading τ V} {n m : Nat} {v : V} {b : Bytes}

theorem Led.before {P : V → Bytes → Prop} (blanks : Blank blank w) (led : Led blank P v b) :
    Led blank P v (w ++ b) := by
  cases led with
  | mk inner value =>
    rw [← append_assoc]
    exact .mk (blanks.append inner) value

theorem Led.congr {P Q : V → Bytes → Prop} (same : ∀ v b, P v b ↔ Q v b) : Led blank P v b ↔ Led blank Q v b := by
  constructor
  · rintro ⟨before, value⟩
    exact .mk before ((same _ _).mp value)
  · rintro ⟨before, value⟩
    exact .mk before ((same _ _).mpr value)

theorem Member.before {text : τ → Bytes → Prop} {P : V → Bytes → Prop} (blanks : Blank blank w)
    (spelled : Member blank text P mem b) : Member blank text P mem (w ++ b) := by
  cases spelled with
  | mk inner key behind value =>
    rw [← append_assoc]
    exact .mk (blanks.append inner) key behind value

theorem Spells.leaf (leaf : Leaf R v b) : Spells blank R n v b := by
  cases n with
  | zero => exact leaf
  | succ n => exact .inl leaf

theorem Led.reblank {P Q : V → Bytes → Prop} (led : Led blank P v b)
    (weaker : ∀ v part, P v part → (∀ x ∈ part, x ∈ b) → Q v part) (agrees : ∀ x ∈ b, blank x = true → other x = true) :
    Led other Q v b := by
  cases led with
  | mk before value =>
    refine .mk (fun x mem => agrees x (mem_append_left _ mem) (before x mem)) (weaker _ _ value ?_)
    exact fun x mem => mem_append_right _ mem

theorem Member.reblank {text : τ → Bytes → Prop} {P Q : V → Bytes → Prop} (spelled : Member blank text P mem b)
    (weaker : ∀ v part, P v part → (∀ x ∈ part, x ∈ b) → Q v part) (agrees : ∀ x ∈ b, blank x = true → other x = true) :
    Member other text Q mem b := by
  cases spelled with
  | mk before key behind value =>
    refine .mk (fun x mem => agrees x (by simp [mem]) (before x mem)) key
      (fun x mem => agrees x (by simp [mem]) (behind x mem)) (value.reblank ?_ ?_)
    · exact fun v part item within => weaker v part item fun x mem => by simp [within x mem]
    · exact fun x mem => agrees x (by simp [mem])

theorem Contents.reblank {α : Type} {P Q : α → Bytes → Prop} {items : List α} (contents : Contents blank P items b)
    (weaker : ∀ a part, P a part → (∀ x ∈ part, x ∈ b) → Q a part) (agrees : ∀ x ∈ b, blank x = true → other x = true) :
    Contents other Q items b := by
  cases contents with
  | none blanks => exact .none fun x mem => agrees x mem (blanks x mem)
  | some list => exact .some (list.reblank weaker agrees)

theorem Spells.reblank {other : UInt8 → Bool} (spelled : Spells blank R n v b)
    (agrees : ∀ x ∈ b, blank x = true → other x = true) : Spells other R n v b := by
  induction n generalizing v b with
  | zero => exact spelled
  | succ n ih =>
    rcases spelled with leaf | container
    · exact .inl leaf
    · right
      cases container with
      | @array items body contents =>
        have inside : ∀ x ∈ body, x ∈ openBracket :: (body ++ [closeBracket]) := fun x mem => by simp [mem]
        have within : ∀ x ∈ body, blank x = true → other x = true := fun x mem => agrees x (inside x mem)
        exact .array (contents.reblank (fun _ _ led bytes => led.reblank
          (fun _ _ value bytes' => ih value fun x mem => within x (bytes x (bytes' x mem)))
          fun x mem => within x (bytes x mem)) within)
      | @object members body contents names =>
        have inside : ∀ x ∈ body, x ∈ openBrace :: (body ++ [closeBrace]) := fun x mem => by simp [mem]
        have within : ∀ x ∈ body, blank x = true → other x = true := fun x mem => agrees x (inside x mem)
        exact .object (contents.reblank (fun _ _ spelled bytes => spelled.reblank
          (fun _ _ value bytes' => ih value fun x mem => within x (bytes x (bytes' x mem)))
          fun x mem => within x (bytes x mem)) within) names

theorem Document.reblank (document : Document blank R n v b) (agrees : ∀ x ∈ b, blank x = true → other x = true) :
    Document other R n v b := by
  cases document with
  | mk before value behind =>
    refine .mk (fun x mem => agrees x (by simp [mem]) (before x mem)) (value.reblank ?_)
      fun x mem => agrees x (by simp [mem]) (behind x mem)
    exact fun x mem => agrees x (by simp [mem])

end

section

variable {τ τ' V V' : Type} {R : Reading τ V} {R' : Reading τ' V'} {texts : τ → τ' → Prop} {values : V → V' → Prop}

structure Reading.Maps (R : Reading τ V) (R' : Reading τ' V') (texts : τ → τ' → Prop) (values : V → V' → Prop) :
    Prop where
  text : ∀ {t b}, R.text t b → ∃ t', R'.text t' b ∧ texts t t'
  null : values R.null R'.null
  bool : ∀ v, values (R.bool v) (R'.bool v)
  number : ∀ s, values (R.number s) (R'.number s)
  string : ∀ {t t'}, texts t t' → values (R.string t) (R'.string t')
  array : ∀ {items items'}, List.Forall₂ values items items' → values (R.array items) (R'.array items')
  object : ∀ {members members'},
    List.Forall₂ (fun m m' => texts m.1 m'.1 ∧ values m.2 m'.2) members members' → R.names (members.map Prod.fst) →
      R'.names (members'.map Prod.fst) ∧ values (R.object members) (R'.object members')

theorem Led.maps {P : V → Bytes → Prop} {Q : V' → Bytes → Prop} (each : ∀ v b, P v b → ∃ v', Q v' b ∧ values v v')
    (led : Led blank P v b) : ∃ v', Led blank Q v' b ∧ values v v' := by
  cases led with
  | mk before value =>
    obtain ⟨v', value', related⟩ := each _ _ value
    exact ⟨v', .mk before value', related⟩

theorem Contents.maps {α β : Type} {P : α → Bytes → Prop} {Q : β → Bytes → Prop} {related : α → β → Prop}
    (each : ∀ a b, P a b → ∃ c, Q c b ∧ related a c) {items : List α} (contents : Contents blank P items b) :
    ∃ items', Contents blank Q items' b ∧ List.Forall₂ related items items' := by
  cases contents with
  | none blanks => exact ⟨[], .none blanks, .nil⟩
  | some list =>
    obtain ⟨items', list', all⟩ := list.lift each
    exact ⟨items', .some list', all⟩

theorem Member.maps (maps : R.Maps R' texts values) {P : V → Bytes → Prop} {Q : V' → Bytes → Prop}
    (each : ∀ v b, P v b → ∃ v', Q v' b ∧ values v v') (spelled : Member blank R.text P m b) :
    ∃ m', Member blank R'.text Q m' b ∧ texts m.1 m'.1 ∧ values m.2 m'.2 := by
  cases spelled with
  | mk before key behind value =>
    obtain ⟨key', spelled', same⟩ := maps.text key
    obtain ⟨v', value', related⟩ := value.maps each
    exact ⟨(key', v'), .mk before spelled' behind value', same, related⟩

theorem Leaf.maps (maps : R.Maps R' texts values) (leaf : Leaf R v b) : ∃ v', Leaf R' v' b ∧ values v v' := by
  cases leaf with
  | null => exact ⟨_, .null, maps.null⟩
  | yes => exact ⟨_, .yes, maps.bool _⟩
  | no => exact ⟨_, .no, maps.bool _⟩
  | number spelled => exact ⟨_, .number spelled, maps.number _⟩
  | string text =>
    obtain ⟨t', text', same⟩ := maps.text text
    exact ⟨_, .string text', maps.string same⟩

theorem Spells.maps (maps : R.Maps R' texts values) (spelled : Spells blank R n v b) :
    ∃ v', Spells blank R' n v' b ∧ values v v' := by
  induction n generalizing v b with
  | zero => exact Leaf.maps maps spelled
  | succ n ih =>
    rcases spelled with leaf | container
    · obtain ⟨v', leaf', related⟩ := leaf.maps maps
      exact ⟨v', .inl leaf', related⟩
    · cases container with
      | array contents =>
        obtain ⟨items', contents', all⟩ := contents.maps fun _ _ led => led.maps fun v b => ih (v := v) (b := b)
        exact ⟨_, .inr (.array contents'), maps.array all⟩
      | object contents names =>
        obtain ⟨members', contents', all⟩ := contents.maps fun _ _ spelled =>
          spelled.maps maps fun v b => ih (v := v) (b := b)
        obtain ⟨names', related⟩ := maps.object all names
        exact ⟨_, .inr (.object contents' names'), related⟩

end

section

variable {τ V : Type} {blank : UInt8 → Bool} {R : Reading τ V} {good : UInt8 → Prop}

structure GoodBytes (blank : UInt8 → Bool) (R : Reading τ V) (good : UInt8 → Prop) : Prop where
  blanks : ∀ x, blank x = true → good x
  texts : ∀ t b, R.text t b → ∀ x ∈ b, good x
  numbers : ∀ b, NumberText b → ∀ x ∈ b, good x
  words : ∀ x ∈ asBytes "null" ++ asBytes "true" ++ asBytes "false", good x
  marks : ∀ x ∈ [quote, comma, colon, openBracket, closeBracket, openBrace, closeBrace], good x

theorem GoodBytes.leaf (all : GoodBytes blank R good) {v : V} {b : Bytes} (leaf : Leaf R v b) : ∀ x ∈ b, good x := by
  cases leaf with
  | null => exact fun x mem => all.words x (by simp [mem])
  | yes => exact fun x mem => all.words x (by simp [mem])
  | no => exact fun x mem => all.words x (by simp [mem])
  | number spelled => exact all.numbers _ spelled
  | string text =>
    intro x mem
    simp only [mem_cons, mem_append, not_mem_nil, or_false] at mem
    rcases mem with rfl | mem | rfl
    · exact all.marks _ (by simp)
    · exact all.texts _ _ text x mem
    · exact all.marks _ (by simp)

theorem GoodBytes.led (all : GoodBytes blank R good) {P : V → Bytes → Prop} (values : ∀ v b, P v b → ∀ x ∈ b, good x)
    {v : V} {b : Bytes} (led : Led blank P v b) : ∀ x ∈ b, good x := by
  cases led with
  | mk before value =>
    intro x mem
    rcases mem_append.mp mem with mem | mem
    · exact all.blanks x (before x mem)
    · exact values _ _ value x mem

theorem GoodBytes.contents {α : Type} (all : GoodBytes blank R good) {P : α → Bytes → Prop} {items : List α}
    (contents : Contents blank P items b) (each : ∀ a part, P a part → ∀ x ∈ part, good x) : ∀ x ∈ b, good x := by
  cases contents with
  | none blanks => exact fun x mem => all.blanks x (blanks x mem)
  | some list => exact list.all each all.blanks (all.marks _ (by simp))

theorem GoodBytes.member (all : GoodBytes blank R good) {P : V → Bytes → Prop}
    (values : ∀ v b, P v b → ∀ x ∈ b, good x) (spelled : Member blank R.text P m b) : ∀ x ∈ b, good x := by
  cases spelled with
  | mk before key behind value =>
    intro x mem
    simp only [mem_append, mem_cons] at mem
    rcases mem with mem | rfl | mem | rfl | mem | rfl | mem
    · exact all.blanks x (before x mem)
    · exact all.marks _ (by simp)
    · exact all.texts _ _ key x mem
    · exact all.marks _ (by simp)
    · exact all.blanks x (behind x mem)
    · exact all.marks _ (by simp)
    · exact all.led values value x mem

theorem GoodBytes.spells (all : GoodBytes blank R good) (n : Nat) (spelled : Spells blank R n v b) :
    ∀ x ∈ b, good x := by
  induction n generalizing v b with
  | zero => exact all.leaf spelled
  | succ n ih =>
    rcases spelled with leaf | container
    · exact all.leaf leaf
    · cases container with
      | array contents =>
        have inner := all.contents contents fun _ _ led => all.led (fun _ _ => ih) led
        intro x mem
        simp only [mem_cons, mem_append, not_mem_nil, or_false] at mem
        rcases mem with rfl | mem | rfl
        · exact all.marks _ (by simp)
        · exact inner x mem
        · exact all.marks _ (by simp)
      | object contents _ =>
        have inner := all.contents contents fun _ _ spelled => all.member (fun _ _ => ih) spelled
        intro x mem
        simp only [mem_cons, mem_append, not_mem_nil, or_false] at mem
        rcases mem with rfl | mem | rfl
        · exact all.marks _ (by simp)
        · exact inner x mem
        · exact all.marks _ (by simp)

theorem GoodBytes.document (all : GoodBytes blank R good) (document : Document blank R n v b) : ∀ x ∈ b, good x := by
  cases document with
  | mk before value behind =>
    intro x mem
    simp only [mem_append] at mem
    rcases mem with mem | mem | mem
    · exact all.blanks x (before x mem)
    · exact all.spells n value x mem
    · exact all.blanks x (behind x mem)

end

/-- `ws = *( %x20 / %x09 / %x0A / %x0D )` -/
def rfcBlank (b : UInt8) : Bool := b = 0x20 || b = 0x09 || b = 0x0a || b = 0x0d

end Rezzy.Json
