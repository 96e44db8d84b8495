import Rezzy.Json.RawWriter

namespace Rezzy.Json

open Scan List Sorted Nat

namespace RawEmitter

open Tokenizer

/-- The texts that the writer takes: a name may open with any byte, and only the values that are written are read,
    each as deep as a document of its own. -/
inductive Loose (exclude : String → Bool) : Bytes → Prop
  | leaf {v : Value} {w b w' : Bytes} (before : Blank isAsciiWhitespace w)
    (value : Leaf (reading (fun _ => none) fun _ => True) v b) (behind : Blank isAsciiWhitespace w') :
    Loose exclude (w ++ (b ++ w'))
  | array {raws : List Bytes} {w body w' : Bytes} (before : Blank isAsciiWhitespace w)
    (contents : Contents isAsciiWhitespace (Led isAsciiWhitespace (Span maxDepth)) raws body)
    (each : ∀ raw ∈ raws, Loose exclude raw) (behind : Blank isAsciiWhitespace w') :
    Loose exclude (w ++ openBracket :: (body ++ closeBracket :: w'))
  | object {members : List MemberSpan} {w body w' : Bytes} (before : Blank isAsciiWhitespace w)
    (contents : LooseContents members body) (each : ∀ e ∈ kept exclude members, Loose exclude e.2)
    (behind : Blank isAsciiWhitespace w') : Loose exclude (w ++ openBrace :: (body ++ closeBrace :: w'))

variable {formatFinite : String → Option String} {names : List String → Prop}

section

variable {w : Bytes} (before : Blank isAsciiWhitespace w)
include before

theorem emitRaw_array (s : Bytes) : emitRaw formatFinite exclude false (fuel + 1) (w ++ openBracket :: s) =
    emitArray (emitRaw formatFinite exclude false fuel) s := by
  rw [emitRaw, ws, before.dropWhile_cons (by decide)]
  rfl

theorem emitRaw_object (s : Bytes) : emitRaw formatFinite exclude false (fuel + 1) (w ++ openBrace :: s) =
    emitObject exclude (emitRaw formatFinite exclude false fuel) (openBrace :: s) := by
  rw [emitRaw, ws, before.dropWhile_cons (by decide)]
  rfl

theorem emitRaw_leaf (leaf : Leaf (reading formatFinite names) v b) (behind : Blank isAsciiWhitespace w') :
    emitRaw formatFinite exclude false (fuel + 1) (w ++ (b ++ w')) = .ok (writeValueFiltered exclude v) := by
  have literal : ∀ word : Bytes, emitLiteral word (word ++ w') = .ok word :=
    fun _ => emitLiteral_eq_ok.mpr ⟨w', rfl, behind, rfl⟩
  cases leaf with
  | null =>
    have text : asBytes "null" = [0x6e, 0x75, 0x6c, 0x6c] := by decide
    have whole := literal (asBytes "null")
    rw [emitRaw, ws, text, cons_append, before.dropWhile_cons (by decide), ← cons_append, ← text]
    exact whole
  | yes =>
    have text : asBytes "true" = [0x74, 0x72, 0x75, 0x65] := by decide
    have whole := literal (asBytes "true")
    rw [emitRaw, ws, text, cons_append, before.dropWhile_cons (by decide), ← cons_append, ← text]
    exact whole
  | no =>
    have text : asBytes "false" = [0x66, 0x61, 0x6c, 0x73, 0x65] := by decide
    have whole := literal (asBytes "false")
    rw [emitRaw, ws, text, cons_append, before.dropWhile_cons (by decide), ← cons_append, ← text]
    exact whole
  | @number source spelled =>
    obtain ⟨x, rest, shape, first⟩ := spelled.head
    obtain ⟨n, t, f, q, bracket, brace⟩ := number_not_mark first
    have whole : emitNumber formatFinite false (asBytes source ++ w') =
        .ok (asBytes (Number.parse formatFinite source).asStr) :=
      emitNumber_eq_ok.mpr ⟨source, w', rfl, spelled, behind, rfl⟩
    rw [shape] at whole ⊢
    rw [emitRaw, ws, cons_append, before.dropWhile_cons (startByte_solid (startByte_of_number first)).1]
    dsimp only
    rw [if_neg brace, if_neg bracket, if_neg q, if_neg n, if_neg t, if_neg f, if_pos first]
    exact whole
  | @string t b text =>
    have whole : emitString (b ++ quote :: w') = .ok (writeString t) :=
      emitString_eq_ok.mpr ⟨t, b, w', rfl, text, behind, rfl⟩
    have shape : quote :: (b ++ [quote]) ++ w' = quote :: (b ++ quote :: w') := by simp
    rw [emitRaw, ws, shape, before.dropWhile_cons (by decide)]
    exact whole

end

section

theorem Loose.literal {word : Bytes} (leaf : Leaf (reading (fun _ => none) fun _ => True) v word)
    (before : Blank isAsciiWhitespace w) (emitted : emitLiteral word s = .ok out) : Loose exclude (w ++ s) := by
  obtain ⟨w', rfl, behind, _⟩ := emitLiteral_eq_ok.mp emitted
  exact .leaf before leaf behind

theorem emitRaw_sound (emitted : emitRaw formatFinite exclude false fuel raw = .ok out) : Loose exclude raw := by
  induction fuel generalizing raw out with
  | zero => cases emitted
  | succ fuel ih =>
    obtain ⟨w, shape, before⟩ := dropWhile_split isAsciiWhitespace raw
    have solid := dropWhile_stops isAsciiWhitespace raw
    rw [emitRaw, ws] at emitted
    split at emitted
    · cases emitted
    · rename_i b s left
      rw [left] at shape solid
      have first := solid b rfl
      rw [shape]
      split at emitted
      · rename_i opens
        subst opens
        obtain ⟨members, w', outs, walked, behind, writes, _⟩ := emitObject_eq_ok.mp emitted
        obtain ⟨none, body, parts, blanks, contents⟩ := objectMembers_sound walked
        cases none with
        | cons x none =>
          obtain ⟨rfl, _⟩ := cons.inj parts
          exact absurd (blanks _ mem_cons_self) (by rw [first]; exact Bool.false_ne_true)
        | nil =>
          obtain ⟨_, rfl⟩ := cons.inj parts
          apply Loose.object before contents _ behind
          intro e mem
          obtain ⟨o, written⟩ := related_of_mem writes mem
          exact ih written
      split at emitted
      · rename_i opens
        subst opens
        obtain ⟨raws, body, outs, w', rfl, contents, writes, behind, _⟩ := emitArray_eq_ok.mp emitted
        apply Loose.array before contents _ behind
        intro raw mem
        obtain ⟨o, written⟩ := related_of_mem writes mem
        exact ih written
      split at emitted
      · rename_i opens
        subst opens
        obtain ⟨t, b, w', rfl, text, behind, _⟩ := emitString_eq_ok.mp emitted
        have whole : quote :: (b ++ quote :: w') = quote :: (b ++ [quote]) ++ w' := by simp
        rw [whole]
        exact .leaf before (.string text) behind
      split at emitted
      · exact .literal .null before emitted
      split at emitted
      · exact .literal .yes before emitted
      split at emitted
      · exact .literal .no before emitted
      split at emitted
      · obtain ⟨source, w', same, spelled, behind, _⟩ := emitNumber_eq_ok.mp emitted
        rw [same]
        exact .leaf before (.number spelled) behind
      · cases emitted

theorem span_length (led : Led isAsciiWhitespace (Span maxDepth) raw b) : raw.length ≤ b.length := by
  obtain ⟨_, rfl, _⟩ := led
  simp

theorem contents_length (contents : Contents isAsciiWhitespace (Led isAsciiWhitespace (Span maxDepth)) raws body)
    (mem : raw ∈ raws) : raw.length ≤ body.length := by
  cases contents with
  | none _ => cases mem
  | some list =>
    obtain ⟨part, led, length⟩ := list.part mem
    exact (span_length led).trans length

theorem kept_length (contents : Contents isAsciiWhitespace LooseMember members body)
    (counts : e ∈ kept exclude members) : e.2.length ≤ body.length := by
  obtain ⟨mem, listed, rfl⟩ := mem_map.mp (mem_assignAll (mem_filter.mp counts).1)
  cases contents with
  | none _ => cases listed
  | some list =>
    obtain ⟨part, spelled, length⟩ := list.part listed
    cases spelled with
    | @mk _ _ raw _ _ _ _ _ _ _ _ _ value _ =>
      have := span_length value
      simp only [length_append, length_cons] at length
      show raw.length ≤ body.length
      omega

theorem emitRaw_complete (loose : Loose exclude raw) (allowance : raw.length < fuel) :
    ∃ out, emitRaw formatFinite exclude false fuel raw = .ok out := by
  induction loose generalizing fuel with
  | @leaf _ _ b _ before value behind =>
    obtain ⟨fuel, rfl⟩ := exists_eq_succ_of_ne_zero (Nat.ne_zero_of_lt allowance)
    have again : ∃ v, Leaf (reading formatFinite fun _ => True) v b := by
      cases value with
      | null => exact ⟨_, .null⟩
      | yes => exact ⟨_, .yes⟩
      | no => exact ⟨_, .no⟩
      | number spelled => exact ⟨_, .number spelled⟩
      | string text => exact ⟨_, .string text⟩
    obtain ⟨v, value⟩ := again
    exact ⟨_, emitRaw_leaf before value behind⟩
  | array before contents _ behind ih =>
    obtain ⟨fuel, rfl⟩ := exists_eq_succ_of_ne_zero (Nat.ne_zero_of_lt allowance)
    simp only [length_append, length_cons] at allowance
    obtain ⟨outs, writes⟩ := exists_related fun raw mem => @ih raw mem fuel (by
      have := contents_length contents mem
      omega)
    exact ⟨_, (emitRaw_array before _).trans (emitArray_eq_ok.mpr ⟨_, _, outs, _, rfl, contents, writes, behind, rfl⟩)⟩
  | @object _ _ _ w' before contents _ behind ih =>
    obtain ⟨fuel, rfl⟩ := exists_eq_succ_of_ne_zero (Nat.ne_zero_of_lt allowance)
    simp only [length_append, length_cons] at allowance
    obtain ⟨outs, writes⟩ := exists_related fun e mem => @ih e mem fuel (by
      have := kept_length contents.1 mem
      omega)
    have walked := objectMembers_complete .nil contents w'
    exact ⟨_, (emitRaw_object before _).trans (emitObject_eq_ok.mpr ⟨_, _, outs, walked, behind, writes, rfl⟩)⟩

end

def Cuts (formatFinite : String → Option String) (n : Nat) : String × Value → MemberSpan → Prop :=
  fun m span => m.1 = span.key ∧
    Spells isAsciiWhitespace (reading formatFinite fun _ => True) n m.2 span.rawValue

theorem span_of_spells (shallow : n ≤ maxDepth)
    (led : Led isAsciiWhitespace (Spells isAsciiWhitespace (reading formatFinite fun _ => True) n) v b) :
    ∃ raw, Led isAsciiWhitespace (Span maxDepth) raw b ∧
      Spells isAsciiWhitespace (reading formatFinite fun _ => True) n v raw := by
  obtain ⟨before, value⟩ := led
  exact ⟨_, .mk before ⟨rfl, Spells.mono shallow (skippable_of_spells value)⟩, value⟩

theorem cut_of_member (shallow : n ≤ maxDepth)
    (spelled : Member isAsciiWhitespace (reading formatFinite fun _ => True).text
      (Spells isAsciiWhitespace (reading formatFinite fun _ => True) n) m b) :
    ∃ span, LooseMember span b ∧ Cuts formatFinite n m span := by
  cases spelled with
  | @mk name v w t w' b before key behind value =>
    obtain ⟨raw, led, value⟩ := span_of_spells shallow value
    obtain ⟨type, starts⟩ := Skippable.starts (skippable_of_spells value)
    exact ⟨⟨name, raw, type⟩, .mk before (by decide) key behind led starts, rfl, value⟩

theorem quoted_first
    (contents : Contents isAsciiWhitespace (Member isAsciiWhitespace (reading formatFinite fun _ => True).text
      (Spells isAsciiWhitespace (reading formatFinite fun _ => True) n)) ms body)
    (cut : Contents isAsciiWhitespace LooseMember members body) (same : List.Forall₂ (Cuts formatFinite n) ms members) :
    LooseContents members body := by
  refine ⟨cut, fun some_ => ?_⟩
  cases contents with
  | none _ =>
    cases same
    exact absurd rfl some_
  | some list =>
    obtain ⟨w, x, rest, rfl, blanks, rfl, _⟩ := list.trim fun _ _ spelled => spelled.start
    unfold ws
    rw [blanks.dropWhile_cons (by decide)]
    simp [quote, closeBrace]

theorem zipWith_written {related : Value → Bytes → Prop} (same : List.Forall₂ (Sorted.SameKey related) ms spans)
    (write : Value → Bytes) : zipWith (fun e o => writtenMember e.1 o) spans (ms.map fun m => write m.2) =
      ms.map fun m => writtenMember m.1 (write m.2) := by
  induction same with
  | nil => rfl
  | cons first _ ih => rw [map_cons, zipWith_cons_cons, map_cons, ih, first.1]

theorem emitRaw_spells (shallow : n ≤ maxDepth) {v : Value} {w b w' : Bytes} (before : Blank isAsciiWhitespace w)
    (spelled : Spells isAsciiWhitespace (reading formatFinite fun _ => True) n v b)
    (behind : Blank isAsciiWhitespace w') (allowance : (w ++ (b ++ w')).length < fuel) :
    emitRaw formatFinite exclude false fuel (w ++ (b ++ w')) = .ok (writeValueFiltered exclude v) := by
  induction n generalizing v w b w' fuel with
  | zero =>
    obtain ⟨fuel, rfl⟩ := exists_eq_succ_of_ne_zero (Nat.ne_zero_of_lt allowance)
    exact emitRaw_leaf before spelled behind
  | succ n ih =>
    obtain ⟨fuel, rfl⟩ := exists_eq_succ_of_ne_zero (Nat.ne_zero_of_lt allowance)
    have inner : ∀ {v raw}, Spells isAsciiWhitespace (reading formatFinite fun _ => True) n v raw →
        raw.length < fuel → emitRaw formatFinite exclude false fuel raw = .ok (writeValueFiltered exclude v) := by
      intro v raw value length
      have whole := @ih fuel (le_of_succ_le shallow) v [] raw [] .nil value .nil (by simpa using length)
      rwa [nil_append, append_nil] at whole
    rcases spelled with leaf | container
    · exact emitRaw_leaf before leaf behind
    · cases container with
      | @array items body contents =>
        obtain ⟨raws, cut, values⟩ := contents.maps fun _ _ led => span_of_spells (le_of_succ_le shallow) led
        have shape : openBracket :: (body ++ [closeBracket]) ++ w' = openBracket :: (body ++ closeBracket :: w') := by
          simp
        rw [shape] at allowance ⊢
        simp only [length_append, length_cons] at allowance
        have short : ∀ raw ∈ raws, raw.length < fuel := by
          intro raw mem
          have := contents_length cut mem
          omega
        have writes : Writes (emitRaw formatFinite exclude false fuel) raws (items.map (writeValueFiltered exclude)) :=
          forall₂_map_right_iff.mpr (((forall₂_and_left _ _).mpr ⟨short, values.flip⟩).imp
            fun raw v given => inner given.2 given.1)
        rw [emitRaw_array before, emitArray_eq_ok.mpr ⟨raws, body, _, w', rfl, cut, writes, behind, rfl⟩,
          ← writeItemsFiltered_eq, reading, writeValueFiltered]
      | @object ms body contents _ =>
        obtain ⟨spans, cut, same⟩ := contents.maps fun _ _ spelled => cut_of_member (le_of_succ_le shallow) spelled
        have loose := quoted_first contents cut same
        have shape : openBrace :: (body ++ [closeBrace]) ++ w' = openBrace :: (body ++ closeBrace :: w') := by simp
        rw [shape] at allowance ⊢
        simp only [length_append, length_cons] at allowance
        have pairs : List.Forall₂ (Sorted.SameKey (Spells isAsciiWhitespace (reading formatFinite fun _ => True) n))
            ((assignAll ms).filter fun m => !exclude m.1) (kept exclude spans) := by
          have assigned : List.Forall₂ (Sorted.SameKey (Spells isAsciiWhitespace (reading formatFinite fun _ => True) n))
              (assignAll ms) (assignAll (spans.map MemberSpan.pair)) :=
            assignAll_forall₂ (forall₂_map_right_iff.mpr same)
          apply rel_filter _ assigned
          intro m e same
          dsimp only
          rw [same.1]
        have short : ∀ e ∈ kept exclude spans, e.2.length < fuel := by
          intro e mem
          have := kept_length cut mem
          omega
        have writes : List.Forall₂ (fun (e : String × Bytes) o => emitRaw formatFinite exclude false fuel e.2 = .ok o)
            (kept exclude spans)
            (((assignAll ms).filter fun m => !exclude m.1).map fun m => writeValueFiltered exclude m.2) :=
          forall₂_map_right_iff.mpr (((forall₂_and_left _ _).mpr ⟨short, pairs.flip⟩).imp
            fun e m given => inner given.2.2 given.1)
        have walked := objectMembers_complete .nil loose w'
        rw [nil_append] at walked
        rw [emitRaw_object before, emitObject_eq_ok.mpr ⟨spans, w', _, walked, behind, writes, rfl⟩,
          zipWith_written pairs, ← writeMembersFiltered_eq, reading, writeValueFiltered]

theorem writeRawCanonicalFiltered_document
    (document : Document isAsciiWhitespace (reading formatFinite fun _ => True) maxDepth v b) :
    writeRawCanonicalFiltered formatFinite b exclude = .ok (writeStringValueFiltered v exclude) := by
  cases document with
  | mk before value behind => exact emitRaw_spells (Nat.le_refl _) before value behind (lt_succ_self _)

end RawEmitter

open RawEmitter

/-- The writer over source bytes does what parsing and writing does. -/
def RawAgrees (formatFinite : String → Option String) (input : Bytes) (exclude : String → Bool) : Prop :=
  ∀ out, writeRawCanonicalFiltered formatFinite input exclude = .ok out ↔
    ∃ v, Value.parseBytes formatFinite input = .ok v ∧ out = writeStringValueFiltered v exclude

theorem writeRawCanonicalFiltered_agrees_iff (formatFinite : String → Option String) (input : Bytes)
    (exclude : String → Bool) : RawAgrees formatFinite input exclude ↔ (Loose exclude input →
      ∃ v, Document isAsciiWhitespace (reading formatFinite fun _ => True) maxDepth v input) := by
  have parsed : ∀ v, Value.parseBytes formatFinite input = .ok v ↔
      Document isAsciiWhitespace (reading formatFinite fun _ => True) maxDepth v input :=
    fun v => parseScalarWith_iff
  constructor
  · intro agrees loose
    obtain ⟨out, written⟩ : ∃ out, writeRawCanonicalFiltered formatFinite input exclude = .ok out :=
      emitRaw_complete loose (lt_succ_self _)
    obtain ⟨v, accepted, _⟩ := (agrees out).mp written
    exact ⟨v, (parsed v).mp accepted⟩
  · intro regular out
    constructor
    · intro written
      obtain ⟨v, document⟩ := regular (emitRaw_sound written)
      exact ⟨v, (parsed v).mpr document, Except.ok.inj (written.symm.trans (writeRawCanonicalFiltered_document document))⟩
    · rintro ⟨v, accepted, rfl⟩
      exact writeRawCanonicalFiltered_document ((parsed v).mp accepted)

/-- A name that opens with a letter: the writer takes it for a quote, the parser does not. -/
theorem unquoted_name_written : ¬ ∀ input exclude, RawAgrees (fun _ => none) input exclude := by
  intro agrees
  have written : writeRawCanonicalFiltered (fun _ => none) (asBytes "\x7bxa\":1\x7d") (fun _ => false) =
      .ok (asBytes "\x7b\"a\":1\x7d") := by
    decide +kernel
  obtain ⟨v, accepted, _⟩ := (agrees _ _ _).mp written
  have refused : (Value.parseBytes (fun _ => none) (asBytes "\x7bxa\":1\x7d")).toOption = none := by decide
  rw [accepted] at refused
  cases refused

end Rezzy.Json
