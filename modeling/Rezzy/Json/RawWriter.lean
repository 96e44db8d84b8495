import Rezzy.Json.SpanSpec

namespace Rezzy.Json

open List Outcome Except Sorted

namespace RawEmitter

open Tokenizer

def orFail {α : Type} (fault : Error) (result : Except Error α) : Except Error α :=
  match result with
  | .ok a => .ok a
  | .error _ => .error fault

def finish (s : Bytes) : Except Error Unit := if ws s = [] then .ok () else .error .trailingCharacters

def emitString (s : Bytes) : Except Error Bytes := do
  let (span, s) ← orFail .invalidString (stringRaw s)
  finish s
  if backslash ∈ span then do
    let decoded ← unescapeRawString span
    .ok (writeString decoded)
  else
    match fromUtf8 span with
    | some _ => .ok (quote :: (span ++ [quote]))
    | none => .error .invalidString

def emitLiteral (literal s : Bytes) : Except Error Bytes := do
  let s ← word literal s
  finish s
  .ok literal

def emitNumber (formatFinite : String → Option String) (strict : Bool) (s : Bytes) : Except Error Bytes := do
  let (_, rest) ← orFail .invalidNumber (skipNumber s)
  finish rest
  match fromUtf8 (s.take (s.length - rest.length)) with
  | none => .error .invalidNumber
  | some text =>
    if strict && !isCanonicalIntegerStr text then .error .invalidNumber
    else if strict then .ok (asBytes text)
    else .ok (asBytes (Number.parse formatFinite text).asStr)

def emitElements (emit : Bytes → Except Error Bytes) : Nat → Bool → Bytes → Except Error (Bytes × Bytes)
  | 0, _, _ => .error .invalidToken
  | fuel + 1, first, s =>
    if s.head? = some closeBracket then .ok ([], s)
    else do
      let (raw, s) ← orFail .invalidToken (skipValue maxDepth s)
      let out ← emit raw
      match ws s with
      | [] => .ok (separator first ++ out, [])
      | b :: rest =>
        if b = comma then
          if (ws rest).head? = some closeBracket then .error .invalidToken
          else do
            let (more, s) ← emitElements emit fuel false (ws rest)
            .ok (separator first ++ out ++ more, s)
        else .ok (separator first ++ out, b :: rest)

def emitArray (emit : Bytes → Except Error Bytes) (s : Bytes) : Except Error Bytes := do
  let (items, s) ← emitElements emit (s.length + 1) true (ws s)
  match s with
  | [] => .error .invalidToken
  | b :: s =>
    if b ≠ closeBracket then .error .invalidToken
    else do
      finish s
      .ok (openBracket :: (items ++ [closeBracket]))

def emitMembers (exclude : String → Bool) (emit : Bytes → Except Error Bytes) :
    Bool → List MemberSpan → Except Error Bytes
  | _, [] => .ok []
  | first, member :: members =>
    if (members.head?.any fun next => next.key = member.key) || exclude member.key then
      emitMembers exclude emit first members
    else do
      let out ← emit member.rawValue
      let more ← emitMembers exclude emit false members
      .ok (separator first ++ writeString member.key ++ colon :: out ++ more)

def emitObject (exclude : String → Bool) (emit : Bytes → Except Error Bytes) (s : Bytes) : Except Error Bytes := do
  let (members, s) ← orFail .invalidToken (objectMembers s)
  finish s
  let sorted := members.mergeSort fun a b => decide (a.key ≤ b.key)
  let out ← emitMembers exclude emit true sorted
  .ok (openBrace :: (out ++ [closeBrace]))

def emitRaw (formatFinite : String → Option String) (exclude : String → Bool) (strict : Bool) :
    Nat → Bytes → Except Error Bytes
  | 0, _ => .error .invalidToken
  | fuel + 1, raw =>
    match ws raw with
    | [] => .error .unexpectedEnd
    | b :: s =>
      if b = openBrace then emitObject exclude (emitRaw formatFinite exclude strict fuel) (b :: s)
      else if b = openBracket then emitArray (emitRaw formatFinite exclude strict fuel) s
      else if b = quote then emitString s
      else if b = 0x6e then emitLiteral (asBytes "null") (b :: s)
      else if b = 0x74 then emitLiteral (asBytes "true") (b :: s)
      else if b = 0x66 then emitLiteral (asBytes "false") (b :: s)
      else if b = 0x2d ∨ isAsciiDigit b then emitNumber formatFinite strict (b :: s)
      else .error .invalidToken

end RawEmitter

def writeRawCanonicalFilteredInternal (formatFinite : String → Option String) (input : Bytes)
    (exclude : String → Bool) (strict : Bool) : Except Error Bytes :=
  RawEmitter.emitRaw formatFinite exclude strict (input.length + 1) input

def writeRawCanonicalFiltered (formatFinite : String → Option String) (input : Bytes) (exclude : String → Bool) :
    Except Error Bytes := writeRawCanonicalFilteredInternal formatFinite input exclude false

open Scan

theorem writeRuns_plain {s : Bytes} (plain : Blank Parser.plainByte s) (run : Bytes) : writeRuns run s = run ++ s := by
  induction s generalizing run with
  | nil => rw [writeRuns, append_nil]
  | cons b s ih =>
    obtain ⟨notQuote, notBackslash, printable⟩ := Parser.plainByte_iff.mp (plain b mem_cons_self)
    rw [writeRuns, if_pos ⟨printable, notQuote, notBackslash⟩, ih fun x mem => plain x (mem_cons_of_mem _ mem),
      append_assoc]
    rfl

def joined : Bool → List Bytes → Bytes
  | _, [] => []
  | first, out :: outs => separator first ++ out ++ joined false outs

theorem writeItemsFiltered_eq (exclude : String → Bool) (first : Bool) (items : List Value) :
    writeItemsFiltered exclude first items = joined first (items.map (writeValueFiltered exclude)) := by
  induction items generalizing first with
  | nil => rw [writeItemsFiltered, map_nil, joined]
  | cons item items ih => rw [writeItemsFiltered, map_cons, joined, ih]

def writtenMember (key : String) (out : Bytes) : Bytes := writeString key ++ colon :: out

theorem writeMembersFiltered_eq (exclude : String → Bool) (first : Bool) (members : List (String × Value)) :
    writeMembersFiltered exclude first members = joined first ((members.filter fun m => !exclude m.1).map fun m =>
      writtenMember m.1 (writeValueFiltered exclude m.2)) := by
  induction members generalizing first with
  | nil => rw [writeMembersFiltered, filter_nil, map_nil, joined]
  | cons m members ih =>
    obtain ⟨key, -⟩ := m
    rw [writeMembersFiltered]
    cases excluded : exclude key with
    | true => rw [if_pos rfl, ih, filter_cons_of_neg (by simp [excluded])]
    | false =>
      rw [if_neg (by simp), ih, filter_cons_of_pos (by simp [excluded]), map_cons, joined, writtenMember,
        append_assoc (separator first)]

namespace RawEmitter

open Tokenizer

section

theorem orFail_eq_ok {α : Type} {fault : Error} {result : Except Error α} {a : α} :
    orFail fault result = .ok a ↔ result = .ok a := by
  cases result with
  | ok _ => rfl
  | error _ => exact ⟨(nomatch ·), (nomatch ·)⟩

theorem finish_eq_ok : finish s = .ok () ↔ Blank isAsciiWhitespace s := by
  have same : s.dropWhile isAsciiWhitespace = [] ↔ Blank isAsciiWhitespace s := dropWhile_eq_nil_iff
  unfold finish ws
  split
  · rename_i blank
    exact ⟨fun _ => same.mp blank, fun _ => rfl⟩
  · rename_i solid
    exact ⟨(nomatch ·), fun blank => absurd (same.mpr blank) solid⟩

theorem emitString_eq_ok : emitString s = .ok out ↔
    ∃ (t : String) (b w : Bytes), s = b ++ quote :: w ∧ Text t.toList b ∧ Blank isAsciiWhitespace w ∧
      out = writeString t := by
  have unescaped : ∀ {b : Bytes} {t : String}, RawText b → backslash ∉ b → Text t.toList b →
      quote :: (b ++ [quote]) = writeString t := by
    intro b t raw none text
    have same := fromUtf8_eq_some.mp ((fromUtf8_text raw none).mpr text)
    rw [writeString, same, writeRuns_plain (RawText.unescaped raw none), nil_append]
  constructor
  · intro emitted
    obtain ⟨⟨span, rest⟩, scanned, onward⟩ := bind_eq_ok.mp emitted
    obtain ⟨rfl, raw⟩ := stringRaw_sound (orFail_eq_ok.mp scanned)
    obtain ⟨_, finished, last⟩ := bind_eq_ok.mp onward
    have blanks := finish_eq_ok.mp finished
    split at last
    · obtain ⟨t, decoded, done⟩ := bind_eq_ok.mp last
      exact ⟨t, span, rest, rfl, (unescapeRawString_iff raw).mp decoded, blanks, (ok.inj done).symm⟩
    · rename_i none
      split at last
      · rename_i t decoded
        have text := (fromUtf8_text raw none).mp decoded
        refine ⟨t, span, rest, rfl, text, blanks, ?_⟩
        rw [← unescaped raw none text]
        exact (ok.inj last).symm
      · cases last
  · rintro ⟨t, b, w, rfl, text, blanks, rfl⟩
    unfold emitString
    rw [stringRaw_complete text.raw]
    dsimp only [orFail, bind, Except.bind]
    rw [finish_eq_ok.mpr blanks]
    dsimp only
    split
    · rw [(unescapeRawString_iff text.raw).mpr text]
    · rename_i none
      rw [(fromUtf8_text text.raw none).mpr text]
      rw [unescaped text.raw none text]

theorem emitLiteral_eq_ok : emitLiteral literal s = .ok out ↔
    ∃ w, s = literal ++ w ∧ Blank isAsciiWhitespace w ∧ out = literal := by
  unfold emitLiteral
  constructor
  · intro emitted
    obtain ⟨rest, scanned, onward⟩ := bind_eq_ok.mp emitted
    obtain ⟨_, finished, done⟩ := bind_eq_ok.mp onward
    exact ⟨rest, word_sound scanned, finish_eq_ok.mp finished, (ok.inj done).symm⟩
  · rintro ⟨w, rfl, blanks, rfl⟩
    rw [word_complete]
    dsimp only [bind, Except.bind]
    rw [finish_eq_ok.mpr blanks]

theorem emitNumber_eq_ok {formatFinite : String → Option String} : emitNumber formatFinite false s = .ok out ↔
    ∃ source w, s = asBytes source ++ w ∧ NumberText (asBytes source) ∧ Blank isAsciiWhitespace w ∧
      out = asBytes (Number.parse formatFinite source).asStr := by
  have cut : ∀ b w : Bytes, (b ++ w).take ((b ++ w).length - w.length) = b := by
    intro b w
    rw [length_append, Nat.add_sub_cancel, take_left]
  unfold emitNumber
  constructor
  · intro emitted
    obtain ⟨⟨_, rest⟩, scanned, onward⟩ := bind_eq_ok.mp emitted
    obtain ⟨b, rfl, spelled⟩ := skipNumber_sound (orFail_eq_ok.mp scanned)
    obtain ⟨_, finished, last⟩ := bind_eq_ok.mp onward
    obtain ⟨source, rfl⟩ := numberText_string spelled
    rw [cut, fromUtf8_eq_some.mpr rfl] at last
    exact ⟨source, rest, rfl, spelled, finish_eq_ok.mp finished, (ok.inj last).symm⟩
  · rintro ⟨source, w, rfl, spelled, blanks, rfl⟩
    rw [skipNumber_complete spelled (blank_stops blanks)]
    dsimp only [orFail, bind, Except.bind]
    rw [finish_eq_ok.mpr blanks]
    rw [cut, fromUtf8_eq_some.mpr rfl]
    rfl

variable {emit : Bytes → Except Error Bytes}

def Writes (emit : Bytes → Except Error Bytes) : List Bytes → List Bytes → Prop :=
  List.Forall₂ fun raw out => emit raw = .ok out

abbrev Elements : List Bytes → Bytes → Prop :=
  Separated isAsciiWhitespace comma (Led isAsciiWhitespace (Span maxDepth))

theorem emitElements_sound {fuel : Nat} {first : Bool} {s out r : Bytes}
    (emitted : emitElements emit fuel first s = .ok (out, r)) :
    out = [] ∧ r = s ∧ s.head? = some closeBracket ∨
      ∃ raws b outs, s = b ++ r ∧ Elements raws b ∧ Writes emit raws outs ∧ out = joined first outs := by
  induction fuel generalizing first s out with
  | zero => cases emitted
  | succ fuel ih =>
    rw [emitElements] at emitted
    split at emitted
    · rename_i closes
      cases emitted
      exact .inl ⟨rfl, rfl, closes⟩
    · right
      obtain ⟨⟨raw, s₁⟩, skipped, onward⟩ := bind_eq_ok.mp emitted
      obtain ⟨b, rfl, led⟩ := (skipValue_takes maxDepth).sound (orFail_eq_ok.mp skipped)
      obtain ⟨o, written, last⟩ := bind_eq_ok.mp onward
      obtain ⟨w, shape, blanks⟩ := dropWhile_split isAsciiWhitespace s₁
      unfold ws at last
      split at last
      · rename_i left
        cases last
        rw [left, append_nil] at shape
        refine ⟨[raw], b ++ w, [o], by rw [shape, append_nil], .last led blanks, .cons written .nil, ?_⟩
        rw [joined, joined, append_nil]
      · rename_i x rest left
        rw [left] at shape
        split at last
        · rename_i separates
          split at last
          · cases last
          · rename_i notClosed
            obtain ⟨⟨more, r'⟩, others, done⟩ := bind_eq_ok.mp last
            cases done
            rcases ih others with ⟨_, _, closes⟩ | ⟨raws, b', outs, parts, list, writes, rfl⟩
            · exact absurd closes notClosed
            · obtain ⟨w', shape', blanks'⟩ := dropWhile_split isAsciiWhitespace rest
              refine ⟨raw :: raws, b ++ (w ++ comma :: (w' ++ b')), o :: outs, ?_,
                .link led blanks (list.before fun _ _ led => led.before blanks'), .cons written writes, ?_⟩
              · rw [shape, shape', parts, separates]
                simp
              · rw [joined]
        · cases last
          refine ⟨[raw], b ++ w, [o], by rw [shape]; simp, .last led blanks, .cons written .nil, ?_⟩
          rw [joined, joined, append_nil]

theorem emitElements_complete (list : Elements raws b) (writes : Writes emit raws outs)
    (allowance : raws.length ≤ fuel) (first : Bool) (r : Bytes) :
    emitElements emit fuel first (ws (b ++ closeBracket :: r)) = .ok (joined first outs, closeBracket :: r) := by
  have starts : ∀ {raw w b : Bytes}, Blank isAsciiWhitespace w → Span maxDepth raw b → ∀ rest,
      ws (w ++ b ++ rest) = b ++ rest ∧ (b ++ rest).head? ≠ some closeBracket := by
    intro raw w b before span rest
    obtain ⟨rfl, skipped⟩ := span
    obtain ⟨x, more, shape, start⟩ := Spells.head skipped
    refine ⟨ws_led before skipped, ?_⟩
    rw [shape]
    exact fun same => (startByte_solid start).2.1 (Option.some.inj same)
  induction list generalizing outs fuel first with
  | @last raw b w led behind =>
    obtain ⟨fuel, rfl⟩ := Nat.exists_eq_add_of_lt allowance
    obtain ⟨o, rest, written, none, rfl⟩ := forall₂_cons_left_iff.mp writes
    cases none
    cases led with
    | @mk w₁ b before span =>
      obtain ⟨begun, open_⟩ := starts before span (w ++ closeBracket :: r)
      have skipped := (skipValue_takes maxDepth).complete (.mk .nil span)
        (separates_stop closeBracket (.inl rfl) w closeBracket r behind (.inr rfl))
      rw [append_assoc (w₁ ++ b), begun, length_nil, Nat.zero_add, emitElements, if_neg open_]
      rw [nil_append] at skipped
      rw [skipped]
      dsimp only [orFail, bind, Except.bind]
      rw [written]
      dsimp only [ws]
      rw [behind.dropWhile_cons (by decide)]
      dsimp only
      rw [if_neg (by decide), joined, joined, append_nil]
  | @link raw raws b w rest led behind more ih =>
    obtain ⟨fuel, rfl⟩ := Nat.exists_eq_add_of_lt allowance
    obtain ⟨o, others, written, following, rfl⟩ := forall₂_cons_left_iff.mp writes
    cases led with
    | @mk w₁ b before span =>
      obtain ⟨begun, open_⟩ := starts before span (w ++ comma :: (rest ++ closeBracket :: r))
      have skipped := (skipValue_takes maxDepth).complete (.mk .nil span)
        (separates_stop closeBracket (.inl rfl) w comma (rest ++ closeBracket :: r) behind (.inl rfl))
      have shape : w₁ ++ b ++ (w ++ comma :: rest) ++ closeBracket :: r =
          w₁ ++ b ++ (w ++ comma :: (rest ++ closeBracket :: r)) := by simp
      have onward := ih following (Nat.le_add_right raws.length fuel) false
      rw [shape, begun, emitElements, if_neg open_]
      rw [nil_append] at skipped
      rw [skipped]
      dsimp only [orFail, bind, Except.bind]
      rw [written]
      have turn : ws (w ++ comma :: (rest ++ closeBracket :: r)) = comma :: (rest ++ closeBracket :: r) :=
        behind.dropWhile_cons (by decide) _
      have goes : (ws (rest ++ closeBracket :: r)).head? ≠ some closeBracket := by
        cases more with
        | last led behind =>
          cases led with
          | mk before span =>
            rw [append_assoc, (starts before span _).1]
            exact (starts before span _).2
        | link led behind more =>
          cases led with
          | mk before span =>
            rw [append_assoc, (starts before span _).1]
            exact (starts before span _).2
      rw [turn]
      dsimp only
      rw [if_pos rfl, if_neg goes, onward]
      rfl

end

variable {exclude : String → Bool}

theorem emitArray_eq_ok : emitArray emit s = .ok out ↔ ∃ raws body outs w,
    s = body ++ closeBracket :: w ∧ Contents isAsciiWhitespace (Led isAsciiWhitespace (Span maxDepth)) raws body ∧
      Writes emit raws outs ∧ Blank isAsciiWhitespace w ∧
      out = openBracket :: (joined true outs ++ [closeBracket]) := by
  obtain ⟨w, shape, blanks⟩ := dropWhile_split isAsciiWhitespace s
  unfold emitArray
  constructor
  · intro emitted
    obtain ⟨⟨items, r⟩, elements, onward⟩ := bind_eq_ok.mp emitted
    dsimp only at onward
    split at onward
    · cases onward
    · rename_i x rest
      split at onward
      · cases onward
      · rename_i closes
        obtain rfl := not_not.mp closes
        obtain ⟨_, finished, done⟩ := bind_eq_ok.mp onward
        have behind := finish_eq_ok.mp finished
        cases done
        rcases emitElements_sound elements with ⟨rfl, same, _⟩ | ⟨raws, b, outs, parts, list, writes, rfl⟩
        · refine ⟨[], w, [], rest, ?_, .none blanks, .nil, behind, rfl⟩
          rw [same]
          exact shape
        · refine ⟨raws, w ++ b, outs, rest, ?_, .some (list.before fun _ _ led => led.before blanks), writes, behind, rfl⟩
          rw [append_assoc, ← parts]
          exact shape
  · rintro ⟨raws, body, outs, w', rfl, contents, writes, behind, rfl⟩
    have elements : emitElements emit ((body ++ closeBracket :: w').length + 1) true (ws (body ++ closeBracket :: w')) =
        .ok (joined true outs, closeBracket :: w') := by
      cases contents with
      | none blanks' =>
        cases writes
        unfold ws
        rw [blanks'.dropWhile_cons (by decide), emitElements, if_pos (head?_cons ..)]
        rfl
      | some list =>
        have length := list.length_le fun _ _ led => by
          obtain ⟨before, rfl, skipped⟩ := led
          obtain ⟨x, rest, rfl, _⟩ := Spells.head skipped
          simp
        have allowance : raws.length ≤ (body ++ closeBracket :: w').length + 1 := by
          rw [length_append]
          omega
        exact emitElements_complete list writes allowance true w'
    rw [elements]
    dsimp only [bind, Except.bind]
    rw [if_neg (by simp), finish_eq_ok.mpr behind]

def kept (exclude : String → Bool) (members : List MemberSpan) : List (String × Bytes) :=
  (Sorted.assignAll (members.map MemberSpan.pair)).filter fun e => !exclude e.1

theorem emitMembers_eq_ok {members : List MemberSpan} (sorted : members.Pairwise fun a b => a.key ≤ b.key)
    (first : Bool) (out : Bytes) : emitMembers exclude emit first members = .ok out ↔
      ∃ outs, List.Forall₂ (fun (e : String × Bytes) o => emit e.2 = .ok o) (kept exclude members) outs ∧
        out = joined first (zipWith (fun e o => writtenMember e.1 o) (kept exclude members) outs) := by
  induction members generalizing first out with
  | nil =>
    constructor
    · intro emitted
      exact ⟨[], .nil, (ok.inj emitted).symm⟩
    · rintro ⟨outs, none, rfl⟩
      cases none
      rfl
  | cons mem members ih =>
    obtain ⟨least, sorted⟩ := pairwise_cons.mp sorted
    rw [emitMembers]
    by_cases shadowed : ∃ next ∈ members, next.key = mem.key
    · have same : kept exclude (mem :: members) = kept exclude members := by
        obtain ⟨next, inside, equal⟩ := shadowed
        rw [kept, map_cons, assignAll_cons_shadowed ⟨_, mem_map_of_mem inside, equal⟩, kept]
      have adjacent : (members.head?.any fun next => next.key = mem.key) = true := by
        obtain ⟨next, inside, equal⟩ := shadowed
        cases members with
        | nil => cases inside
        | cons head members =>
          have below := (pairwise_cons.mp sorted).1
          have low := least head mem_cons_self
          have high : head.key ≤ mem.key := by
            rcases mem_cons.mp inside with rfl | inside
            · exact equal.le
            · exact (below next inside).trans equal.le
          simp [le_antisymm high low]
      rw [adjacent, Bool.true_or, if_pos rfl, same]
      exact ih sorted _ _
    · have apart : Sorted.Above (members.map MemberSpan.pair) mem.pair.1 := by
        intro e listed
        obtain ⟨next, inside, rfl⟩ := mem_map.mp listed
        exact lt_of_le_of_ne (least next inside) fun equal => shadowed ⟨next, inside, equal.symm⟩
      have alone : (members.head?.any fun next => next.key = mem.key) = false := by
        cases members with
        | nil => rfl
        | cons head members => simpa using fun equal => shadowed ⟨head, mem_cons_self, equal⟩
      rw [alone, Bool.false_or]
      cases excluded : exclude mem.key with
      | true =>
        have same : kept exclude (mem :: members) = kept exclude members := by
          rw [kept, map_cons, assignAll_cons_below apart,
            filter_cons_of_neg (by simp [MemberSpan.pair, excluded]), kept]
        rw [if_pos rfl, same]
        exact ih sorted _ _
      | false =>
        have same : kept exclude (mem :: members) = mem.pair :: kept exclude members := by
          rw [kept, map_cons, assignAll_cons_below apart,
            filter_cons_of_pos (by simp [MemberSpan.pair, excluded]), kept]
        rw [if_neg Bool.false_ne_true, same]
        constructor
        · intro emitted
          obtain ⟨o, written, onward⟩ := bind_eq_ok.mp emitted
          obtain ⟨more, others, done⟩ := bind_eq_ok.mp onward
          obtain ⟨outs, writes, rfl⟩ := (ih sorted _ _).mp others
          refine ⟨o :: outs, .cons written writes, ?_⟩
          rw [← ok.inj done, zipWith_cons_cons, joined, writtenMember, append_assoc (separator first)]
          rfl
        · rintro ⟨_, writes, rfl⟩
          obtain ⟨o, outs, written, following, rfl⟩ := forall₂_cons_left_iff.mp writes
          have others := (ih sorted false _).mpr ⟨outs, following, rfl⟩
          have first_ : emit mem.rawValue = .ok o := written
          rw [first_]
          dsimp only [bind, Except.bind]
          rw [others, zipWith_cons_cons, joined, writtenMember, append_assoc (separator first)]
          rfl

theorem kept_mergeSort (members : List MemberSpan) :
    kept exclude (members.mergeSort fun a b => decide (a.key ≤ b.key)) = kept exclude members := by
  have same : (members.mergeSort fun a b => decide (a.key ≤ b.key)).map MemberSpan.pair =
      (members.map MemberSpan.pair).mergeSort fun a b => decide (a.1 ≤ b.1) := map_mergeSort fun _ _ _ _ => rfl
  rw [kept, same, assignAll_mergeSort, kept]

theorem emitObject_eq_ok {s out : Bytes} : emitObject exclude emit s = .ok out ↔ ∃ members w outs,
    objectMembers s = .ok (members, w) ∧ Blank isAsciiWhitespace w ∧
      List.Forall₂ (fun (e : String × Bytes) o => emit e.2 = .ok o) (kept exclude members) outs ∧
      out = openBrace :: (joined true (zipWith (fun e o => writtenMember e.1 o) (kept exclude members) outs) ++
        [closeBrace]) := by
  have sorted : ∀ members : List MemberSpan,
      (members.mergeSort fun a b => decide (a.key ≤ b.key)).Pairwise fun a b => a.key ≤ b.key := by
    intro members
    have trans : ∀ a b c : MemberSpan, decide (a.key ≤ b.key) = true → decide (b.key ≤ c.key) = true →
        decide (a.key ≤ c.key) = true :=
      fun a b c ab bc => decide_eq_true ((of_decide_eq_true ab).trans (of_decide_eq_true bc))
    have total : ∀ a b : MemberSpan, (decide (a.key ≤ b.key) || decide (b.key ≤ a.key)) = true := by
      intro a b
      simpa using le_total a.key b.key
    exact (pairwise_mergeSort trans total members).imp of_decide_eq_true
  unfold emitObject
  constructor
  · intro emitted
    obtain ⟨⟨members, w⟩, walked, onward⟩ := bind_eq_ok.mp emitted
    obtain ⟨_, finished, last⟩ := bind_eq_ok.mp onward
    obtain ⟨parts, written, done⟩ := bind_eq_ok.mp last
    obtain ⟨outs, writes, rfl⟩ := (emitMembers_eq_ok (sorted members) _ _).mp written
    rw [kept_mergeSort] at writes done
    exact ⟨members, w, outs, orFail_eq_ok.mp walked, finish_eq_ok.mp finished, writes, (ok.inj done).symm⟩
  · rintro ⟨members, w, outs, walked, blanks, writes, rfl⟩
    rw [walked]
    dsimp only [orFail, bind, Except.bind]
    rw [finish_eq_ok.mpr blanks]
    have written := (emitMembers_eq_ok (sorted members) true _).mpr ⟨outs, (kept_mergeSort members).symm ▸ writes, rfl⟩
    rw [written, kept_mergeSort]

end RawEmitter

end Rezzy.Json
