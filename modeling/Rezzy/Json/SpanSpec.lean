import Rezzy.Json.Documents
import Rezzy.Json.Tokenizer

namespace Rezzy.Json

open Scan List Json.Parser Outcome Except
open String (ofList utf8EncodeChar)
open Json.Parser (numberByte plainByte pushSegment segments)

section

variable {τ V : Type}

theorem Spells.succ (spelled : Spells blank R n v b) : Spells blank R (n + 1) v b := by
  induction n generalizing v b with
  | zero => exact .inl spelled
  | succ n ih =>
    rcases spelled with leaf | container
    · exact .inl leaf
    · right
      have led : ∀ v b, Led blank (Spells blank R n) v b → Led blank (Spells blank R (n + 1)) v b := by
        rintro v b ⟨before, value⟩
        exact .mk before (ih value)
      cases container with
      | array contents =>
        refine .array ?_
        cases contents with
        | none blanks => exact .none blanks
        | some list => exact .some (list.imp led)
      | object contents names =>
        refine .object ?_ names
        cases contents with
        | none blanks => exact .none blanks
        | some list =>
          refine .some (list.imp ?_)
          rintro m b ⟨before, key, behind, value⟩
          exact .mk before key behind (led _ _ value)

theorem Spells.mono (deeper : n ≤ m) (spelled : Spells blank R n v b) : Spells blank R m v b := by
  induction m, deeper using Nat.le_induction with
  | base => exact spelled
  | succ m _ ih => exact ih.succ

end

namespace Tokenizer

section

def Span (n : Nat) (raw b : Bytes) : Prop := raw = b ∧ Skippable n b

theorem ws_led (blanks : Blank isAsciiWhitespace w) (skipped : Skippable n b) : ws (w ++ b ++ r) = b ++ r := by
  obtain ⟨x, rest, rfl, first⟩ := Spells.head skipped
  rw [append_assoc]
  exact blanks.dropWhile_cons (startByte_solid first).1 _

theorem skipValue_takes (n : Nat) : Takes (skipValue n) (Led isAsciiWhitespace (Span n)) (Stops numberByte) where
  sound {raw s r} read := by
    obtain ⟨⟨u, rest⟩, skipped, done⟩ := Outcome.bind_eq_ok.mp read
    obtain ⟨_, rfl, led⟩ := (skipper_means.value_takes n).sound skipped
    cases led with
    | @mk w b before value =>
      obtain ⟨shape, rfl⟩ := Prod.mk.inj (Except.ok.inj done)
      rw [ws_led before value] at shape
      have length : (b ++ rest).length - rest.length = b.length := by
        rw [length_append]
        omega
      rw [length, take_left] at shape
      exact ⟨w ++ b, rfl, .mk before ⟨shape.symm, value⟩⟩
  complete {raw b r} led stops := by
    cases led with
    | @mk w b before span =>
      obtain ⟨rfl, value⟩ := span
      have skipped := (skipper_means.value_takes n).complete (.mk before value) stops
      unfold skipValue
      rw [skipped]
      show Except.ok ((ws (w ++ raw ++ r)).take _, r) = _
      rw [ws_led before value]
      have length : (raw ++ r).length - r.length = raw.length := by
        rw [length_append]
        omega
      rw [length, take_left]

theorem skippable_of_spells {names : List String → Prop}
    (spelled : Spells isAsciiWhitespace (reading formatFinite names) n v b) : Skippable n b := by
  have maps : (reading formatFinite names).Maps skipReading (fun t raw => Text t.toList raw) fun _ _ => True := by
    refine ⟨fun text => ⟨_, ⟨rfl, text.raw⟩, text⟩, trivial, fun _ => trivial, fun _ => trivial, fun _ => trivial,
      fun _ => trivial, fun _ _ => ⟨trivial, trivial⟩⟩
  obtain ⟨_, skipped, _⟩ := spelled.maps maps
  exact skipped

end

theorem hex4_length (digits : Hex4 h n) : h.length = 4 := by
  cases digits
  rfl

theorem RawText.behind (digits : Hex4 h n) (rest : RawText b) (escape : UnicodeEscape c e) (same : h ++ b = e ++ s) :
    RawText s := by
  cases escape with
  | unit first _ =>
    obtain ⟨_, rfl⟩ := append_inj same ((hex4_length digits).trans (hex4_length first).symm)
    exact rest
  | @pair h' l _ _ _ first _ second _ _ =>
    rw [append_assoc] at same
    obtain ⟨_, rfl⟩ := append_inj same ((hex4_length digits).trans (hex4_length first).symm)
    generalize shape : backslash :: 0x75 :: l ++ s = b at rest
    cases rest with
    | done => cases shape
    | plain plain _ =>
      cases shape
      exact absurd plain (by decide)
    | short letter _ =>
      cases shape
      exact absurd letter (by decide)
    | @unicode h b n inner rest =>
      have same : l ++ s = h ++ b := (List.cons.inj (List.cons.inj shape).2).2
      obtain ⟨_, rfl⟩ := append_inj same ((hex4_length second).trans (hex4_length inner).symm)
      exact rest

theorem pushSegment_nil (out : String) : pushSegment out [] = .ok out := by
  have whole := pushSegment_complete out ""
  rw [String.append_empty] at whole
  exact whole

theorem unescapeLoop_end (read : unescapeLoop fuel out run [] = .ok t) :
    segments (fuel + 1) out run [quote] = .ok (t, []) := by
  rw [unescapeLoop] at read
  have pushed : pushSegment out run = .ok t := by
    split at read
    · rename_i empty
      rw [empty, pushSegment_nil]
      exact read
    · exact read
  rw [segments.eq_def]
  dsimp only
  rw [if_pos rfl, pushed]
  rfl

theorem unescapeLoop_segments (text : RawText s) (read : unescapeLoop fuel out run s = .ok t) :
    segments (fuel + 1) out run (s ++ [quote]) = .ok (t, []) := by
  induction fuel generalizing out run s with
  | zero =>
    cases s with
    | nil => exact unescapeLoop_end read
    | cons x s => cases read
  | succ fuel ih =>
    cases text with
    | done => exact unescapeLoop_end read
    | @plain x s plain rest =>
      obtain ⟨notQuote, notBackslash, printable⟩ := Parser.plainByte_iff.mp plain
      rw [unescapeLoop.eq_def] at read
      dsimp only at read
      rw [if_neg notBackslash] at read
      rw [segments.eq_def]
      dsimp only [cons_append]
      rw [if_neg notQuote, if_neg notBackslash, if_neg (UInt8.not_lt.mpr printable)]
      exact ih rest read
    | @short e s letter rest =>
      obtain ⟨c, escape⟩ := letter_iff.mp letter
      have simple := Parser.simpleEscape_eq_some.mpr escape
      have other := Parser.short_other escape
      rw [unescapeLoop.eq_def] at read
      dsimp only at read
      rw [if_pos rfl] at read
      obtain ⟨pushed, joined, onward⟩ := Outcome.bind_eq_ok.mp read
      rw [if_neg other, simple] at onward
      rw [segments.eq_def]
      dsimp only [cons_append]
      rw [if_neg (by decide), if_pos rfl, joined]
      dsimp only [bind, Except.bind]
      rw [if_neg other, simple]
      exact ih rest onward
    | @unicode h s n digits rest =>
      rw [unescapeLoop.eq_def] at read
      dsimp only at read
      rw [if_pos rfl] at read
      obtain ⟨pushed, joined, onward⟩ := Outcome.bind_eq_ok.mp read
      rw [if_pos rfl] at onward
      obtain ⟨⟨c, s₁⟩, decoded, last⟩ := Outcome.bind_eq_ok.mp onward
      obtain ⟨e, same, escape⟩ := Parser.unicodeEscape_sound decoded
      rw [segments.eq_def]
      dsimp only [cons_append]
      rw [if_neg (by decide), if_pos rfl, joined]
      dsimp only [bind, Except.bind]
      rw [if_pos rfl, same, append_assoc, Parser.unicodeEscape_complete escape]
      exact ih (RawText.behind digits rest escape same) last

theorem unescapeLoop_plain (plain : Blank plainByte e) :
    unescapeLoop (fuel + e.length) out run (e ++ s) = unescapeLoop fuel out (run ++ e) s := by
  induction e generalizing run with
  | nil => rw [append_nil]; rfl
  | cons b e ih =>
    obtain ⟨_, notBackslash, _⟩ := Parser.plainByte_iff.mp (plain b mem_cons_self)
    have shape : fuel + (b :: e).length = fuel + e.length + 1 := rfl
    rw [shape, cons_append, unescapeLoop.eq_def]
    dsimp only
    rw [if_neg notBackslash, ih fun x mem => plain x (mem_cons_of_mem _ mem), append_assoc]
    rfl

theorem unescapeLoop_complete (text : Text cs b) (fuel : Nat) (out part : String) :
    unescapeLoop (fuel + b.length) out (asBytes part) b = .ok (out ++ part ++ ofList cs) := by
  induction text generalizing fuel out part with
  | done =>
    rw [unescapeLoop]
    split
    · rename_i empty
      have none : part = "" := asBytes_injective empty
      subst none
      simp
    · rw [Parser.pushSegment_complete]
      simp
  | @plain c cs b unescaped _ ih =>
    have shape : fuel + (utf8EncodeChar c ++ b).length = fuel + b.length + (utf8EncodeChar c).length := by
      rw [length_append]
      omega
    rw [shape, unescapeLoop_plain ((Parser.unescaped_iff c).mp unescaped), Parser.asBytes_push, ih]
    congr 1
    apply String.toList_inj.mp
    simp
  | @short e c cs b escape _ ih =>
    have shape : fuel + (backslash :: e :: b).length = fuel + 1 + b.length + 1 := by
      simp only [length_cons]
      omega
    rw [shape, unescapeLoop.eq_def]
    dsimp only
    rw [if_pos rfl, Parser.pushSegment_complete]
    dsimp only [bind, Except.bind]
    rw [if_neg (Parser.short_other escape), Parser.simpleEscape_eq_some.mpr escape, ← Parser.push_named]
    exact ih (fuel + 1) _ ""
  | @unicode e c cs b escape _ ih =>
    have shape : fuel + (backslash :: 0x75 :: (e ++ b)).length = fuel + 1 + e.length + b.length + 1 := by
      simp only [length_cons, length_append]
      omega
    rw [shape, unescapeLoop.eq_def]
    dsimp only
    rw [if_pos rfl, Parser.pushSegment_complete]
    dsimp only [bind, Except.bind]
    rw [if_pos rfl, Parser.unicodeEscape_complete escape, ← Parser.push_named]
    exact ih (fuel + 1 + e.length) _ ""

theorem unescapeRawString_iff (text : RawText raw) : unescapeRawString raw = .ok t ↔ Text t.toList raw := by
  constructor
  · intro read
    obtain ⟨cs, b, same, decoded, text⟩ := segments_sound .nil (unescapeLoop_segments text read)
    obtain ⟨rfl, _⟩ := append_inj' same rfl
    rw [decoded]
    exact text
  · intro text
    have whole := unescapeLoop_complete text 0 "" ""
    rw [Nat.zero_add] at whole
    exact whole.trans (by simp)

theorem RawText.unescaped (text : RawText raw) (none : backslash ∉ raw) : Blank plainByte raw := by
  induction text with
  | done => exact .nil
  | plain plain _ ih =>
    exact forall_mem_cons.mpr ⟨plain, ih fun mem => none (mem_cons_of_mem _ mem)⟩
  | short _ _ _ => exact absurd mem_cons_self none
  | unicode _ _ _ => exact absurd mem_cons_self none

theorem fromUtf8_text (text : RawText raw) (none : backslash ∉ raw) : fromUtf8 raw = some t ↔ Text t.toList raw := by
  rw [fromUtf8_eq_some]
  constructor
  · rintro rfl
    exact text_of_run t (RawText.unescaped text none)
  · intro text
    obtain ⟨part, ds, rest, same, rfl, _, _, ends⟩ := text_cut text
    rcases ends with ⟨rfl, rfl⟩ | ⟨more, rfl⟩
    · rw [append_nil] at same ⊢
      rw [String.toList_inj.mp same]
    · exact absurd (by simp) none

theorem decodeKey_iff (text : RawText raw) : decodeKey raw = .ok t ↔ Text t.toList raw := by
  unfold decodeKey
  split
  · rw [← unescapeRawString_iff text]
    cases unescapeRawString raw with
    | ok decoded => rfl
    | error _ => exact ⟨(nomatch ·), (nomatch ·)⟩
  · rename_i none
    rw [← fromUtf8_text text none]
    cases fromUtf8 raw with
    | some decoded => exact ⟨fun same => congrArg some (ok.inj same), fun same => congrArg ok (Option.some.inj same)⟩
    | none => exact ⟨(nomatch ·), (nomatch ·)⟩

end Tokenizer

namespace Tokenizer

def MemberSpan.pair (member : MemberSpan) : String × Bytes := (member.key, member.rawValue)

inductive LooseMember : MemberSpan → Bytes → Prop
  | mk {name : String} {type : ValueType} {raw w key w' b : Bytes} {opening : UInt8}
    (before : Blank isAsciiWhitespace w) (solid : isAsciiWhitespace opening = false) (text : Text name.toList key)
    (behind : Blank isAsciiWhitespace w') (value : Led isAsciiWhitespace (Span maxDepth) raw b)
    (starts : raw.head? >>= valueType = some type) :
    LooseMember ⟨name, raw, type⟩ (w ++ opening :: (key ++ quote :: (w' ++ colon :: b)))

def LooseContents (members : List MemberSpan) (b : Bytes) : Prop :=
  Contents isAsciiWhitespace LooseMember members b ∧ (members ≠ [] → (ws b).head? ≠ some closeBrace)

theorem LooseMember.before (blanks : Blank isAsciiWhitespace w) (spelled : LooseMember mem b) :
    LooseMember mem (w ++ b) := by
  cases spelled with
  | mk inner solid text behind value starts =>
    rw [← append_assoc]
    exact .mk (blanks.append inner) solid text behind value starts

theorem LooseMember.start (spelled : LooseMember mem b) :
    ∃ w x rest, b = w ++ x :: rest ∧ Blank isAsciiWhitespace w ∧ isAsciiWhitespace x = false ∧
      LooseMember mem (x :: rest) := by
  cases spelled with
  | mk before solid text behind value starts =>
    exact ⟨_, _, _, rfl, before, solid, .mk .nil solid text behind value starts⟩

theorem LooseMember.ne_nil (spelled : LooseMember mem b) : b ≠ [] := by
  cases spelled
  simp

theorem valueType_of_start (starts : startByte b = true) : ∃ type, valueType b = some type := by
  unfold valueType
  split
  · exact ⟨_, rfl⟩
  split
  · exact ⟨_, rfl⟩
  split
  · exact ⟨_, rfl⟩
  split
  · exact ⟨_, rfl⟩
  split
  · exact ⟨_, rfl⟩
  split
  · exact ⟨_, rfl⟩
  · simp_all [startByte]

theorem Skippable.starts (skipped : Skippable n raw) : ∃ type, raw.head? >>= valueType = some type := by
  obtain ⟨x, rest, rfl, first⟩ := Spells.head skipped
  exact valueType_of_start first

inductive RawMember : Bytes × ValueType × Bytes → Bytes → Prop
  | mk {type : ValueType} {raw w key w' b : Bytes} {opening : UInt8}
    (before : Blank isAsciiWhitespace w) (solid : isAsciiWhitespace opening = false) (text : RawText key)
    (behind : Blank isAsciiWhitespace w') (value : Led isAsciiWhitespace (Span maxDepth) raw b)
    (starts : raw.head? >>= valueType = some type) :
    RawMember (key, type, raw) (w ++ opening :: (key ++ quote :: (w' ++ colon :: b)))

section

variable {κ : Type}

theorem walkMember_reads : Reads (walkMember visit) RawMember (fun k m => visit k m.1 m.2.1 m.2.2)
    (Stops numberByte) where
  sound {k k' s r} read := by
    obtain ⟨w, shape, blanks⟩ := dropWhile_split isAsciiWhitespace s
    have solid := dropWhile_stops isAsciiWhitespace s
    unfold walkMember ws at read
    obtain ⟨⟨key, s₁⟩, named, onward⟩ := bind_eq_ok.mp read
    obtain ⟨parts, text⟩ := stringRaw_sound named
    obtain ⟨w', shape', blanks'⟩ := dropWhile_split isAsciiWhitespace s₁
    cases left : s.dropWhile isAsciiWhitespace with
    | nil =>
      rw [left] at parts
      cases key <;> cases parts
    | cons opening rest =>
      rw [left] at parts shape solid
      cases parts
      dsimp only at onward
      split at onward
      · cases onward
      · rename_i b' rest' left'
        rw [left'] at shape'
        split at onward
        · cases onward
        · rename_i marks
          split at onward
          · cases onward
          · rename_i type starts
            obtain ⟨⟨raw, s₂⟩, valued, last⟩ := bind_eq_ok.mp onward
            obtain ⟨b₂, rfl, led⟩ := (skipValue_takes maxDepth).sound valued
            obtain ⟨k₁, visited, done⟩ := bind_eq_ok.mp last
            cases done
            obtain rfl := not_not.mp marks
            cases led with
            | @mk w₂ b before span =>
              have first : raw.head? >>= valueType = some type := by
                obtain ⟨rfl, skipped⟩ := span
                change (ws (w₂ ++ raw ++ _)).head? >>= valueType = some type at starts
                rw [ws_led before skipped] at starts
                obtain ⟨x, more, rfl, _⟩ := Spells.head skipped
                exact starts
              refine ⟨(key, type, raw), w ++ opening :: (key ++ quote :: (w' ++ colon :: (w₂ ++ b))), ?_,
                .mk blanks (solid opening rfl) text blanks' (.mk before span) first, visited⟩
              rw [shape, shape']
              simp
  complete {k k' m b r} spelled stepped stops := by
    cases spelled with
    | @mk type raw w key w' b opening before solid text behind led starts =>
      have valued := (skipValue_takes maxDepth).complete led stops
      have shape : w ++ opening :: (key ++ quote :: (w' ++ colon :: b)) ++ r =
          w ++ opening :: (key ++ quote :: (w' ++ colon :: (b ++ r))) := by simp
      unfold walkMember ws
      rw [shape, before.dropWhile_cons solid, tail_cons, stringRaw_complete text]
      dsimp only [bind, Except.bind]
      rw [behind.dropWhile_cons (by decide)]
      dsimp only
      rw [if_neg (by simp)]
      have first : (ws (b ++ r)).head? >>= valueType = some type := by
        cases led with
        | mk before span =>
          obtain ⟨rfl, skipped⟩ := span
          rw [ws_led before skipped]
          obtain ⟨x, more, rfl, _⟩ := Spells.head skipped
          exact starts
      change ((b ++ r).dropWhile isAsciiWhitespace).head?.bind valueType = some type at first
      rw [first]
      rw [valued]
      dsimp only
      rw [stepped]

end

def pushMember (members : List MemberSpan) (key : Bytes) (type : ValueType) (raw : Bytes) :
    Except Error (List MemberSpan) := do
  let key ← decodeKey key
  .ok (members ++ [⟨key, raw, type⟩])

theorem objectMembers_eq (s : Bytes) : objectMembers s = walkRawObjectMembers pushMember [] s := rfl

theorem pushMember_reads : Reads (walkMember pushMember) LooseMember (fun members m => .ok (members ++ [m]))
    (Stops numberByte) := by
  apply walkMember_reads.congr
  · intro m b k k' spelled pushed
    cases spelled with
    | @mk type raw w key w' b opening before solid text behind value starts =>
      obtain ⟨name, decoded, done⟩ := bind_eq_ok.mp pushed
      exact ⟨⟨name, raw, type⟩, .mk before solid ((decodeKey_iff text).mp decoded) behind value starts, done⟩
  · intro m b k k' spelled pushed
    cases spelled with
    | @mk name type raw w key w' b opening before solid text behind value starts =>
      refine ⟨(key, type, raw), .mk before solid text.raw behind value starts, ?_⟩
      unfold pushMember
      rw [(decodeKey_iff text.raw).mpr text]
      exact pushed

theorem objectMembers_sound (read : objectMembers s = .ok (members, r)) :
    ∃ w body, s = w ++ openBrace :: (body ++ closeBrace :: r) ∧ Blank isAsciiWhitespace w ∧
      LooseContents members body := by
  obtain ⟨w, shape, blanks⟩ := dropWhile_split isAsciiWhitespace s
  rw [objectMembers_eq] at read
  unfold walkRawObjectMembers ws at read
  split at read
  · cases read
  · rename_i b s₁ left
    rw [left] at shape
    split at read
    · cases read
    · rename_i opens
      obtain rfl := not_not.mp opens
      obtain ⟨w', shape', blanks'⟩ := dropWhile_split isAsciiWhitespace s₁
      split at read
      · cases read
      · rename_i x rest left'
        rw [left'] at shape'
        split at read
        · rename_i closes
          cases read
          subst closes
          exact ⟨w, w', by rw [shape, shape'], blanks, .none blanks', (absurd rfl ·)⟩
        · rename_i closes
          obtain ⟨read, body, parts, list, folded⟩ := pushMember_reads.separated_sound read
          rw [foldlM_collect] at folded
          obtain rfl := ok.inj folded
          refine ⟨w, w' ++ body, ?_, blanks, .some (list.before fun _ _ led => led.before blanks'), fun _ => ?_⟩
          · rw [shape, shape', parts]
            simp
          · have solid := dropWhile_stops isAsciiWhitespace s₁ x (by rw [left']; rfl)
            cases body with
            | nil =>
              obtain ⟨rfl, _⟩ := cons.inj parts
              exact absurd rfl closes
            | cons y body =>
              obtain ⟨rfl, _⟩ := cons.inj parts
              unfold ws
              rw [blanks'.dropWhile_cons solid]
              exact fun same => closes (Option.some.inj same)

theorem objectMembers_complete (blanks : Blank isAsciiWhitespace w) (contents : LooseContents members body)
    (r : Bytes) : objectMembers (w ++ openBrace :: (body ++ closeBrace :: r)) = .ok (members, r) := by
  obtain ⟨contents, open_⟩ := contents
  rw [objectMembers_eq]
  unfold walkRawObjectMembers ws
  rw [blanks.dropWhile_cons (by decide)]
  dsimp only
  rw [if_neg (by simp)]
  cases contents with
  | none blanks' =>
    rw [blanks'.dropWhile_cons (by decide)]
    exact if_pos rfl
  | some list =>
    obtain ⟨w', x, rest, rfl, blanks', solid, list⟩ := list.trim fun _ _ spelled => spelled.start
    have length := list.length_le fun _ _ spelled => spelled.ne_nil
    have some_ : members ≠ [] := by
      rintro rfl
      cases list
    have closes : x ≠ closeBrace := by
      rintro rfl
      apply open_ some_
      unfold ws
      rw [blanks'.dropWhile_cons solid]
      rfl
    have allowance : members.length ≤ (w' ++ x :: rest ++ closeBrace :: r).length := by
      simp at length ⊢
      omega
    have read := pushMember_reads.separated_complete .invalidToken (by decide) (by decide) (by decide)
      (separates_stop closeBrace (.inr rfl)) list (foldlM_collect _ []) allowance r
    rw [append_assoc, cons_append, blanks'.dropWhile_cons solid] at *
    dsimp only
    rw [if_neg closes]
    exact read

end Tokenizer

end Rezzy.Json
