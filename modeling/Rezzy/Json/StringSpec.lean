import Rezzy.Json.NumberSpec

namespace Rezzy.Json.Parser

open Scan List UInt8 Outcome Char
open String (ofList utf8EncodeChar)

section

theorem encode_cases (c : Char) : c.toNat ≤ 0x7f ∧ utf8EncodeChar c = [UInt8.ofNat c.toNat] ∨
    0x7f < c.toNat ∧ ∀ b ∈ utf8EncodeChar c, 0x80 ≤ b := by
  have high : ∀ n, 0x80 ≤ n → n < 0x100 → (0x80 : UInt8) ≤ UInt8.ofNat n := by
    intro n low bound
    rw [le_iff_toNat_le, toNat_ofNat_of_lt' (by simpa using bound)]
    exact low
  by_cases ascii : c.toNat ≤ 0x7f
  · left
    refine ⟨ascii, ?_⟩
    exact if_pos ascii
  · right
    refine ⟨by omega, fun b mem => ?_⟩
    unfold utf8EncodeChar at mem
    simp only [show ¬ c.val.toNat ≤ 0x7f from ascii, if_false] at mem
    split at mem
    · simp only [mem_cons, not_mem_nil, or_false] at mem
      rcases mem with rfl | rfl <;> exact high _ (by omega) (by omega)
    · split at mem
      · simp only [mem_cons, not_mem_nil, or_false] at mem
        rcases mem with rfl | rfl | rfl <;> exact high _ (by omega) (by omega)
      · simp only [mem_cons, not_mem_nil, or_false] at mem
        rcases mem with rfl | rfl | rfl | rfl <;> exact high _ (by omega) (by omega)

theorem charFromU32_eq_some : charFromU32 n = some c ↔ c.toNat = n := by
  unfold charFromU32
  constructor
  · intro given
    split at given
    · rename_i valid
      cases given
      unfold Char.ofNat
      rw [dif_pos valid]
      rfl
    · cases given
  · rintro rfl
    rw [if_pos (show c.toNat.isValidChar from c.valid), ofNat_toNat]

theorem asciiString (ascii : ∀ x ∈ b, x.toNat < 0x80) : ∃ s, asBytes s = b := by
  refine ⟨ofList (b.map fun x => Char.ofNat x.toNat), ?_⟩
  rw [asBytes_eq_flatMap, String.toList_ofList]
  induction b with
  | nil => rfl
  | cons x b ih =>
    have low := ascii x mem_cons_self
    have valid : x.toNat.isValidChar := .inl (Nat.lt_trans low (by decide))
    have value : (Char.ofNat x.toNat).toNat = x.toNat := charFromU32_eq_some.mp (if_pos valid)
    have one : utf8EncodeChar (Char.ofNat x.toNat) = [x] := by
      rcases encode_cases (Char.ofNat x.toNat) with ⟨_, encoded⟩ | ⟨wide, _⟩
      · rw [encoded, value, UInt8.ofNat_toNat]
      · omega
    rw [map_cons, flatMap_cons, one, ih fun y mem => ascii y (mem_cons_of_mem _ mem)]
    rfl

theorem plainByte_iff : plainByte b = true ↔ b ≠ quote ∧ b ≠ backslash ∧ 0x20 ≤ b := by
  simp [plainByte, and_assoc]

theorem plainByte_of_high (high : 0x80 ≤ b) : plainByte b = true := by
  rw [plainByte_iff]
  refine ⟨?_, ?_, UInt8.le_trans (by decide) high⟩
  · rintro rfl
    exact absurd high (by decide)
  · rintro rfl
    exact absurd high (by decide)

theorem unescaped_iff (c : Char) : Unescaped c ↔ Blank plainByte (utf8EncodeChar c) := by
  have named : ∀ d : Char, c ≠ d ↔ c.toNat ≠ d.toNat := fun d => not_congr toNat_inj.symm
  unfold Unescaped
  rw [named, named]
  rcases encode_cases c with ⟨ascii, encoded⟩ | ⟨wide, bytes⟩
  · have value : (UInt8.ofNat c.toNat).toNat = c.toNat := toNat_ofNat_of_lt' (by
      show c.toNat < 256
      omega)
    have one : Blank plainByte [UInt8.ofNat c.toNat] ↔ plainByte (UInt8.ofNat c.toNat) = true := by
      simp [Blank]
    have other : ∀ b : UInt8, UInt8.ofNat c.toNat ≠ b ↔ c.toNat ≠ b.toNat := by
      intro b
      rw [ne_eq, ← UInt8.toNat_inj, value]
    rw [encoded, one, plainByte_iff, le_iff_toNat_le, other, other, value]
    show _ ∧ c.toNat ≠ 0x22 ∧ c.toNat ≠ 0x5c ↔ c.toNat ≠ 0x22 ∧ c.toNat ≠ 0x5c ∧ 0x20 ≤ c.toNat
    omega
  · have plain : Blank plainByte (utf8EncodeChar c) := fun b mem => plainByte_of_high (bytes b mem)
    refine iff_of_true ?_ plain
    show _ ∧ c.toNat ≠ 0x22 ∧ c.toNat ≠ 0x5c
    omega

theorem hexDigits_succ (read : hexDigits (rounds + 1) n s = .ok (m, r)) :
    ∃ b digit rest, s = b :: rest ∧ toDigit16 b = some digit ∧ hexDigits rounds (n * 16 + digit) rest = .ok (m, r) := by
  cases s with
  | nil => cases read
  | cons b rest =>
    simp only [hexDigits] at read
    split at read
    · rename_i digit shown
      exact ⟨b, digit, rest, rfl, shown, read⟩
    · cases read

theorem hex4_sound (read : hex4 s = .ok (n, r)) : ∃ h, s = h ++ r ∧ Hex4 h n := by
  obtain ⟨a, i, s₁, rfl, first, read⟩ := hexDigits_succ read
  obtain ⟨b, j, s₂, rfl, second, read⟩ := hexDigits_succ read
  obtain ⟨c, k, s₃, rfl, third, read⟩ := hexDigits_succ read
  obtain ⟨d, l, s₄, rfl, fourth, read⟩ := hexDigits_succ read
  cases read
  rw [Nat.zero_mul, Nat.zero_add]
  exact ⟨[a, b, c, d], rfl, .mk first second third fourth⟩

theorem hex4_complete (digits : Hex4 h n) (r : Bytes) : hex4 (h ++ r) = .ok (n, r) := by
  cases digits with
  | mk first second third fourth => simp [hex4, hexDigits, first, second, third, fourth]

theorem simpleEscape_eq_some : simpleEscape e = some c ↔ (e, c) ∈ shortEscapes := by
  unfold simpleEscape shortEscapes
  simp only [mem_cons, Prod.mk.injEq, not_mem_nil, or_false]
  constructor
  · intro given
    repeat' split at given
    all_goals cases given
    all_goals simp_all
  · rintro (⟨rfl, rfl⟩ | ⟨rfl, rfl⟩ | ⟨rfl, rfl⟩ | ⟨rfl, rfl⟩ | ⟨rfl, rfl⟩ | ⟨rfl, rfl⟩ | ⟨rfl, rfl⟩ | ⟨rfl, rfl⟩) <;>
      rfl

theorem scalarFrom_sound (read : scalarFrom high s = .ok (n, r)) :
    s = r ∧ n = high ∨ (0xd800 ≤ high ∧ high ≤ 0xdbff) ∧ ∃ l low, s = backslash :: 0x75 :: (l ++ r) ∧ Hex4 l low ∧
      (0xdc00 ≤ low ∧ low ≤ 0xdfff) ∧ n = pairScalar high low := by
  unfold scalarFrom at read
  split at read
  · rename_i leads
    split at read
    · rename_i marked
      obtain ⟨⟨low, rest⟩, second, last⟩ := bind_eq_ok.mp read
      obtain ⟨l, split_, digits⟩ := hex4_sound second
      dsimp only at last
      split at last
      · rename_i trails
        obtain ⟨rfl, rfl⟩ := Prod.mk.inj (Except.ok.inj last)
        refine .inr ⟨leads, l, low, ?_, digits, trails, rfl⟩
        rw [← take_append_drop 2 s, marked, split_]
        rfl
      · cases last
    · cases read
  · cases read
    exact .inl ⟨rfl, rfl⟩

theorem scalarFrom_unit (single : ¬ (0xd800 ≤ n ∧ n ≤ 0xdbff)) (r : Bytes) :
    scalarFrom n r = .ok (n, r) := if_neg single

theorem scalarFrom_pair (leads : 0xd800 ≤ high ∧ high ≤ 0xdbff) (digits : Hex4 l low)
    (trails : 0xdc00 ≤ low ∧ low ≤ 0xdfff) (combined : n = pairScalar high low) (r : Bytes) :
    scalarFrom high (backslash :: 0x75 :: (l ++ r)) = .ok (n, r) := by
  unfold scalarFrom
  rw [if_pos leads, if_pos (show take 2 (backslash :: 0x75 :: (l ++ r)) = [backslash, 0x75] from rfl)]
  show (hex4 (l ++ r) >>= _) = _
  rw [hex4_complete digits, combined]
  exact if_pos trails

theorem unicodeEscape_sound (read : unicodeEscape s = .ok (c, r)) : ∃ e, s = e ++ r ∧ UnicodeEscape c e := by
  obtain ⟨⟨high, s₁⟩, first, onward⟩ := bind_eq_ok.mp read
  obtain ⟨h, rfl, highDigits⟩ := hex4_sound first
  obtain ⟨⟨n, s₂⟩, second, last⟩ := bind_eq_ok.mp onward
  dsimp only at last
  split at last
  · rename_i c' made
    cases last
    have scalar : c.toNat = n := charFromU32_eq_some.mp made
    rcases scalarFrom_sound second with ⟨rfl, rfl⟩ | ⟨leads, l, low, rfl, lowDigits, trails, combined⟩
    · exact ⟨h, rfl, .unit highDigits scalar⟩
    · exact ⟨h ++ backslash :: 0x75 :: l, by simp, .pair highDigits leads lowDigits trails (scalar.trans combined)⟩
  · cases last

theorem unicodeEscape_complete (escape : UnicodeEscape c e) (r : Bytes) : unicodeEscape (e ++ r) = .ok (c, r) := by
  unfold unicodeEscape
  cases escape with
  | unit digits scalar =>
    have single : ¬ (0xd800 ≤ c.toNat ∧ c.toNat ≤ 0xdbff) := by
      rcases c.valid with low | high
      · have : c.toNat < 0xd800 := low
        omega
      · have : 0xdfff < c.toNat := high.1
        omega
    subst scalar
    rw [hex4_complete digits]
    show (scalarFrom c.toNat r >>= _) = _
    rw [scalarFrom_unit single]
    dsimp only [bind, Except.bind]
    rw [charFromU32_eq_some.mpr rfl]
  | @pair h l high low _ first leads second trails scalar =>
    rw [append_assoc, cons_append, cons_append, hex4_complete first]
    show (scalarFrom high (backslash :: 0x75 :: (l ++ r)) >>= _) = _
    rw [scalarFrom_pair leads second trails scalar]
    dsimp only [bind, Except.bind]
    rw [charFromU32_eq_some.mpr rfl]

end

theorem pushSegment_sound (pushed : pushSegment out run = .ok t) : ∃ part, asBytes part = run ∧ t = out ++ part := by
  unfold pushSegment at pushed
  split at pushed
  · rename_i part decoded
    exact ⟨part, fromUtf8_eq_some.mp decoded, (Except.ok.inj pushed).symm⟩
  · cases pushed

theorem pushSegment_complete (out part : String) : pushSegment out (asBytes part) = .ok (out ++ part) := by
  unfold pushSegment
  rw [fromUtf8_eq_some.mpr rfl]

theorem text_of_run (part : String) (plain : Blank plainByte (asBytes part)) : Text part.toList (asBytes part) := by
  rw [asBytes_eq_flatMap] at plain ⊢
  generalize part.toList = cs at plain ⊢
  induction cs with
  | nil => exact .done
  | cons c cs ih =>
    rw [flatMap_cons] at plain ⊢
    have first : Unescaped c := (unescaped_iff c).mpr fun x mem => plain x (mem_append_left _ mem)
    exact .plain first (ih fun x mem => plain x (mem_append_right _ mem))

theorem segments_sound (plain : Blank plainByte run) (read : segments fuel out run s = .ok (t, r)) :
    ∃ cs b, s = b ++ quote :: r ∧ t.toList = out.toList ++ cs ∧ Text cs (run ++ b) := by
  induction fuel generalizing out run s with
  | zero => cases s <;> cases read
  | succ fuel ih =>
    cases s with
    | nil => cases read
    | cons b s =>
      simp only [segments] at read
      split at read
      · rename_i closes
        obtain ⟨t', pushed, done⟩ := Outcome.bind_eq_ok.mp read
        obtain ⟨part, rfl, rfl⟩ := pushSegment_sound pushed
        cases done
        refine ⟨part.toList, [], by rw [closes]; rfl, String.toList_append, ?_⟩
        rw [append_nil]
        exact text_of_run part plain
      · split at read
        · rename_i escapes
          obtain ⟨t', pushed, onward⟩ := Outcome.bind_eq_ok.mp read
          obtain ⟨part, rfl, rfl⟩ := pushSegment_sound pushed
          have before := text_of_run part plain
          subst escapes
          split at onward
          · cases onward
          · rename_i escaped s
            split at onward
            · rename_i unicode
              obtain ⟨⟨c, s₁⟩, first, last⟩ := Outcome.bind_eq_ok.mp onward
              obtain ⟨e, rfl, escape⟩ := unicodeEscape_sound first
              obtain ⟨cs, b, rfl, decoded, text⟩ := ih .nil last
              refine ⟨part.toList ++ c :: cs, backslash :: 0x75 :: (e ++ b), ?_, ?_, before.append (.unicode escape text)⟩
              · simp [unicode]
              · simp [decoded]
            · split at onward
              · rename_i c escape
                obtain ⟨cs, b, rfl, decoded, text⟩ := ih .nil onward
                refine ⟨part.toList ++ c :: cs, backslash :: escaped :: b, by simp, ?_, before.append (.short ?_ text)⟩
                · simp [decoded]
                · exact simpleEscape_eq_some.mp escape
              · cases onward
        · split at read
          · cases read
          · rename_i notQuote notBackslash notControl
            have next : plainByte b = true := plainByte_iff.mpr ⟨notQuote, notBackslash, UInt8.not_lt.mp notControl⟩
            obtain ⟨cs, b', rfl, decoded, text⟩ := ih (plain.append (fun x mem => by
              rw [mem_singleton.mp mem]
              exact next)) read
            refine ⟨cs, b :: b', rfl, decoded, ?_⟩
            rw [append_assoc] at text
            exact text

theorem segments_plain (plain : Blank plainByte e) :
    segments (fuel + e.length) out run (e ++ s) = segments fuel out (run ++ e) s := by
  induction e generalizing run with
  | nil => rw [append_nil]; rfl
  | cons b e ih =>
    obtain ⟨notQuote, notBackslash, printable⟩ := plainByte_iff.mp (plain b mem_cons_self)
    rw [length_cons, ← Nat.add_assoc, cons_append, segments, if_neg notQuote, if_neg notBackslash,
      if_neg (UInt8.not_lt.mpr printable), ih fun x mem => plain x (mem_cons_of_mem _ mem),
      append_assoc]
    rfl

theorem push_named (text : String) (c : Char) (cs : List Char) :
    text.push c ++ "" ++ ofList cs = text ++ ofList (c :: cs) := by
  apply String.toList_inj.mp
  simp

theorem asBytes_push (part : String) (c : Char) : asBytes part ++ utf8EncodeChar c = asBytes (part ++ ofList [c]) := by
  rw [asBytes_append, asBytes_eq_flatMap (ofList [c])]
  simp

theorem short_other (escape : (e, c) ∈ shortEscapes) : e ≠ 0x75 := by
  rintro rfl
  exact absurd (simpleEscape_eq_some.mpr escape) (by simp [simpleEscape])

theorem segments_complete (text : Text cs b) (fuel : Nat) (out part : String) (r : Bytes) :
    segments (fuel + b.length + 1) out (asBytes part) (b ++ quote :: r) = .ok (out ++ part ++ ofList cs, r) := by
  induction text generalizing fuel out part with
  | done =>
    rw [nil_append, segments, if_pos rfl, pushSegment_complete]
    simp [bind, Except.bind]
  | @plain c cs b unescaped _ ih =>
    have shape : fuel + (utf8EncodeChar c ++ b).length + 1 = fuel + b.length + 1 + (utf8EncodeChar c).length := by
      rw [length_append]
      omega
    rw [shape, append_assoc, segments_plain ((unescaped_iff c).mp unescaped), asBytes_push, ih]
    congr 2
    apply String.toList_inj.mp
    simp
  | @short e c cs b escape _ ih =>
    have shape : fuel + (backslash :: e :: b).length + 1 = fuel + 1 + b.length + 1 + 1 := by
      simp only [length_cons]
      omega
    rw [shape, cons_append, cons_append, segments, if_neg (by decide), if_pos rfl, pushSegment_complete]
    simp only [bind, Except.bind, if_neg (short_other escape), simpleEscape_eq_some.mpr escape]
    rw [← push_named]
    exact ih (fuel + 1) _ ""
  | @unicode e c cs b escape _ ih =>
    have shape : fuel + (backslash :: 0x75 :: (e ++ b)).length + 1 = fuel + 1 + e.length + b.length + 1 + 1 := by
      simp only [length_cons, length_append]
      omega
    rw [shape, cons_append, cons_append, segments, if_neg (by decide), if_pos rfl, pushSegment_complete, append_assoc]
    simp only [bind, Except.bind, if_true, unicodeEscape_complete escape]
    rw [← push_named]
    exact ih (fuel + 1 + e.length) _ ""

theorem text_cut (text : Text cs b) : ∃ (part : String) (ds : List Char) (rest : Bytes),
    cs = part.toList ++ ds ∧ b = asBytes part ++ rest ∧ Blank plainByte (asBytes part) ∧ Text ds rest ∧
      (rest = [] ∧ ds = [] ∨ ∃ more, rest = backslash :: more) := by
  induction text with
  | done => exact ⟨"", [], [], rfl, rfl, .nil, .done, .inl ⟨rfl, rfl⟩⟩
  | @plain c cs b unescaped _ ih =>
    obtain ⟨part, ds, rest, rfl, rfl, plain, text, ends⟩ := ih
    have encoded : asBytes (ofList [c] ++ part) = utf8EncodeChar c ++ asBytes part := by
      rw [asBytes_append, asBytes_eq_flatMap (ofList [c])]
      simp
    refine ⟨ofList [c] ++ part, ds, rest, by simp, ?_, ?_, text, ends⟩
    · rw [encoded, append_assoc]
    · rw [encoded]
      exact ((unescaped_iff c).mp unescaped).append plain
  | short escape rest _ => exact ⟨"", _, _, rfl, rfl, .nil, .short escape rest, .inr ⟨_, rfl⟩⟩
  | unicode escape rest _ => exact ⟨"", _, _, rfl, rfl, .nil, .unicode escape rest, .inr ⟨_, rfl⟩⟩

theorem string_sound (read : string s = .ok (t, r)) : ∃ b, s = b ++ quote :: r ∧ Text t.toList b := by
  unfold string at read
  have split_ := takeWhile_append_dropWhile (p := plainByte) (l := s)
  split at read
  · cases read
  · rename_i b rest left
    obtain ⟨text, pushed, onward⟩ := bind_eq_ok.mp read
    obtain ⟨part, run, rfl⟩ := pushSegment_sound pushed
    have plain : Blank plainByte (asBytes part) := run ▸ blank_takeWhile plainByte s
    rw [left, ← run] at split_
    have whole : ("" ++ part).toList = part.toList := by simp
    split at onward
    · rename_i closes
      cases onward
      rw [whole]
      exact ⟨asBytes part, by rw [← split_, closes], text_of_run part plain⟩
    · obtain ⟨cs, b', rest', decoded, text⟩ := segments_sound .nil onward
      rw [whole] at decoded
      rw [decoded, ← split_, rest']
      exact ⟨asBytes part ++ b', by simp, (text_of_run part plain).append text⟩

theorem string_complete (text : Text cs b) (r : Bytes) : string (b ++ quote :: r) = .ok (ofList cs, r) := by
  obtain ⟨part, ds, rest, rfl, rfl, plain, onward, ends⟩ := text_cut text
  unfold string
  have solid : Stops plainByte (rest ++ quote :: r) := by
    rcases ends with ⟨rfl, _⟩ | ⟨more, rfl⟩
    · exact .cons (by decide)
    · exact .cons (by decide)
  rw [append_assoc, plain.takeWhile solid, plain.dropWhile_run solid]
  dsimp only
  have decoded : ofList (part.toList ++ ds) = "" ++ part ++ "" ++ ofList ds := by
    apply String.toList_inj.mp
    simp
  rcases ends with ⟨rfl, rfl⟩ | ⟨more, rfl⟩
  · rw [nil_append]
    rw [pushSegment_complete, decoded]
    simp [bind, Except.bind]
  · have slow := segments_complete onward ((asBytes part).length + r.length) ("" ++ part) "" r
    have shape : (asBytes part ++ (backslash :: more ++ quote :: r)).length =
        (asBytes part).length + r.length + (backslash :: more).length + 1 := by
      simp only [length_append, length_cons]
      omega
    rw [shape, decoded, cons_append]
    rw [pushSegment_complete]
    exact slow

end Rezzy.Json.Parser
