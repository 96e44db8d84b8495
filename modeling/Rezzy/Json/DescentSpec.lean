import Rezzy.Json.NumberSpec

namespace Rezzy.Json

open Scan List Outcome Except
open Json.Parser (numberByte)

def startByte (b : UInt8) : Bool :=
  b = 0x6e || b = 0x74 || b = 0x66 || b = quote || b = openBracket || b = openBrace || b = 0x2d || isAsciiDigit b

theorem startByte_solid (starts : startByte b = true) :
    isAsciiWhitespace b = false ∧ b ≠ closeBracket ∧ b ≠ closeBrace := by
  simp only [startByte, Bool.or_eq_true, decide_eq_true_iff] at starts
  rcases starts with ((((((rfl | rfl) | rfl) | rfl) | rfl) | rfl) | rfl) | digit
  · decide
  · decide
  · decide
  · decide
  · decide
  · decide
  · decide
  · refine ⟨?_, ?_, ?_⟩
    · apply Bool.eq_false_iff.mpr
      intro blank
      simp only [isAsciiWhitespace, Bool.or_eq_true, decide_eq_true_iff] at blank
      rcases blank with (((rfl | rfl) | rfl) | rfl) | rfl <;> exact absurd digit (by decide)
    · rintro rfl
      exact absurd digit (by decide)
    · rintro rfl
      exact absurd digit (by decide)

theorem blank_not_numberByte (blank : isAsciiWhitespace x = true) : numberByte x = false := by
  simp only [isAsciiWhitespace, Bool.or_eq_true, decide_eq_true_iff] at blank
  rcases blank with (((rfl | rfl) | rfl) | rfl) | rfl <;> decide

theorem separates_stop (close : UInt8) (bracket : close = closeBracket ∨ close = closeBrace) (w : Bytes) (x : UInt8)
    (r : Bytes) (blanks : Blank isAsciiWhitespace w) (mark : x = comma ∨ x = close) :
    Stops numberByte (w ++ x :: r) := by
  cases w with
  | nil =>
    apply Stops.cons
    rcases mark with rfl | rfl
    · decide
    · rcases bracket with rfl | rfl <;> decide
  | cons y w => exact .cons (blank_not_numberByte (blanks y mem_cons_self))

theorem word_sound (read : word expected s = .ok r) : s = expected ++ r := by
  unfold word at read
  split at read
  · rename_i same
    cases read
    calc s = s.take expected.length ++ s.drop expected.length := (take_append_drop _ _).symm
      _ = expected ++ s.drop expected.length := by rw [same]
  · cases read

theorem word_complete (expected r : Bytes) : word expected (expected ++ r) = .ok r := by
  unfold word
  rw [take_left, if_pos rfl, drop_left]

theorem ws_solid (solid : isAsciiWhitespace b = false) (s : Bytes) : ws (b :: s) = b :: s :=
  dropWhile_cons_of_neg (by simp [solid])

theorem number_not_mark (first : b = 0x2d ∨ isAsciiDigit b = true) :
    b ≠ 0x6e ∧ b ≠ 0x74 ∧ b ≠ 0x66 ∧ b ≠ quote ∧ b ≠ openBracket ∧ b ≠ openBrace := by
  rcases first with rfl | digit
  · decide
  · refine ⟨?_, ?_, ?_, ?_, ?_, ?_⟩ <;> rintro rfl <;> exact absurd digit (by decide)

theorem startByte_of_number (first : b = 0x2d ∨ isAsciiDigit b = true) : startByte b = true := by
  rcases first with rfl | digit
  · rfl
  · simp [startByte, digit]

section

variable {τ V : Type}

theorem Leaf.head (leaf : Leaf R v b) : ∃ x rest, b = x :: rest ∧ startByte x = true := by
  cases leaf with
  | null => exact ⟨_, _, rfl, rfl⟩
  | yes => exact ⟨_, _, rfl, rfl⟩
  | no => exact ⟨_, _, rfl, rfl⟩
  | number spelled =>
    obtain ⟨x, rest, shape, first⟩ := spelled.head
    exact ⟨x, rest, shape, startByte_of_number first⟩
  | string text => exact ⟨_, _, rfl, rfl⟩

theorem Spells.head (spelled : Spells blank R n v b) : ∃ x rest, b = x :: rest ∧ startByte x = true := by
  cases n with
  | zero => exact Leaf.head spelled
  | succ n =>
    rcases spelled with leaf | container
    · exact leaf.head
    · cases container with
      | array _ => exact ⟨_, _, rfl, rfl⟩
      | object _ _ => exact ⟨_, _, rfl, rfl⟩

theorem Led.start (led : Led isAsciiWhitespace (Spells blank R n) v b) : ∃ w x rest, b = w ++ x :: rest ∧
    Blank isAsciiWhitespace w ∧ startByte x = true ∧ Led isAsciiWhitespace (Spells blank R n) v (x :: rest) := by
  cases led with
  | mk before item =>
    obtain ⟨x, rest, rfl, first⟩ := item.head
    exact ⟨_, x, rest, rfl, before, first, .mk (w := []) .nil item⟩

theorem Led.ne_nil (led : Led isAsciiWhitespace (Spells blank R n) v b) : b ≠ [] := by
  obtain ⟨-, -, -, rfl, _⟩ := led.start
  simp

theorem Member.start {text : τ → Bytes → Prop} {P : V → Bytes → Prop} (spelled : Member isAsciiWhitespace text P m b) :
    ∃ w x rest, b = w ++ x :: rest ∧ Blank isAsciiWhitespace w ∧
      x = quote ∧ Member isAsciiWhitespace text P m (x :: rest) := by
  cases spelled with
  | mk before key behind value => exact ⟨_, quote, _, rfl, before, rfl, .mk (w := []) .nil key behind value⟩

end

namespace Descent

variable {τ V M : Type} {D : Descent τ V M} {R : Reading τ V} {P : V → Bytes → Prop}
  {value array object : Bytes → Except Error (V × Bytes)}

def StringText (R : Reading τ V) (t : τ) (b : Bytes) : Prop := ∃ body, b = body ++ [quote] ∧ R.text t body

def NumberOf (R : Reading τ V) (v : V) (b : Bytes) : Prop := ∃ s, b = asBytes s ∧ NumberText b ∧ v = R.number s

structure Means (D : Descent τ V M) (R : Reading τ V) : Prop where
  text : Takes D.text (StringText R) fun _ => True
  number : Takes D.number (NumberOf R) (Stops numberByte)
  null : D.null = R.null
  bool : D.bool = R.bool
  string : D.string = R.string
  array : D.array = R.array
  object : ∀ {members : List (τ × V)} {v : V},
    (∃ collected, members.foldlM (fun c m => D.insert c m.1 m.2) D.empty = .ok collected ∧ D.object collected = v) ↔
      R.names (members.map Prod.fst) ∧ v = R.object members

inductive ArrayText (R : Reading τ V) (P : V → Bytes → Prop) : V → Bytes → Prop
  | mk {items : List V} {body : Bytes} (contents : Contents isAsciiWhitespace (Led isAsciiWhitespace P) items body) :
    ArrayText R P (R.array items) (body ++ [closeBracket])

inductive ObjectText (R : Reading τ V) (P : V → Bytes → Prop) : V → Bytes → Prop
  | mk {members : List (τ × V)} {body : Bytes}
    (contents : Contents isAsciiWhitespace (Member isAsciiWhitespace R.text P) members body)
    (names : R.names (members.map Prod.fst)) : ObjectText R P (R.object members) (body ++ [closeBrace])

/-- A value, given the texts of arrays and objects behind their opening brackets. -/
inductive Core (R : Reading τ V) (A O : V → Bytes → Prop) : V → Bytes → Prop
  | leaf {v : V} {b : Bytes} (leaf : Leaf R v b) : Core R A O v b
  | array {v : V} {b : Bytes} (array : A v b) : Core R A O v (openBracket :: b)
  | object {v : V} {b : Bytes} (object : O v b) : Core R A O v (openBrace :: b)

section

variable {A O : V → Bytes → Prop}

theorem dispatch_blanks (blanks : Blank isAsciiWhitespace w) (s : Bytes) :
    D.dispatch array object (w ++ s) = D.dispatch array object s := by
  unfold dispatch ws
  rw [blanks.dropWhile]

theorem dispatch_array (s : Bytes) : D.dispatch array object (openBracket :: s) = array s := by
  unfold dispatch
  rw [ws_solid (by decide)]
  rfl

theorem dispatch_object (s : Bytes) : D.dispatch array object (openBrace :: s) = object s := by
  unfold dispatch
  rw [ws_solid (by decide)]
  rfl

theorem dispatch_null (r : Bytes) : D.dispatch array object (asBytes "null" ++ r) = .ok (D.null, r) := by
  have text : asBytes "null" = [0x6e, 0x75, 0x6c, 0x6c] := by decide
  have whole := word_complete (asBytes "null") r
  unfold dispatch
  rw [text] at whole ⊢
  rw [cons_append, ws_solid (by decide)]
  exact congrArg (· >>= fun s => ok (D.null, s)) whole

theorem dispatch_true (r : Bytes) : D.dispatch array object (asBytes "true" ++ r) = .ok (D.bool true, r) := by
  have text : asBytes "true" = [0x74, 0x72, 0x75, 0x65] := by decide
  have whole := word_complete (asBytes "true") r
  unfold dispatch
  rw [text] at whole ⊢
  rw [cons_append, ws_solid (by decide)]
  exact congrArg (· >>= fun s => ok (D.bool true, s)) whole

theorem dispatch_false (r : Bytes) : D.dispatch array object (asBytes "false" ++ r) = .ok (D.bool false, r) := by
  have text : asBytes "false" = [0x66, 0x61, 0x6c, 0x73, 0x65] := by decide
  have whole := word_complete (asBytes "false") r
  unfold dispatch
  rw [text] at whole ⊢
  rw [cons_append, ws_solid (by decide)]
  exact congrArg (· >>= fun s => ok (D.bool false, s)) whole

theorem dispatch_string (means : D.Means R) (text : R.text t b) (r : Bytes) :
    D.dispatch array object (quote :: (b ++ [quote]) ++ r) = .ok (D.string t, r) := by
  have whole := means.text.complete (r := r) ⟨b, rfl, text⟩ trivial
  unfold dispatch
  rw [cons_append, ws_solid (by decide)]
  exact congrArg (· >>= fun p => ok (D.string p.1, p.2)) whole

theorem dispatch_number (means : D.Means R) (spelled : NumberText (asBytes source))
    (stops : Stops numberByte r) :
    D.dispatch array object (asBytes source ++ r) = .ok (R.number source, r) := by
  have whole := means.number.complete ⟨source, rfl, spelled, rfl⟩ stops
  obtain ⟨x, rest, shape, first⟩ := spelled.head
  obtain ⟨n, t, f, q, bracket, brace⟩ := number_not_mark first
  unfold dispatch
  rw [shape] at whole ⊢
  rw [cons_append, ws_solid (startByte_solid (startByte_of_number first)).1]
  dsimp only
  rw [if_neg n, if_neg t, if_neg f, if_neg q, if_neg bracket, if_neg brace, if_pos first]
  exact whole

theorem dispatch_takes (means : D.Means R) (arrays : Takes array A fun _ => True)
    (objects : Takes object O fun _ => True) : Takes (D.dispatch array object)
      (Led isAsciiWhitespace (Core R A O)) (Stops numberByte) where
  sound {v s r} read := by
    obtain ⟨w, shape, blanks⟩ := dropWhile_split isAsciiWhitespace s
    have led : ∀ {b : Bytes}, s.dropWhile isAsciiWhitespace = b ++ r → Core R A O v b →
        ∃ b, s = b ++ r ∧ Led isAsciiWhitespace (Core R A O) v b := by
      intro b left core
      refine ⟨w ++ b, ?_, .mk blanks core⟩
      rw [append_assoc, ← left]
      exact shape
    unfold dispatch ws at read
    split at read
    · cases read
    · rename_i b rest left
      split at read
      · obtain ⟨_, taken, done⟩ := bind_eq_ok.mp read
        cases done
        exact led (left.trans (word_sound taken)) (.leaf (means.null ▸ .null))
      split at read
      · obtain ⟨_, taken, done⟩ := bind_eq_ok.mp read
        cases done
        exact led (left.trans (word_sound taken)) (.leaf (means.bool ▸ .yes))
      split at read
      · obtain ⟨_, taken, done⟩ := bind_eq_ok.mp read
        cases done
        exact led (left.trans (word_sound taken)) (.leaf (means.bool ▸ .no))
      split at read
      · rename_i opens
        obtain ⟨⟨t, s₁⟩, taken, done⟩ := bind_eq_ok.mp read
        cases done
        obtain ⟨_, rfl, b', rfl, text⟩ := means.text.sound taken
        refine led (b := quote :: (b' ++ [quote])) ?_ (.leaf (means.string ▸ .string text))
        rw [left, opens]
        rfl
      split at read
      · rename_i opens
        obtain ⟨b', rfl, spelled⟩ := arrays.sound read
        exact led (by rw [left, opens]; rfl) (.array spelled)
      split at read
      · rename_i opens
        obtain ⟨b', rfl, spelled⟩ := objects.sound read
        exact led (by rw [left, opens]; rfl) (.object spelled)
      split at read
      · obtain ⟨_, parts, source, rfl, spelled, rfl⟩ := means.number.sound read
        exact led (left.trans parts) (.leaf (.number spelled))
      · cases read
  complete {v b r} led stops := by
    cases led with
    | mk blanks value =>
      rw [append_assoc, dispatch_blanks blanks]
      cases value with
      | leaf leaf =>
        cases leaf with
        | null => exact means.null ▸ dispatch_null r
        | yes => exact means.bool ▸ dispatch_true r
        | no => exact means.bool ▸ dispatch_false r
        | number spelled => exact dispatch_number means spelled stops
        | string text => exact means.string ▸ dispatch_string means text r
      | array spelled => exact (dispatch_array _).trans (arrays.complete spelled trivial)
      | object spelled => exact (dispatch_object _).trans (objects.complete spelled trivial)

end

section

theorem readArray_takes (means : D.Means R) (takes : Takes value
    (Led isAsciiWhitespace (Spells isAsciiWhitespace R n)) (Stops numberByte)) :
    Takes (D.readArray value) (ArrayText R (Spells isAsciiWhitespace R n)) fun _ => True where
  sound {v s r} read := by
    obtain ⟨w, shape, blanks⟩ := dropWhile_split isAsciiWhitespace s
    unfold readArray ws at read
    split at read
    · cases read
    · rename_i b rest left
      rw [left] at shape
      split at read
      · rename_i closes
        cases read
        rw [means.array]
        exact ⟨w ++ [closeBracket], by rw [shape, closes]; simp, .mk (.none blanks)⟩
      · obtain ⟨⟨items, s₁⟩, taken, done⟩ := bind_eq_ok.mp read
        cases done
        obtain ⟨_, body, parts, list, folded⟩ := takes.collect.separated_sound taken
        rw [foldlM_collect, nil_append] at folded
        cases folded
        rw [means.array]
        refine ⟨w ++ body ++ [closeBracket], by rw [shape, parts]; simp, .mk (.some ?_)⟩
        exact list.before fun _ _ led => led.before blanks
  complete {v b r} spelled _ := by
    cases spelled with
    | @mk items _ contents =>
      rw [append_assoc, ← means.array]
      unfold readArray ws
      cases contents with
      | none blanks =>
        rw [singleton_append, blanks.dropWhile_cons (by decide)]
        exact if_pos rfl
      | some list =>
        obtain ⟨w, x, rest, rfl, blanks, first, list⟩ := list.trim fun _ _ led => led.start
        obtain ⟨solid, opens, _⟩ := startByte_solid first
        have length := list.length_le fun _ _ led => led.ne_nil
        have allowance : items.length ≤ (w ++ x :: rest ++ ([closeBracket] ++ r)).length := by
          simp at length ⊢
          omega
        have read := takes.collect.separated_complete .invalidToken (by decide) (by decide) (by decide)
          (separates_stop closeBracket (.inl rfl)) list (foldlM_collect _ []) allowance r
        rw [append_assoc, cons_append, blanks.dropWhile_cons solid] at *
        dsimp only
        rw [if_neg opens]
        exact congrArg (· >>= fun p => ok (D.array p.1, p.2)) read

variable (means : D.Means R) (takes : Takes value (Led isAsciiWhitespace P) (Stops numberByte))
include means takes

theorem readMember_reads :
    Reads (D.readMember value) (Member isAsciiWhitespace R.text P) (fun c m => D.insert c m.1 m.2)
      (Stops numberByte) where
  sound {members members' s r} read := by
    obtain ⟨w, shape, blanks⟩ := dropWhile_split isAsciiWhitespace s
    unfold readMember ws at read
    split at read
    · cases read
    · rename_i b rest left
      rw [left] at shape
      split at read
      · cases read
      · rename_i opens
        obtain ⟨⟨key, s₁⟩, named, onward⟩ := bind_eq_ok.mp read
        obtain ⟨_, rfl, t, rfl, text⟩ := means.text.sound named
        obtain ⟨w', shape', blanks'⟩ := dropWhile_split isAsciiWhitespace s₁
        dsimp only at onward
        split at onward
        · cases onward
        · rename_i b' rest' left'
          rw [left'] at shape'
          split at onward
          · cases onward
          · rename_i marks
            obtain ⟨⟨v, s₂⟩, valued, last⟩ := bind_eq_ok.mp onward
            obtain ⟨b₂, rfl, led⟩ := takes.sound valued
            obtain ⟨collected, inserted, done⟩ := bind_eq_ok.mp last
            cases done
            refine ⟨(key, v), w ++ quote :: (t ++ quote :: (w' ++ colon :: b₂)), ?_, .mk blanks text blanks' led,
              inserted⟩
            rw [shape, shape', not_not.mp opens, not_not.mp marks]
            simp
  complete {members members' m b r} spelled stepped stops := by
    cases spelled with
    | @mk key v w t w' b before text behind led =>
      have named := means.text.complete (r := w' ++ colon :: (b ++ r)) ⟨t, rfl, text⟩ trivial
      have valued := takes.complete led stops
      have shape : w ++ quote :: (t ++ quote :: (w' ++ colon :: b)) ++ r =
          w ++ quote :: (t ++ [quote] ++ (w' ++ colon :: (b ++ r))) := by simp
      unfold readMember ws
      rw [shape, before.dropWhile_cons (by decide)]
      dsimp only
      rw [if_neg (by simp), named]
      dsimp only [bind, Except.bind]
      rw [behind.dropWhile_cons (by decide)]
      dsimp only
      rw [if_neg (by simp), valued]
      dsimp only
      rw [stepped]

theorem readObject_takes : Takes (D.readObject value) (ObjectText R P) fun _ => True where
  sound {v s r} read := by
    obtain ⟨w, shape, blanks⟩ := dropWhile_split isAsciiWhitespace s
    unfold readObject ws at read
    split at read
    · cases read
    · rename_i b rest left
      rw [left] at shape
      split at read
      · rename_i closes
        cases read
        have nothing : ([] : List (τ × V)).foldlM (fun c m => D.insert c m.1 m.2) D.empty = .ok D.empty := rfl
        obtain ⟨names, made⟩ := means.object.mp ⟨D.empty, nothing, rfl⟩
        rw [made]
        exact ⟨w ++ [closeBrace], by rw [shape, closes]; simp, .mk (.none blanks) names⟩
      · obtain ⟨⟨collected, s₁⟩, taken, done⟩ := bind_eq_ok.mp read
        cases done
        obtain ⟨members, body, parts, list, folded⟩ := (readMember_reads means takes).separated_sound taken
        obtain ⟨names, made⟩ := means.object.mp ⟨collected, folded, rfl⟩
        rw [made]
        refine ⟨w ++ body ++ [closeBrace], by rw [shape, parts]; simp, .mk (.some ?_) names⟩
        exact list.before fun _ _ spelled => spelled.before blanks
  complete {v b r} spelled _ := by
    cases spelled with
    | @mk members _ contents names =>
      obtain ⟨collected, folded, made⟩ := means.object.mpr ⟨names, rfl⟩
      rw [append_assoc, ← made]
      unfold readObject ws
      cases contents with
      | none blanks =>
        cases folded
        rw [singleton_append, blanks.dropWhile_cons (by decide)]
        exact if_pos rfl
      | some list =>
        have length := list.length_le fun _ _ spelled => by
          obtain ⟨w, x, rest, rfl, _⟩ := spelled.start
          simp
        obtain ⟨w, x, rest, rfl, blanks, rfl, list⟩ := list.trim fun _ _ spelled => spelled.start
        have allowance : members.length ≤ (w ++ quote :: rest ++ ([closeBrace] ++ r)).length := by
          simp at length ⊢
          omega
        have read := (readMember_reads means takes).separated_complete .invalidToken (by decide) (by decide)
          (by decide) (separates_stop closeBrace (.inr rfl)) list folded allowance r
        rw [append_assoc, cons_append, blanks.dropWhile_cons (by decide)] at *
        exact congrArg (· >>= fun p => ok (D.object p.1, p.2)) read

end

theorem core_zero : Core R (fun _ _ => False) (fun _ _ => False) v b ↔ Spells isAsciiWhitespace R 0 v b := by
  constructor
  · rintro (leaf | never | never)
    · exact leaf
    · exact never.elim
    · exact never.elim
  · exact .leaf

theorem core_succ :
    Core R (ArrayText R (Spells isAsciiWhitespace R n)) (ObjectText R (Spells isAsciiWhitespace R n)) v b ↔
      Spells isAsciiWhitespace R (n + 1) v b := by
  constructor
  · rintro (leaf | ⟨⟨contents⟩⟩ | ⟨⟨contents, distinct⟩⟩)
    · exact .inl leaf
    · exact .inr (.array contents)
    · exact .inr (.object contents distinct)
  · rintro (leaf | (contents | ⟨contents, distinct⟩))
    · exact .leaf leaf
    · exact .array (.mk contents)
    · exact .object (.mk contents distinct)

theorem Means.value_takes (means : D.Means R) (n : Nat) : Takes (D.value n)
    (Led isAsciiWhitespace (Spells isAsciiWhitespace R n)) (Stops numberByte) := by
  induction n with
  | zero =>
    exact (dispatch_takes means (.never _ _) (.never _ _)).congr fun _ _ => Led.congr fun _ _ => core_zero
  | succ n ih =>
    exact (dispatch_takes means (readArray_takes means ih) (readObject_takes means ih)).congr fun _ _ =>
      Led.congr fun _ _ => core_succ

end Descent

end Rezzy.Json
