import Rezzy.Json.DescentSpec
import Rezzy.Json.StringSpec

namespace Rezzy.Json

open Scan List Sorted Except Prod

def reading (formatFinite : String → Option String) (names : List String → Prop) : Reading String Value where
  text t b := Text t.toList b
  null := .null
  bool v := .bool v
  number s := .number (Number.parse formatFinite s)
  string t := .string t
  array items := .array items
  names := names
  object members := .object (Sorted.assignAll members)

namespace Parser

/-- The names that the members of an object may have: with `strict` no two are the same. -/
def allowedNames : Bool → List String → Prop
  | true => List.Nodup
  | false => fun _ => True

theorem lookup_collected (members : List (String × Value)) (key : String) :
    (Sorted.lookup (assignAll members) key).isSome = true ↔ key ∈ members.map fst := by
  rw [lookup_assignAll, Option.isSome_map, getLast?_isSome]
  simp [filter_eq_nil_iff]

theorem insert_eq_ok {value : Value} : insert strict members key value = .ok obj ↔
      (strict = true → (Sorted.lookup members key).isSome = false) ∧ obj = assign members key value := by
  unfold insert Object.insert
  dsimp only
  generalize assign members key value = placed
  cases strict with
  | false =>
    rw [Bool.and_false, if_neg Bool.false_ne_true, ok.injEq]
    exact ⟨fun same => ⟨fun never => (Bool.false_ne_true never).elim, same.symm⟩, fun given => given.2.symm⟩
  | true =>
    rw [Bool.and_true]
    cases (Sorted.lookup members key).isSome with
    | false => exact ⟨fun same => ⟨fun _ => rfl, (ok.inj same).symm⟩, fun given => congrArg ok given.2.symm⟩
    | true => exact ⟨(fun same => nomatch same), fun given => (Bool.false_ne_true (given.1 rfl).symm).elim⟩

theorem foldlM_insert : members.foldlM (fun c m => insert strict c m.1 m.2) [] = .ok obj ↔
      allowedNames strict (members.map fst) ∧ obj = assignAll members := by
  induction members using reverseRecOn generalizing obj with
  | nil =>
    cases strict
    · exact ⟨fun done => ⟨trivial, (ok.inj done).symm⟩, fun given => congrArg ok given.2.symm⟩
    · exact ⟨fun done => ⟨nodup_nil, (ok.inj done).symm⟩, fun given => congrArg ok given.2.symm⟩
  | append_singleton members m ih =>
    have last : (members ++ [m]).foldlM (fun c m => insert strict c m.1 m.2) [] =
        members.foldlM (fun c m => insert strict c m.1 m.2) [] >>= fun collected => insert strict collected m.1 m.2 := by
      rw [foldlM_append]
      simp
    have names : allowedNames strict (members.map fst ++ [m.1]) ↔
        allowedNames strict (members.map fst) ∧ (strict = true → m.1 ∉ members.map fst) := by
      cases strict
      · simp [allowedNames]
      · show (members.map fst ++ [m.1]).Nodup ↔ _
        rw [nodup_append_comm, singleton_append, nodup_cons]
        simp [allowedNames, and_comm]
    have fresh : (Sorted.lookup (assignAll members) m.1).isSome = false ↔ m.1 ∉ members.map fst := by
      rw [← lookup_collected, Bool.not_eq_true]
    rw [last, assignAll_append, map_append, map_singleton, Outcome.bind_eq_ok, names]
    simp only [ih, insert_eq_ok]
    constructor
    · rintro ⟨_, ⟨distinct, rfl⟩, unseen, shape⟩
      exact ⟨⟨distinct, fun strict => fresh.mp (unseen strict)⟩, shape⟩
    · rintro ⟨⟨distinct, unseen⟩, shape⟩
      exact ⟨_, ⟨distinct, rfl⟩, fun strict => fresh.mpr (unseen strict), shape⟩

theorem descent_means (formatFinite : String → Option String) (strict : Bool) :
    (descent formatFinite strict).Means (reading formatFinite (allowedNames strict)) where
  text := {
    sound := fun {t s r} read => by
      obtain ⟨b, rfl, text⟩ := string_sound read
      exact ⟨b ++ [quote], by simp, b, rfl, text⟩
    complete := fun {t b r} spelled _ => by
      obtain ⟨body, rfl, text⟩ := spelled
      have whole := string_complete text r
      rw [String.ofList_toList] at whole
      rw [append_assoc]
      exact whole }
  number := {
    sound := fun {v s r} read => by
      obtain ⟨source, rfl, spelled, rfl⟩ := number_sound read
      exact ⟨asBytes source, rfl, source, rfl, spelled, rfl⟩
    complete := fun {v b r} spelled stops => by
      obtain ⟨source, rfl, spelled, rfl⟩ := spelled
      exact number_complete formatFinite spelled stops }
  null := rfl
  bool := rfl
  string := rfl
  array := rfl
  object := by
    intro members v
    constructor
    · rintro ⟨collected, folded, rfl⟩
      obtain ⟨names, rfl⟩ := foldlM_insert.mp folded
      exact ⟨names, rfl⟩
    · rintro ⟨names, rfl⟩
      exact ⟨_, foldlM_insert.mpr ⟨names, rfl⟩, rfl⟩

end Parser

theorem blank_stops (blanks : Blank isAsciiWhitespace w) : Stops Parser.numberByte w :=
  fun x first => blank_not_numberByte (blanks x (mem_of_mem_head? first))

theorem parseScalarWith_iff {formatFinite : String → Option String} {strict : Bool} {input : Bytes} {v : Value} :
    Value.parseScalarWith formatFinite input strict = .ok v ↔
      Document isAsciiWhitespace (reading formatFinite (Parser.allowedNames strict)) maxDepth v input := by
  have takes := (Parser.descent_means formatFinite strict).value_takes maxDepth
  unfold Value.parseScalarWith
  constructor
  · intro parsed
    obtain ⟨⟨v', rest⟩, read, done⟩ := Outcome.bind_eq_ok.mp parsed
    obtain ⟨b, rfl, led⟩ := takes.sound read
    dsimp only at done
    split at done
    · rename_i blank
      cases done
      cases led with
      | mk before value =>
        rw [append_assoc]
        exact .mk before value (dropWhile_eq_nil_iff.mp blank)
    · cases done
  · rintro ⟨before, value, behind⟩
    have read := takes.complete (.mk before value) (blank_stops behind)
    rw [← append_assoc]
    unfold Parser.value
    rw [read]
    exact if_pos (dropWhile_eq_nil_iff.mpr behind)

section

variable {names : List String → Prop}

theorem hexDigits_bytes (digits : Hex4 h n) : (0x0c : UInt8) ∉ h := by
  have none : toDigit16 0x0c = none := by decide
  cases digits with
  | mk first second third fourth =>
    intro mem
    simp only [mem_cons, not_mem_nil, or_false] at mem
    rcases mem with rfl | rfl | rfl | rfl <;> simp_all

theorem Text.no_formFeed (text : Text cs b) : (0x0c : UInt8) ∉ b := by
  have mark : (0x0c : UInt8) ≠ backslash := by decide
  induction text with
  | done => simp
  | plain unescaped _ ih =>
    intro mem
    rcases mem_append.mp mem with mem | mem
    · exact absurd ((Parser.unescaped_iff _).mp unescaped _ mem) (by decide)
    · exact ih mem
  | @short e c cs b escape _ ih =>
    have other : e ≠ 0x0c := by
      rintro rfl
      simp [shortEscapes] at escape
    simp [ih, mark, other.symm]
  | unicode escape _ ih =>
    cases escape with
    | unit digits _ => simp [ih, mark, hexDigits_bytes digits]
    | pair first _ second _ _ => simp [ih, mark, hexDigits_bytes first, hexDigits_bytes second]

theorem noFormFeed_good : GoodBytes rfcBlank (reading formatFinite names) (· ≠ 0x0c) where
  blanks x blank := by
    rintro rfl
    exact absurd blank (by decide)
  texts t b text x member := by
    rintro rfl
    exact text.no_formFeed member
  numbers b spelled x member := by
    rintro rfl
    exact absurd (spelled.bytes _ member) (by decide)
  words := fun x mem same => absurd (same ▸ mem) (by decide)
  marks := fun x mem same => absurd (same ▸ mem) (by decide)

theorem isAsciiWhitespace_eq (x : UInt8) : isAsciiWhitespace x = (rfcBlank x || decide (x = 0x0c)) := by
  unfold isAsciiWhitespace rfcBlank
  cases decide (x = 0x20) <;> cases decide (x = 0x09) <;> cases decide (x = 0x0a) <;> cases decide (x = 0x0c) <;>
    cases decide (x = 0x0d) <;> rfl

theorem document_without_formFeed {τ V : Type} {R : Reading τ V} {n : Nat} {v : V} {b : Bytes}
    (none : (0x0c : UInt8) ∉ b) : Document isAsciiWhitespace R n v b ↔ Document rfcBlank R n v b := by
  constructor
  · intro document
    refine document.reblank fun x mem blank => ?_
    rw [isAsciiWhitespace_eq, Bool.or_eq_true, decide_eq_true_iff] at blank
    rcases blank with blank | rfl
    · exact blank
    · exact absurd mem none
  · intro document
    refine document.reblank fun x _ blank => ?_
    rw [isAsciiWhitespace_eq, blank]
    rfl

theorem Document.of_distinct (document : Document blank (reading formatFinite List.Nodup) n v b) :
    Document blank (reading formatFinite fun _ => True) n v b := by
  have maps : (reading formatFinite List.Nodup).Maps (reading formatFinite fun _ => True) (· = ·) (· = ·) := by
    refine ⟨fun text => ⟨_, text, rfl⟩, rfl, fun _ => rfl, fun _ => rfl, ?_, ?_, ?_⟩
    · rintro t t' rfl
      rfl
    · intro items items' same
      rw [forall₂_eq_eq_eq] at same
      rw [same]
      rfl
    · intro members members' same _
      have equal : List.Forall₂ (· = ·) members members' := same.imp fun m m' parts => Prod.ext parts.1 parts.2
      rw [forall₂_eq_eq_eq] at equal
      rw [equal]
      exact ⟨trivial, rfl⟩
  cases document with
  | mk before value behind =>
    obtain ⟨v', value', rfl⟩ := value.maps maps
    exact .mk before value' behind

end

variable (formatFinite : String → Option String)

abbrev RfcDocument (names : List String → Prop) (v : Value) (t : String) : Prop :=
  Document rfcBlank (reading formatFinite names) maxDepth v (asBytes t)

abbrev LaxDocument (v : Value) (t : String) : Prop :=
  Document (fun x => rfcBlank x || decide (x = 0x0c)) (reading formatFinite fun _ => True) maxDepth v (asBytes t)

/-- Parsing takes the documents of the grammar and returns their values, and strict parsing those without repeated
    names. -/
def ParsesExactly (t : String) : Prop :=
  (∀ v, Value.parse formatFinite t = .ok v ↔ RfcDocument formatFinite (fun _ => True) v t) ∧
    ∀ v, Value.parseStrict formatFinite t = .ok v ↔ RfcDocument formatFinite List.Nodup v t

theorem parse_exact_iff (t : String) : ParsesExactly formatFinite t ↔
    ((0x0c : UInt8) ∈ asBytes t → ¬ ∃ v, LaxDocument formatFinite v t) := by
  have lax : (fun x => rfcBlank x || decide (x = 0x0c)) = isAsciiWhitespace := funext fun x => (isAsciiWhitespace_eq x).symm
  have parsed : ∀ v, Value.parse formatFinite t = .ok v ↔ LaxDocument formatFinite v t := by
    intro v
    unfold LaxDocument
    rw [lax]
    exact parseScalarWith_iff
  have strict : ∀ v, Value.parseStrict formatFinite t = .ok v ↔
      Document isAsciiWhitespace (reading formatFinite List.Nodup) maxDepth v (asBytes t) :=
    fun v => parseScalarWith_iff
  have clean : ∀ {names v}, RfcDocument formatFinite names v t → (0x0c : UInt8) ∉ asBytes t :=
    fun document member => noFormFeed_good.document document _ member rfl
  constructor
  · rintro ⟨accepts, _⟩ feed ⟨v, document⟩
    exact clean ((accepts v).mp ((parsed v).mpr document)) feed
  · intro apart
    by_cases feed : (0x0c : UInt8) ∈ asBytes t
    · refine ⟨fun v => iff_of_false ?_ fun document => clean document feed,
        fun v => iff_of_false ?_ fun document => clean document feed⟩
      · exact fun accepted => apart feed ⟨v, (parsed v).mp accepted⟩
      · intro accepted
        refine apart feed ⟨v, ?_⟩
        unfold LaxDocument
        rw [lax]
        exact ((strict v).mp accepted).of_distinct
    · refine ⟨fun v => (parsed v).trans ?_, fun v => (strict v).trans (document_without_formFeed feed)⟩
      unfold LaxDocument
      rw [lax]
      exact document_without_formFeed feed

theorem formFeed_accepted : ¬ ∀ t, ParsesExactly (fun _ => none) t := by
  intro exact_
  have accepted : Value.parse (fun _ => none) "1" = .ok (.number ⟨"1"⟩) := by rfl
  have document := ((exact_ "1").1 _).mp accepted
  exact noFormFeed_good.document document 0x0c (by decide) rfl

end Rezzy.Json
