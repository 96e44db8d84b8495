import Rezzy.Basespec.RedactionSplit
import Rezzy.Lib.Fallible
import Rezzy.Merkle.HeaderProofs

namespace Rezzy.Merkle

open Basespec Json Sorted List
open Value (object)

section

variable (sha256 : Sha256)

structure ContentHash where
  hash : Hash
deriving DecidableEq

def componentHash (fieldName : String) (value : Value) : Except MerkleError Hash := do
  validateFieldName fieldName
  let canonical ← canonicalJson value
  .ok (leafHashUnchecked sha256 (asBytes fieldName) canonical)

def redactedContentHash (value : Value) : Except MerkleError Hash := componentHash sha256 "redacted_content" value

def redactableContentHash (value : Value) : Except MerkleError Hash := componentHash sha256 "redactable_content" value

def splitContentHashes (content : Value) (eventType roomVersion : String) : Except MerkleError (Hash × Hash) := do
  let parts := splitRedactionContent content eventType roomVersion
  let redacted ← redactedContentHash sha256 parts.1
  let redactable ← redactableContentHash sha256 parts.2
  .ok (redacted, redactable)

def contentHash (redactedContentHash redactableContentHash : Hash) : ContentHash :=
  ⟨innerHash sha256 redactedContentHash redactableContentHash⟩

theorem writeRuns_split (run s t : Bytes) : writeRuns run (s ++ t) = writeRuns run s ++ writeRuns [] t := by
  induction s generalizing run with
  | nil => rw [nil_append, writeRuns_run, writeRuns]
  | cons b s ih =>
    rw [cons_append, writeRuns, writeRuns]
    split
    · exact ih _
    · rw [ih]
      simp only [append_assoc]

theorem escapeChar_eq (c : Char) : escapeChar c = writeRuns [] (String.utf8EncodeChar c) := by
  have low : ∀ n < 128, escapeChar (Char.ofNat n) = writeRuns [] (String.utf8EncodeChar (Char.ofNat n)) := by decide
  rcases Parser.encode_cases c with ⟨ascii, _⟩ | ⟨high, bytes⟩
  · have same := low c.toNat (by omega)
    rwa [Char.ofNat_toNat] at same
  · have plain := writeRuns_append (s := String.utf8EncodeChar c) (fun b mem => Parser.plainByte_of_high (bytes b mem)) [] []
    have other : ∀ d : Char, d.toNat ≤ 0x7f → c ≠ d := by
      rintro d ascii rfl
      omega
    rw [append_nil, nil_append] at plain
    rw [plain, writeRuns]
    unfold escapeChar
    rw [if_neg (other _ (by decide)), if_neg (other _ (by decide)), if_neg (by omega), if_neg (by omega),
      if_neg (other _ (by decide)), if_neg (other _ (by decide)), if_neg (other _ (by decide)), if_neg (by omega)]

theorem appendString_eq (text : String) : appendString text = writeString text := by
  have runs : ∀ cs : List Char, cs.flatMap escapeChar = writeRuns [] (cs.flatMap String.utf8EncodeChar) := by
    intro cs
    induction cs with
    | nil => rfl
    | cons c cs ih => rw [flatMap_cons, flatMap_cons, writeRuns_split, ih, escapeChar_eq]
  unfold appendString writeString
  rw [runs, asBytes_eq_flatMap]

theorem appendNumber_eq (canonical : CanonicalInteger number) : appendNumber number = .ok (asBytes number.asStr) := by
  obtain ⟨i, small, rfl⟩ := canonical
  have safe : maxSafeInteger = 2 ^ 53 - 1 := rfl
  have range : minCanonicalInt ≤ i ∧ i ≤ maxCanonicalInt := by
    unfold minCanonicalInt maxCanonicalInt
    omega
  unfold appendNumber
  rw [Number.asI64_ofInt, if_pos (by omega)]
  exact if_pos range

theorem appendItems_eq (each : ∀ item ∈ items, appendCanonicalValue item = .ok (writeValueInto item)) (first : Bool) :
    appendItems first items = .ok (writeItemsInto first items) := by
  induction items generalizing first with
  | nil => rw [appendItems, writeItemsInto]
  | cons item items ih =>
    rw [appendItems, writeItemsInto, each item mem_cons_self, ih fun x mem => each x (mem_cons_of_mem _ mem)]
    rfl

theorem appendMembers_eq (each : ∀ m ∈ members, appendCanonicalValue m.2 = .ok (writeValueInto m.2)) (first : Bool) :
    appendMembers first members = .ok (writeMembersInto first members) := by
  induction members generalizing first with
  | nil => rw [appendMembers, writeMembersInto]
  | cons m members ih =>
    obtain ⟨key, v⟩ := m
    rw [appendMembers, writeMembersInto, each (key, v) mem_cons_self,
      ih fun x mem => each x (mem_cons_of_mem _ mem), appendString_eq]
    rfl

theorem canonicalJson_eq (numbers : v.EachNumber CanonicalInteger) : canonicalJson v = .ok (writeValueInto v) := by
  unfold canonicalJson
  induction numbers with
  | null => rw [appendCanonicalValue, writeValueInto]
  | bool v => cases v <;> rfl
  | number canonical => rw [appendCanonicalValue, writeValueInto, appendNumber_eq canonical]
  | string s => rw [appendCanonicalValue, writeValueInto, appendString_eq]
  | array _ ih =>
    rw [appendCanonicalValue, writeValueInto, appendItems_eq ih]
    rfl
  | object _ ih =>
    rw [appendCanonicalValue, writeValueInto, appendMembers_eq ih]
    rfl

theorem writeValueInto_injective (formed : v.Formed n) (formed' : w.Formed m)
    (numbers : v.EachNumber CanonicalInteger) (numbers' : w.EachNumber CanonicalInteger)
    (same : writeValueInto v = writeValueInto w) : v = w := by
  have kept : ∀ {k}, CanonicalInteger k → Number.Kept (fun _ => none) k := by
    rintro k ⟨i, _, rfl⟩
    exact kept_ofInt i
  have takes := (Parser.descent_means (fun _ => none) false).value_takes (max n m)
  have one := takes.complete (r := []) (.mk (w := []) .nil
    ((writeValueInto_spells formed (numbers.imp fun _ => kept)).mono (Nat.le_max_left n m))) Stops.nil
  have two := takes.complete (r := []) (.mk (w := []) .nil
    ((writeValueInto_spells formed' (numbers'.imp fun _ => kept)).mono (Nat.le_max_right n m))) Stops.nil
  rw [same] at one
  exact congrArg Prod.fst (Except.ok.inj (one.symm.trans two))

variable (sha256 : Sha256)

def canonicalOf (value : Value) : Bytes := (canonicalJson value).toOption.getD []

def redactedLeaf (value : Value) : Hash := leafHashUnchecked sha256 (asBytes "redacted_content") (canonicalOf value)

def redactableLeaf (value : Value) : Hash := leafHashUnchecked sha256 (asBytes "redactable_content") (canonicalOf value)

def contentStrings (parts : Value × Value) : Set Bytes :=
  {fieldString "redacted_content" (canonicalOf parts.1), fieldString "redactable_content" (canonicalOf parts.2),
    pairString (redactedLeaf sha256 parts.1, redactableLeaf sha256 parts.2)}

variable {sha256} {content : Object.Members} {n : Nat} {eventType roomVersion : String}

theorem componentHash_ok {name : String} (named : validateFieldName name = .ok ()) {v : Value} {hash : Hash} :
    componentHash sha256 name v = .ok hash ↔ ∃ canonical, canonicalJson v = .ok canonical ∧
      hash = leafHashUnchecked sha256 (asBytes name) canonical := by
  unfold componentHash
  rw [named, Fallible.except_ok_bind, Outcome.bind_eq_ok]
  simp only [Except.ok.injEq, eq_comm]

theorem splitContentHashes_ok (split : splitRedactionContent (.object content) eventType roomVersion = parts) :
    splitContentHashes sha256 (.object content) eventType roomVersion = .ok hashes ↔
      redactedContentHash sha256 parts.1 = .ok hashes.1 ∧ redactableContentHash sha256 parts.2 = .ok hashes.2 := by
  unfold splitContentHashes
  rw [split, Outcome.bind_eq_ok]
  simp only [Outcome.bind_eq_ok]
  constructor
  · rintro ⟨a, one, b, two, ⟨⟩⟩
    exact ⟨one, two⟩
  · rintro ⟨one, two⟩
    exact ⟨hashes.1, one, hashes.2, two, rfl⟩

theorem redacted_named : validateFieldName "redacted_content" = .ok () := by decide

theorem redactable_named : validateFieldName "redactable_content" = .ok () := by decide

theorem parts_hashed (sha256 : Sha256) (formed : (object content).Formed n) (numbers : (object content).EachNumber CanonicalInteger)
    (eventType roomVersion : String) : ∃ kept, ∃ k m, (object kept).Formed k ∧
      (object (stripped kept content)).Formed m ∧
      (object kept).EachNumber CanonicalInteger ∧ (object (stripped kept content)).EachNumber CanonicalInteger ∧
      mergeContent kept (stripped kept content) = content ∧
      splitRedactionContent (.object content) eventType roomVersion = (.object kept, .object (stripped kept content)) ∧
      splitContentHashes sha256 (.object content) eventType roomVersion =
        .ok (redactedLeaf sha256 (.object kept), redactableLeaf sha256 (.object (stripped kept content))) := by
  have ordered := Formed.ordered formed
  cases formed with
  | @object n _ sorted inner =>
    have whole : (object content).Formed (n + 1) := .object sorted inner
    obtain ⟨kept, redacted, selected⟩ :=
      redactContent_selected sorted ordered (redactionPreservedKeys eventType roomVersion)
    have split := splitRedactionContent_object redacted
    have keptNumbers : (object kept).EachNumber CanonicalInteger :=
      redacted ▸ redactContent_numbers whole numbers (redactionPreservedKeys eventType roomVersion)
    have restNumbers : (object (stripped kept content)).EachNumber CanonicalInteger := by
      cases numbers with
      | object each =>
        exact .object (stripped_members ⟨fun members test holds => EachNumber.filter holds test⟩ selected sorted ordered each)
    refine ⟨kept, _, n + 1, redacted ▸ redactContent_formed whole _, .object (stripped_sorted sorted) ?_, keptNumbers,
      restNumbers, mergeContent_stripped selected sorted ordered, split, (splitContentHashes_ok split).mpr ⟨?_, ?_⟩⟩
    · exact stripped_members ⟨fun members test holds => Formed.filter holds test⟩ selected sorted ordered inner
    · refine (componentHash_ok redacted_named).mpr ⟨_, canonicalJson_eq keptNumbers, ?_⟩
      unfold redactedLeaf canonicalOf
      rw [canonicalJson_eq keptNumbers]
      rfl
    · refine (componentHash_ok redactable_named).mpr ⟨_, canonicalJson_eq restNumbers, ?_⟩
      unfold redactableLeaf canonicalOf
      rw [canonicalJson_eq restNumbers]
      rfl

theorem canonicalOf_inj (formed : v.Formed k) (formed' : w.Formed m) (numbers : v.EachNumber CanonicalInteger)
    (numbers' : w.EachNumber CanonicalInteger) (same : canonicalOf v = canonicalOf w) : v = w := by
  unfold canonicalOf at same
  rw [canonicalJson_eq numbers, canonicalJson_eq numbers'] at same
  exact writeValueInto_injective formed formed' numbers numbers' same

theorem contentHash_inj (free : Set.InjOn sha256 (contentStrings sha256 parts ∪ contentStrings sha256 others))
    (same : contentHash sha256 (redactedLeaf sha256 parts.1) (redactableLeaf sha256 parts.2) =
      contentHash sha256 (redactedLeaf sha256 others.1) (redactableLeaf sha256 others.2)) :
    canonicalOf parts.1 = canonicalOf others.1 ∧ canonicalOf parts.2 = canonicalOf others.2 := by
  have pairs := pairString_inj (free (.inl (.inr (.inr rfl))) (.inr (.inr (.inr rfl))) (congrArg ContentHash.hash same))
  obtain ⟨redacted, redactable⟩ := Prod.mk.inj pairs
  have one := free (.inl (.inl rfl)) (.inr (.inl rfl)) redacted
  have two := free (.inl (.inr (.inl rfl))) (.inr (.inr (.inl rfl))) redactable
  exact ⟨(fieldString_inj redacted_named redacted_named one).2, (fieldString_inj redactable_named redactable_named two).2⟩

/-- The split loses nothing of a content, and the content hash over the two parts tells contents apart. -/
theorem splitRedactionContent_exact (sha256 : Sha256) (formed : (Value.object content).Formed n)
    (eventType roomVersion : String) : ∃ kept stripped,
      splitRedactionContent (.object content) eventType roomVersion = (.object kept, .object stripped) ∧
      (∀ event, SortedKeys event → eventTypeOf event = eventType → lookup event fieldContent = some (.object content) →
        (redactJson (.object event) roomVersion).get fieldContent = some (.object kept)) ∧
      (∀ path, LeafPath kept path → ¬LeafPath stripped path) ∧
      mergeContent kept stripped = content ∧
      (∀ a b, splitContentHashes sha256 (.object content) eventType roomVersion = .ok (a, b) →
        ∃ c, splitContentHashes sha256 (.object kept) eventType roomVersion = .ok (a, c)) ∧
      ∀ (m : Nat) (other : Object.Members), (Value.object other).Formed m →
        (Value.object content).EachNumber CanonicalInteger → (Value.object other).EachNumber CanonicalInteger →
        Set.InjOn sha256 (contentStrings sha256 (splitRedactionContent (.object content) eventType roomVersion) ∪
          contentStrings sha256 (splitRedactionContent (.object other) eventType roomVersion)) →
        ∃ a b a' b', splitContentHashes sha256 (.object content) eventType roomVersion = .ok (a, b) ∧
          splitContentHashes sha256 (.object other) eventType roomVersion = .ok (a', b') ∧
          (contentHash sha256 a b = contentHash sha256 a' b' ↔ content = other) := by
  have whole := formed
  have ordered := Formed.ordered formed
  cases formed with
  | @object n _ sorted inner =>
    obtain ⟨kept, redacted, selected⟩ :=
      redactContent_selected sorted ordered (redactionPreservedKeys eventType roomVersion)
    have split := splitRedactionContent_object redacted
    refine ⟨kept, stripped kept content, split, ?_, ?_, ?_, ?_, ?_⟩
    · intro event members type found
      have content' : redactedContent event roomVersion = .object kept := by
        unfold redactedContent
        rw [found, type, ← redacted]
      rw [redactJson_object members]
      exact (lookup_redacted members fieldContent).trans (by rw [if_pos rfl, content'])
    · exact fun path => leafPath_apart selected sorted ordered
    · exact mergeContent_stripped selected sorted ordered
    · intro a b hashed
      have again : redactContent (.object kept) (redactionPreservedKeys eventType roomVersion) = .object kept := by
        rw [← redacted]
        exact redactContent_again ordered _
      have splitAgain := splitRedactionContent_object again
      rw [stripped_self selected.sorted] at splitAgain
      exact ⟨redactableLeaf sha256 (.object []), (splitContentHashes_ok splitAgain).mpr
        ⟨((splitContentHashes_ok split).mp hashed).1, (componentHash_ok redactable_named).mpr ⟨_, rfl, rfl⟩⟩⟩
    · intro m other formed' numbers numbers' free
      obtain ⟨keptA, _, _, keptFormed, restFormed, keptNumbers, restNumbers, merged, split, hashed⟩ :=
        parts_hashed sha256 whole numbers eventType roomVersion
      obtain ⟨keptB, _, _, keptFormed', restFormed', keptNumbers', restNumbers', merged', split', hashed'⟩ :=
        parts_hashed sha256 formed' numbers' eventType roomVersion
      refine ⟨_, _, _, _, hashed, hashed', fun same => ?_, ?_⟩
      · rw [split, split'] at free
        obtain ⟨redacted, redactable⟩ := contentHash_inj free same
        have one := Value.object.inj (canonicalOf_inj keptFormed keptFormed' keptNumbers keptNumbers' redacted)
        have two := Value.object.inj (canonicalOf_inj restFormed restFormed' restNumbers restNumbers' redactable)
        calc content = mergeContent keptA (stripped keptA content) := merged.symm
          _ = mergeContent keptB (stripped keptB other) := by rw [two, one]
          _ = other := merged'
      · rintro rfl
        rw [hashed] at hashed'
        obtain ⟨one, two⟩ := Prod.mk.inj (Except.ok.inj hashed')
        rw [one, two]

end

namespace ContentHash.Sample

theorem first_byte : 0 < 32 := by decide

def sums : Sha256 := fun string => (Vector.replicate 32 0).set 0 (string.foldl (· + ·) 0) first_byte

def reasoned : Object.Members := [("reason", .string "x")]

def left : Object.Members := [("membership", .string "leave")]

def strings (content : Object.Members) : List Bytes :=
  let parts := splitRedactionContent (.object content) "m.room.member" "11"
  [fieldString "redacted_content" (canonicalOf parts.1), fieldString "redactable_content" (canonicalOf parts.2),
    pairString (redactedLeaf sums parts.1, redactableLeaf sums parts.2)]

theorem mem_strings (inside : string ∈ contentStrings sums
    (splitRedactionContent (.object content) "m.room.member" "11")) : string ∈ strings content := by
  simpa [strings, contentStrings] using inside

set_option maxRecDepth 4000 in
theorem splitRedactionContent_exact_reasoned : ∃ a b a' b',
    splitContentHashes sums (.object reasoned) "m.room.member" "11" = .ok (a, b) ∧
    splitContentHashes sums (.object left) "m.room.member" "11" = .ok (a', b') ∧
    (contentHash sums a b = contentHash sums a' b' ↔ reasoned = left) := by
  have members : ∀ m ∈ reasoned ++ left, ∃ text, m.2 = .string text := by
    simp [reasoned, left]
  have formed : (Value.object reasoned).Formed 1 := by
    refine .object (by simp [SortedKeys, reasoned]) fun m member => ?_
    obtain ⟨text, string⟩ := members m (mem_append_left _ member)
    rw [string]
    exact .string text
  have formed' : (Value.object left).Formed 1 := by
    refine .object (by simp [SortedKeys, left]) fun m member => ?_
    obtain ⟨text, string⟩ := members m (mem_append_right _ member)
    rw [string]
    exact .string text
  obtain ⟨kept, stripped, -, -, -, -, -, hashes⟩ := splitRedactionContent_exact sums formed "m.room.member" "11"
  refine hashes 1 left formed' (.object fun m member => ?_) (.object fun m member => ?_) ?_
  · obtain ⟨text, string⟩ := members m (mem_append_left _ member)
    rw [string]
    exact .string text
  · obtain ⟨text, string⟩ := members m (mem_append_right _ member)
    rw [string]
    exact .string text
  · have apart : ∀ a ∈ strings reasoned ++ strings left, ∀ b ∈ strings reasoned ++ strings left,
        sums a = sums b → a = b := by
      decide
    intro a inside b inside'
    exact apart a (mem_append.mpr (inside.imp mem_strings mem_strings)) b
      (mem_append.mpr (inside'.imp mem_strings mem_strings))

end ContentHash.Sample

end Rezzy.Merkle
