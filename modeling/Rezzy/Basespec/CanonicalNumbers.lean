import Rezzy.Basespec.CanonicalJson

namespace Rezzy.Basespec

open Json Sorted List Except Outcome Value Number UInt8

section

theorem jsonEscape_eq (special : b = quote ∨ b = backslash ∨ b ≤ 0x1f) : jsonEscape b = pushEscape b := by
  have low : ∀ n < 32, jsonEscape (ofNat n) = pushEscape (ofNat n) := by decide
  rcases special with rfl | rfl | control
  · rfl
  · rfl
  · have same := low b.toNat (Nat.lt_succ_of_le (le_iff_toNat_le.mp control))
    rwa [UInt8.ofNat_toNat] at same

theorem writeJsonRuns_eq (run s : Bytes) : writeJsonRuns run s = writeRuns run s := by
  induction s generalizing run with
  | nil => rfl
  | cons b s ih =>
    have control : b ≤ 0x1f ↔ ¬ 0x20 ≤ b := by
      simp only [le_iff_toNat_le, reduceToNat]
      omega
    rw [writeJsonRuns, writeRuns]
    by_cases special : b = quote ∨ b = backslash ∨ b ≤ 0x1f
    · rw [if_pos special, if_neg, jsonEscape_eq special, ih]
      rintro ⟨printable, notQuote, notBackslash⟩
      rcases special with same | same | low
      · exact notQuote same
      · exact notBackslash same
      · exact control.mp low printable
    · obtain ⟨notQuote, notBackslash, high⟩ : b ≠ quote ∧ b ≠ backslash ∧ ¬ b ≤ 0x1f := by
        simpa [not_or] using special
      rw [if_neg special, if_pos ⟨not_not.mp (high ∘ control.mpr), notQuote, notBackslash⟩, ih]

theorem writeJsonString_eq (s : String) : writeJsonString s = writeString s := by
  rw [writeJsonString, writeString, writeJsonRuns_eq]

def Accepted (n : Number) : Prop := validateCanonicalNumber n = .ok ()

theorem writeJsonItems_eq_ok (each : ∀ item ∈ items, ∀ out,
    writeJsonValue true item = .ok out ↔ item.EachNumber Accepted ∧ out = writeValueInto item) (first : Bool)
    (out : Bytes) : writeJsonItems true first items = .ok out ↔
      (∀ item ∈ items, item.EachNumber Accepted) ∧ out = writeItemsInto first items := by
  induction items generalizing first out with
  | nil =>
    rw [writeJsonItems, writeItemsInto, ok.injEq]
    simp [eq_comm]
  | cons item items ih =>
    have rest := fun out => ih (fun x mem => each x (mem_cons_of_mem _ mem)) false out
    rw [writeJsonItems, writeItemsInto, forall_mem_cons]
    constructor
    · intro written
      obtain ⟨o, one, onward⟩ := bind_eq_ok.mp written
      obtain ⟨os, others, done⟩ := bind_eq_ok.mp onward
      obtain ⟨numbers, rfl⟩ := (each item mem_cons_self o).mp one
      obtain ⟨more, rfl⟩ := (rest os).mp others
      exact ⟨⟨numbers, more⟩, (ok.inj done).symm⟩
    · rintro ⟨⟨numbers, more⟩, rfl⟩
      rw [(each item mem_cons_self _).mpr ⟨numbers, rfl⟩, (rest _).mpr ⟨more, rfl⟩]
      rfl

theorem writeJsonMembers_eq_ok (each : ∀ m ∈ members, ∀ out,
    writeJsonValue true m.2 = .ok out ↔ m.2.EachNumber Accepted ∧ out = writeValueInto m.2) (first : Bool)
    (out : Bytes) : writeJsonMembers true first members = .ok out ↔
      (∀ m ∈ members, m.2.EachNumber Accepted) ∧ out = writeMembersInto first members := by
  induction members generalizing first out with
  | nil =>
    rw [writeJsonMembers, writeMembersInto, ok.injEq]
    simp [eq_comm]
  | cons m members ih =>
    obtain ⟨key, v⟩ := m
    have rest := fun out => ih (fun x mem => each x (mem_cons_of_mem _ mem)) false out
    rw [writeJsonMembers, writeMembersInto, forall_mem_cons, writeJsonString_eq]
    constructor
    · intro written
      obtain ⟨o, one, onward⟩ := bind_eq_ok.mp written
      obtain ⟨os, others, done⟩ := bind_eq_ok.mp onward
      obtain ⟨numbers, rfl⟩ := (each (key, v) mem_cons_self o).mp one
      obtain ⟨more, rfl⟩ := (rest os).mp others
      exact ⟨⟨numbers, more⟩, (ok.inj done).symm⟩
    · rintro ⟨⟨numbers, more⟩, rfl⟩
      rw [(each (key, v) mem_cons_self _).mpr ⟨numbers, rfl⟩, (rest _).mpr ⟨more, rfl⟩]
      rfl

theorem writeJsonValue_eq_ok (formed : v.Formed n) (out : Bytes) :
    writeJsonValue true v = .ok out ↔ v.EachNumber Accepted ∧ out = writeValueInto v := by
  induction formed generalizing out with
  | null =>
    rw [writeJsonValue, writeValueInto, ok.injEq, eq_comm]
    exact (and_iff_right .null).symm
  | bool b =>
    rw [writeJsonValue, writeValueInto, ok.injEq, eq_comm]
    exact (and_iff_right (.bool b)).symm
  | string s =>
    rw [writeJsonValue, writeValueInto, ok.injEq, writeJsonString_eq, eq_comm]
    exact (and_iff_right (.string s)).symm
  | number k =>
    rw [writeJsonValue, writeValueInto, if_pos rfl]
    constructor
    · intro written
      obtain ⟨⟨⟩, accepted, done⟩ := bind_eq_ok.mp written
      exact ⟨.number accepted, (ok.inj done).symm⟩
    · rintro ⟨numbers, rfl⟩
      cases numbers with
      | number accepted =>
        rw [accepted]
        rfl
  | array _ ih =>
    rw [writeJsonValue, writeValueInto]
    have items := writeJsonItems_eq_ok ih true
    constructor
    · intro written
      obtain ⟨o, inner, done⟩ := bind_eq_ok.mp written
      obtain ⟨numbers, rfl⟩ := (items o).mp inner
      exact ⟨.array numbers, (ok.inj done).symm⟩
    · rintro ⟨numbers, rfl⟩
      cases numbers with
      | array inner =>
        rw [(items _).mpr ⟨inner, rfl⟩]
        rfl
  | object _ _ ih =>
    rw [writeJsonValue, writeValueInto]
    have members := writeJsonMembers_eq_ok ih true
    constructor
    · intro written
      obtain ⟨o, inner, done⟩ := bind_eq_ok.mp written
      obtain ⟨numbers, rfl⟩ := (members o).mp inner
      exact ⟨.object numbers, (ok.inj done).symm⟩
    · rintro ⟨numbers, rfl⟩
      cases numbers with
      | object inner =>
        rw [(members _).mpr ⟨inner, rfl⟩]
        rfl

variable {n : Nat}

theorem keptValue_cases (kept : keptValue paths key v = some w) :
    w = v ∨ ∃ inner, v = .object inner ∧ ∃ test, w = .object (inner.filter test) := by
  by_cases direct : key ∈ directPaths paths
  · rw [keptValue_direct direct] at kept
    exact .inl (Option.some.inj kept).symm
  · cases v with
    | object inner =>
      rw [keptValue_object direct] at kept
      split at kept
      · cases kept
      · cases kept
        exact .inr ⟨inner, rfl, _, rfl⟩
    | _ =>
      rw [keptValue_leaf direct (by simp)] at kept
      cases kept

theorem Formed.filter (formed : (object members).Formed n) (test : String × Value → Bool) :
    (object (members.filter test)).Formed n := by
  cases formed with
  | object sorted inner => exact .object (sorted.filter _) fun m mem => inner m (mem_filter.mp mem).1

theorem EachNumber.filter {good : Number → Prop} (numbers : (object members).EachNumber good)
    (test : String × Value → Bool) : (object (members.filter test)).EachNumber good := by
  cases numbers with
  | object inner => exact .object fun m mem => inner m (mem_filter.mp mem).1

structure Hereditary (P : Value → Prop) : Prop where
  filter : ∀ members test, P (.object members) → P (.object (members.filter test))

theorem keptValue_hereditary {P : Value → Prop} (hereditary : Hereditary P) (kept : keptValue paths key v = some w)
    (holds : P v) : P w := by
  rcases keptValue_cases kept with rfl | ⟨inner, rfl, test, rfl⟩
  · exact holds
  · exact hereditary.filter inner test holds

theorem redactContent_members {P : Value → Prop} (hereditary : Hereditary P) {content : Value}
    (ordered : Ordered content) {paths : List String} (each : ∀ key v, content.get key = some v → P v) :
    ∀ m ∈ paths.foldl (keepPath content) [], P m.2 := by
  intro m mem
  obtain ⟨sorted, kept⟩ := lookup_keepPath ordered paths
  have found := (mem_iff_lookup sorted).mp mem
  rw [kept] at found
  obtain ⟨v, given, kept⟩ := Option.bind_eq_some_iff.mp found
  exact keptValue_hereditary hereditary kept (each m.1 v given)

theorem redactContent_formed {content : Value} (formed : content.Formed (n + 1)) (rule : RedactionRule) :
    (redactContent content rule).Formed (n + 1) := by
  cases rule with
  | none => exact .object .nil (by simp)
  | all => exact formed
  | keys paths =>
    refine .object (lookup_keepPath (Formed.ordered formed) paths).1 ?_
    apply redactContent_members ⟨fun members test holds => Formed.filter holds test⟩ (Formed.ordered formed)
    intro _ _ found
    cases formed with
    | object _ inner => exact inner _ (mem_of_lookup found)
    | _ => cases found

theorem redactContent_numbers {good : Number → Prop} {content : Value} (formed : content.Formed n)
    (numbers : content.EachNumber good) (rule : RedactionRule) : (redactContent content rule).EachNumber good := by
  cases rule with
  | none => exact .object (by simp)
  | all => exact numbers
  | keys paths =>
    refine .object (redactContent_members ⟨fun members test holds => EachNumber.filter holds test⟩
      (Formed.ordered formed) ?_)
    intro _ _ found
    cases numbers with
    | object inner => exact inner _ (mem_of_lookup found)
    | _ => cases found

def hashedValue (v : Value) (roomVersion : String) : Value :=
  match v with
  | .object obj => .object (hashedMembers obj roomVersion)
  | _ => .object []

def contentHashedValue : Value → Value
  | .object obj => .object (obj.filter fun m => decide (m.1 ≠ "unsigned" ∧ m.1 ≠ "signatures" ∧ m.1 ≠ "hashes"))
  | _ => .object []

theorem redactedContent_formed (formed : (object obj).Formed (n + 2)) (roomVersion : String) :
    (redactedContent obj roomVersion).Formed (n + 1) := by
  unfold redactedContent
  cases found : lookup obj fieldContent with
  | none => exact .object .nil (by simp)
  | some c =>
    cases formed with
    | object _ inner => exact redactContent_formed (inner _ (mem_of_lookup found)) _

theorem redactedContent_numbers {good : Number → Prop} (formed : (object obj).Formed n)
    (numbers : (object obj).EachNumber good) (roomVersion : String) :
    (redactedContent obj roomVersion).EachNumber good := by
  unfold redactedContent
  cases found : lookup obj fieldContent with
  | none => exact .object (by simp)
  | some c =>
    cases formed with
    | object _ inner =>
      cases numbers with
      | object holds => exact redactContent_numbers (inner _ (mem_of_lookup found)) (holds _ (mem_of_lookup found)) _

theorem hashedValue_formed {v : Value} (formed : v.Formed (n + 2)) (roomVersion : String) :
    (hashedValue v roomVersion).Formed (n + 2) := by
  cases v with
  | object obj =>
    have content := redactedContent_formed formed roomVersion
    cases formed with
    | object sorted inner =>
      refine .object (SortedKeys.assign (sorted.filter _) _ _) fun m mem => ?_
      rcases mem_assign.mp mem with rfl | ⟨kept, _⟩
      · exact content
      · exact inner m (mem_filter.mp kept).1
  | _ => exact .object .nil (by simp)

theorem hashedValue_numbers {good : Number → Prop} (formed : v.Formed n) (numbers : v.EachNumber good)
    (roomVersion : String) : (hashedValue v roomVersion).EachNumber good := by
  cases v with
  | object obj =>
    have content := redactedContent_numbers formed numbers roomVersion
    cases numbers with
    | object inner =>
      refine .object fun m mem => ?_
      rcases mem_assign.mp mem with rfl | ⟨kept, _⟩
      · exact content
      · exact inner m (mem_filter.mp kept).1
  | _ => exact .object (by simp)

theorem contentHashedValue_formed {v : Value} (formed : v.Formed (n + 1)) : (contentHashedValue v).Formed (n + 1) := by
  cases v with
  | object obj => exact Formed.filter formed _
  | _ => exact .object .nil (by simp)

theorem contentHashedValue_numbers {good : Number → Prop} (numbers : v.EachNumber good) :
    (contentHashedValue v).EachNumber good := by
  cases v with
  | object obj => exact EachNumber.filter numbers _
  | _ => exact .object (by simp)

theorem writeRedactedCanonical_hashed (formed : v.Formed n) (roomVersion : String) :
    writeRedactedCanonical v roomVersion =
      writeJsonValue (roomVersionIsV6OrLater roomVersion) (hashedValue v roomVersion) := by
  cases formed with
  | object sorted _ => rw [writeRedactedCanonical_stream sorted, hashedValue]
  | _ =>
    rw [hashedValue, writeJsonValue, writeJsonMembers]
    · rfl
    all_goals simp

theorem writeContentHashMembers_eq (strictNumbers first : Bool) (obj : Object.Members) :
    writeContentHashMembers strictNumbers first obj = writeJsonMembers strictNumbers first
      (obj.filter fun m => decide (m.1 ≠ "unsigned" ∧ m.1 ≠ "signatures" ∧ m.1 ≠ "hashes")) := by
  induction obj generalizing first with
  | nil => rfl
  | cons m obj ih =>
    obtain ⟨key, -⟩ := m
    rw [writeContentHashMembers]
    by_cases dropped : key = "unsigned" ∨ key = "signatures" ∨ key = "hashes"
    · rw [if_pos dropped, ih, filter_cons_of_neg]
      simpa [imp_iff_not_or] using dropped
    · rw [if_neg dropped, ih, filter_cons_of_pos, writeJsonMembers]
      simpa [not_or] using dropped

theorem writeContentHashCanonical_eq (strictNumbers : Bool) (v : Value) :
    writeContentHashCanonical strictNumbers v = writeJsonValue strictNumbers (contentHashedValue v) := by
  cases v with
  | object obj =>
    rw [contentHashedValue, writeJsonValue, writeContentHashCanonical, writeContentHashMembers_eq]
  | _ =>
    rw [contentHashedValue, writeJsonValue, writeJsonMembers]
    · rfl
    all_goals simp

end

def CanonicalInteger (n : Number) : Prop := ∃ i : Int, i.natAbs ≤ maxSafeInteger ∧ n = .ofInt i

def Beyond64 (n : Number) : Prop := ∃ i : Int, (i < -2 ^ 63 ∨ 2 ^ 64 ≤ i) ∧ n = .ofInt i

/-- A text whose every number is canonical. The parser keeps numbers as they are spelled, but for `-0`, of which it
    makes a float. -/
def OnlyCanonical (text : Bytes) : Prop :=
  ∃ w, Value.parseBytes (fun _ => none) text = .ok w ∧ w.EachNumber CanonicalInteger

/-- What is hashed or signed of an event in a room with strict canonical numbers has only canonical numbers. -/
def StrictNumbers (v : Value) (roomVersion : String) : Prop :=
  (∀ text, tryCanonicalRedactedJson v roomVersion = .ok text → OnlyCanonical text) ∧
  (∀ hash digest, referenceHash hash v roomVersion = .ok digest →
    ∀ text, writeRedactedCanonical v roomVersion = .ok text → OnlyCanonical text) ∧
  ∀ hash digest, computeContentHash hash v roomVersion = .ok digest →
    ∀ text, writeContentHashCanonical (roomVersionIsV6OrLater roomVersion) v = .ok text → OnlyCanonical text

def SafeNumbers (w : Value) : Prop := w.EachNumber Accepted → w.EachNumber fun n => ¬ Beyond64 n

theorem ofInt_unmarked (i : Int) : (asBytes (Number.ofInt i).asStr).any floatMark = false := by
  obtain ⟨minus, int, text, whole, sign⟩ := integer_text i
  have shown : asBytes (Number.ofInt i).asStr = minus ++ int := text
  rw [shown, any_append, Bool.or_eq_false_iff]
  refine ⟨?_, by simpa using whole.unmarked⟩
  rcases sign with rfl | ⟨rfl, _⟩ <;> decide

theorem accepted_ofInt (i : Int) : Accepted (.ofInt i) ↔ i.natAbs ≤ maxSafeInteger ∨ i < -2 ^ 63 ∨ 2 ^ 64 ≤ i := by
  have safe : maxSafeInteger = 2 ^ 53 - 1 := rfl
  unfold Accepted validateCanonicalNumber
  rw [ofInt_unmarked, asI64_ofInt, asU64_ofInt, if_neg (by simp)]
  by_cases signed : -2 ^ 63 ≤ i ∧ i ≤ 2 ^ 63 - 1
  · rw [if_pos signed]
    dsimp only
    split
    · rename_i large
      exact ⟨(nomatch ·), fun given => by omega⟩
    · exact ⟨fun _ => .inl (by omega), fun _ => rfl⟩
  · rw [if_neg signed]
    by_cases unsigned : 0 ≤ i ∧ i ≤ 2 ^ 64 - 1
    · rw [if_pos unsigned]
      dsimp only
      rw [if_pos (by omega)]
      exact ⟨(nomatch ·), fun given => by omega⟩
    · rw [if_neg unsigned]
      exact ⟨fun _ => .inr (by omega), fun _ => rfl⟩

variable {formatFinite : String → Option String} {n : Nat} {w : Value}

section

variable (floats : FormatsFloats formatFinite)
include floats

theorem accepted_parsed (parsed : Parsed formatFinite k) (accepted : Accepted k) : ∃ i, k = .ofInt i := by
  obtain ⟨source, spelled, rfl⟩ := parsed
  apply parse_integer floats spelled
  unfold Accepted validateCanonicalNumber at accepted
  split at accepted
  · cases accepted
  · rename_i unmarked
    exact Bool.not_eq_true _ ▸ unmarked

theorem accepted_text (formed : w.Formed maxDepth)
    (numbers : w.EachNumber (Parsed formatFinite)) (accepted : w.EachNumber Accepted) :
    Value.parseBytes (fun _ => none) (writeValueInto w) = .ok w := by
  have kept : w.EachNumber (Number.Kept fun _ => none) := by
    apply (numbers.and accepted).imp
    rintro k ⟨parsed, taken⟩
    obtain ⟨i, rfl⟩ := accepted_parsed floats parsed taken
    exact kept_ofInt i
  obtain ⟨t, same, parsed⟩ := parse_written formed kept
  have text : asBytes t = writeValueInto w := same
  rw [← text]
  exact parsed

theorem onlyCanonical_iff (formed : w.Formed maxDepth) (numbers : w.EachNumber (Parsed formatFinite)) :
    (∀ text, writeJsonValue true w = .ok text → OnlyCanonical text) ↔ SafeNumbers w := by
  constructor
  · intro canonical accepted
    obtain ⟨w', parsed, only⟩ := canonical _ ((writeJsonValue_eq_ok formed _).mpr ⟨accepted, rfl⟩)
    rw [accepted_text floats formed numbers accepted] at parsed
    cases parsed
    apply only.imp
    rintro k ⟨i, safe, rfl⟩ ⟨j, beyond, same⟩
    rw [← ofInt_injective same] at beyond
    have bound : maxSafeInteger = 2 ^ 53 - 1 := rfl
    omega
  · intro safe text written
    obtain ⟨accepted, rfl⟩ := (writeJsonValue_eq_ok formed text).mp written
    refine ⟨w, accepted_text floats formed numbers accepted, ?_⟩
    apply ((numbers.and accepted).and (safe accepted)).imp
    rintro k ⟨⟨parsed, taken⟩, within⟩
    obtain ⟨i, rfl⟩ := accepted_parsed floats parsed taken
    rcases (accepted_ofInt i).mp taken with small | beyond
    · exact ⟨i, small, rfl⟩
    · exact absurd ⟨i, beyond, rfl⟩ within

theorem strictNumbers_iff {t : String} {v : Value}
    (parsed : Value.parse formatFinite t = .ok v) {roomVersion : String}
    (strict : roomVersionIsV6OrLater roomVersion = true) :
    StrictNumbers v roomVersion ↔ SafeNumbers (hashedValue v roomVersion) ∧ SafeNumbers (contentHashedValue v) := by
  obtain ⟨formed, numbers⟩ := parse_formed parsed
  have hashed := onlyCanonical_iff floats (hashedValue_formed (n := maxDepth - 2) formed roomVersion)
    (hashedValue_numbers formed numbers roomVersion)
  have content := onlyCanonical_iff floats (contentHashedValue_formed (n := maxDepth - 1) formed)
    (contentHashedValue_numbers numbers)
  have supported : isSupportedRoomVersion roomVersion = true := by
    unfold isSupportedRoomVersion
    unfold roomVersionIsV6OrLater at strict
    cases format : RoomVersionFormat.parse roomVersion with
    | none =>
      rw [format] at strict
      cases strict
    | some _ => rfl
  rw [← hashed, ← content]
  have redacted := writeRedactedCanonical_hashed formed roomVersion
  rw [strict] at redacted
  unfold StrictNumbers tryCanonicalRedactedJson computeContentHash
  rw [supported, strict, redacted, writeContentHashCanonical_eq]
  simp only [if_true]
  constructor
  · rintro ⟨canonical, _, covered⟩
    constructor
    · intro text written
      exact canonical text (by rw [written]; rfl)
    · intro text written
      exact covered ⟨id, fun _ _ => "", fun _ _ _ => .ok ""⟩ "" (by rw [written]) text written
  · rintro ⟨canonical, covered⟩
    refine ⟨?_, fun _ _ _ => canonical, fun _ _ _ => covered⟩
    intro text written
    cases whole : writeJsonValue true (hashedValue v roomVersion) with
    | ok out =>
      rw [whole] at written
      cases written
      exact canonical text whole
    | error _ =>
      rw [whole] at written
      cases written

end

theorem seven_within : ¬ Beyond64 ⟨"7"⟩ := by
  rintro ⟨i, beyond, same⟩
  obtain rfl : (7 : Int) = i := ofInt_injective same
  omega

theorem strictNumbers_seven : StrictNumbers (.object [("depth", .number ⟨"7"⟩)]) "6" := by
  have hashed : SafeNumbers (.object [("content", .object []), ("depth", .number ⟨"7"⟩)]) := by
    refine fun _ => .object fun member mem => ?_
    rcases mem_cons.mp mem with rfl | mem
    · exact .object fun _ none => nomatch none
    · rw [mem_singleton.mp mem]
      exact .number seven_within
  have content : SafeNumbers (.object [("depth", .number ⟨"7"⟩)]) := by
    refine fun _ => .object fun member mem => ?_
    rw [mem_singleton.mp mem]
    exact .number seven_within
  exact (strictNumbers_iff (t := "\x7b\"depth\":7\x7d") (v := .object [("depth", .number ⟨"7"⟩)])
    formatsFloats_zeroOnly rfl (by decide)).mpr ⟨hashed, content⟩

def deepEvent : String := "\x7b\"depth\":18446744073709551616\x7d"

theorem deepEvent_hashed : ¬ ∀ formatFinite, FormatsFloats formatFinite → ∀ t v, Value.parse formatFinite t = .ok v →
    ∀ roomVersion, roomVersionIsV6OrLater roomVersion = true → StrictNumbers v roomVersion := by
  intro strict
  have canonical := (strict _ formatsFloats_zeroOnly deepEvent (.object [("depth", .number ⟨"18446744073709551616"⟩)])
    rfl "6" (by decide)).1
  obtain ⟨w, parsed, only⟩ := canonical (asBytes "\x7b\"content\":\x7b\x7d,\"depth\":18446744073709551616\x7d") rfl
  have read : Value.parseBytes (fun _ => none) (asBytes "\x7b\"content\":\x7b\x7d,\"depth\":18446744073709551616\x7d") =
      .ok (.object [("content", .object []), ("depth", .number ⟨"18446744073709551616"⟩)]) := rfl
  rw [read] at parsed
  cases parsed
  cases only with
  | object inner =>
    cases inner ("depth", .number ⟨"18446744073709551616"⟩) (by simp) with
    | number canonical =>
      obtain ⟨i, safe, same⟩ := canonical
      have none : (Number.mk "18446744073709551616").asI64 = none := by decide
      have bound : maxSafeInteger = 2 ^ 53 - 1 := rfl
      rw [same, asI64_ofInt, if_pos (by omega)] at none
      cases none

end Rezzy.Basespec
