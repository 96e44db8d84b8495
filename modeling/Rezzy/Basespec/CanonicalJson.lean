import Rezzy.Basespec.Redaction

namespace Rezzy.Basespec

open Json

inductive CanonicalizationError where
  | fractionalOrExponentNumber
  | outOfRangeNumber
deriving DecidableEq, Repr

def CanonicalizationError.display : CanonicalizationError → String
  | fractionalOrExponentNumber => "fractional or exponent-form number in canonical JSON"
  | outOfRangeNumber => "out-of-range number in canonical JSON"

section

def lowerHex4 (n : Nat) : Bytes :=
  [hexDigitByte (n / 4096 % 16), hexDigitByte (n / 256 % 16), hexDigitByte (n / 16 % 16), hexDigitByte (n % 16)]

def jsonEscape (b : UInt8) : Bytes :=
  if b = quote then [backslash, quote]
  else if b = backslash then [backslash, backslash]
  else if b = 0x08 then [backslash, 0x62]
  else if b = 0x09 then [backslash, 0x74]
  else if b = 0x0a then [backslash, 0x6e]
  else if b = 0x0c then [backslash, 0x66]
  else if b = 0x0d then [backslash, 0x72]
  else [backslash, 0x75] ++ lowerHex4 b.toNat

def writeJsonRuns : Bytes → Bytes → Bytes
  | run, [] => run
  | run, b :: rest =>
    if b = quote ∨ b = backslash ∨ b ≤ 0x1f then run ++ jsonEscape b ++ writeJsonRuns [] rest
    else writeJsonRuns (run ++ [b]) rest

def writeJsonString (s : String) : Bytes := quote :: (writeJsonRuns [] (asBytes s) ++ [quote])

def validateCanonicalNumber (n : Number) : Except CanonicalizationError Unit :=
  if (asBytes n.asStr).any floatMark then .error .fractionalOrExponentNumber
  else
    match n.asI64 with
    | some v => if maxSafeInteger < v.natAbs then .error .outOfRangeNumber else .ok ()
    | none =>
      match n.asU64 with
      | some v => if maxSafeInteger < v then .error .outOfRangeNumber else .ok ()
      | none => .ok ()

variable (strictNumbers : Bool)

mutual

def writeJsonValue : Value → Except CanonicalizationError Bytes
  | .null => .ok (asBytes "null")
  | .bool v => .ok (asBytes (if v then "true" else "false"))
  | .number n =>
    if strictNumbers then do
      validateCanonicalNumber n
      .ok (asBytes n.asStr)
    else .ok (asBytes n.asStr)
  | .string s => .ok (writeJsonString s)
  | .array items => do
    let out ← writeJsonItems true items
    .ok (openBracket :: (out ++ [closeBracket]))
  | .object map => do
    let out ← writeJsonMembers true map
    .ok (openBrace :: (out ++ [closeBrace]))

def writeJsonItems : Bool → List Value → Except CanonicalizationError Bytes
  | _, [] => .ok []
  | first, item :: items => do
    let out ← writeJsonValue item
    let rest ← writeJsonItems false items
    .ok (separator first ++ out ++ rest)

def writeJsonMembers : Bool → List (String × Value) → Except CanonicalizationError Bytes
  | _, [] => .ok []
  | first, (k, val) :: map => do
    let out ← writeJsonValue val
    let rest ← writeJsonMembers false map
    .ok (separator first ++ writeJsonString k ++ colon :: out ++ rest)

end

def writeContentHashMembers : Bool → List (String × Value) → Except CanonicalizationError Bytes
  | _, [] => .ok []
  | first, (key, v) :: obj =>
    if key = "unsigned" ∨ key = "signatures" ∨ key = "hashes" then writeContentHashMembers first obj
    else do
      let out ← writeJsonValue strictNumbers v
      let rest ← writeContentHashMembers false obj
      .ok (separator first ++ writeJsonString key ++ colon :: out ++ rest)

def writeContentHashCanonical (value : Value) : Except CanonicalizationError Bytes :=
  match value with
  | .object obj => do
    let out ← writeContentHashMembers strictNumbers true obj
    .ok (openBrace :: (out ++ [closeBrace]))
  | _ => .ok [openBrace, closeBrace]

end

section

def keepsKey (isV12Create msc4242 : Bool) (roomVersion key : String) : Bool :=
  if key ∈ [fieldEventId, fieldType, fieldSender, fieldStateKey, fieldHashes, fieldDepth, fieldPrevEvents,
      fieldAuthEvents, fieldOriginServerTs, fieldContent] then true
  else if key = "room_id" then !isV12Create
  else if key = "prev_state_events" then msc4242
  else if key = "origin" ∨ key = "membership" ∨ key = "prev_state" then !roomVersionIsV11OrLater roomVersion
  else false

def writeAbsentContent (first : Bool) : Bytes :=
  separator first ++ writeJsonString fieldContent ++ [colon, openBrace, closeBrace]

def writeRedactedMembers (keep : String → Bool) (rule : RedactionRule) (strictNumbers : Bool) :
    Bool → Bool → List (String × Value) → Except CanonicalizationError Bytes
  | first, contentWritten, [] => .ok (if contentWritten then [] else writeAbsentContent first)
  | first, contentWritten, (key, v) :: obj => do
    let absent := !contentWritten && fieldContent < key
    let content := if absent then writeAbsentContent first else []
    let first := first && !absent
    let contentWritten := contentWritten || absent
    if keep key then do
      let out ← writeJsonValue strictNumbers (if key = fieldContent then redactContent v rule else v)
      let rest ← writeRedactedMembers keep rule strictNumbers false (contentWritten || key = fieldContent) obj
      .ok (content ++ separator first ++ writeJsonString key ++ colon :: out ++ rest)
    else do
      let rest ← writeRedactedMembers keep rule strictNumbers first contentWritten obj
      .ok (content ++ rest)

def writeRedactedCanonical (value : Value) (roomVersion : String) : Except CanonicalizationError Bytes :=
  match value with
  | .object obj => do
    let eventType := ((Sorted.lookup obj fieldType).bind Value.asStr).getD ""
    let rule := redactionPreservedKeys eventType roomVersion
    let isV12Create := eventType = mRoomCreate && roomVersionIsV12OrLater roomVersion
    let msc4242 := isMsc4242RoomVersion roomVersion
    let strictNumbers := roomVersionIsV6OrLater roomVersion
    let out ← writeRedactedMembers (keepsKey isV12Create msc4242 roomVersion) rule strictNumbers true false obj
    .ok (openBrace :: (out ++ [closeBrace]))
  | _ => .ok [openBrace, closeBrace]

def isSupportedRoomVersion (roomVersion : String) : Bool := (RoomVersionFormat.parse roomVersion).isSome

def majorVersion (roomVersion : String) : Option Nat := parseU32 (String.ofList (roomVersion.toList.takeWhile (· ≠ '.')))

def hasOpaqueEventIds (roomVersion : String) : Bool := (majorVersion roomVersion).any (· ≤ 2)

inductive Base64Alphabet where
  | standard
  | urlSafe
deriving DecidableEq, Repr

def hashBase64Engine (roomVersion : String) : Base64Alphabet :=
  if (majorVersion roomVersion).any (· = 3) then .standard else .urlSafe

def writeFailure (error : CanonicalizationError) : String := "failed to write canonical JSON: " ++ error.display

def tryCanonicalRedactedJson (value : Value) (roomVersion : String) : Except String Bytes :=
  if isSupportedRoomVersion roomVersion then (writeRedactedCanonical value roomVersion).mapError writeFailure
  else .error ("no canonical redacted JSON for unsupported room version " ++ roomVersion)

/-- The digest of SHA-256, and base64 without padding: `encodeSlice` gives ASCII of at most so many bytes, so that
    reading it as UTF-8 does not fail. -/
structure HashFunctions where
  sha256 : Bytes → Bytes
  encode : Base64Alphabet → Bytes → String
  encodeSlice : Base64Alphabet → Bytes → Nat → Except String String

variable (hash : HashFunctions)

def referenceHashDigest (value : Value) (roomVersion : String) : Except String Bytes :=
  if hasOpaqueEventIds roomVersion then
    .error ("no reference hash for room version " ++ roomVersion ++
      ": v1/v2 event IDs are opaque server-assigned strings, not hashes")
  else if (StateResVersion.fromRoomVersion roomVersion).isNone then
    .error ("no reference hash for unsupported room version " ++ roomVersion ++
      ": its event ID hash rules are undefined")
  else
    match writeRedactedCanonical value roomVersion with
    | .ok written => .ok (hash.sha256 written)
    | .error error => .error (writeFailure error)

def referenceHash (value : Value) (roomVersion : String) : Except String String := do
  let digest ← referenceHashDigest hash value roomVersion
  (hash.encodeSlice (hashBase64Engine roomVersion) digest 43).mapError ("failed to encode reference hash: " ++ ·)

def computeContentHash (value : Value) (roomVersion : String) : Except String String :=
  if isSupportedRoomVersion roomVersion then
    match writeContentHashCanonical (roomVersionIsV6OrLater roomVersion) value with
    | .ok written => .ok (hash.encode .standard (hash.sha256 written))
    | .error error => .error (writeFailure error)
  else
    .error ("no content hash for unsupported room version " ++ roomVersion ++ ": its canonical JSON rules are undefined")

end

open Json Sorted

def withoutSignatures : Value → Value
  | .object members => .object (erase members fieldSignatures)
  | other => other

section

variable {rule : RedactionRule} {obj : Object.Members}

def contentOf (rule : RedactionRule) (obj : Object.Members) : Value :=
  match lookup obj fieldContent with
  | none => .object []
  | some c => redactContent c rule

theorem contentOf_cons_other (other : m.1 ≠ fieldContent) : contentOf rule (m :: obj) = contentOf rule obj := by
  unfold contentOf
  rw [lookup_cons, if_neg other.symm]

theorem contentOf_absent (above : Above obj fieldContent) : contentOf rule obj = .object [] := by
  unfold contentOf
  rw [lookup_of_above above]

theorem contentOf_found : contentOf rule ((fieldContent, v) :: obj) = redactContent v rule := by
  unfold contentOf
  rw [lookup_cons, if_pos rfl]

theorem writeJsonMembers_cons (first : Bool) (key : String) (v : Value) (map : Object.Members) :
    writeJsonMembers strictNumbers first ((key, v) :: map) =
      (writeJsonValue strictNumbers v).bind fun out => (writeJsonMembers strictNumbers false map).bind fun rest =>
        .ok (separator first ++ writeJsonString key ++ colon :: out ++ rest) := by
  rw [writeJsonMembers]
  rfl

theorem writeJsonMembers_absent (first : Bool) (map : Object.Members) :
    writeJsonMembers strictNumbers first ((fieldContent, .object []) :: map) =
      (writeJsonMembers strictNumbers false map).bind fun rest => .ok (writeAbsentContent first ++ rest) := by
  rw [writeJsonMembers_cons, writeJsonValue, writeJsonMembers]
  cases writeJsonMembers strictNumbers false map with
  | error _ => rfl
  | ok rest =>
    dsimp only [bind, Except.bind, writeAbsentContent]
    simp

open List

theorem writeRedactedMembers_cons (present : written = true ∨ ¬ fieldContent < key) (first : Bool) :
    writeRedactedMembers keep rule strictNumbers first written ((key, v) :: obj) = if keep key then
        (writeJsonValue strictNumbers (if key = fieldContent then redactContent v rule else v)).bind fun out =>
          (writeRedactedMembers keep rule strictNumbers false (written || key = fieldContent) obj).bind fun rest =>
            .ok (separator first ++ writeJsonString key ++ colon :: out ++ rest)
      else writeRedactedMembers keep rule strictNumbers first written obj := by
  have absent : (!written && decide (fieldContent < key)) = false := by
    rcases present with rfl | before
    · rfl
    · rw [decide_eq_false before, Bool.and_false]
  rw [writeRedactedMembers, absent]
  simp only [Bool.not_false, Bool.and_true, Bool.or_false, Bool.false_eq_true, if_false, nil_append]
  split
  · rfl
  · cases writeRedactedMembers keep rule strictNumbers first written obj <;> rfl

theorem writeRedactedMembers_absent (behind : fieldContent < key) (v : Value) (first : Bool) :
    writeRedactedMembers keep rule strictNumbers first false ((key, v) :: obj) =
      (writeRedactedMembers keep rule strictNumbers false true ((key, v) :: obj)).bind fun rest =>
        .ok (writeAbsentContent first ++ rest) := by
  rw [writeRedactedMembers_cons (.inl rfl), writeRedactedMembers, decide_eq_true behind]
  simp only [Bool.not_false, Bool.and_true, Bool.not_true, Bool.and_false, Bool.or_true, Bool.true_or, if_true]
  split
  · cases writeJsonValue strictNumbers (if key = fieldContent then redactContent v rule else v) with
    | error _ => rfl
    | ok out =>
      cases writeRedactedMembers keep rule strictNumbers false true obj with
      | error _ => rfl
      | ok rest =>
        dsimp only [bind, Except.bind]
        simp
  · cases writeRedactedMembers keep rule strictNumbers false true obj <;> rfl

theorem writeRedactedMembers_written (above : Above obj fieldContent) (first : Bool) :
    writeRedactedMembers keep rule strictNumbers first true obj =
      writeJsonMembers strictNumbers first (obj.filter fun m => keep m.1) := by
  induction obj generalizing first with
  | nil => rfl
  | cons m obj ih =>
    obtain ⟨key, v⟩ := m
    have behind : fieldContent < key := above (key, v) mem_cons_self
    have rest := ih fun e mem => above e (mem_cons_of_mem _ mem)
    rw [writeRedactedMembers_cons (.inl rfl)]
    cases kept : keep key with
    | true =>
      rw [filter_cons_of_pos (by simpa using kept), writeJsonMembers_cons, if_pos rfl, if_neg behind.ne', Bool.true_or,
        rest]
    | false => rw [filter_cons_of_neg (by simp [kept]), if_neg (by simp), rest]

theorem writeRedactedMembers_eq (sorted : SortedKeys obj) (keeps : keep fieldContent = true) (first : Bool) :
    writeRedactedMembers keep rule strictNumbers first false obj =
      writeJsonMembers strictNumbers first (assign (obj.filter fun m => keep m.1) fieldContent (contentOf rule obj)) := by
  induction obj generalizing first with
  | nil =>
    have none : contentOf rule [] = .object [] := rfl
    rw [filter_nil, assign_nil, none, writeJsonMembers_absent]
    rw [writeRedactedMembers, writeJsonMembers]
    dsimp only [Except.bind]
    simp
  | cons m obj ih =>
    obtain ⟨key, v⟩ := m
    obtain ⟨above, rest⟩ := pairwise_cons.mp sorted
    rcases lt_trichotomy key fieldContent with before | rfl | behind
    · rw [writeRedactedMembers_cons (.inr before.not_gt), contentOf_cons_other before.ne]
      cases kept : keep key with
      | true =>
        rw [filter_cons_of_pos (by simpa using kept), assign_cons_below before, writeJsonMembers_cons, if_pos rfl,
          if_neg before.ne, decide_eq_false before.ne, Bool.or_false, ih rest]
      | false => rw [filter_cons_of_neg (by simp [kept]), if_neg (by simp), ih rest]
    · rw [writeRedactedMembers_cons (.inr (lt_irrefl _)), keeps, if_pos rfl, if_pos rfl, contentOf_found,
        filter_cons_of_pos (by simpa using keeps), assign_head (fun e mem => above e (mem_filter.mp mem).1),
        writeJsonMembers_cons, decide_eq_true rfl, Bool.or_true, writeRedactedMembers_written above]
    · have later : Above ((key, v) :: obj) fieldContent := by
        intro e mem
        rcases mem_cons.mp mem with rfl | mem
        · exact behind
        · exact behind.trans (above e mem)
      rw [writeRedactedMembers_absent behind, writeRedactedMembers_written later, contentOf_absent later,
        assign_above (fun e mem => later e (mem_filter.mp mem).1), writeJsonMembers_absent]

end

variable {obj : Object.Members} {roomVersion : String}

theorem isV12CreateOf_eq :
    (decide (eventTypeOf obj = mRoomCreate) && roomVersionIsV12OrLater roomVersion) = isV12CreateOf obj roomVersion := by
  unfold eventTypeOf isV12CreateOf
  cases (lookup obj fieldType).bind Value.asStr with
  | none => rfl
  | some type => simp

theorem keepsKey_eq (isV12Create : Bool) (key : String) :
    keepsKey isV12Create (isMsc4242RoomVersion roomVersion) roomVersion key =
      decide (key ∈ topLevelKeys isV12Create roomVersion ∧ key ≠ fieldSignatures) := by
  unfold keepsKey topLevelKeys
  generalize isMsc4242RoomVersion roomVersion = msc4242
  generalize roomVersionIsV11OrLater roomVersion = v11
  rw [Bool.eq_iff_iff, decide_eq_true_iff]
  by_cases signatures : key = fieldSignatures
  · subst signatures
    cases isV12Create <;> cases msc4242 <;> cases v11 <;> decide
  · cases isV12Create <;> cases msc4242 <;> cases v11 <;> simp [signatures] <;> grind

def hashedMembers (obj : Object.Members) (roomVersion : String) : Object.Members :=
  assign (obj.filter fun m => decide (m.1 ∈ keptKeys obj roomVersion ∧ m.1 ≠ fieldSignatures)) fieldContent
    (redactedContent obj roomVersion)

theorem withoutSignatures_redactJson (sorted : SortedKeys obj) :
    withoutSignatures (redactJson (.object obj) roomVersion) = .object (hashedMembers obj roomVersion) := by
  rw [redactJson_object sorted]
  apply congrArg Value.object
  have kept : SortedKeys (obj.filter fun m => decide (m.1 ∈ keptKeys obj roomVersion)) := sorted.filter _
  have hashed : SortedKeys (obj.filter fun m => decide (m.1 ∈ keptKeys obj roomVersion ∧ m.1 ≠ fieldSignatures)) :=
    sorted.filter _
  have redacted := kept.assign fieldContent (redactedContent obj roomVersion)
  apply (redacted.erase fieldSignatures).ext_lookup (hashed.assign _ _)
  intro key
  rw [lookup_erase redacted, lookup_assign kept, lookup_assign hashed, lookup_kept,
    lookup_filter obj fun k => decide (k ∈ keptKeys obj roomVersion ∧ k ≠ fieldSignatures)]
  by_cases signatures : key = fieldSignatures
  · rw [signatures, if_pos rfl, if_neg (by decide), if_neg (by simp)]
  · simp [signatures]

theorem writeRedactedCanonical_stream (sorted : SortedKeys obj) (roomVersion : String) :
    writeRedactedCanonical (.object obj) roomVersion =
      writeJsonValue (roomVersionIsV6OrLater roomVersion) (.object (hashedMembers obj roomVersion)) := by
  have keep : keepsKey (isV12CreateOf obj roomVersion) (isMsc4242RoomVersion roomVersion) roomVersion =
      fun key => decide (key ∈ keptKeys obj roomVersion ∧ key ≠ fieldSignatures) := funext (keepsKey_eq _)
  have keeps : decide (fieldContent ∈ keptKeys obj roomVersion ∧ fieldContent ≠ fieldSignatures) = true :=
    decide_eq_true ⟨content_kept, by decide⟩
  have stream : writeRedactedMembers (fun key => decide (key ∈ keptKeys obj roomVersion ∧ key ≠ fieldSignatures))
      (redactionPreservedKeys (eventTypeOf obj) roomVersion) (roomVersionIsV6OrLater roomVersion) true false obj = _ :=
    writeRedactedMembers_eq sorted keeps true
  rw [writeJsonValue]
  unfold writeRedactedCanonical
  dsimp only
  rw [← eventTypeOf, isV12CreateOf_eq, keep, stream]
  rfl

theorem writeRedactedCanonical_eq (sorted : SortedKeys obj) (roomVersion : String) :
    writeRedactedCanonical (.object obj) roomVersion =
      writeJsonValue (roomVersionIsV6OrLater roomVersion)
        (withoutSignatures (redactJson (.object obj) roomVersion)) := by
  rw [withoutSignatures_redactJson sorted, writeRedactedCanonical_stream sorted]

def bareEvent : Object.Members :=
  assignAll [("age", .number ⟨"1"⟩), ("depth", .number ⟨"7"⟩), ("signatures", .object []), ("type", .string mRoomMember)]

theorem writeRedactedCanonical_bareEvent : writeRedactedCanonical (.object bareEvent) "11" =
    writeJsonValue (roomVersionIsV6OrLater "11") (withoutSignatures (redactJson (.object bareEvent) "11")) :=
  writeRedactedCanonical_eq (assignAll_sorted _) "11"

theorem Formed.ordered (formed : v.Formed n) : Ordered v := by
  intro _ _ found
  cases formed with
  | object _ values =>
    cases values _ (mem_of_lookup found) with
    | object sorted _ => exact sorted
  | _ => cases found

/-- Redaction does not change the identity of an event. -/
theorem redactJson_identity {n : Nat} (formed : (Value.object obj).Formed n) (roomVersion : String) :
    redactJson (redactJson (.object obj) roomVersion) roomVersion = redactJson (.object obj) roomVersion ∧
    tryCanonicalRedactedJson (redactJson (.object obj) roomVersion) roomVersion =
      tryCanonicalRedactedJson (.object obj) roomVersion ∧
    ∀ hash, referenceHash hash (redactJson (.object obj) roomVersion) roomVersion =
      referenceHash hash (.object obj) roomVersion := by
  cases formed with
  | object sorted values =>
    have again : redactJson (redactJson (.object obj) roomVersion) roomVersion = redactJson (.object obj) roomVersion :=
      redactJson_again sorted fun c found => Formed.ordered (values _ (mem_of_lookup found))
    have written : writeRedactedCanonical (redactJson (.object obj) roomVersion) roomVersion =
        writeRedactedCanonical (.object obj) roomVersion := by
      rw [writeRedactedCanonical_stream sorted, ← withoutSignatures_redactJson sorted]
      rw [redactJson_object sorted] at again ⊢
      have sorted' := SortedKeys.assign (sorted.filter fun m => decide (m.1 ∈ keptKeys obj roomVersion)) fieldContent
        (redactedContent obj roomVersion)
      rw [writeRedactedCanonical_stream sorted', ← withoutSignatures_redactJson sorted', again]
    refine ⟨again, ?_, ?_⟩
    · unfold tryCanonicalRedactedJson
      rw [written]
    · intro hash
      unfold referenceHash referenceHashDigest
      rw [written]

theorem redactJson_identity_bareEvent :
    redactJson (redactJson (.object bareEvent) "11") "11" = redactJson (.object bareEvent) "11" ∧
    tryCanonicalRedactedJson (redactJson (.object bareEvent) "11") "11" =
      tryCanonicalRedactedJson (.object bareEvent) "11" ∧
    ∀ hash, referenceHash hash (redactJson (.object bareEvent) "11") "11" =
      referenceHash hash (.object bareEvent) "11" := by
  have formed : (Value.object bareEvent).Formed 2 := by
    apply Value.Formed.object (assignAll_sorted _)
    intro m member
    have listed := mem_assignAll member
    simp only [List.mem_cons, List.not_mem_nil, or_false] at listed
    rcases listed with rfl | rfl | rfl | rfl
    · exact .number _
    · exact .number _
    · exact .object .nil (by simp)
    · exact .string _
  exact redactJson_identity formed "11"

end Rezzy.Basespec
