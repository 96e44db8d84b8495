import Rezzy.Bitmaps.Bitmap
import Rezzy.Hamt.Codec

namespace Rezzy.Bitmaps

open List hiding count head
open Hamt (Bytes toLeBytes fromLeBytes)

def bitmapMagic : Bytes := [0x52, 0x42, 0x4d, 0x50]
def bitmapFormatVersion : UInt8 := 1

inductive BitmapDecodeError where
  | truncated
  | invalidMagic
  | unsupportedVersion (version : UInt8)
  | invalidChunkKind (kind : UInt8)
  | nonCanonical
  | trailingBytes
deriving DecidableEq

section

def Chunk.encode (self : Chunk) : Bytes :=
  toLeBytes 2 self.key.val ++
    match self.store with
    | .array values => 0 :: (toLeBytes 4 self.len ++ values.flatMap fun value => toLeBytes 2 value.val)
    | .dense words => 1 :: (toLeBytes 4 self.len ++ words.toList.flatMap fun word => toLeBytes 8 word.toNat)

/-- Without a result where the source panics: the number of chunks must fit 32 bits. -/
def Bitmap.encode (self : Bitmap) : Option Bytes :=
  if self.chunks.length < 2 ^ 32 then
    some (bitmapMagic ++ (bitmapFormatVersion :: (toLeBytes 4 self.chunks.length ++ self.chunks.flatMap Chunk.encode)))
  else none

def readByte : Bytes → Except BitmapDecodeError (UInt8 × Bytes)
  | [] => .error .truncated
  | byte :: rest => .ok (byte, rest)

def take (n : Nat) (input : Bytes) : Except BitmapDecodeError (Bytes × Bytes) :=
  if input.length < n then .error .truncated else .ok (input.take n, input.drop n)

def u16FromLe (bytes : Bytes) : U16 := Fin.ofNat (1024 * 64) (fromLeBytes bytes)

def u64FromLe (bytes : Bytes) : BitVec 64 := BitVec.ofNat 64 (fromLeBytes bytes)

def readU16 (input : Bytes) : Except BitmapDecodeError (U16 × Bytes) := do
  let (bytes, rest) ← take 2 input
  return (u16FromLe bytes, rest)

def readU32 (input : Bytes) : Except BitmapDecodeError (Nat × Bytes) := do
  let (bytes, rest) ← take 4 input
  return (fromLeBytes bytes, rest)

def chunksExact (n : Nat) : Nat → Bytes → List Bytes
  | 0, _ => []
  | count + 1, bytes => bytes.take n :: chunksExact n count (bytes.drop n)

theorem length_chunksExact (n count : Nat) (bytes : Bytes) : (chunksExact n count bytes).length = count := by
  induction count generalizing bytes with
  | zero => rfl
  | succ count ih => rw [chunksExact, length_cons, ih]

def wordsFromLe (raw : Bytes) : Words :=
  ⟨((chunksExact 8 1024 raw).map u64FromLe).toArray, by
    rw [List.size_toArray, length_map, length_chunksExact]⟩

def decodeArray (key : U16) (len : Nat) (input : Bytes) : Except BitmapDecodeError (Chunk × Bytes) := do
  if len = 0 ∨ len > arrayMax then .error .nonCanonical
  let (raw, input) ← take (len * 2) input
  let values := (chunksExact 2 len raw).map u16FromLe
  if ¬values.IsChain (· < ·) then .error .nonCanonical
  match Chunk.fromArray key values with
  | none => .error .nonCanonical
  | some chunk => .ok (chunk, input)

def decodeDense (key : U16) (len : Nat) (input : Bytes) : Except BitmapDecodeError (Chunk × Bytes) := do
  if len ≤ arrayMax then .error .nonCanonical
  let (raw, input) ← take (1024 * 8) input
  let words := wordsFromLe raw
  if popcount words ≠ len then .error .nonCanonical
  return (⟨key, len, .dense words⟩, input)

def decodeChunk (previous : Option U16) (input : Bytes) : Except BitmapDecodeError (Chunk × Bytes) := do
  let (key, input) ← readU16 input
  if previous.any fun previous => decide (key ≤ previous) then .error .nonCanonical
  let (kind, input) ← readByte input
  let (len, input) ← readU32 input
  if kind = 0 then decodeArray key len input
  else if kind = 1 then decodeDense key len input
  else .error (.invalidChunkKind kind)

def decodeChunks : Nat → Option U16 → Bytes → Except BitmapDecodeError (List Chunk × Bytes)
  | 0, _, input => .ok ([], input)
  | count + 1, previous, input => do
    let (chunk, input) ← decodeChunk previous input
    let (chunks, input) ← decodeChunks count (some chunk.key) input
    return (chunk :: chunks, input)

def Bitmap.decode (bytes : Bytes) : Except BitmapDecodeError Bitmap := do
  if bytes.length < 9 then .error .truncated
  if bytes.take 4 ≠ bitmapMagic then .error .invalidMagic
  let version := bytes.getD 4 0
  if version ≠ bitmapFormatVersion then .error (.unsupportedVersion version)
  let (count, input) ← readU32 (bytes.drop 5)
  let (chunks, input) ← decodeChunks count none input
  if ¬input.isEmpty then .error .trailingBytes
  return ⟨chunks⟩

end

open Ascending Outcome
open Hamt (Bytes toLeBytes fromLeBytes length_toLeBytes fromLeBytes_lt fromLeBytes_toLeBytes toLeBytes_fromLeBytes)

variable {input rest : Bytes} {n : Nat}

section

theorem take_iff : take n input = .ok (head, rest) ↔ input = head ++ rest ∧ head.length = n := by
  unfold take
  split
  · rename_i short
    refine iff_of_false (fun impossible => nomatch impossible) ?_
    rintro ⟨rfl, exact'⟩
    rw [length_append] at short
    omega
  · rename_i long
    constructor
    · intro taken
      cases taken
      exact ⟨(take_append_drop n input).symm, length_take_of_le (not_lt.mp long)⟩
    · rintro ⟨rfl, rfl⟩
      rw [take_left, drop_left]

theorem readByte_iff : readByte input = .ok (byte, rest) ↔ input = byte :: rest := by
  cases input with
  | nil => exact iff_of_false (fun impossible => nomatch impossible) (fun impossible => nomatch impossible)
  | cons first input =>
    constructor
    · intro read
      cases read
      rfl
    · intro same
      cases same
      rfl

theorem u16FromLe_toLeBytes (value : U16) : u16FromLe (toLeBytes 2 value.val) = value := by
  apply Fin.ext
  show fromLeBytes _ % _ = _
  rw [fromLeBytes_toLeBytes]
  omega

theorem toLeBytes_u16FromLe (length : bytes.length = 2) : toLeBytes 2 (u16FromLe bytes).val = bytes := by
  have small := fromLeBytes_lt bytes
  have whole := toLeBytes_fromLeBytes bytes
  rw [length] at small whole
  have value : (u16FromLe bytes).val = fromLeBytes bytes := Nat.mod_eq_of_lt small
  rw [value, whole]

theorem u64FromLe_toLeBytes (word : BitVec 64) : u64FromLe (toLeBytes 8 word.toNat) = word := by
  apply BitVec.eq_of_toNat_eq
  unfold u64FromLe
  rw [BitVec.toNat_ofNat, fromLeBytes_toLeBytes]
  omega

theorem toLeBytes_u64FromLe (length : bytes.length = 8) : toLeBytes 8 (u64FromLe bytes).toNat = bytes := by
  have small := fromLeBytes_lt bytes
  have whole := toLeBytes_fromLeBytes bytes
  rw [length] at small whole
  have value : (u64FromLe bytes).toNat = fromLeBytes bytes := by
    unfold u64FromLe
    rw [BitVec.toNat_ofNat]
    exact Nat.mod_eq_of_lt small
  rw [value, whole]

theorem readU16_iff : readU16 input = .ok (value, rest) ↔ input = toLeBytes 2 value.val ++ rest := by
  unfold readU16
  rw [bind_eq_ok]
  constructor
  · rintro ⟨⟨bytes, rest'⟩, taken, same⟩
    cases same
    obtain ⟨split, length⟩ := take_iff.mp taken
    rw [split, toLeBytes_u16FromLe length]
  · intro split
    refine ⟨(toLeBytes 2 value.val, rest), take_iff.mpr ⟨split, length_toLeBytes 2 value.val⟩, ?_⟩
    dsimp only
    rw [u16FromLe_toLeBytes]
    rfl

theorem readU32_iff : readU32 input = .ok (value, rest) ↔ value < 2 ^ 32 ∧ input = toLeBytes 4 value ++ rest := by
  unfold readU32
  rw [bind_eq_ok]
  constructor
  · rintro ⟨⟨bytes, rest'⟩, taken, same⟩
    cases same
    obtain ⟨split, length⟩ := take_iff.mp taken
    have small := fromLeBytes_lt bytes
    have whole := toLeBytes_fromLeBytes bytes
    rw [length] at small whole
    exact ⟨small, by rw [whole, split]⟩
  · rintro ⟨small, split⟩
    refine ⟨(toLeBytes 4 value, rest), take_iff.mpr ⟨split, length_toLeBytes 4 value⟩, ?_⟩
    dsimp only
    rw [fromLeBytes_toLeBytes, Nat.mod_eq_of_lt (show value < 256 ^ 4 from small)]
    rfl

variable {α : Type} {write : α → Bytes} {read : Bytes → α}

theorem flatten_chunksExact (count : Nat) (length : bytes.length = n * count) :
    (chunksExact n count bytes).flatten = bytes ∧ ∀ piece ∈ chunksExact n count bytes, piece.length = n := by
  induction count generalizing bytes with
  | zero =>
    rw [length_eq_zero_iff.mp length]
    exact ⟨rfl, fun _ impossible => nomatch impossible⟩
  | succ count ih =>
    rw [Nat.mul_succ] at length
    obtain ⟨rest, pieces⟩ := @ih (bytes.drop n) (by rw [length_drop]; omega)
    rw [chunksExact, flatten_cons, rest]
    refine ⟨take_append_drop n bytes, forall_mem_cons.mpr ⟨?_, pieces⟩⟩
    exact length_take_of_le (by omega)

theorem chunksExact_flatMap (length : ∀ a, (write a).length = n) (list : List α) :
    chunksExact n list.length (list.flatMap write) = list.map write := by
  induction list with
  | nil => rfl
  | cons a list ih =>
    rw [length_cons, chunksExact, flatMap_cons, take_left' (length a), drop_left' (length a), ih, map_cons]

theorem length_flatMap_write (length : ∀ a, (write a).length = n) (list : List α) :
    (list.flatMap write).length = n * list.length := by
  induction list with
  | nil => rfl
  | cons a list ih => rw [flatMap_cons, length_append, length, ih, length_cons, Nat.mul_succ, Nat.add_comm]

theorem flatMap_map_chunksExact (count : Nat) (length : bytes.length = n * count)
    (exact' : ∀ piece : Bytes, piece.length = n → write (read piece) = piece) :
    ((chunksExact n count bytes).map read).flatMap write = bytes := by
  obtain ⟨whole, pieces⟩ := flatten_chunksExact count length
  rw [flatMap_map, flatMap_def]
  have same : (chunksExact n count bytes).map (fun piece => write (read piece)) = chunksExact n count bytes := by
    conv_rhs => rw [← map_id (chunksExact n count bytes)]
    exact map_congr_left fun piece mem => exact' piece (pieces piece mem)
  rw [same, whole]

variable {key : U16} {len : Nat} {c : Chunk}

theorem wordsFromLe_write (words : Words) :
    wordsFromLe (words.toList.flatMap fun word => toLeBytes 8 word.toNat) = words := by
  have pieces := chunksExact_flatMap (fun word : BitVec 64 => length_toLeBytes 8 word.toNat) words.toList
  rw [Vector.length_toList] at pieces
  apply Vector.toList_inj.mp
  show ((chunksExact 8 1024 _).map u64FromLe).toArray.toList = _
  rw [pieces, map_map]
  conv_rhs => rw [← map_id words.toList]
  exact map_congr_left fun word _ => u64FromLe_toLeBytes word

theorem write_wordsFromLe (length : raw.length = 1024 * 8) :
    (wordsFromLe raw).toList.flatMap (fun word => toLeBytes 8 word.toNat) = raw := by
  exact flatMap_map_chunksExact 1024 (length.trans (Nat.mul_comm 1024 8)) fun piece exact' => toLeBytes_u64FromLe exact'

theorem decodeArray_iff :
    decodeArray key len input = .ok (c, rest) ↔ ∃ values, c = ⟨key, len, .array values⟩ ∧ c.Canonical ∧
      input = (values.flatMap fun value => toLeBytes 2 value.val) ++ rest := by
  unfold decodeArray
  by_cases bad : len = 0 ∨ len > arrayMax
  · rw [if_pos bad]
    refine iff_of_false (fun impossible => nomatch impossible) ?_
    rintro ⟨values, rfl, canonical, _⟩
    obtain ⟨_, counted, few⟩ := canonical.toTidy.array rfl
    rcases bad with zero | many
    · exact canonical.occupied (length_eq_zero_iff.mp (counted.symm.trans zero))
    · exact absurd (counted ▸ many) (not_lt.mpr few)
  · rw [if_neg bad, bind_eq_ok]
    rw [not_or, not_lt] at bad
    constructor
    · rintro ⟨⟨raw, input'⟩, taken, made⟩
      obtain ⟨split, length⟩ := take_iff.mp taken
      dsimp only at made
      by_cases ascends : ((chunksExact 2 len raw).map u16FromLe).IsChain (· < ·)
      · rw [if_neg (not_not.mpr ascends)] at made
        have counted : ((chunksExact 2 len raw).map u16FromLe).length = len := by
          rw [length_map, length_chunksExact]
        have written : ((chunksExact 2 len raw).map u16FromLe).flatMap (fun value => toLeBytes 2 value.val) = raw :=
          flatMap_map_chunksExact len (length.trans (Nat.mul_comm len 2)) fun piece exact' => toLeBytes_u16FromLe exact'
        generalize (chunksExact 2 len raw).map u16FromLe = values at made ascends counted written
        have holds := Chunk.fromArray_holds key (isChain_iff_pairwise.mp ascends)
        have shape : Chunk.fromArray key values = some ⟨key, len, .array values⟩ := by
          unfold Chunk.fromArray
          have occupied : ¬values.isEmpty = true := by
            rw [List.isEmpty_iff]
            rintro rfl
            exact bad.1 counted.symm
          rw [if_neg occupied, counted, if_neg (not_lt.mpr bad.2)]
        rw [shape] at made holds
        cases made
        exact ⟨values, rfl, (holds.canonical _ rfl).1, by rw [written, split]⟩
      · rw [if_pos ascends] at made
        cases made
    · rintro ⟨values, rfl, canonical, split⟩
      obtain ⟨ascends, counted, few⟩ := canonical.toTidy.array rfl
      dsimp only at counted
      have length : (values.flatMap fun value => toLeBytes 2 value.val).length = len * 2 := by
        rw [length_flatMap_write fun value : U16 => length_toLeBytes 2 value.val, counted, Nat.mul_comm]
      have read : (chunksExact 2 len (values.flatMap fun value => toLeBytes 2 value.val)).map u16FromLe = values := by
        rw [counted, chunksExact_flatMap fun value : U16 => length_toLeBytes 2 value.val, map_map]
        conv_rhs => rw [← map_id values]
        exact map_congr_left fun value _ => u16FromLe_toLeBytes value
      refine ⟨(values.flatMap fun value => toLeBytes 2 value.val, rest), take_iff.mpr ⟨split, length⟩, ?_⟩
      dsimp only
      rw [read, if_neg (not_not.mpr (isChain_iff_pairwise.mpr ascends))]
      have shape : Chunk.fromArray key values = some ⟨key, len, .array values⟩ := by
        unfold Chunk.fromArray
        have occupied : ¬values.isEmpty = true := by
          rw [List.isEmpty_iff]
          exact canonical.occupied
        rw [if_neg occupied, ← counted, if_neg (not_lt.mpr bad.2)]
      rw [shape]

theorem decodeDense_iff :
    decodeDense key len input = .ok (c, rest) ↔ ∃ words, c = ⟨key, len, .dense words⟩ ∧ c.Canonical ∧
      input = (words.toList.flatMap fun word => toLeBytes 8 word.toNat) ++ rest := by
  unfold decodeDense
  by_cases few : len ≤ arrayMax
  · rw [if_pos few]
    refine iff_of_false (fun impossible => nomatch impossible) ?_
    rintro ⟨words, rfl, canonical, _⟩
    obtain ⟨counted, many⟩ := canonical.toTidy.dense rfl
    rw [← counted] at many
    exact absurd few (not_le.mpr many)
  · rw [if_neg few, bind_eq_ok]
    constructor
    · rintro ⟨⟨raw, input'⟩, taken, made⟩
      obtain ⟨split, length⟩ := take_iff.mp taken
      dsimp only at made
      by_cases counted : popcount (wordsFromLe raw) = len
      · rw [if_neg (not_not.mpr counted)] at made
        cases made
        refine ⟨wordsFromLe raw, rfl, ?_, by rw [write_wordsFromLe length, split]⟩
        subst counted
        exact Chunk.canonical_dense (not_le.mp few)
      · rw [if_pos counted] at made
        cases made
    · rintro ⟨words, rfl, canonical, split⟩
      obtain ⟨counted, _⟩ := canonical.toTidy.dense rfl
      have length : (words.toList.flatMap fun word => toLeBytes 8 word.toNat).length = 1024 * 8 := by
        rw [length_flatMap_write fun word : BitVec 64 => length_toLeBytes 8 word.toNat, Vector.length_toList]
      refine ⟨(words.toList.flatMap fun word => toLeBytes 8 word.toNat, rest), take_iff.mpr ⟨split, length⟩, ?_⟩
      dsimp only
      rw [wordsFromLe_write, if_neg (not_not.mpr counted.symm)]
      rfl

end

section

variable {previous : Option U16} {c : Chunk} {chunks : List Chunk}

theorem Chunk.Canonical.len_lt (canonical : c.Canonical) : c.len < 2 ^ 32 := by
  have distinct : c.lows.Nodup := canonical.ascends.imp ne_of_lt
  have few := distinct.length_le_card
  rw [Fintype.card_fin] at few
  rw [canonical.counted]
  omega

theorem decodeChunk_iff : decodeChunk previous input = .ok (c, rest) ↔
    (∀ p, previous = some p → p < c.key) ∧ c.Canonical ∧ input = c.encode ++ rest := by
  unfold decodeChunk
  rw [bind_eq_ok]
  constructor
  · rintro ⟨⟨key, input₁⟩, keyed, read⟩
    have split := readU16_iff.mp keyed
    dsimp only at read
    by_cases behind : (previous.any fun previous => decide (key ≤ previous)) = true
    · rw [if_pos behind] at read
      cases read
    · rw [if_neg behind, bind_eq_ok] at read
      have after : ∀ p, previous = some p → p < key := by
        rintro p rfl
        simpa using behind
      obtain ⟨⟨kind, input₂⟩, kinded, read⟩ := read
      have split₁ := readByte_iff.mp kinded
      dsimp only at read
      obtain ⟨⟨len, input₃⟩, counted, read⟩ := bind_eq_ok.mp read
      obtain ⟨_, split₂⟩ := readU32_iff.mp counted
      dsimp only at read
      by_cases array : kind = 0
      · rw [if_pos array] at read
        obtain ⟨values, rfl, canonical, split₃⟩ := decodeArray_iff.mp read
        refine ⟨after, canonical, ?_⟩
        rw [split, split₁, split₂, split₃, array]
        simp [Chunk.encode]
      · rw [if_neg array] at read
        by_cases dense : kind = 1
        · rw [if_pos dense] at read
          obtain ⟨words, rfl, canonical, split₃⟩ := decodeDense_iff.mp read
          refine ⟨after, canonical, ?_⟩
          rw [split, split₁, split₂, split₃, dense]
          simp [Chunk.encode]
        · rw [if_neg dense] at read
          cases read
  · rintro ⟨after, canonical, rfl⟩
    have behind : ¬(previous.any fun previous => decide (c.key ≤ previous)) = true := by
      cases previous with
      | none => simp
      | some p => simpa using after p rfl
    refine ⟨(c.key, _), readU16_iff.mpr (append_assoc _ _ _), ?_⟩
    dsimp only
    rw [if_neg behind]
    cases stored : c.store with
    | array values =>
      have shape : c = ⟨c.key, c.len, .array values⟩ := by rw [← stored]
      rw [bind_eq_ok]
      refine ⟨(0, _), readByte_iff.mpr rfl, ?_⟩
      rw [bind_eq_ok]
      refine ⟨(c.len, _), readU32_iff.mpr ⟨canonical.len_lt, append_assoc _ _ _⟩, ?_⟩
      rw [if_pos rfl]
      exact decodeArray_iff.mpr ⟨values, shape, canonical, rfl⟩
    | dense words =>
      have shape : c = ⟨c.key, c.len, .dense words⟩ := by rw [← stored]
      rw [bind_eq_ok]
      refine ⟨(1, _), readByte_iff.mpr rfl, ?_⟩
      dsimp only
      rw [bind_eq_ok]
      refine ⟨(c.len, _), readU32_iff.mpr ⟨canonical.len_lt, append_assoc _ _ _⟩, ?_⟩
      rw [if_neg (by decide), if_pos rfl]
      exact decodeDense_iff.mpr ⟨words, shape, canonical, rfl⟩

def Behind (previous : Option U16) (chunks : List Chunk) : Prop :=
  (∀ p, previous = some p → ∀ c ∈ chunks, p < c.key) ∧ Ascends Chunk.key chunks ∧ ∀ c ∈ chunks, c.Canonical

theorem behind_cons : Behind previous (c :: chunks) ↔
    (∀ p, previous = some p → p < c.key) ∧ c.Canonical ∧ Behind (some c.key) chunks := by
  unfold Behind Ascends
  rw [pairwise_cons, forall_mem_cons]
  constructor
  · rintro ⟨after, ⟨first, ascends⟩, canonical, each⟩
    refine ⟨fun p same => after p same c mem_cons_self, canonical, ?_, ascends, each⟩
    exact fun p same d mem => Option.some.inj same ▸ first d mem
  · rintro ⟨after, canonical, first, ascends, each⟩
    refine ⟨?_, ⟨first c.key rfl, ascends⟩, canonical, each⟩
    intro p same
    refine forall_mem_cons.mpr ⟨after p same, ?_⟩
    exact fun d mem => (after p same).trans (first c.key rfl d mem)

theorem decodeChunks_iff : decodeChunks count previous input = .ok (chunks, rest) ↔
    chunks.length = count ∧ Behind previous chunks ∧ input = chunks.flatMap Chunk.encode ++ rest := by
  induction count generalizing previous input chunks with
  | zero =>
    rw [decodeChunks]
    constructor
    · intro same
      cases same
      exact ⟨rfl, ⟨by simp, Ascends.nil, by simp⟩, rfl⟩
    · rintro ⟨none', _, rfl⟩
      rw [length_eq_zero_iff.mp none']
      rfl
  | succ count ih =>
    rw [decodeChunks, bind_eq_ok]
    constructor
    · rintro ⟨⟨c, input₁⟩, first, read⟩
      obtain ⟨after, canonical, split⟩ := decodeChunk_iff.mp first
      obtain ⟨⟨others, input₂⟩, second, same⟩ := bind_eq_ok.mp read
      cases same
      obtain ⟨length, behind, split₁⟩ := ih.mp second
      refine ⟨congrArg Nat.succ length, behind_cons.mpr ⟨after, canonical, behind⟩, ?_⟩
      rw [split, split₁, flatMap_cons, append_assoc]
    · rintro ⟨length, behind, split⟩
      cases chunks with
      | nil => cases length
      | cons c others =>
        obtain ⟨after, canonical, behind⟩ := behind_cons.mp behind
        rw [flatMap_cons, append_assoc] at split
        refine ⟨(c, _), decodeChunk_iff.mpr ⟨after, canonical, split⟩, ?_⟩
        rw [bind_eq_ok]
        exact ⟨(others, rest), ih.mpr ⟨Nat.succ.inj length, behind, rfl⟩, rfl⟩

end

namespace Bitmap

theorem Canonical.length_lt (canonical : Canonical b) : b.chunks.length < 2 ^ 32 := by
  have distinct : (b.chunks.map Chunk.key).Nodup :=
    pairwise_map.mpr (List.Pairwise.imp (fun less => less.ne) canonical.ascends)
  have few := distinct.length_le_card
  rw [Fintype.card_fin, length_map] at few
  omega

theorem decode_iff : decode bytes = .ok b ↔ Canonical b ∧ encode b = some bytes := by
  unfold decode
  constructor
  · intro decoded
    by_cases short : bytes.length < 9
    · rw [if_pos short] at decoded
      cases decoded
    · rw [if_neg short] at decoded
      by_cases magic : bytes.take 4 = bitmapMagic
      · rw [if_neg (not_not.mpr magic)] at decoded
        by_cases version : bytes.getD 4 0 = bitmapFormatVersion
        · rw [if_neg (not_not.mpr version)] at decoded
          obtain ⟨⟨count, input⟩, counted, decoded⟩ := bind_eq_ok.mp decoded
          obtain ⟨_, split⟩ := readU32_iff.mp counted
          dsimp only at decoded
          obtain ⟨⟨chunks, rest⟩, read, decoded⟩ := bind_eq_ok.mp decoded
          obtain ⟨length, ⟨_, ascends, each⟩, split₁⟩ := decodeChunks_iff.mp read
          by_cases ended : rest.isEmpty = true
          · rw [if_neg (not_not.mpr ended)] at decoded
            cases decoded
            have canonical : Canonical ⟨chunks⟩ := ⟨ascends, each⟩
            refine ⟨canonical, ?_⟩
            unfold encode
            rw [if_pos canonical.length_lt]
            have fifth : bytes.drop 4 = bytes.getD 4 0 :: bytes.drop 5 := by
              rw [drop_eq_getElem_cons (by omega), getD_eq_getElem?_getD, getElem?_eq_getElem (by omega),
                Option.getD_some]
            have whole : bytes = bytes.take 4 ++ (bytes.getD 4 0 :: bytes.drop 5) := by
              rw [← fifth, take_append_drop]
            rw [whole, magic, version, split, split₁, length, List.isEmpty_iff.mp ended, append_nil]
          · rw [if_pos ended] at decoded
            cases decoded
        · rw [if_pos version] at decoded
          cases decoded
      · rw [if_pos magic] at decoded
        cases decoded
  · rintro ⟨canonical, encoded⟩
    unfold encode at encoded
    rw [if_pos canonical.length_lt] at encoded
    have bytes' := (Option.some.inj encoded).symm
    have long : ¬bytes.length < 9 := by
      rw [bytes', length_append, length_cons, length_append, length_toLeBytes]
      show ¬(4 + _ < 9)
      omega
    have magic : bytes.take 4 = bitmapMagic := by
      rw [bytes']
      rfl
    have version : bytes.getD 4 0 = bitmapFormatVersion := by
      rw [bytes']
      rfl
    have body : bytes.drop 5 = toLeBytes 4 b.chunks.length ++ b.chunks.flatMap Chunk.encode := by
      rw [bytes']
      rfl
    rw [if_neg long, if_neg (not_not.mpr magic)]
    rw [if_neg (not_not.mpr version), bind_eq_ok]
    refine ⟨(b.chunks.length, _), readU32_iff.mpr ⟨canonical.length_lt, body⟩, ?_⟩
    rw [bind_eq_ok]
    have behind : Behind none b.chunks := ⟨fun _ impossible => (nomatch impossible), canonical.ascends, canonical.each⟩
    refine ⟨(b.chunks, []), decodeChunks_iff.mpr ⟨rfl, behind, (append_nil _).symm⟩, ?_⟩
    rfl

end Bitmap

end Rezzy.Bitmaps
