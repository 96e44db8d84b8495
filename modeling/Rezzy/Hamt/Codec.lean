import Mathlib.Data.BitVec
import Mathlib.Data.Nat.Digits.Defs
import Rezzy.Basespec.EventTypes
import Rezzy.Lib.Loop
import Rezzy.Lib.Spelling

namespace Rezzy.Hamt

open BitVec Except Nat

section

open Basespec Spelling Outcome

abbrev Bytes := List UInt8

def hamtNodeMagic : Bytes := [0x4d, 0x54, 0x48, 0x4e]
def hamtWireVersion : UInt8 := 0x01

/-- Why a decoder stopped: the message of an `Err`, or a slice index out of bounds. -/
inductive DecodeFault where
  | err (message : String)
  | outOfBounds
deriving DecidableEq, Repr

abbrev Decoder (α : Type) := Reader UInt8 DecodeFault α

/-- Binary codec for leaf payloads. Encoding panics on payloads that are too long. -/
class HamtCodec (α : Type) where
  encodeHamt : α → Option Bytes
  decodeHamt : Decoder α

export HamtCodec (encodeHamt decodeHamt)

def readFixed (n : Nat) : Decoder Bytes := fun input cursor =>
  match slice input cursor (cursor + n) with
  | none => .error (.err "HAMT codec buffer too short")
  | some bytes => .ok (bytes, cursor + n)

def toLeBytes : Nat → Nat → Bytes
  | 0, _ => []
  | n + 1, value => UInt8.ofNat value :: toLeBytes n (value / 256)

def fromLeBytes : Bytes → Nat
  | [] => 0
  | byte :: bytes => byte.toNat + 256 * fromLeBytes bytes

/-- An integer of `n` bytes, signed ones in two's complement. -/
abbrev LeInt (n : Nat) := BitVec (8 * n)

def decodeLe (n : Nat) : Decoder (LeInt n) := fun input cursor => do
  let (bytes, stop) ← readFixed n input cursor
  return (BitVec.ofNat (8 * n) (fromLeBytes bytes), stop)

def encodeLe (n : Nat) (value : LeInt n) : Bytes := toLeBytes n value.toNat

/-- `u8` to `u128` and `i8` to `i128`. -/
instance leHamtCodec (n : Nat) : HamtCodec (LeInt n) where
  encodeHamt value := some (encodeLe n value)
  decodeHamt := decodeLe n

structure Usize (width : Nat) where
  bits : BitVec width

structure Isize (width : Nat) where
  bits : BitVec width

def usizeTryFrom (width : Nat) (value : LeInt 8) : Except DecodeFault (Usize width) :=
  if value.toNat < 2 ^ width then .ok ⟨.ofNat width value.toNat⟩
  else .error (.err "HAMT codec usize out of range")

def isizeTryFrom (width : Nat) (value : LeInt 8) : Except DecodeFault (Isize width) :=
  if -2 ^ (width - 1) ≤ value.toInt ∧ value.toInt < 2 ^ (width - 1) then .ok ⟨.ofInt width value.toInt⟩
  else .error (.err "HAMT codec isize out of range")

def decodeThrough {α β : Type} (read : Decoder α) (convert : α → Except DecodeFault β) : Decoder β :=
  fun input cursor => do
    let (wired, stop) ← read input cursor
    let value ← convert wired
    return (value, stop)

instance usizeHamtCodec (width : Nat) : HamtCodec (Usize width) where
  encodeHamt value := some (encodeLe 8 (value.bits.setWidth 64))
  decodeHamt := decodeThrough (decodeLe 8) (usizeTryFrom width)

instance isizeHamtCodec (width : Nat) : HamtCodec (Isize width) where
  encodeHamt value := some (encodeLe 8 (value.bits.signExtend 64))
  decodeHamt := decodeThrough (decodeLe 8) (isizeTryFrom width)

instance boolHamtCodec : HamtCodec Bool where
  encodeHamt value := some [if value then 1 else 0]
  decodeHamt input cursor :=
    match input[cursor]? with
    | none => .error (.err "HAMT codec buffer too short")
    | some 0 => .ok (false, cursor + 1)
    | some 1 => .ok (true, cursor + 1)
    | some _ => .error (.err "HAMT codec invalid bool encoding")

def readLenPrefixed : Decoder Bytes := fun input cursor => do
  let (len, start) ← decodeLe 4 input cursor
  match slice input start (start + len.toNat) with
  | none => .error (.err "HAMT codec buffer too short")
  | some bytes => return (bytes, start + len.toNat)

def encodeLenPrefixed (bytes : Bytes) : Option Bytes :=
  if bytes.length < 2 ^ 32 then some (toLeBytes 4 bytes.length ++ bytes) else none

instance bytesHamtCodec : HamtCodec Bytes where
  encodeHamt := encodeLenPrefixed
  decodeHamt := readLenPrefixed

def stringFromUtf8 (bytes : Bytes) : Except DecodeFault String :=
  match String.fromUTF8? ⟨bytes.toArray⟩ with
  | none => .error (.err "HAMT codec invalid UTF-8")
  | some value => .ok value

def asBytes (value : String) : Bytes := value.toByteArray.data.toList

instance stringHamtCodec : HamtCodec String where
  encodeHamt value := encodeLenPrefixed (asBytes value)
  decodeHamt := decodeThrough readLenPrefixed stringFromUtf8

instance eventTypeHamtCodec : HamtCodec EventType where
  encodeHamt value := encodeLenPrefixed (asBytes value.asStr)
  decodeHamt := decodeThrough (decodeHamt : Decoder String) fun value => .ok ⟨value⟩

instance pairHamtCodec {α β : Type} [HamtCodec α] [HamtCodec β] : HamtCodec (α × β) where
  encodeHamt := writePair encodeHamt encodeHamt
  decodeHamt := readPair decodeHamt decodeHamt

abbrev StructuralHash := Vector UInt8 32

def countOnes (bitmap : BitVec 32) : Nat := (List.range 32).countP bitmap.getLsbD

structure PersistedInternalNode (K V : Type) where
  datamap : BitVec 32
  nodemap : BitVec 32
  leaves : List (K × V)
  childHashes : List StructuralHash

variable {K V : Type} [HamtCodec K] [HamtCodec V]

/-- The bytes of a node. The source asserts that the payloads fit the bitmaps. -/
def encodeV1Parts (datamap nodemap : BitVec 32) (leaves : List (K × V)) (childHashes : List StructuralHash) :
    Option Bytes :=
  if leaves.length = countOnes datamap ∧ childHashes.length = countOnes nodemap ∧
      datamap &&& nodemap = 0 then do
    let body ← writeMany encodeHamt leaves
    return hamtNodeMagic ++ [hamtWireVersion] ++ encodeLe 4 datamap ++ encodeLe 4 nodemap ++
      toLeBytes 4 leaves.length ++ toLeBytes 4 childHashes.length ++ body ++
      childHashes.flatMap Vector.toList
  else none

def PersistedInternalNode.encodeV1 (node : PersistedInternalNode K V) : Option Bytes :=
  encodeV1Parts node.datamap node.nodemap node.leaves node.childHashes

def readHeaderField (message : String) (buf : Bytes) (cursor : Nat) : Except DecodeFault (BitVec 32 × Nat) :=
  match decodeLe 4 buf cursor with
  | .ok read => .ok read
  | .error _ => .error (.err message)

def decodeNodeHeader (buf : Bytes) (datamapStart : Nat) :
    Except DecodeFault (BitVec 32 × BitVec 32 × Nat × Nat) := do
  let (datamap, cursor) ← readHeaderField "Buffer too short for datamap" buf datamapStart
  let (nodemap, cursor) ← readHeaderField "Buffer too short for nodemap" buf cursor
  if datamap &&& nodemap ≠ 0 then .error (.err "Datamap and nodemap overlap: node is corrupt")
  let (leafCount, cursor) ← readHeaderField "Buffer too short for leaf count" buf cursor
  let (childCount, _) ← readHeaderField "Buffer too short for child count" buf cursor
  if leafCount.toNat ≠ countOnes datamap then .error (.err "Leaf count does not match datamap")
  if childCount.toNat ≠ countOnes nodemap then .error (.err "Child count does not match nodemap")
  return (datamap, nodemap, leafCount.toNat, childCount.toNat)

def checkChildPayload (buf : Bytes) (cursor childCount width : Nat) : Except DecodeFault Unit := do
  if buf.length < cursor + childCount * width then .error (.err "Buffer too short for child hashes")
  if buf.length > cursor + childCount * width then .error (.err "Buffer contains trailing bytes")

/-- The hash at `start`. The source indexes the buffer here, without a check. -/
def readHash (buf : Bytes) (start : Nat) : Except DecodeFault StructuralHash :=
  match slice buf start (start + 32) with
  | none => .error .outOfBounds
  | some bytes => if length : bytes.length = 32 then .ok ⟨bytes.toArray, by simpa using length⟩
    else .error .outOfBounds

def decodeV1Unverified (buf : Bytes) : Except DecodeFault (PersistedInternalNode K V) := do
  if slice buf 0 4 ≠ some hamtNodeMagic then .error (.err "Invalid HAMT node magic")
  if buf[4]? ≠ some hamtWireVersion then .error (.err "Invalid version byte")
  if buf.length < 21 then .error (.err "Buffer too short for v1 header")
  let (datamap, nodemap, leafCount, childCount) ← decodeNodeHeader buf 5
  let (leaves, cursor) ← readMany (decodeHamt : Decoder (K × V)) leafCount buf 21
  checkChildPayload buf cursor childCount 32
  let childHashes ← (List.range childCount).mapM fun i => readHash buf (cursor + i * 32)
  return ⟨datamap, nodemap, leaves, childHashes⟩

end

open Basespec Spelling Outcome

section

theorem length_toLeBytes (n value : Nat) : (toLeBytes n value).length = n := by
  induction n generalizing value with
  | zero => rfl
  | succ n ih => rw [toLeBytes, List.length_cons, ih]

theorem fromLeBytes_lt (bytes : Bytes) : fromLeBytes bytes < 256 ^ bytes.length := by
  induction bytes with
  | nil => simp [fromLeBytes]
  | cons byte bytes ih =>
    have small := byte.toNat_lt
    rw [fromLeBytes, List.length_cons, Nat.pow_succ]
    omega

theorem fromLeBytes_toLeBytes (n value : Nat) : fromLeBytes (toLeBytes n value) = value % 256 ^ n := by
  induction n generalizing value with
  | zero => simp [toLeBytes, fromLeBytes, mod_one]
  | succ n ih =>
    have split : value % (256 * 256 ^ n) = value % 256 + 256 * (value / 256 % 256 ^ n) := mod_mul
    rw [toLeBytes, fromLeBytes, ih, UInt8.toNat_ofNat', @Nat.pow_succ' 256 n, split]

theorem toLeBytes_fromLeBytes (bytes : Bytes) : toLeBytes bytes.length (fromLeBytes bytes) = bytes := by
  induction bytes with
  | nil => rfl
  | cons byte bytes ih =>
    have small := byte.toNat_lt
    have high : (byte.toNat + 256 * fromLeBytes bytes) / 256 = fromLeBytes bytes := by omega
    have low : UInt8.ofNat (byte.toNat + 256 * fromLeBytes bytes) = byte := by
      apply UInt8.toNat_inj.mp
      rw [UInt8.toNat_ofNat']
      omega
    rw [List.length_cons, toLeBytes, fromLeBytes, low, high, ih]

theorem readFixed_eq_ok :
    readFixed n buf start = .ok (bytes, stop) ↔ Spelled buf start stop bytes ∧ bytes.length = n := by
  unfold readFixed
  constructor
  · intro read
    split at read
    · cases read
    · rename_i found sliced
      obtain ⟨rfl, rfl⟩ := Prod.mk.inj (ok.inj read)
      have spelled := slice_eq_some.mp sliced
      refine ⟨spelled, ?_⟩
      obtain ⟨_, _, _, _, length⟩ := spelled
      omega
  · rintro ⟨spelled, rfl⟩
    obtain ⟨_, _, _, _, rfl⟩ := id spelled
    rw [slice_eq_some.mpr spelled]

theorem width_pow (n : Nat) : 2 ^ (8 * n) = 256 ^ n := by rw [Nat.pow_mul]

theorem encodeLe_ofNat (length : bytes.length = n) : encodeLe n (BitVec.ofNat (8 * n) (fromLeBytes bytes)) = bytes := by
  subst length
  have small := fromLeBytes_lt bytes
  rw [encodeLe, toNat_ofNat, width_pow, mod_eq_of_lt small, toLeBytes_fromLeBytes]

theorem ofNat_encodeLe (value : LeInt n) : BitVec.ofNat (8 * n) (fromLeBytes (encodeLe n value)) = value := by
  apply eq_of_toNat_eq
  rw [encodeLe, fromLeBytes_toLeBytes, toNat_ofNat, ← width_pow, mod_mod, mod_eq_of_lt value.isLt]

theorem decodeLe_eq_ok : decodeLe n buf start = .ok (value, stop) ↔ Spelled buf start stop (encodeLe n value) := by
  unfold decodeLe
  constructor
  · intro read
    cases fixed : readFixed n buf start with
    | error fault => rw [fixed] at read; cases read
    | ok found =>
      obtain ⟨bytes, middle⟩ := found
      rw [fixed] at read
      obtain ⟨rfl, rfl⟩ := Prod.mk.inj (ok.inj read)
      obtain ⟨spelled, length⟩ := readFixed_eq_ok.mp fixed
      rw [encodeLe_ofNat length]
      exact spelled
  · intro spelled
    rw [readFixed_eq_ok.mpr ⟨spelled, length_toLeBytes _ _⟩]
    exact congrArg (fun value => ok (value, stop)) (ofNat_encodeLe value)

end

def Bounded {α : Type} (read : Decoder α) : Prop := ∀ buf start, read buf start ≠ .error .outOfBounds

/-- A codec that accepts exactly what it writes. -/
class LawfulHamtCodec (α : Type) [HamtCodec α] : Prop where
  exact : Exact (encodeHamt : α → Option Bytes) decodeHamt
  bounded : Bounded (decodeHamt : Decoder α)

theorem exact_decodeLe (n : Nat) : Exact (fun value => some (encodeLe n value)) (decodeLe n) := by
  intro _ _ _ _
  rw [decodeLe_eq_ok]
  exact ⟨fun spelled => ⟨_, rfl, spelled⟩, fun ⟨_, writes, spelled⟩ => Option.some.inj writes ▸ spelled⟩

theorem bounded_decodeLe (n : Nat) : Bounded (decodeLe n) := by
  intro buf start
  unfold decodeLe readFixed
  cases slice buf start (start + n) <;> simp [bind, Except.bind, pure, Except.pure]

instance lawful_le (n : Nat) : LawfulHamtCodec (LeInt n) := ⟨exact_decodeLe n, bounded_decodeLe n⟩

theorem exact_through {α γ : Type} {write : α → Option Bytes} {read : Decoder α} (exact : Exact write read)
    {wire : γ → α} {convert : α → Except DecodeFault γ}
    (inverse : ∀ value wired, convert wired = .ok value ↔ wired = wire value) :
    Exact (fun value => write (wire value)) (decodeThrough read convert) := by
  intro buf start value stop
  unfold decodeThrough
  constructor
  · intro returned
    dsimp only [bind, Except.bind] at returned
    cases first : read buf start with
    | error fault => rw [first] at returned; cases returned
    | ok found =>
      obtain ⟨wired, middle⟩ := found
      rw [first] at returned
      dsimp only at returned
      cases second : convert wired with
      | error fault => rw [second] at returned; cases returned
      | ok converted =>
        rw [second] at returned
        obtain ⟨rfl, rfl⟩ := Prod.mk.inj (ok.inj returned)
        obtain rfl := (inverse converted wired).mp second
        exact (exact buf start _ _).mp first
  · intro written
    have first := (exact buf start (wire value) stop).mpr written
    dsimp only [bind, Except.bind]
    rw [first]
    dsimp only
    rw [(inverse value (wire value)).mpr rfl]
    rfl

theorem bounded_through {α γ : Type} {read : Decoder α} (bounded : Bounded read)
    {convert : α → Except DecodeFault γ} (converts : ∀ wired, convert wired ≠ .error .outOfBounds) :
    Bounded (decodeThrough read convert) := by
  intro buf start
  refine bind_ne_error (bounded buf start) fun found _ => bind_ne_error (converts found.1) fun value _ => ?_
  simp [pure, Except.pure]

theorem usizeTryFrom_eq_ok (fits : width ≤ 64) (value : Usize width) (wired : LeInt 8) :
    usizeTryFrom width wired = .ok value ↔ wired = value.bits.setWidth 64 := by
  have small : value.bits.toNat < 2 ^ 64 := Nat.lt_of_lt_of_le value.bits.isLt (Nat.pow_le_pow_right (by decide) fits)
  unfold usizeTryFrom
  constructor
  · intro converted
    split at converted
    · rename_i inRange
      rw [← ok.inj converted]
      apply eq_of_toNat_eq
      rw [toNat_setWidth, toNat_ofNat, mod_eq_of_lt inRange, mod_eq_of_lt wired.isLt]
    · cases converted
  · rintro rfl
    have same : (setWidth 64 value.bits).toNat = value.bits.toNat := by
      rw [toNat_setWidth, mod_eq_of_lt small]
    rw [same, if_pos value.bits.isLt, ofNat_toNat, setWidth_eq]

theorem isizeTryFrom_eq_ok (positive : 0 < width) (fits : width ≤ 64) (value : Isize width) (wired : LeInt 8) :
    isizeTryFrom width wired = .ok value ↔ wired = value.bits.signExtend 64 := by
  unfold isizeTryFrom
  constructor
  · intro converted
    split at converted
    · rename_i inRange
      rw [← ok.inj converted]
      apply eq_of_toInt_eq
      rw [toInt_signExtend_of_le fits, toInt_ofInt_eq_self positive inRange.1 inRange.2]
    · cases converted
  · rintro rfl
    have same : (signExtend 64 value.bits).toInt = value.bits.toInt := toInt_signExtend_of_le fits
    rw [same, if_pos ⟨value.bits.le_toInt, toInt_lt⟩, ofInt_toInt]

theorem stringFromUtf8_eq_ok (value : String) (bytes : Bytes) :
    stringFromUtf8 bytes = .ok value ↔ bytes = asBytes value := by
  unfold stringFromUtf8 asBytes String.fromUTF8?
  constructor
  · intro converted
    split at converted
    · cases converted
    · rename_i found decoded
      split at decoded
      · rw [← ok.inj converted, ← Option.some.inj decoded]
        rfl
      · cases decoded
  · rintro rfl
    have bytes : (⟨value.toByteArray.data.toList.toArray⟩ : ByteArray) = value.toByteArray := by simp
    rw [dif_pos (bytes ▸ value.isValidUTF8)]
    exact congrArg ok (String.toByteArray_inj.mp bytes)

theorem lawful_usize (fits : width ≤ 64) : LawfulHamtCodec (Usize width) where
  exact := exact_through (exact_decodeLe 8) (usizeTryFrom_eq_ok fits)
  bounded := bounded_through (bounded_decodeLe 8) fun wired => by
    unfold usizeTryFrom
    split <;> simp

theorem lawful_isize (positive : 0 < width) (fits : width ≤ 64) : LawfulHamtCodec (Isize width) where
  exact := exact_through (exact_decodeLe 8) (isizeTryFrom_eq_ok positive fits)
  bounded := bounded_through (bounded_decodeLe 8) fun wired => by
    unfold isizeTryFrom
    split <;> simp

theorem spelled_singleton : Spelled buf start stop [byte] ↔ buf[start]? = some byte ∧ stop = start + 1 := by
  constructor
  · rintro ⟨-, -, rfl, rfl, rfl⟩
    simp
  · rintro ⟨found, rfl⟩
    obtain ⟨-, rfl⟩ := List.getElem?_eq_some_iff.mp found
    refine ⟨buf.take start, buf.drop (start + 1), ?_, ?_, rfl⟩
    · rw [List.singleton_append, List.getElem_cons_drop, List.take_append_drop]
    · rw [List.length_take]
      omega

instance lawful_bool : LawfulHamtCodec Bool where
  exact buf start value stop := by
    have written : (∃ items, some [if value then (1 : UInt8) else 0] = some items ∧
        Spelled buf start stop items) ↔
          buf[start]? = some (if value then (1 : UInt8) else 0) ∧ stop = start + 1 := by
      rw [← spelled_singleton]
      exact ⟨fun ⟨_, writes, spelled⟩ => Option.some.inj writes ▸ spelled, fun spelled => ⟨_, rfl, spelled⟩⟩
    refine Iff.trans ?_ written.symm
    show (match buf[start]? with
      | none => Except.error (DecodeFault.err "HAMT codec buffer too short")
      | some 0 => .ok (false, start + 1)
      | some 1 => .ok (true, start + 1)
      | some _ => .error (.err "HAMT codec invalid bool encoding")) = _ ↔ _
    split
    · rename_i none
      simp [none]
    · rename_i zero
      rw [zero]
      cases value <;> simp [eq_comm]
    · rename_i one
      rw [one]
      cases value <;> simp [eq_comm]
    · rename_i byte notZero notOne found
      rw [found]
      have other : byte ≠ (if value then (1 : UInt8) else 0) := by
        cases value
        · exact notZero
        · exact notOne
      simp [other]
  bounded buf start := by
    show (match buf[start]? with
      | none => Except.error (DecodeFault.err "HAMT codec buffer too short")
      | some 0 => .ok (false, start + 1)
      | some 1 => .ok (true, start + 1)
      | some _ => .error (.err "HAMT codec invalid bool encoding")) ≠ _
    split <;> simp

theorem encodeLenPrefixed_eq_some : encodeLenPrefixed bytes = some items ↔
    ∃ len : LeInt 4, len.toNat = bytes.length ∧ items = encodeLe 4 len ++ bytes := by
  unfold encodeLenPrefixed
  constructor
  · intro written
    split at written
    · rename_i short
      refine ⟨BitVec.ofNat 32 bytes.length, ?_, ?_⟩
      · rw [toNat_ofNat, mod_eq_of_lt short]
      · rw [← Option.some.inj written, encodeLe, toNat_ofNat, mod_eq_of_lt short]
    · cases written
  · rintro ⟨len, length, rfl⟩
    have short : bytes.length < 2 ^ 32 := length ▸ len.isLt
    rw [if_pos short, encodeLe, length]

theorem exact_lenPrefixed : Exact encodeLenPrefixed readLenPrefixed := by
  intro buf start _ _
  unfold readLenPrefixed
  simp only [encodeLenPrefixed_eq_some]
  constructor
  · intro read
    cases prefixed : decodeLe 4 buf start with
    | error fault => rw [prefixed] at read; cases read
    | ok found =>
      obtain ⟨len, middle⟩ := found
      rw [prefixed] at read
      dsimp only [bind, Except.bind] at read
      split at read
      · cases read
      · rename_i bytes sliced
        obtain ⟨rfl, rfl⟩ := Prod.mk.inj (ok.inj read)
        have spelled := slice_eq_some.mp sliced
        obtain ⟨_, _, _, _, length⟩ := id spelled
        exact ⟨_, ⟨len, by omega, rfl⟩, Spelled.append.mpr ⟨middle, decodeLe_eq_ok.mp prefixed, spelled⟩⟩
  · rintro ⟨items, ⟨len, length, rfl⟩, spelled⟩
    obtain ⟨middle, first, second⟩ := Spelled.append.mp spelled
    obtain ⟨_, _, _, _, stops⟩ := id second
    rw [decodeLe_eq_ok.mpr first]
    dsimp only [bind, Except.bind]
    rw [length, ← stops, slice_eq_some.mpr second]
    rfl

theorem bounded_lenPrefixed : Bounded readLenPrefixed := by
  intro buf start
  refine bind_ne_error (bounded_decodeLe 4 buf start) fun found _ => ?_
  dsimp only
  cases slice buf found.2 (found.2 + found.1.toNat) <;> simp [pure, Except.pure]

instance lawful_bytes : LawfulHamtCodec Bytes := ⟨exact_lenPrefixed, bounded_lenPrefixed⟩

instance lawful_string : LawfulHamtCodec String where
  exact := exact_through exact_lenPrefixed stringFromUtf8_eq_ok
  bounded := bounded_through bounded_lenPrefixed fun bytes => by
    unfold stringFromUtf8
    split <;> simp

instance lawful_eventType : LawfulHamtCodec EventType where
  exact := exact_through lawful_string.exact fun value wired => by
    constructor
    · rintro ⟨⟩
      rfl
    · rintro rfl
      rfl
  bounded := bounded_through lawful_string.bounded fun wired => by simp

instance lawful_pair {α β : Type} [HamtCodec α] [HamtCodec β] [LawfulHamtCodec α] [LawfulHamtCodec β] :
    LawfulHamtCodec (α × β) where
  exact := LawfulHamtCodec.exact.pair LawfulHamtCodec.exact
  bounded buf start := by
    refine bind_ne_error (LawfulHamtCodec.bounded buf start) fun left _ => ?_
    refine bind_ne_error (LawfulHamtCodec.bounded buf left.2) fun right _ => ?_
    simp [pure, Except.pure]

end Rezzy.Hamt
