import Mathlib.Data.Vector.Basic
import Rezzy.Json.Value
import Rezzy.Hamt.Codec

namespace Rezzy.Merkle

open Json Nat Vector
open Hamt (toLeBytes fromLeBytes)
open UInt8 (ofNat toNat_and)

abbrev Hash := Vector UInt8 32

abbrev Sha256 := Bytes → Hash

instance instTransOrdHash : Std.TransOrd Hash := inferInstanceAs (Std.TransOrd (Vector UInt8 32))

instance instLawfulEqOrdHash : Std.LawfulEqOrd Hash := inferInstanceAs (Std.LawfulEqOrd (Vector UInt8 32))

def hashParts (sha256 : Sha256) (parts : List Bytes) : Hash := sha256 parts.flatten

def toBeBytes (n value : Nat) : Bytes := (toLeBytes n value).reverse

def usizeMax : Nat := 2 ^ 64 - 1

section

theorem toBeBytes_length (n value : Nat) : (toBeBytes n value).length = n := by
  unfold toBeBytes
  rw [List.length_reverse]
  exact Hamt.length_toLeBytes n value

theorem getD_field {field rest : Bytes} (long : field.length = n) (i : Nat) :
    (field ++ rest).getD (n + i) 0 = rest.getD i 0 := by
  rw [List.getD_append_right _ _ _ _ (by omega), long, Nat.add_sub_cancel_left]

theorem toBeBytes_inj (one_lt : one < 256 ^ n) (other_lt : other < 256 ^ n)
    (same : toBeBytes n one = toBeBytes n other) : one = other := by
  have read := congrArg fromLeBytes (List.reverse_injective same)
  rwa [Hamt.fromLeBytes_toLeBytes, Hamt.fromLeBytes_toLeBytes, mod_eq_of_lt one_lt, mod_eq_of_lt other_lt] at read

theorem fields_inj {one other more rest : Bytes} (long : one.length = other.length) (same : one ++ more = other ++ rest) :
    one = other ∧ more = rest := List.append_inj same long

theorem digest_inj {one other : Hash} (same : one.toList = other.toList) : one = other := toList_inj.mp same

end

def byteBit (byte : UInt8) (index : Nat) : UInt8 := (byte >>> ofNat (7 - index)) &&& 1

def bitMask (index : Nat) : UInt8 := 1 <<< ofNat (7 - index)

def bitAt (key : Hash) (d : Nat) : UInt8 := byteBit (key.getD (d / 8) 0) (d % 8)

def setBit (key : Hash) (d : Nat) : Hash :=
  Vector.ofFn fun i => if i.val = d / 8 then key[i] ||| bitMask (d % 8) else key[i]

def clearBit (key : Hash) (d : Nat) : Hash :=
  Vector.ofFn fun i => if i.val = d / 8 then key[i] &&& ~~~bitMask (d % 8) else key[i]

def maskAfter (key : Hash) (d : Nat) : Hash :=
  Vector.ofFn fun i =>
    if i.val < d / 8 then key[i]
    else if i.val = d / 8 then key[i] &&& (0xFF <<< ofNat (7 - d % 8))
    else 0

theorem byteBit_zero (index : Nat) : byteBit 0 index = 0 := by simp [byteBit]

theorem byteBit_eq (byte : UInt8) (index : Nat) :
    byteBit byte index = if byte.toNat.testBit (7 - index) then 1 else 0 := by
  have place : (7 - index) % 2 ^ 8 % 8 = 7 - index := by omega
  have bit : (byteBit byte index).toNat = (byte.toNat.testBit (7 - index)).toNat := by
    unfold byteBit
    rw [toNat_and, UInt8.toNat_shiftRight, UInt8.toNat_ofNat', place, toNat_testBit, shiftRight_eq_div_pow]
    exact and_one_is_mod _
  apply UInt8.toNat_inj.mp
  rw [bit]
  cases byte.toNat.testBit (7 - index) <;> rfl

theorem byteBit_cases (byte : UInt8) (index : Nat) : byteBit byte index = 0 ∨ byteBit byte index = 1 := by
  rw [byteBit_eq]
  split
  · exact Or.inr rfl
  · exact Or.inl rfl

theorem byte_ext (same : ∀ index < 8, byteBit one index = byteBit other index) : one = other := by
  apply UInt8.toNat_inj.mp
  apply eq_of_testBit_eq
  intro place
  by_cases inside : place < 8
  · have bit := same (7 - place) (by omega)
    rw [byteBit_eq, byteBit_eq, show 7 - (7 - place) = place from by omega] at bit
    revert bit
    cases one.toNat.testBit place <;> cases other.toNat.testBit place <;> decide
  · have wide : 2 ^ 8 ≤ 2 ^ place := Nat.pow_le_pow_right (by decide) (by omega)
    rw [testBit_lt_two_pow (Nat.lt_of_lt_of_le one.toNat_lt wide),
      testBit_lt_two_pow (Nat.lt_of_lt_of_le other.toNat_lt wide)]

theorem testBit_bitMask : ∀ i j : Fin 8, (bitMask i).toNat.testBit (7 - j) = decide (j = i) := by decide

theorem testBit_not_bitMask : ∀ i j : Fin 8, (~~~bitMask i).toNat.testBit (7 - j) = decide (j ≠ i) := by decide

theorem testBit_highMask : ∀ i j : Fin 8,
    ((0xFF : UInt8) <<< ofNat (7 - i)).toNat.testBit (7 - j) = decide (j ≤ i) := by decide

section

variable (byte : UInt8) {i j : Nat} (first : i < 8) (second : j < 8)

include first second

theorem byteBit_set : byteBit (byte ||| bitMask i) j = if j = i then 1 else byteBit byte j := by
  have mask := testBit_bitMask ⟨i, first⟩ ⟨j, second⟩
  rw [byteBit_eq, byteBit_eq, UInt8.toNat_or, testBit_or, mask]
  by_cases same : j = i <;> simp [same]

theorem byteBit_clear : byteBit (byte &&& ~~~bitMask i) j = if j = i then 0 else byteBit byte j := by
  have mask := testBit_not_bitMask ⟨i, first⟩ ⟨j, second⟩
  rw [byteBit_eq, byteBit_eq, toNat_and, testBit_and, mask]
  by_cases same : j = i <;> simp [same]

theorem byteBit_mask : byteBit (byte &&& (0xFF <<< ofNat (7 - i))) j = if j ≤ i then byteBit byte j else 0 := by
  have mask := testBit_highMask ⟨i, first⟩ ⟨j, second⟩
  rw [byteBit_eq, byteBit_eq, toNat_and, testBit_and, mask]
  by_cases before : j ≤ i <;> simp [before]

end

theorem bitAt_of_lt (inside : d / 8 < 32) (key : Hash) : bitAt key d = byteBit (key.get ⟨d / 8, inside⟩) (d % 8) := by
  unfold bitAt
  rw [show key.getD (d / 8) 0 = key.get ⟨d / 8, inside⟩ from dif_pos (by simpa using inside)]

theorem bitAt_cases (key : Hash) (d : Nat) : bitAt key d = 0 ∨ bitAt key d = 1 := byteBit_cases _ _

theorem get_ofFn (f : Fin 32 → UInt8) (i : Fin 32) : (ofFn f).get i = f i := by
  show (ofFn f)[i.val] = f i
  rw [getElem_ofFn]

theorem bitAt_ofFn (inside : d < 256) : bitAt (ofFn f) d = byteBit (f ⟨d / 8, by omega⟩) (d % 8) := by
  rw [bitAt_of_lt (by omega), get_ofFn]

theorem bitAt_changed (change : UInt8 → UInt8) (bit : UInt8) (within : e < 256)
    (changes : ∀ byte, byteBit (change byte) (e % 8) = if e % 8 = d % 8 then bit else byteBit byte (e % 8)) :
    bitAt (ofFn fun i => if i.val = d / 8 then change key[i] else key[i] : Hash) e =
      if e = d then bit else bitAt key e := by
  rw [bitAt_ofFn within, bitAt_of_lt (by omega)]
  by_cases byte : e / 8 = d / 8
  · rw [if_pos byte]
    have place : e % 8 = d % 8 ↔ e = d := by omega
    refine (changes _).trans ?_
    simp only [place]
    rfl
  · rw [if_neg byte, if_neg (fun same => byte (congrArg (· / 8) same))]
    rfl

theorem bitAt_setBit (within : e < 256) : bitAt (setBit key d) e = if e = d then 1 else bitAt key e :=
  bitAt_changed (· ||| bitMask (d % 8)) 1 within fun _ => byteBit_set _ (mod_lt d (by decide)) (mod_lt e (by decide))

theorem bitAt_clearBit (within : e < 256) : bitAt (clearBit key d) e = if e = d then 0 else bitAt key e :=
  bitAt_changed (· &&& ~~~bitMask (d % 8)) 0 within fun _ => byteBit_clear _ (mod_lt d (by decide)) (mod_lt e (by decide))

theorem bitAt_maskAfter (within : e < 256) : bitAt (maskAfter key d) e = if e ≤ d then bitAt key e else 0 := by
  unfold maskAfter
  rw [bitAt_ofFn within, bitAt_of_lt (by omega)]
  by_cases before : e / 8 < d / 8
  · rw [if_pos before, if_pos (by omega)]
    rfl
  · rw [if_neg before]
    by_cases byte : e / 8 = d / 8
    · rw [if_pos byte]
      have place : e % 8 ≤ d % 8 ↔ e ≤ d := by omega
      refine (byteBit_mask _ (mod_lt d (by decide)) (mod_lt e (by decide))).trans ?_
      simp only [place]
      rfl
    · rw [if_neg byte, if_neg (by omega)]
      exact byteBit_zero _

theorem hash_ext (same : ∀ d < 256, bitAt one d = bitAt other d) : one = other := by
  apply Vector.ext
  intro i inside
  apply byte_ext
  intro index _
  have bit := same (8 * i + index) (by omega)
  rw [bitAt_of_lt (by omega), bitAt_of_lt (by omega)] at bit
  have place : (⟨(8 * i + index) / 8, by omega⟩ : Fin 32) = ⟨i, inside⟩ := Fin.ext (by show _ / 8 = i; omega)
  rw [place, show (8 * i + index) % 8 = index from by omega] at bit
  exact bit

end Rezzy.Merkle
