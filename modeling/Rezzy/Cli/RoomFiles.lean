import Rezzy.Json.Value
import Rezzy.Lib.Loop

namespace Rezzy.Cli

open List

open String.Pos.Raw (byteIdx le_iff)

section

open Json

def isAsciiAlphanumeric (byte : UInt8) : Bool :=
  (48 ≤ byte.toNat && byte.toNat ≤ 57) || (65 ≤ byte.toNat && byte.toNat ≤ 90) || (97 ≤ byte.toNat && byte.toNat ≤ 122)

def isWord (byte : Option UInt8) : Bool := byte.any isAsciiAlphanumeric

def find (text slug : List UInt8) : Option Nat :=
  (List.range (text.length + 1)).find? fun start => slug.isPrefixOf (text.drop start)

inductive RoomSearch where
  | scanning (offset : Nat)
  | answered (found : Bool)
  | panicked
deriving DecidableEq

/-- A slice of the name panics where it does not start between two characters. -/
def RoomSearch.turn (name room : String) : RoomSearch → Option RoomSearch
  | .scanning offset =>
    if ¬String.Pos.Raw.IsValid name ⟨offset⟩ then some .panicked
    else
      match find ((asBytes name).drop offset) (asBytes room) with
      | none => some (.answered false)
      | some relativeStart =>
        let start := offset + relativeStart
        let stop := start + (asBytes room).length
        let before := if start = 0 then none else (asBytes name)[start - 1]?
        if !isWord before && !isWord (asBytes name)[stop]? then some (.answered true)
        else if (asBytes name).length ≤ stop then some (.answered false)
        else some (.scanning stop)
  | .answered _ | .panicked => none

def filenameMatchesRoom (fileStem : Option String) (room : String) : RoomSearch :=
  if room = "" then .answered false
  else
    match fileStem with
    | none => .answered false
    | some name => Loop.run (RoomSearch.turn name room) ((asBytes name).length + 1) (.scanning 0)

end

open Json

theorem asBytes_length (text : String) : (asBytes text).length = text.utf8ByteSize := by
  simp [asBytes]

theorem isAsciiAlphanumeric_encode {c : Char} {byte : UInt8} (mem : byte ∈ String.utf8EncodeChar c) :
    isAsciiAlphanumeric byte = c.isAlphanum := by
  rw [Bool.eq_iff_iff]
  simp only [isAsciiAlphanumeric, Char.isAlphanum, Char.isAlpha, Char.isUpper, Char.isLower, Char.isDigit,
    Bool.or_eq_true, Bool.and_eq_true, decide_eq_true_eq, ge_iff_le, UInt32.le_iff_toNat_le]
  unfold String.utf8EncodeChar at mem
  dsimp only at mem
  have codes : 'A'.val.toNat = 65 ∧ 'Z'.val.toNat = 90 ∧ 'a'.val.toNat = 97 ∧ 'z'.val.toNat = 122 ∧
      '0'.val.toNat = 48 ∧ '9'.val.toNat = 57 := by decide
  split_ifs at mem <;> simp only [mem_cons, not_mem_nil, or_false] at mem <;>
    rcases mem with rfl | rfl | rfl | rfl <;> simp only [UInt8.toNat_ofNat'] <;> omega

theorem isWord_head? (text : String) : isWord (asBytes text).head? = text.toList.head?.any Char.isAlphanum := by
  rw [asBytes_eq_flatMap]
  cases text.toList with
  | nil => rfl
  | cons c rest =>
    cases encoded : String.utf8EncodeChar c with
    | nil => exact absurd encoded String.utf8EncodeChar_ne_nil
    | cons byte bytes => simpa [encoded, isWord] using isAsciiAlphanumeric_encode (c := c) (by simp [encoded])

theorem isWord_getLast? (text : String) : isWord (asBytes text).getLast? = text.toList.getLast?.any Char.isAlphanum := by
  rw [asBytes_eq_flatMap]
  rcases eq_nil_or_concat text.toList with empty | ⟨rest, c, split⟩
  · rw [empty]
    rfl
  · rcases eq_nil_or_concat (String.utf8EncodeChar c) with none | ⟨bytes, byte, encoded⟩
    · exact absurd none String.utf8EncodeChar_ne_nil
    · simpa [split, encoded, isWord] using isAsciiAlphanumeric_encode (c := c) (by simp [encoded])

def Occurs (name room : String) (start : Nat) : Prop :=
  ∃ before after : String, name = before ++ room ++ after ∧ before.utf8ByteSize = start

def Delimited (name room : String) (start : Nat) : Prop :=
  ∃ before after : String, name = before ++ room ++ after ∧ before.utf8ByteSize = start ∧
    before.toList.getLast?.any Char.isAlphanum = false ∧ after.toList.head?.any Char.isAlphanum = false

/-- The occurrences that a scan from left to right finds: none overlaps an earlier one. -/
def Matched (name room : String) (start : Nat) : Prop :=
  Occurs name room start ∧ ∀ earlier < start, Matched name room earlier → earlier + room.utf8ByteSize ≤ start
termination_by start

section

variable {name room : String}

theorem Occurs.valid (occurs : Occurs name room start) : String.Pos.Raw.IsValid name ⟨start + room.utf8ByteSize⟩ := by
  obtain ⟨before, after, rfl, rfl⟩ := occurs
  exact String.Pos.Raw.isValid_iff_exists_append.mpr ⟨before ++ room, after, rfl, by simp [String.rawEndPos]⟩

theorem occurs_iff (nonempty : room ≠ "") : Occurs name room start ↔ asBytes room <+: (asBytes name).drop start := by
  constructor
  · rintro ⟨before, after, rfl, rfl⟩
    rw [asBytes_append, asBytes_append, append_assoc, ← asBytes_length, drop_left]
    exact prefix_append _ _
  · rintro ⟨rest, split⟩
    have bound := congrArg length split
    rw [length_append, length_drop, asBytes_length, asBytes_length] at bound
    have positive : room.utf8ByteSize ≠ 0 := mt String.utf8ByteSize_eq_zero_iff.mp nonempty
    have extracted : name.toByteArray.extract start (start + room.utf8ByteSize) = room.toByteArray := by
      apply ByteArray.ext
      apply Array.toList_inj.mp
      have cut : ((asBytes name).drop start).take room.utf8ByteSize = asBytes room := by
        rw [← split, ← asBytes_length, take_left]
      rw [ByteArray.data_extract, Array.toList_extract, extract, Nat.add_sub_cancel_left]
      exact cut
    obtain same | ⟨left, right⟩ := (String.Pos.Raw.isValidUTF8_extract_iff (s := name) ⟨start⟩ ⟨start + room.utf8ByteSize⟩
      (Nat.le_add_right _ _) (by simp [le_iff]; omega)).mp (extracted ▸ room.isValidUTF8)
    · have := congrArg byteIdx same
      dsimp only at this
      omega
    · obtain ⟨before, tail, rfl, start_eq⟩ := String.Pos.Raw.isValid_iff_exists_append.mp left
      obtain ⟨head, after, whole, stop_eq⟩ := String.Pos.Raw.isValid_iff_exists_append.mp right
      have starts : start = (asBytes before).length := (congrArg byteIdx start_eq).trans (asBytes_length _).symm
      have stops : start + room.utf8ByteSize = (asBytes head).length :=
        (congrArg byteIdx stop_eq).trans (asBytes_length _).symm
      refine ⟨before, after, ?_, (asBytes_length _).symm.trans starts.symm⟩
      have ours := congrArg asBytes whole
      apply asBytes_injective
      rw [asBytes_append, starts, drop_left] at split
      rw [asBytes_append, asBytes_append, ← split, ← append_assoc] at ours
      rw [asBytes_append, asBytes_append, asBytes_append, ← split, ← append_assoc]
      rw [(append_inj ours (by rw [length_append, asBytes_length room]; omega)).2]

def cleared (name room : String) (start : Nat) : Bool :=
  !isWord (if start = 0 then none else (asBytes name)[start - 1]?) && !isWord (asBytes name)[start + (asBytes room).length]?

theorem cleared_eq {before after : String} : cleared (before ++ room ++ after) room before.utf8ByteSize =
      (!before.toList.getLast?.any Char.isAlphanum && !after.toList.head?.any Char.isAlphanum) := by
  have first : (if before.utf8ByteSize = 0 then none else (asBytes (before ++ room ++ after))[before.utf8ByteSize - 1]?) =
      (asBytes before).getLast? := by
    rw [← asBytes_length, asBytes_append, asBytes_append, append_assoc, getLast?_eq_getElem?]
    split
    · rename_i empty
      rw [length_eq_zero_iff.mp empty]
      rfl
    · exact getElem?_append_left (by omega)
  have last : (asBytes (before ++ room ++ after))[before.utf8ByteSize + (asBytes room).length]? = (asBytes after).head? := by
    rw [← asBytes_length, asBytes_append, asBytes_append, ← length_append, getElem?_append_right (Nat.le_refl _),
      Nat.sub_self, head?_eq_getElem?]
  rw [cleared, first, last, isWord_getLast?, isWord_head?]

theorem delimited_iff : Delimited name room start ↔ Occurs name room start ∧ cleared name room start = true := by
  constructor
  · rintro ⟨before, after, rfl, rfl, first, last⟩
    exact ⟨⟨before, after, rfl, rfl⟩, by rw [cleared_eq, first, last]; rfl⟩
  · rintro ⟨⟨before, after, rfl, rfl⟩, clear⟩
    rw [cleared_eq, Bool.and_eq_true, Bool.not_eq_true', Bool.not_eq_true'] at clear
    exact ⟨before, after, rfl, rfl, clear⟩

theorem find_eq_some (found : find text slug = some start) :
    slug <+: text.drop start ∧ ∀ q < start, ¬slug <+: text.drop q := by
  rw [find, find?_range_eq_some] at found
  refine ⟨List.isPrefixOf_iff_prefix.mp found.1, fun q before stands => ?_⟩
  simpa [List.isPrefixOf_iff_prefix.mpr stands] using found.2.2 q before

theorem find_eq_none (nonempty : slug ≠ []) (none : find text slug = none) (q : Nat) : ¬slug <+: text.drop q := by
  intro stands
  rw [find, find?_range_eq_none] at none
  by_cases inside : q < text.length + 1
  · simpa [List.isPrefixOf_iff_prefix.mpr stands] using none q inside
  · rw [drop_eq_nil_of_le (by omega), prefix_nil] at stands
    exact nonempty stands

variable (name room)

/-- What was passed is known: no match before the offset is delimited, and none reaches beyond it. -/
def RoomSearch.Inv : RoomSearch → Prop
  | .scanning offset => String.Pos.Raw.IsValid name ⟨offset⟩ ∧ ∀ start < offset, Matched name room start →
      cleared name room start = false ∧ start + room.utf8ByteSize ≤ offset
  | .answered found => (found = true ↔ ∃ start, Matched name room start ∧ cleared name room start = true)
  | .panicked => False

def RoomSearch.left : RoomSearch → Nat
  | .scanning offset => (asBytes name).length - offset + 1
  | .answered _ | .panicked => 0

variable {name room}

theorem Matched.occurs (matched : Matched name room start) : Occurs name room start := by
  rw [Matched] at matched
  exact matched.1

theorem RoomSearch.turn_found (valid : String.Pos.Raw.IsValid name ⟨offset⟩)
    (found : find ((asBytes name).drop offset) (asBytes room) = some relativeStart) :
    turn name room (.scanning offset) = if cleared name room (offset + relativeStart) then some (.answered true)
      else if (asBytes name).length ≤ offset + relativeStart + (asBytes room).length then some (.answered false)
      else some (.scanning (offset + relativeStart + (asBytes room).length)) := by
  rw [turn, if_neg (not_not.mpr valid), found]
  rfl

theorem RoomSearch.turn_inv (nonempty : room ≠ "") (s t : RoomSearch) (inv : s.Inv name room)
    (step : s.turn name room = some t) : t.Inv name room ∧ t.left name < s.left name := by
  have size := asBytes_length room
  have positive : room.utf8ByteSize ≠ 0 := mt String.utf8ByteSize_eq_zero_iff.mp nonempty
  have slug : asBytes room ≠ [] := by
    intro empty
    rw [empty] at size
    exact positive size.symm
  cases s with
  | answered _ => cases step
  | panicked => cases step
  | scanning offset =>
    obtain ⟨valid, passed⟩ := inv
    have ahead (start : Nat) (matched : Matched name room start) (later : offset ≤ start) :
        asBytes room <+: ((asBytes name).drop offset).drop (start - offset) := by
      rw [drop_drop, Nat.add_sub_cancel' later]
      exact (occurs_iff nonempty).mp matched.occurs
    cases found : find ((asBytes name).drop offset) (asBytes room) with
    | none =>
      rw [turn, if_neg (not_not.mpr valid), found] at step
      cases step
      refine ⟨iff_of_false Bool.false_ne_true ?_, Nat.succ_pos _⟩
      rintro ⟨start, matched, clear⟩
      by_cases before : start < offset
      · rw [(passed start before matched).1] at clear
        cases clear
      · exact find_eq_none slug found _ (ahead start matched (Nat.le_of_not_lt before))
    | some relativeStart =>
      rw [turn_found valid found] at step
      obtain ⟨stands, first⟩ := find_eq_some found
      rw [drop_drop] at stands
      have occurs : Occurs name room (offset + relativeStart) := (occurs_iff nonempty).mpr stands
      have skipped (start : Nat) (matched : Matched name room start) (later : offset ≤ start) :
          offset + relativeStart ≤ start := by
        by_contra short
        exact first (start - offset) (by omega) (ahead start matched later)
      have matched : Matched name room (offset + relativeStart) := by
        rw [Matched]
        refine ⟨occurs, fun earlier before matched => ?_⟩
        by_cases known : earlier < offset
        · exact Nat.le_trans (passed earlier known matched).2 (Nat.le_add_right _ _)
        · have := skipped earlier matched (Nat.le_of_not_lt known)
          omega
      by_cases clear : cleared name room (offset + relativeStart) = true
      · rw [if_pos clear] at step
        cases step
        exact ⟨iff_of_true rfl ⟨_, matched, clear⟩, Nat.succ_pos _⟩
      · rw [if_neg clear, size] at step
        have behind (start : Nat) (before : start < offset + relativeStart + room.utf8ByteSize)
            (other : Matched name room start) : cleared name room start = false ∧
              start + room.utf8ByteSize ≤ offset + relativeStart + room.utf8ByteSize := by
          by_cases known : start < offset
          · have := passed start known other
            exact ⟨this.1, by omega⟩
          · have later := skipped start other (Nat.le_of_not_lt known)
            rcases Nat.eq_or_lt_of_le later with rfl | beyond
            · exact ⟨Bool.eq_false_iff.mpr clear, Nat.le_refl _⟩
            · rw [Matched] at other
              have := other.2 _ beyond matched
              omega
        by_cases ended : (asBytes name).length ≤ offset + relativeStart + room.utf8ByteSize
        · rw [if_pos ended] at step
          cases step
          refine ⟨iff_of_false Bool.false_ne_true ?_, Nat.succ_pos _⟩
          rintro ⟨start, other, clear⟩
          have inside := String.Pos.Raw.le_iff.mp other.occurs.valid.le_rawEndPos
          rw [asBytes_length] at ended
          rw [(behind start (by simp at inside; omega) other).1] at clear
          cases clear
        · rw [if_neg ended] at step
          cases step
          refine ⟨⟨occurs.valid, behind⟩, ?_⟩
          unfold left
          dsimp only
          omega

theorem filenameMatchesRoom_eq (name : String) (nonempty : room ≠ "") :
    ∃ found, filenameMatchesRoom (some name) room = .answered found ∧
      (found = true ↔ ∃ start, Matched name room start ∧ cleared name room start = true) := by
  have keeps := fun s t (inv : s.Inv name room) step => (RoomSearch.turn_inv nonempty s t inv step).1
  have start : (RoomSearch.scanning 0).Inv name room := ⟨String.Pos.Raw.isValid_zero, fun start before => by omega⟩
  have inv := Loop.run_invariant keeps ((asBytes name).length + 1) start
  have done := Loop.run_finished (RoomSearch.Inv name room) (RoomSearch.left name) keeps
    (fun s t inv step => (RoomSearch.turn_inv nonempty s t inv step).2) ((asBytes name).length + 1) start (Nat.le_refl _)
  have ran : filenameMatchesRoom (some name) room =
    Loop.run (RoomSearch.turn name room) ((asBytes name).length + 1) (.scanning 0) := if_neg nonempty
  rw [← ran] at inv done
  cases last : filenameMatchesRoom (some name) room with
  | answered found =>
    rw [last] at inv
    exact ⟨found, rfl, inv⟩
  | panicked =>
    rw [last] at inv
    cases inv
  | scanning offset =>
    rw [last, RoomSearch.turn] at done
    split_ifs at done
    split at done
    · cases done
    · dsimp only at done
      split_ifs at done

end

/-- The search ends without a panic. It misses a slug just where some occurrence is delimited and every delimited one
    overlaps an earlier match. -/
theorem filenameMatchesRoom_delimited_iff (name room : String) (nonempty : room ≠ "") :
    ∃ found, filenameMatchesRoom (some name) room = .answered found ∧
      ((found = true ↔ ∃ start, Delimited name room start) ↔
        ((∃ start, Delimited name room start) → ∃ start, Delimited name room start ∧
          ∀ earlier < start, Matched name room earlier → earlier + room.utf8ByteSize ≤ start)) := by
  obtain ⟨found, answered, exact⟩ := filenameMatchesRoom_eq name nonempty
  have same : (found = true) ↔ ∃ start, Delimited name room start ∧
      ∀ earlier < start, Matched name room earlier → earlier + room.utf8ByteSize ≤ start := by
    rw [exact]
    refine exists_congr fun start => ?_
    rw [Matched, delimited_iff, and_right_comm]
  refine ⟨found, answered, ?_⟩
  rw [same]
  exact ⟨Iff.mpr, fun overlaps => ⟨fun ⟨start, delimited, _⟩ => ⟨start, delimited⟩, overlaps⟩⟩

theorem filenameMatchesRoom_delimited_iff_version : filenameMatchesRoom (some "room-v12") "room" = .answered true := by
  have delimited : Delimited "room-v12" "room" 0 := ⟨"", "-v12", by decide, by decide, by decide, by decide⟩
  obtain ⟨found, answered, holds⟩ := filenameMatchesRoom_delimited_iff "room-v12" "room" (by decide)
  have exact := holds.mpr fun _ => ⟨0, delimited, fun earlier before => (Nat.not_lt_zero earlier before).elim⟩
  rw [answered, exact.mpr ⟨0, delimited⟩]

/-- The second occurrence is delimited, but the search goes on behind the first one. -/
theorem overlapping_slug_missed : filenameMatchesRoom (some "xa-a-a") "a-a" = .answered false ∧
    ¬∃ found, filenameMatchesRoom (some "xa-a-a") "a-a" = .answered found ∧
      (found = true ↔ ∃ start, Delimited "xa-a-a" "a-a" start) := by
  have missed : filenameMatchesRoom (some "xa-a-a") "a-a" = .answered false := by decide
  refine ⟨missed, ?_⟩
  rintro ⟨found, answered, holds⟩
  obtain rfl : false = found := RoomSearch.answered.inj (missed.symm.trans answered)
  exact Bool.false_ne_true (holds.mpr ⟨3, "xa-", "", by decide, by decide, by decide, by decide⟩)

end Rezzy.Cli
