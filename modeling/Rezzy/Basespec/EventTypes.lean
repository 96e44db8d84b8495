import Mathlib
import Mathlib.Data.String.Basic
import Mathlib.Tactic.Common

namespace Rezzy.Basespec

open List Option

def mRoomMember : String := "m.room.member"
def mRoomPowerLevels : String := "m.room.power_levels"
def mRoomJoinRules : String := "m.room.join_rules"
def mRoomCreate : String := "m.room.create"
def mRoomHistoryVisibility : String := "m.room.history_visibility"
def mRoomThirdPartyInvite : String := "m.room.third_party_invite"
def mRoomRedaction : String := "m.room.redaction"
def mRoomAliases : String := "m.room.aliases"
def mEmptyStateKey : String := ""

def fieldAuthEvents : String := "auth_events"
def fieldContent : String := "content"
def fieldDepth : String := "depth"
def fieldEventId : String := "event_id"
def fieldHashes : String := "hashes"
def fieldOriginServerTs : String := "origin_server_ts"
def fieldPrevEvents : String := "prev_events"
def fieldSender : String := "sender"
def fieldSignatures : String := "signatures"
def fieldStateKey : String := "state_key"
def fieldType : String := "type"

def memJoin : String := "join"
def memLeave : String := "leave"
def memInvite : String := "invite"
def memBan : String := "ban"
def memKnock : String := "knock"

def rulePublic : String := "public"
def ruleInvite : String := "invite"
def ruleKnock : String := "knock"
def ruleRestricted : String := "restricted"
def ruleKnockRestricted : String := "knock_restricted"

def defaultPlInvite : Int := 0
def defaultPlKick : Int := 50
def defaultPlBan : Int := 50
def defaultPlRedact : Int := 50
def defaultPlUser : Int := 0
def maxPowerLevelRust : Int := 2 ^ 63 - 1
def maxPrevStateEvents : Nat := 20

/-- An interned event type. The source compares, orders and hashes its variants through the wire string alone. -/
structure EventType where
  asStr : String
deriving DecidableEq, Repr

abbrev Key := EventType × String

def keyCmp : Key → Key → Ordering :=
  compareLex (compareOn fun key => key.1.asStr) (compareOn fun key => key.2)

instance keyCmp_trans : Std.TransCmp keyCmp :=
  inferInstanceAs (Std.TransCmp (compareLex (compareOn fun key : Key => key.1.asStr)
    (compareOn fun key : Key => key.2)))

theorem keyCmp_eq (same : keyCmp left right = .eq) : left = right := by
  obtain ⟨⟨leftType⟩, leftKey⟩ := left
  obtain ⟨⟨rightType⟩, rightKey⟩ := right
  simp only [keyCmp, compareLex, compareOn, Ordering.then_eq_eq] at same
  rw [Std.LawfulEqCmp.eq_of_compare same.1, Std.LawfulEqCmp.eq_of_compare same.2]

instance keyCmp_lawful : Std.LawfulEqCmp keyCmp where
  eq_of_compare := keyCmp_eq

abbrev SharedState (Id : Type) := Std.ExtTreeMap Key Id keyCmp

abbrev KeySet := Std.ExtTreeSet Key keyCmp

section

variable {α : Type}

theorem getElem?_insert_key (m : SharedState α) (key other : Key) (v : α) :
    (m.insert key v)[other]? = if other = key then some v else m[other]? := by
  rw [Std.ExtTreeMap.getElem?_insert]
  by_cases same : other = key
  · rw [if_pos same, if_pos (same ▸ Std.ReflCmp.compare_self)]
  · rw [if_neg same, if_neg fun equal => same (keyCmp_eq equal).symm]

def fillKey (m : SharedState α) (key : Key) (v : α) : SharedState α :=
  if key ∈ m then m else m.insert key v

theorem getElem?_fillKey (m : SharedState α) (key other : Key) (v : α) :
    (fillKey m key v)[other]? = m[other]?.or (if other = key then some v else none) := by
  unfold fillKey
  split
  · rename_i mem
    split
    · rename_i same
      obtain ⟨old, found⟩ := isSome_iff_exists.mp (Std.ExtTreeMap.mem_iff_isSome_getElem?.mp mem)
      rw [same, found]
      rfl
    · rw [or_none]
  · rename_i missing
    rw [getElem?_insert_key]
    split
    · rename_i same
      rw [same, Std.ExtTreeMap.getElem?_eq_none missing, none_or]
    · rw [or_none]

theorem lookup_toList (m : SharedState α) (key : Key) : m.toList.lookup key = m[key]? := by
  have sound : ∀ v, m.toList.lookup key = some v → m[key]? = some v := by
    intro v found
    obtain ⟨before, after, split, _⟩ := lookup_eq_some_iff.mp found
    exact Std.ExtTreeMap.mem_toList_iff_getElem?_eq_some.mp (by simp [split])
  cases found : m.toList.lookup key with
  | some v => rw [sound v found]
  | none =>
    cases known : m[key]? with
    | none => rfl
    | some v =>
      have listed := Std.ExtTreeMap.mem_toList_iff_getElem?_eq_some.mpr known
      have missing := lookup_eq_none_iff.mp found _ listed
      simp at missing

theorem nodup_keys_toList (m : SharedState α) : (m.toList.map Prod.fst).Nodup := by
  rw [List.Nodup, pairwise_map]
  refine Std.ExtTreeMap.distinct_keys_toList.imp fun differ same => differ ?_
  rw [same]
  exact Std.ReflCmp.compare_self

theorem lookup_eq_some_of_nodup {κ : Type} [BEq κ] [LawfulBEq κ] {entries : List (κ × α)}
    (nodup : (entries.map Prod.fst).Nodup) (key : κ) (v : α) :
    entries.lookup key = some v ↔ (key, v) ∈ entries := by
  induction entries with
  | nil => simp
  | cons entry entries ih =>
    obtain ⟨own, held⟩ := entry
    obtain ⟨fresh, nodup⟩ := nodup_cons.mp nodup
    rw [lookup_cons, mem_cons]
    by_cases same : key = own
    · subst same
      have absent : (key, v) ∉ entries := fun mem => fresh (mem_map.mpr ⟨(key, v), mem, rfl⟩)
      simp [absent, eq_comm]
    · simp [same, beq_eq_false_iff_ne.mpr same, ih nodup]

theorem lookup_perm_toList {m : SharedState α} {entries : List (Key × α)} (listed : entries.Perm m.toList)
    (key : Key) : entries.lookup key = m[key]? := by
  have nodup : (entries.map Prod.fst).Nodup := (listed.map _).nodup_iff.mpr (nodup_keys_toList m)
  ext v
  rw [lookup_eq_some_of_nodup nodup, listed.mem_iff, Std.ExtTreeMap.mem_toList_iff_getElem?_eq_some]

end

inductive StateResVersion where
  | v1
  | v2
  | v2_1
  | v2_1_1
  | v2_2
  | v3
deriving DecidableEq, Repr

namespace StateResVersion

def isV2_1Plus : StateResVersion → Bool
  | v2_1 | v2_1_1 | v2_2 | v3 => true
  | v1 | v2 => false

def hasBanEvasionHardening : StateResVersion → Bool
  | v2_1_1 | v2_2 | v3 => true
  | v1 | v2 | v2_1 => false

end StateResVersion

inductive RoomVersionFormat where
  | numeric (version : Nat)
  | msc4242
  | msc3389
  | nutraCdo
deriving DecidableEq, Repr

def RoomVersionFormat.parse (roomVersion : String) : Option RoomVersionFormat :=
  match roomVersion with
  | "1" => some (numeric 1)
  | "2" => some (numeric 2)
  | "3" => some (numeric 3)
  | "4" => some (numeric 4)
  | "5" => some (numeric 5)
  | "6" => some (numeric 6)
  | "7" => some (numeric 7)
  | "8" => some (numeric 8)
  | "9" => some (numeric 9)
  | "10" => some (numeric 10)
  | "11" => some (numeric 11)
  | "12" | "12.1" => some (numeric 12)
  | "org.matrix.msc4242.12" => some msc4242
  | "org.matrix.msc3389.10" => some msc3389
  | "tk.nutra.cdo.12" => some nutraCdo
  | _ => none

namespace RoomVersionFormat

def requiresStrictCanonicalNumbers : RoomVersionFormat → Bool
  | numeric v => 6 ≤ v
  | msc4242 | msc3389 | nutraCdo => true

def usesV11RedactionRules : RoomVersionFormat → Bool
  | numeric v => 11 ≤ v
  | msc4242 | nutraCdo => true
  | msc3389 => false

def usesV12CreateRules : RoomVersionFormat → Bool
  | numeric v => 12 ≤ v
  | msc4242 | nutraCdo => true
  | msc3389 => false

end RoomVersionFormat

def roomVersionIsV11OrLater (roomVersion : String) : Bool :=
  (RoomVersionFormat.parse roomVersion).any RoomVersionFormat.usesV11RedactionRules

def roomVersionIsV6OrLater (roomVersion : String) : Bool :=
  (RoomVersionFormat.parse roomVersion).any RoomVersionFormat.requiresStrictCanonicalNumbers

def isMsc4242RoomVersion (roomVersion : String) : Bool := RoomVersionFormat.parse roomVersion = some .msc4242

def roomVersionIsV12OrLater (roomVersion : String) : Bool :=
  (RoomVersionFormat.parse roomVersion).any RoomVersionFormat.usesV12CreateRules

/-- The algorithm for a room version label. The numeric labels `parse` can return are 1 to 12, so the
    last numeric case stands for 12 alone. -/
def StateResVersion.fromRoomVersion (ver : String) : Option StateResVersion :=
  (RoomVersionFormat.parse ver).map fun format =>
    match format with
    | .numeric n =>
      if n = 1 then v1 else if 2 ≤ n ∧ n ≤ 11 then v2 else if ver = "12.1" then v2_1_1 else v2_1
    | .msc3389 => v2
    | .msc4242 => v2_2
    | .nutraCdo => v3

def decimal (digits : List Char) : Nat :=
  digits.foldl (fun value c => value * 10 + (c.toNat - '0'.toNat)) 0

def parseU32 (text : String) : Option Nat :=
  let digits := match text.toList with
    | '+' :: rest => rest
    | all => all
  if digits ≠ [] ∧ digits.all Char.isDigit ∧ decimal digits < 2 ^ 32 then some (decimal digits) else none

def splitOnce (separator : Char) : List Char → Option (List Char × List Char)
  | [] => none
  | c :: rest =>
    if c = separator then some ([], rest)
    else (splitOnce separator rest).map fun (left, right) => (c :: left, right)

def isLocalpartChar (c : Char) : Bool :=
  ('a' ≤ c && c ≤ 'z') || ('0' ≤ c && c ≤ '9') || c = '.' || c = '_' || c = '=' || c = '-' || c = '/' ||
    c = '+'

def isValidMxid (id : String) : Bool :=
  match id.toList with
  | '@' :: rest =>
    match splitOnce ':' rest with
    | some (localpart, domain) => localpart ≠ [] && domain ≠ [] && localpart.all isLocalpartChar
    | none => false
  | _ => false

def extractDomain (id : List Char) : Option (List Char) :=
  (splitOnce ':' id).map Prod.snd

def domainMatches (id1 id2 : String) : Bool :=
  let d1 := (extractDomain id1.toList).getD id1.toList
  let d2 := (extractDomain id2.toList).getD id2.toList
  d1 ≠ [] && d2 ≠ [] && d1.map Char.toLower = d2.map Char.toLower

end Rezzy.Basespec
