import Rezzy.Bitmaps.Wide

namespace Rezzy.Bitmaps

open Sorted SetMachine List Fin
open Bitmap (isEmpty_iff mergeWith_holds)

structure Part (P : U32 → Prop) (part : Option Bitmap) : Prop where
  holds : ∀ b, part = some b → b.Holds P
  occupied : ∀ b, part = some b → ∃ low, P low
  missing : part = none → ∀ low, ¬P low

namespace Part

variable {P Q : U32 → Prop}

theorem congr (given : Part P part) (same : ∀ low, P low ↔ Q low) : Part Q part := by
  constructor
  · exact fun b held => (given.holds b held).congr same
  · intro b held
    obtain ⟨low, inside⟩ := given.occupied b held
    exact ⟨low, (same low).mp inside⟩
  · exact fun none low inside => given.missing none low ((same low).mpr inside)

theorem ext (left : Part P part) (right : Part Q other) (same : ∀ low, P low ↔ Q low) : part = other := by
  cases part with
  | none =>
    cases other with
    | none => rfl
    | some b =>
      obtain ⟨low, inside⟩ := right.occupied b rfl
      exact absurd ((same low).mpr inside) (left.missing rfl low)
  | some a =>
    cases other with
    | none =>
      obtain ⟨low, inside⟩ := left.occupied a rfl
      exact absurd ((same low).mp inside) (right.missing rfl low)
    | some b => rw [(left.holds a rfl).ext (right.holds b rfl) same]

theorem of_occupied (holds : b.Holds P) (low : U32) (inside : P low) : Part P (some b) :=
  ⟨fun _ same => Option.some.inj same ▸ holds, fun _ _ => ⟨low, inside⟩, fun impossible => nomatch impossible⟩

theorem of_missing (empty : ∀ low, ¬P low) : Part P none :=
  ⟨fun _ impossible => (nomatch impossible), fun _ impossible => (nomatch impossible), fun _ => empty⟩

theorem of_holds (holds : b.Holds P) : Part P (Wide.occupied b) := by
  unfold Wide.occupied
  by_cases empty : b.isEmpty = true
  · rw [if_pos empty]
    exact of_missing ((isEmpty_iff holds).mp empty)
  · rw [if_neg empty]
    have some' : ∃ low, P low := by
      by_contra none
      exact empty ((isEmpty_iff holds).mpr (not_exists.mp none))
    obtain ⟨low, inside⟩ := some'
    exact of_occupied holds low inside

theorem getD (given : Part P part) : (part.getD Bitmap.new).Holds P := by
  cases part with
  | none => exact Bitmap.new_holds.congr fun low => iff_of_false id (given.missing rfl low)
  | some b => exact given.holds b rfl

theorem any_iff (given : Part P part) {result : Prop} (tested : ∀ b, part = some b → (test b = true ↔ result))
    (absent : (∀ low, ¬P low) → ¬result) : part.any test = true ↔ result := by
  cases part with
  | none => exact iff_of_false Bool.false_ne_true (absent (given.missing rfl))
  | some b => exact tested b rfl

end Part

namespace Wide

variable {n : Nat} {P Q : WideValue n → Prop} {w u self rhs : Wide n} {key : Fin n}

structure Canonical (w : Wide n) : Prop where
  sorted : SortedKeys w.map
  each : ∀ e ∈ w.map, e.2.Canonical ∧ e.2.isEmpty = false

structure Holds (P : WideValue n → Prop) (w : Wide n) : Prop where
  sorted : SortedKeys w.map
  parts : ∀ key, Part (fun low => P (Fin.mkDivMod key low)) (lookup w.map key)

theorem Holds.canonical (holds : Holds P w) : Canonical w := by
  refine ⟨holds.sorted, ?_⟩
  rintro ⟨key, b⟩ mem
  have found := lookup_of_mem holds.sorted mem
  have inner := (holds.parts key).holds b found
  obtain ⟨low, inside⟩ := (holds.parts key).occupied b found
  refine ⟨inner.canonical, ?_⟩
  rw [Bool.eq_false_iff]
  exact fun empty => (isEmpty_iff inner).mp empty low inside

theorem Holds.congr (holds : Holds P w) (same : ∀ v, P v ↔ Q v) : Holds Q w :=
  ⟨holds.sorted, fun key => (holds.parts key).congr fun low => same (mkDivMod key low)⟩

theorem Holds.ext (left : Holds P w) (right : Holds Q u) (same : ∀ v, P v ↔ Q v) : w = u := by
  have maps : w.map = u.map :=
    left.sorted.ext_lookup right.sorted fun key =>
      (left.parts key).ext (right.parts key) fun low => same (mkDivMod key low)
  cases w
  cases u
  exact congrArg Wide.mk maps

theorem new_holds : Holds (fun _ => False) (new : Wide n) := ⟨List.Pairwise.nil, fun _ => Part.of_missing fun _ => id⟩

theorem assign_holds (holds : Holds P w) (part : Part (fun low => Q (mkDivMod key low)) (some b))
    (others : ∀ v : WideValue n, v.divNat ≠ key → (P v ↔ Q v)) : Holds Q ⟨assign w.map key b⟩ := by
  refine ⟨holds.sorted.assign key b, ?_⟩
  intro other
  rw [lookup_assign holds.sorted]
  split
  · rename_i here
    rw [here]
    exact part
  · rename_i elsewhere
    apply (holds.parts other).congr
    intro _
    apply others
    rw [divNat_mkDivMod]
    exact elsewhere

theorem mkDivMod_eq_iff : mkDivMod value.divNat low = value ↔ low = value.modNat := by
  constructor
  · intro same
    have lower := congrArg modNat same
    rwa [modNat_mkDivMod] at lower
  · intro same
    rw [same, divNat_mkDivMod_modNat]

section

theorem contains_iff (holds : Holds P w) (value : WideValue n) : w.contains value = true ↔ P value := by
  have part := holds.parts value.divNat
  apply part.any_iff
  · intro b found
    have inside := Bitmap.contains_iff (part.holds b found) value.modNat
    rw [divNat_mkDivMod_modNat] at inside
    exact inside
  · intro empty given
    apply empty value.modNat
    rw [divNat_mkDivMod_modNat]
    exact given

theorem all_iff (left : Holds P w) (each : ∀ key b, Sorted.lookup w.map key = some b →
      b.Holds (fun low => P (mkDivMod key low)) →
        (test (key, b) = true ↔ ∀ low, P (mkDivMod key low) → Q (mkDivMod key low))) : w.map.all test = true ↔ ∀ v, P v → Q v := by
  rw [all_eq_true]
  constructor
  · intro all v given
    have part := left.parts v.divNat
    rw [← divNat_mkDivMod_modNat v] at given
    cases found : lookup w.map v.divNat with
    | none => exact absurd given (part.missing found v.modNat)
    | some b =>
      have inside := (each _ b found (part.holds b found)).mp (all _ (mem_of_lookup found)) v.modNat given
      rwa [divNat_mkDivMod_modNat] at inside
  · rintro sub ⟨key, b⟩ mem
    have found := lookup_of_mem left.sorted mem
    exact (each key b found ((left.parts key).holds b found)).mpr fun low given => sub _ given

theorem isSubset_iff (left : Holds P w) (right : Holds Q u) : w.isSubset u = true ↔ ∀ v, P v → Q v := by
  refine all_iff left fun key b found holds => (right.parts key).any_iff ?_ fun empty sub => ?_
  · exact fun c held => Bitmap.isSubset_iff holds ((right.parts key).holds c held)
  · obtain ⟨low, inside⟩ := (left.parts key).occupied b found
    exact empty low (sub low inside)

theorem isDisjoint_iff (left : Holds P w) (right : Holds Q u) : w.isDisjoint u = true ↔ ∀ v, P v → ¬Q v := by
  refine all_iff left fun key b found holds => ?_
  dsimp only
  cases held : lookup u.map key with
  | none => exact iff_of_true rfl fun low _ => (right.parts key).missing held low
  | some c => exact Bitmap.isDisjoint_iff holds ((right.parts key).holds c held)

theorem insert_holds (holds : Holds P w) (value : WideValue n) :
    Holds (fun v => v = value ∨ P v) (w.insert value).2 ∧ ((w.insert value).1 = true ↔ ¬P value) := by
  obtain ⟨inner, fresh⟩ := Bitmap.insert_holds (holds.parts value.divNat).getD value.modNat
  rw [divNat_mkDivMod_modNat] at fresh
  refine ⟨?_, fresh⟩
  apply assign_holds holds
  · have inner' : ((lookup w.map value.divNat).getD Bitmap.new |>.insert value.modNat).2.Holds
        fun low => mkDivMod value.divNat low = value ∨ P (mkDivMod value.divNat low) :=
      inner.congr fun low => or_congr_left mkDivMod_eq_iff.symm
    exact Part.of_occupied inner' value.modNat (.inl (divNat_mkDivMod_modNat value))
  · exact fun v differs => ⟨.inr, fun either => either.resolve_left fun same => differs (same ▸ rfl)⟩

theorem remove_holds (holds : Holds P w) (value : WideValue n) :
    Holds (fun v => P v ∧ v ≠ value) (w.remove value).2 ∧ ((w.remove value).1 = true ↔ P value) := by
  have part := holds.parts value.divNat
  unfold remove split
  dsimp only
  cases found : lookup w.map value.divNat with
  | none =>
    have absent : ¬P value := by
      have missing := part.missing found value.modNat
      rwa [divNat_mkDivMod_modNat] at missing
    refine ⟨holds.congr fun v => ⟨fun given => ⟨given, ?_⟩, And.left⟩, iff_of_false Bool.false_ne_true absent⟩
    rintro rfl
    exact absent given
  | some b =>
    obtain ⟨inner, removed⟩ := Bitmap.remove_holds (part.holds b found) value.modNat
    rw [divNat_mkDivMod_modNat] at removed
    refine ⟨?_, removed⟩
    have inner' : (b.remove value.modNat).2.Holds
        fun low => P (mkDivMod value.divNat low) ∧ mkDivMod value.divNat low ≠ value :=
      inner.congr fun low => and_congr_right fun _ => not_congr mkDivMod_eq_iff.symm
    have kept := Part.of_holds inner'
    have others : ∀ v : WideValue n, v.divNat ≠ value.divNat → (P v ↔ P v ∧ v ≠ value) :=
      fun v differs => ⟨fun given => ⟨given, fun same => differs (same ▸ rfl)⟩, And.left⟩
    unfold occupied at kept
    dsimp only
    split
    · rename_i empty
      rw [if_pos empty] at kept
      refine ⟨holds.sorted.erase _, ?_⟩
      intro other
      rw [lookup_erase holds.sorted]
      split
      · rename_i here
        rw [here]
        exact kept
      · rename_i elsewhere
        apply (holds.parts other).congr
        intro low
        apply others
        rw [divNat_mkDivMod]
        exact elsewhere
    · rename_i occupied
      rw [if_neg occupied] at kept
      exact assign_holds holds kept others

def Within (entry : Fin n × Bitmap) (v : WideValue n) : Prop := v.divNat = entry.1 ∧ entry.2.Mem v.modNat

theorem unite_holds (aliased : Bool) (entry : Fin n × Bitmap) (holds : Holds P w) (canonical : entry.2.Canonical)
    (occupied : entry.2.isEmpty = false) (same : aliased = true → lookup w.map entry.1 = some entry.2) :
    ∃ out, unite aliased w entry = some out ∧ Holds (fun v => P v ∨ Within entry v) out := by
  have own := (holds.parts entry.1).getD
  obtain ⟨b, united, inner⟩ := mergeWith_holds aliased .or own canonical.holds fun one => by
    rw [same one, Option.getD_some]
  have inner' : b.Holds fun low =>
      P (mkDivMod entry.1 low) ∨ Within entry (mkDivMod entry.1 low) := by
    apply inner.congr
    intro low
    unfold Within
    rw [divNat_mkDivMod, modNat_mkDivMod]
    exact or_congr_right ⟨fun mem => ⟨rfl, mem⟩, And.right⟩
  have some' : ∃ low, entry.2.Mem low := by
    by_contra none
    have empty := (isEmpty_iff canonical.holds).mpr (not_exists.mp none)
    rw [occupied] at empty
    cases empty
  obtain ⟨low, inside⟩ := some'
  refine ⟨⟨assign w.map entry.1 b⟩, ?_, ?_⟩
  · show Option.map _ (Bitmap.mergeWith aliased .or _ _) = _
    rw [united]
    rfl
  · apply assign_holds holds
    · refine Part.of_occupied inner' low (.inr ⟨divNat_mkDivMod entry.1 low, ?_⟩)
      rw [modNat_mkDivMod]
      exact inside
    · exact fun v differs => ⟨.inl, fun either => either.resolve_right fun within => differs within.1⟩

theorem uniteAll_holds {entries : List (Fin n × Bitmap)} (holds : Holds P w)
    (each : ∀ e ∈ entries, e.2.Canonical ∧ e.2.isEmpty = false) :
    ∃ out, entries.foldlM (unite false) w = some out ∧ Holds (fun v => P v ∨ ∃ e ∈ entries, Within e v) out := by
  induction entries generalizing w P with
  | nil => exact ⟨w, rfl, holds.congr fun v => by simp⟩
  | cons e entries ih =>
    obtain ⟨⟨canonical, occupied⟩, each⟩ := forall_mem_cons.mp each
    obtain ⟨next, united, holds⟩ := unite_holds false e holds canonical occupied fun impossible => nomatch impossible
    obtain ⟨out, rest, holds⟩ := ih holds each
    refine ⟨out, ?_, holds.congr fun v => ?_⟩
    · rw [foldlM_cons, united]
      exact rest
    · rw [exists_mem_cons_iff]
      tauto

theorem uniteAll_self {entries : List (Fin n × Bitmap)} (sorted : SortedKeys w.map) (within : ∀ e ∈ entries, e ∈ w.map) :
    entries.foldlM (unite true) w = some w := by
  induction entries with
  | nil => rfl
  | cons e entries ih =>
    obtain ⟨first, within⟩ := forall_mem_cons.mp within
    have found : lookup w.map e.1 = some e.2 := lookup_of_mem sorted first
    have kept : unite true w e = some w := by
      unfold unite
      rw [found]
      show some (Wide.mk (assign w.map e.1 e.2)) = some w
      rw [assign_self sorted found]
    rw [foldlM_cons, kept]
    exact ih within

theorem Holds.iff_within (holds : Holds P w) (v : WideValue n) : P v ↔ ∃ e ∈ w.map, Within e v := by
  have part := holds.parts v.divNat
  constructor
  · intro given
    have given' : P (mkDivMod v.divNat v.modNat) := by rwa [divNat_mkDivMod_modNat]
    cases found : lookup w.map v.divNat with
    | none => exact absurd given' (part.missing found v.modNat)
    | some b =>
      have inner := part.holds b found
      refine ⟨(v.divNat, b), mem_of_lookup found, rfl, ?_⟩
      exact (Bitmap.contains_iff inner.canonical.holds _).mp ((Bitmap.contains_iff inner _).mpr given')
  · rintro ⟨⟨key, b⟩, mem, same, inside⟩
    subst same
    have inner := part.holds b (lookup_of_mem holds.sorted mem)
    have given := (Bitmap.contains_iff inner _).mp ((Bitmap.contains_iff inner.canonical.holds _).mpr inside)
    rwa [divNat_mkDivMod_modNat] at given

theorem bitorAssign_holds (aliased : Bool) (left : Holds P w) (right : Holds Q u) (same : aliased = true → w = u) :
    ∃ out, bitorAssign aliased w u = some out ∧ Holds (fun v => P v ∨ Q v) out := by
  cases aliased with
  | true =>
    have equal : ∀ v, Q v ↔ P v := by
      intro v
      rw [← contains_iff right, ← contains_iff left, same rfl]
    refine ⟨w, ?_, left.congr fun v => ⟨.inl, fun either => either.elim id (equal v).mp⟩⟩
    rw [← same rfl]
    exact uniteAll_self left.sorted fun e mem => mem
  | false =>
    obtain ⟨out, united, holds⟩ := uniteAll_holds left right.canonical.each
    exact ⟨out, united, holds.congr fun v => or_congr_right (right.iff_within v).symm⟩

theorem retain_eq {keep : Fin n → Bitmap → Option (Option Bitmap)} {f : Fin n → Bitmap → Option Bitmap}
    {entries : List (Fin n × Bitmap)} (kept : ∀ e ∈ entries, keep e.1 e.2 = some (f e.1 e.2)) :
    retain keep entries = some (entries.filterMap fun e => (f e.1 e.2).map (Prod.mk e.1)) := by
  induction entries with
  | nil => rfl
  | cons e entries ih =>
    obtain ⟨first, kept⟩ := forall_mem_cons.mp kept
    show ((keep e.1 e.2).bind fun kept => (retain keep entries).bind fun rest => some _) = _
    rw [first, ih kept, filterMap_cons]
    cases f e.1 e.2 <;> rfl

theorem filterMap_holds {f : Fin n → Bitmap → Option Bitmap} (holds : Holds P w)
    (each : ∀ key b, (key, b) ∈ w.map → Part (fun low => Q (mkDivMod key low)) (f key b))
    (missing : ∀ v, ¬P v → ¬Q v) : Holds Q ⟨w.map.filterMap fun e => (f e.1 e.2).map (Prod.mk e.1)⟩ := by
  refine ⟨holds.sorted.filterMap f, ?_⟩
  intro key
  rw [lookup_filterMap holds.sorted]
  cases found : lookup w.map key with
  | none => exact Part.of_missing fun low => missing _ ((holds.parts key).missing found low)
  | some b => exact each key b (mem_of_lookup found)

theorem retain_holds (holds : Holds P w)
    (each : ∀ key b, (key, b) ∈ w.map → ∃ part, keep key b = some part ∧ Part (fun low => Q (mkDivMod key low)) part)
    (missing : ∀ v, ¬P v → ¬Q v) : ∃ out, (retain keep w.map).map Wide.mk = some out ∧ Holds Q out := by
  have kept : ∀ e ∈ w.map, keep e.1 e.2 = some ((keep e.1 e.2).getD none) := by
    intro e mem
    obtain ⟨part, given, _⟩ := each e.1 e.2 mem
    rw [given, Option.getD_some]
  rw [retain_eq (f := fun key b => (keep key b).getD none) kept]
  refine ⟨_, rfl, filterMap_holds (f := fun key b => (keep key b).getD none) holds ?_ missing⟩
  intro key b mem
  obtain ⟨part, given, inner⟩ := each key b mem
  rw [given, Option.getD_some]
  exact inner

section

variable (aliased : Bool) (left : Holds P w) (right : Holds Q u) (same : aliased = true → w = u)
include left right same

theorem mergeWith_part (mode : Mode) (found : lookup w.map key = some b) (held : lookup u.map key = some o) :
    ∃ part, (Bitmap.mergeWith aliased mode b o).map occupied = some part ∧
      Part (fun low => mode.Combines (P (mkDivMod key low)) (Q (mkDivMod key low))) part := by
  have one : aliased = true → b = o := by
    intro flagged
    rw [← same flagged, found] at held
    exact Option.some.inj held
  obtain ⟨c, merged, inner⟩ :=
    mergeWith_holds aliased mode ((left.parts key).holds b found) ((right.parts key).holds o held) one
  exact ⟨occupied c, congrArg (Option.map occupied) merged, Part.of_holds inner⟩

theorem bitandAssign_holds : ∃ out, bitandAssign aliased w u = some out ∧ Holds (fun v => P v ∧ Q v) out := by
  apply retain_holds left
  · intro key b mem
    cases held : lookup u.map key with
    | none => exact ⟨none, rfl, Part.of_missing fun low both => (right.parts key).missing held low both.2⟩
    | some o => exact mergeWith_part aliased left right same .and (lookup_of_mem left.sorted mem) held
  · exact fun v absent both => absent both.1

theorem subtractAssign_holds : ∃ out, subtractAssign aliased w u = some out ∧ Holds (fun v => P v ∧ ¬Q v) out := by
  apply retain_holds left
  · intro key b mem
    have found := lookup_of_mem left.sorted mem
    cases held : lookup u.map key with
    | none =>
      refine ⟨occupied b, rfl, Part.of_holds (((left.parts key).holds b found).congr fun low =>
        ⟨fun given => ⟨given, ?_⟩, And.left⟩)⟩
      exact (right.parts key).missing held low
    | some o => exact mergeWith_part aliased left right same .sub found held
  · exact fun v absent both => absent both.1

end

def meet (other : List (Fin n × Bitmap)) (key : Fin n) (b : Bitmap) : Option Bitmap :=
  (lookup other key).bind fun o => occupied (b.bitand o)

theorem bitand_eq (w u : Wide n) (sorted : SortedKeys w.map) :
    (w.bitand u).map = w.map.filterMap fun e => (meet u.map e.1 e.2).map (Prod.mk e.1) := by
  have walked : ∀ entries out : List (Fin n × Bitmap), entries.foldl (intersect u) out =
      (entries.filterMap fun e => (meet u.map e.1 e.2).map (Prod.mk e.1)).foldl
        (fun entries e => assign entries e.1 e.2) out := by
    intro entries
    induction entries with
    | nil => exact fun _ => rfl
    | cons e entries ih =>
      intro out
      have step : intersect u out e = (meet u.map e.1 e.2).elim out (assign out e.1) := by
        unfold intersect meet occupied
        cases lookup u.map e.1 with
        | none => rfl
        | some o =>
          by_cases empty : (e.2.bitand o).isEmpty = true
          · simp [empty]
          · simp [empty]
      rw [foldl_cons, ih, filterMap_cons, step]
      cases meet u.map e.1 e.2 <;> rfl
  exact (walked w.map []).trans (sorted.filterMap (meet u.map)).assignAll_self

theorem bitand_holds (left : Holds P w) (right : Holds Q u) : Holds (fun v => P v ∧ Q v) (w.bitand u) := by
  have made : w.bitand u = ⟨w.map.filterMap fun e => (meet u.map e.1 e.2).map (Prod.mk e.1)⟩ := by
    rw [← bitand_eq w u left.sorted]
  rw [made]
  apply filterMap_holds left
  · intro key b mem
    have mine := (left.parts key).holds b (lookup_of_mem left.sorted mem)
    unfold meet
    cases held : lookup u.map key with
    | none => exact Part.of_missing fun low both => (right.parts key).missing held low both.2
    | some o => exact Part.of_holds (Bitmap.bitand_holds mine ((right.parts key).holds o held))
  · exact fun v absent both => absent both.1

end

theorem absorb_eq (w : Wide n) (key : Fin n) (b : Bitmap) : w.absorb key b = unite false w (key, b) := by
  unfold absorb unite
  cases lookup w.map key with
  | none =>
    have adopted : Bitmap.new.bitorAssign false b = some b := by
      unfold Bitmap.bitorAssign Bitmap.mergeWith
      rw [if_neg Bool.false_ne_true]
      split
      · rename_i empty
        have none := List.isEmpty_iff.mp empty
        cases b
        simp only at none
        rw [none]
        rfl
      · rfl
    rw [Option.getD_none, adopted]
    rfl
  | some own => rfl

def Pending (current : Option (Fin n × Bitmap)) : Prop :=
  ∀ key b, current = some (key, b) → b.Canonical ∧ b.isEmpty = false

theorem single_holds (low : U32) : (Bitmap.new.insert low).2.Holds (· = low) :=
  (Bitmap.insert_holds Bitmap.new_holds low).1.congr fun _ => or_iff_left id

theorem pending_insert {b : Bitmap} {P : U32 → Prop} (holds : b.Holds P) (key : Fin n) (low : U32) :
    Pending (some (key, (b.insert low).2)) := by
  intro _ _ same
  cases same
  have inserted := (Bitmap.insert_holds holds low).1
  refine ⟨inserted.canonical, ?_⟩
  rw [Bool.eq_false_iff]
  exact fun empty => (isEmpty_iff inserted).mp empty low (.inl rfl)

theorem mem_insert {b : Bitmap} (canonical : b.Canonical) (low x : U32) :
    (b.insert low).2.Mem x ↔ x = low ∨ b.Mem x := by
  have inserted := (Bitmap.insert_holds canonical.holds low).1
  rw [← Bitmap.contains_iff inserted.canonical.holds, Bitmap.contains_iff inserted]

theorem ext_iff (x v : WideValue n) : x = v ↔ x.divNat = v.divNat ∧ x.modNat = v.modNat := by
  constructor
  · rintro rfl
    exact ⟨rfl, rfl⟩
  · rintro ⟨high, low⟩
    rw [← divNat_mkDivMod_modNat x, ← divNat_mkDivMod_modNat v, high, low]

theorem split_eq (halves : split v = (key, low)) : v.divNat = key ∧ v.modNat = low :=
  ⟨congrArg Prod.fst halves, congrArg Prod.snd halves⟩

theorem within_single (x v : WideValue n) : Within (v.divNat, (Bitmap.new.insert v.modNat).2) x ↔ x = v := by
  unfold Within
  rw [ext_iff, ← Bitmap.contains_iff (single_holds v.modNat).canonical.holds, Bitmap.contains_iff (single_holds v.modNat)]

theorem extendLoop_holds (current : Option (Fin n × Bitmap)) (holds : Holds P w) (pending : Pending current) :
    ∃ out, extendLoop current w values = some out ∧
      Holds (fun v => P v ∨ (∃ e, current = some e ∧ Within e v) ∨ v ∈ values) out := by
  fun_induction extendLoop current w values generalizing P with
  | case1 key b w =>
    obtain ⟨canonical, occupied⟩ := pending key b rfl
    obtain ⟨out, united, holds⟩ :=
      unite_holds false (key, b) holds canonical occupied fun impossible => nomatch impossible
    refine ⟨out, (absorb_eq w key b).trans united, holds.congr fun v => ?_⟩
    simp
  | case2 w => exact ⟨w, rfl, holds.congr fun v => by simp⟩
  | case3 b w v values key low split ih =>
    obtain ⟨canonical, _⟩ := pending key b rfl
    obtain ⟨rfl, rfl⟩ := split_eq split
    obtain ⟨out, looped, holds⟩ := ih holds (pending_insert canonical.holds v.divNat v.modNat)
    refine ⟨out, looped, holds.congr fun x => ?_⟩
    simp only [Option.some.injEq, exists_eq_left', Within, mem_insert canonical, mem_cons, ext_iff x v]
    tauto
  | case4 key b w v values key' low split differs ih =>
    obtain ⟨canonical, occupied⟩ := pending key b rfl
    obtain ⟨rfl, rfl⟩ := split_eq split
    obtain ⟨next, united, holds⟩ :=
      unite_holds false (key, b) holds canonical occupied fun impossible => nomatch impossible
    obtain ⟨out, looped, holds⟩ := ih next holds (pending_insert Bitmap.new_holds v.divNat v.modNat)
    refine ⟨out, ?_, holds.congr fun x => ?_⟩
    · rw [absorb_eq, united]
      exact looped
    · simp only [Option.some.injEq, exists_eq_left', within_single, mem_cons]
      tauto
  | case5 w v values key low split ih =>
    obtain ⟨rfl, rfl⟩ := split_eq split
    obtain ⟨out, looped, holds⟩ := ih holds (pending_insert Bitmap.new_holds v.divNat v.modNat)
    refine ⟨out, looped, holds.congr fun x => ?_⟩
    simp only [Option.some.injEq, exists_eq_left', within_single, mem_cons, reduceCtorEq, false_and, exists_false]
    tauto

theorem extend_holds (holds : Holds P w) (values : List (WideValue n)) :
    ∃ out, w.extend values = some out ∧ Holds (fun v => v ∈ values ∨ P v) out := by
  obtain ⟨out, looped, extended⟩ := extendLoop_holds none holds (fun _ _ impossible => nomatch impossible)
  refine ⟨out, looped, extended.congr fun v => ?_⟩
  simp
  tauto

end Wide

end Rezzy.Bitmaps
