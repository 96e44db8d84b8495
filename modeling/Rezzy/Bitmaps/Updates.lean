import Rezzy.Bitmaps.Bitmap

namespace Rezzy.Bitmaps.Bitmap

open Ascending Option

variable {P Q : U32 → Prop}

section

theorem put_holds (holds : Holds P b) (place : Place Chunk.key b.chunks key before found after) (new : Option Chunk)
    (part : Chunk.Holds key (fun lo => Q (Fin.mkDivMod key lo)) new)
    (others : ∀ v : U32, v.divNat ≠ key → (P v ↔ Q v)) : Holds Q ⟨before ++ (new.toList ++ after)⟩ := by
  have same : ∀ c, new = some c → c.key = key := fun c held => (part.canonical c held).2
  refine ⟨place.ascends_put same holds.ascends, ?_⟩
  intro other
  rw [place.entryAt_put same]
  split
  · rename_i here
    rw [here]
    exact part
  · rename_i elsewhere
    apply (holds.parts other).congr
    intro _
    apply others
    rw [Fin.divNat_mkDivMod]
    exact elsewhere

theorem mkDivMod_eq_iff : Fin.mkDivMod value.divNat lo = value ↔ lo = value.modNat := by
  constructor
  · intro same
    have low := congrArg Fin.modNat same
    rwa [Fin.modNat_mkDivMod] at low
  · intro same
    rw [same, Fin.divNat_mkDivMod_modNat]

theorem ne_of_divNat_ne {v value : U32} (differs : v.divNat ≠ value.divNat) : v ≠ value := fun same => differs (same ▸ rfl)

open List

theorem insertPos_eq {chunks before after : List Chunk} {found : Option Chunk}
    (place : Place Chunk.key chunks key before found after) : insertPos chunks key = before.length := by
  have searched : okOrErr (search Chunk.key chunks key) = before.length := by
    cases found with
    | none => rw [place.search_absent, okOrErr]
    | some chunk => rw [place.search_found, okOrErr]
  have last := place.getLast?
  unfold insertPos
  cases end' : chunks.getLast? with
  | none =>
    have none := getLast?_eq_none_iff.mp end'
    have split := congrArg length place.split
    rw [none, length_append] at split
    show 0 = _
    simp only [length_nil] at split
    omega
  | some final =>
    dsimp only
    rw [end'] at last
    have length := congrArg length place.split
    split
    · rename_i here
      -- nothing is above the last chunk, so that it is the one found
      have ended : after = [] := by
        cases top : after.getLast? with
        | none => exact getLast?_eq_none_iff.mp top
        | some z =>
          rw [top, some_or] at last
          exact absurd here (Option.some.inj last ▸ (place.above z (mem_of_getLast? top)).ne')
      cases found with
      | none =>
        rw [ended, getLast?_nil, none_or, none_or] at last
        exact absurd here (place.below final (mem_of_getLast? last.symm)).ne
      | some chunk =>
        rw [ended] at length
        simp only [toList_some, append_nil, length_append, length_singleton] at length
        omega
    · split
      · rename_i differs below
        have ended : after = [] := by
          cases top : after.getLast? with
          | none => exact getLast?_eq_none_iff.mp top
          | some z =>
            rw [top, some_or] at last
            exact absurd below (Option.some.inj last ▸ lt_asymm (place.above z (mem_of_getLast? top)))
        cases found with
        | none => rw [length, ended]; simp
        | some chunk =>
          rw [ended, getLast?_nil, none_or, some_or] at last
          exact absurd (place.same chunk rfl) (Option.some.inj last ▸ differs)
      · exact searched

theorem insert_holds (holds : Holds P b) (value : U32) :
    Holds (fun v => v = value ∨ P v) (b.insert value).2 ∧ ((b.insert value).1 = true ↔ ¬P value) := by
  obtain ⟨before, found, after, place⟩ := holds.ascends.place value.divNat
  have part := holds.at' value
  rw [place.entryAt] at part
  have others : ∀ v : U32, v.divNat ≠ value.divNat → (P v ↔ v = value ∨ P v) :=
    fun v differs => ⟨.inr, fun either => either.resolve_left (ne_of_divNat_ne differs)⟩
  have held := part.lows value.modNat
  rw [Fin.divNat_mkDivMod_modNat] at held
  unfold insert split
  dsimp only
  rw [insertPos_eq place]
  cases found with
  | none =>
    have at' : b.chunks[before.length]?.filter (fun chunk => decide (chunk.key = value.divNat)) = none := by
      rw [place.split, toList_none, nil_append, getElem?_append_right le_rfl, Nat.sub_self]
      cases after with
      | nil => rfl
      | cons next rest => simp [(place.above next mem_cons_self).ne']
    rw [at']
    rw [place.insertIdx]
    refine ⟨?_, iff_of_true rfl fun given => not_mem_nil (held.mpr given)⟩
    apply put_holds holds place (some ⟨value.divNat, 1, .array [value.modNat]⟩)
    · refine Chunk.holds_of_canonical ⟨⟨pairwise_singleton _ _, rfl, rfl⟩, cons_ne_nil _ _⟩ rfl ?_
      intro lo
      have absent : ¬P (Fin.mkDivMod value.divNat lo) := fun given => not_mem_nil ((part.lows lo).mpr given)
      rw [mkDivMod_eq_iff, or_iff_left absent]
      exact mem_singleton
    · exact others
  | some chunk =>
    have keyed : chunk.key = value.divNat := place.same chunk rfl
    have at' : b.chunks[before.length]?.filter (fun chunk => decide (chunk.key = value.divNat)) = some chunk := by
      rw [place.split]
      simp [keyed]
    obtain ⟨canonical, key, members, fresh⟩ := Chunk.insert_holds (part.canonical chunk rfl).1.toTidy value.modNat
    rw [at']
    dsimp only
    rw [place.set]
    refine ⟨?_, fresh.trans (not_congr held)⟩
    apply put_holds holds place (some (chunk.insert value.modNat).2)
    · refine Chunk.holds_of_canonical canonical (key.trans keyed) ?_
      intro lo
      rw [members, mkDivMod_eq_iff]
      exact or_congr_right (part.lows lo)
    · exact others

theorem extend_holds (holds : Holds P b) (values : List U32) : Holds (fun v => v ∈ values ∨ P v) (b.extend values) := by
  induction values generalizing b P with
  | nil => exact holds.congr fun v => by simp
  | cons value values ih =>
    apply (ih (insert_holds holds value).1).congr
    intro v
    rw [mem_cons]
    tauto

end

theorem remove_holds (holds : Holds P b) (value : U32) :
    Holds (fun v => P v ∧ v ≠ value) (b.remove value).2 ∧ ((b.remove value).1 = true ↔ P value) := by
  obtain ⟨before, found, after, place⟩ := holds.ascends.place value.divNat
  have part := holds.at' value
  rw [place.entryAt] at part
  have others : ∀ v : U32, v.divNat ≠ value.divNat → (P v ↔ P v ∧ v ≠ value) :=
    fun v differs => ⟨fun given => ⟨given, ne_of_divNat_ne differs⟩, And.left⟩
  have held := part.lows value.modNat
  rw [Fin.divNat_mkDivMod_modNat] at held
  unfold remove split
  dsimp only
  cases found with
  | none =>
    have absent : ¬P value := fun given => List.not_mem_nil (held.mpr given)
    rw [place.search_absent]
    refine ⟨holds.congr fun v => ⟨fun given => ⟨given, ?_⟩, And.left⟩, iff_of_false Bool.false_ne_true absent⟩
    rintro rfl
    exact absent given
  | some chunk =>
    have keyed : chunk.key = value.divNat := place.same chunk rfl
    have at' : b.chunks[before.length]? = some chunk := by
      rw [place.split]
      simp
    obtain ⟨tidy, key, members, present, _⟩ := Chunk.remove_holds (part.canonical chunk rfl).1.toTidy value.modNat
    have rest : ∀ lo, lo ∈ (chunk.remove value.modNat).2.lows ↔
        P (Fin.mkDivMod value.divNat lo) ∧ Fin.mkDivMod value.divNat lo ≠ value := by
      intro lo
      rw [members, ne_eq, ne_eq, mkDivMod_eq_iff]
      exact and_congr_left fun _ => part.lows lo
    have flagged : (chunk.remove value.modNat).1 = true ↔ P value := present.trans held
    rw [place.search_found]
    dsimp only
    rw [at']
    dsimp only
    by_cases removed : (chunk.remove value.modNat).1 = true
    · rw [removed, Bool.not_true, if_neg Bool.false_ne_true]
      by_cases empty : (chunk.remove value.modNat).2.len = 0
      · rw [if_pos empty, place.eraseIdx]
        refine ⟨?_, iff_of_true rfl (flagged.mp removed)⟩
        apply put_holds holds place none
        · apply Chunk.holds_none
          intro lo given
          have mem := (rest lo).mpr given
          rw [List.length_eq_zero_iff.mp (tidy.counted.symm.trans empty)] at mem
          cases mem
        · exact others
      · rw [if_neg empty, place.set]
        refine ⟨?_, iff_of_true rfl (flagged.mp removed)⟩
        apply put_holds holds place (some (chunk.remove value.modNat).2)
        · refine Chunk.holds_of_canonical ⟨tidy, ?_⟩ (key.trans keyed) rest
          exact fun none => empty (tidy.counted.trans (congrArg List.length none))
        · exact others
    · rw [Bool.not_eq_true] at removed
      rw [removed, Bool.not_false, if_pos rfl, place.set]
      have absent : ¬P value := fun given => Bool.false_ne_true (removed.symm.trans (flagged.mpr given))
      refine ⟨?_, iff_of_false Bool.false_ne_true absent⟩
      apply put_holds holds place (some (chunk.remove value.modNat).2)
      · refine Chunk.holds_of_canonical ⟨tidy, ?_⟩ (key.trans keyed) rest
        rw [Chunk.remove_holds (part.canonical chunk rfl).1.toTidy value.modNat |>.2.2.2.2 removed]
        exact (part.canonical chunk rfl).1.occupied
      · exact others

end Rezzy.Bitmaps.Bitmap

namespace Rezzy.Bitmaps

open Ascending

def Mode.Combines : Mode → Prop → Prop → Prop
  | .or, p, q => p ∨ q
  | .and, p, q => p ∧ q
  | .sub, p, q => p ∧ ¬q

namespace Bitmap

variable {P Q : U32 → Prop} {key : U16} {mode : Mode}

section

def merged (mode : Mode) : Option Chunk → Option Chunk → Option Chunk
  | none, o => if mode = .or then o else none
  | some chunk, none => if mode = .and then none else some chunk
  | some chunk, some o =>
    match mode with
    | .or => chunk.unionAssign o
    | .and => chunk.intersection o
    | .sub => chunk.difference o

variable {L M : U16 → Prop}

theorem merged_holds (mode : Mode) (left : Chunk.Holds key L mine) (right : Chunk.Holds key M theirs) :
    Chunk.Holds key (fun lo => mode.Combines (L lo) (M lo)) (merged mode mine theirs) := by
  cases mine with
  | none =>
    have absent : ∀ lo, ¬L lo := fun lo given => List.not_mem_nil ((left.lows lo).mpr given)
    cases mode with
    | or => exact right.congr fun lo => ⟨.inr, fun either => either.resolve_left (absent lo)⟩
    | and => exact Chunk.holds_none fun lo both => absent lo both.1
    | sub => exact Chunk.holds_none fun lo both => absent lo both.1
  | some chunk =>
    obtain ⟨canonical, keyed⟩ := left.canonical chunk rfl
    cases theirs with
    | none =>
      have absent : ∀ lo, ¬M lo := fun lo given => List.not_mem_nil ((right.lows lo).mpr given)
      cases mode with
      | or => exact left.congr fun lo => ⟨.inl, fun either => either.resolve_right (absent lo)⟩
      | and => exact Chunk.holds_none fun lo both => absent lo both.2
      | sub => exact left.congr fun lo => ⟨fun given => ⟨given, absent lo⟩, And.left⟩
    | some o =>
      have tidy := canonical.toTidy
      have tidy' := (right.canonical o rfl).1.toTidy
      rw [← keyed]
      cases mode with
      | or => exact (Chunk.unionAssign_holds tidy tidy').congr fun lo => or_congr (left.lows lo) (right.lows lo)
      | and => exact (Chunk.intersection_holds tidy tidy').congr fun lo => and_congr (left.lows lo) (right.lows lo)
      | sub =>
        exact (Chunk.difference_holds tidy tidy').congr fun lo => and_congr (left.lows lo) (not_congr (right.lows lo))

/-- No union of two chunks panics. -/
theorem meet_eq (left : chunk.Canonical) (right : o.Canonical) (mode : Mode) :
    meet mode chunk o = some (merged mode (some chunk) (some o)) := by
  cases mode with
  | or =>
    obtain ⟨union, made⟩ := Chunk.unionAssign_isSome left right.toTidy
    show (chunk.unionAssign o).map some = some (chunk.unionAssign o)
    rw [made]
    rfl
  | and => rfl
  | sub => rfl

structure Merges (mode : Mode) (mine theirs out : List Chunk) : Prop where
  ascends : Ascends Chunk.key out
  entries : ∀ key, entryAt Chunk.key out key = merged mode (entryAt Chunk.key mine key) (entryAt Chunk.key theirs key)

variable {mine theirs out : List Chunk}

theorem Merges.above (merges : Merges mode mine theirs out) (left : ∀ a ∈ mine, key < a.key)
    (right : ∀ a ∈ theirs, key < a.key) : ∀ a ∈ out, key < a.key := by
  intro a mem
  have entry := merges.entries a.key
  rw [merges.ascends.entryAt_of_mem mem] at entry
  cases held : entryAt Chunk.key mine a.key with
  | some d =>
    obtain ⟨inside, same⟩ := entryAt_some held
    exact same ▸ left d inside
  | none =>
    cases held' : entryAt Chunk.key theirs a.key with
    | some d =>
      obtain ⟨inside, same⟩ := entryAt_some held'
      exact same ▸ right d inside
    | none =>
      rw [held, held'] at entry
      cases mode <;> cases entry

theorem merges_nil (ascends : Ascends Chunk.key theirs) : Merges mode [] theirs (if mode = .or then theirs else []) := by
  cases mode with
  | or => exact ⟨ascends, fun _ => rfl⟩
  | and => exact ⟨Ascends.nil, fun _ => rfl⟩
  | sub => exact ⟨Ascends.nil, fun _ => rfl⟩

section

variable {chunk : Chunk} {before after : List Chunk} {found : Option Chunk}
  (place : Place Chunk.key theirs chunk.key before found after)
include place

theorem Merges.cons (first : ∀ a ∈ mine, chunk.key < a.key) (ascends : Ascends Chunk.key theirs)
    (kept : ∀ a, merged mode (some chunk) found = some a → a.key = chunk.key) (merges : Merges mode mine after out) :
    Merges mode (chunk :: mine) theirs
      ((if mode = .or then before else []) ++ ((merged mode (some chunk) found).toList ++ out)) := by
  have above : ∀ a ∈ out, chunk.key < a.key := merges.above first place.above
  have below : ∀ a ∈ (if mode = .or then before else []), a.key < chunk.key := by
    intro a mem
    split at mem
    · exact place.below a mem
    · cases mem
  have skipped : Ascends Chunk.key (if mode = .or then before else []) := by
    have part : Ascends Chunk.key before := by
      rw [place.split] at ascends
      exact (List.pairwise_append.mp ascends).1
    split
    · exact part
    · exact Ascends.nil
  have joined : Ascends Chunk.key ((if mode = .or then before else []) ++ out) := by
    refine List.pairwise_append.mpr ⟨skipped, merges.ascends, ?_⟩
    exact fun a mem d later => (below a mem).trans (above d later)
  have shape : Place Chunk.key ((if mode = .or then before else []) ++ (Option.toList none ++ out)) chunk.key
      (if mode = .or then before else []) none out := ⟨rfl, below, fun _ impossible => (nomatch impossible), above⟩
  refine ⟨shape.ascends_put kept joined, ?_⟩
  intro key
  rw [shape.entryAt_put kept, entryAt_cons]
  split
  · rename_i here
    rw [if_pos here.symm, here, place.entryAt]
  · rename_i elsewhere
    rw [if_neg (Ne.symm elsewhere), place.entryAt_other elsewhere, Option.toList_none, List.nil_append, entryAt_append,
      entryAt_append, merges.entries]
    rcases lt_or_gt_of_ne elsewhere with less | more
    · have none' : entryAt Chunk.key mine key = none := entryAt_of_above fun a mem => less.trans (first a mem)
      have after' : entryAt Chunk.key after key = none := entryAt_of_above fun a mem => less.trans (place.above a mem)
      rw [none', after', Option.or_none]
      cases mode <;> simp [merged]
    · have before' : entryAt Chunk.key before key = none := entryAt_of_below fun a mem => (place.below a mem).trans more
      have skipped' : entryAt Chunk.key (if mode = .or then before else []) key = none :=
        entryAt_of_below fun a mem => (below a mem).trans more
      rw [before', skipped', Option.none_or, Option.none_or]

theorem head_filter : (found.toList ++ after).head?.filter (fun o => decide (o.key = chunk.key)) = found := by
  cases found with
  | some o => simp [place.same o rfl]
  | none =>
    cases after with
    | nil => rfl
    | cons next rest => simp [(place.above next List.mem_cons_self).ne']

end

theorem mergeLoop_merges (mode : Mode) (left : Ascends Chunk.key mine) (right : Ascends Chunk.key theirs)
    (each : ∀ c ∈ mine, c.Canonical) (each' : ∀ c ∈ theirs, c.Canonical) :
    ∃ out, mergeLoop mode mine theirs = some out ∧ Merges mode mine theirs out := by
  induction mine generalizing theirs with
  | nil => exact ⟨_, rfl, merges_nil right⟩
  | cons chunk mine ih =>
    obtain ⟨first, left⟩ := List.pairwise_cons.mp left
    obtain ⟨canonical, each⟩ := List.forall_mem_cons.mp each
    obtain ⟨before, found, after, place⟩ := Ascends.place right chunk.key
    have rest : Ascends Chunk.key after := by
      rw [place.split] at right
      exact (List.pairwise_append.mp (List.pairwise_append.mp right).2.1).2.1
    have within : ∀ c ∈ after, c ∈ theirs := by
      intro c mem
      rw [place.split]
      exact List.mem_append_right _ (List.mem_append_right _ mem)
    obtain ⟨out, looped, merges⟩ := ih left rest each fun c mem => each' c (within c mem)
    have kept : ∀ a, merged mode (some chunk) found = some a → a.key = chunk.key := by
      have theirs' : Chunk.Holds chunk.key (· ∈ Chunk.lowsOf found) found := by
        refine ⟨fun c held => ⟨each' c ?_, place.same c held⟩, fun _ => Iff.rfl⟩
        rw [place.split, held]
        simp
      exact fun a made => ((merged_holds mode canonical.holds theirs').canonical a made).2
    refine ⟨_, ?_, merges.cons place first right kept⟩
    rw [mergeLoop, place.takeWhile, place.dropWhile, head_filter place]
    cases found with
    | none =>
      show ((mergeLoop mode mine after).bind fun out => some _) = _
      rw [looped]
      rfl
    | some o =>
      have inside : o ∈ theirs := by
        rw [place.split]
        simp
      dsimp only
      rw [meet_eq canonical (each' o inside)]
      show ((mergeLoop mode mine after).bind fun out => some _) = _
      rw [looped]
      rfl

theorem bitandLoop_eq (mine theirs : List Chunk) : mergeLoop .and mine theirs = some (bitandLoop mine theirs) := by
  induction mine generalizing theirs with
  | nil => rfl
  | cons chunk mine ih =>
    rw [mergeLoop, bitandLoop]
    cases (theirs.dropWhile fun o => decide (o.key < chunk.key)).head?.filter fun o => decide (o.key = chunk.key) with
    | none =>
      show ((mergeLoop .and mine _).bind fun out => some _) = _
      rw [ih]
      rfl
    | some o =>
      show ((mergeLoop .and mine _).bind fun out => some _) = _
      rw [ih]
      rfl

end

theorem merges_holds (left : Holds P b) (right : Holds Q c) (merges : Merges mode b.chunks c.chunks out) :
    Holds (fun v => mode.Combines (P v) (Q v)) ⟨out⟩ := by
  refine ⟨merges.ascends, ?_⟩
  intro key
  rw [merges.entries]
  exact merged_holds mode (left.parts key) (right.parts key)

theorem mergeLoop_holds (mode : Mode) (left : Holds P b) (right : Holds Q c) :
    ∃ out, mergeLoop mode b.chunks c.chunks = some out ∧ Holds (fun v => mode.Combines (P v) (Q v)) ⟨out⟩ := by
  obtain ⟨out, looped, merges⟩ :=
    mergeLoop_merges mode left.ascends right.ascends left.canonical.each right.canonical.each
  exact ⟨out, looped, merges_holds left right merges⟩

theorem mergeWith_holds (aliased : Bool) (mode : Mode) (left : Holds P b) (right : Holds Q c)
    (same : aliased = true → b = c) :
    ∃ out, mergeWith aliased mode b c = some out ∧ Holds (fun v => mode.Combines (P v) (Q v)) out := by
  unfold mergeWith
  by_cases one : aliased = true
  · have equal : ∀ v, Q v ↔ P v := by
      intro v
      rw [← contains_iff right, ← contains_iff left, same one]
    rw [if_pos one]
    cases mode with
    | or => exact ⟨b, rfl, left.congr fun v => ⟨.inl, fun either => either.elim id (equal v).mp⟩⟩
    | and => exact ⟨b, rfl, left.congr fun v => ⟨fun given => ⟨given, (equal v).mpr given⟩, And.left⟩⟩
    | sub => exact ⟨new, rfl, new_holds.congr fun v => ⟨False.elim, fun both => both.2 ((equal v).mpr both.1)⟩⟩
  · rw [if_neg one]
    by_cases theirs : c.isEmpty = true
    · have empty := (isEmpty_iff right).mp theirs
      rw [if_pos theirs]
      cases mode with
      | or => exact ⟨b, rfl, left.congr fun v => ⟨.inl, fun either => either.resolve_right (empty v)⟩⟩
      | and => exact ⟨new, rfl, new_holds.congr fun v => ⟨False.elim, fun both => empty v both.2⟩⟩
      | sub => exact ⟨b, rfl, left.congr fun v => ⟨fun given => ⟨given, empty v⟩, And.left⟩⟩
    · rw [if_neg theirs]
      by_cases mine : b.isEmpty = true
      · have empty := (isEmpty_iff left).mp mine
        rw [if_pos mine]
        cases mode with
        | or => exact ⟨c, rfl, right.congr fun v => ⟨.inr, fun either => either.resolve_left (empty v)⟩⟩
        | and => exact ⟨b, rfl, left.congr fun v => ⟨fun given => (empty v given).elim, fun both => both.1⟩⟩
        | sub => exact ⟨b, rfl, left.congr fun v => ⟨fun given => (empty v given).elim, And.left⟩⟩
      · obtain ⟨out, looped, holds⟩ := mergeLoop_holds mode left right
        rw [if_neg mine, looped]
        exact ⟨⟨out⟩, rfl, holds⟩

theorem bitand_holds (left : Holds P b) (right : Holds Q c) : Holds (fun v => P v ∧ Q v) (b.bitand c) := by
  obtain ⟨out, looped, holds⟩ := mergeLoop_holds .and left right
  rw [bitandLoop_eq] at looped
  unfold bitand
  rw [Option.some.inj looped]
  exact holds

end Bitmap

end Rezzy.Bitmaps
