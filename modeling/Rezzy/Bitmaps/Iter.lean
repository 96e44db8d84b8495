import Rezzy.Bitmaps.Updates
import Rezzy.Lib.SetMachine

namespace Rezzy.Bitmaps

open Ascending WordBits SetMachine List BitVec Fin Cursor

structure Cursor where
  chunk : Nat
  pos : Nat
deriving DecidableEq

def Cursor.start : Cursor := ⟨0, 0⟩

section

/-- The first set bit from a word on, whose bits before the cursor are masked out of `word`. -/
def scanWords (w : Words) (wi : Fin 1024) (word : BitVec 64) : Option U16 :=
  if nonzero : word ≠ 0 then some (Fin.mkDivMod wi ⟨word.ctz.toNat, ctz_lt nonzero⟩)
  else if more : wi.val + 1 < 1024 then scanWords w ⟨wi.val + 1, more⟩ (w.get ⟨wi.val + 1, more⟩)
  else none
termination_by 1024 - wi.val

def nextLow (store : Store) (pos : Nat) : Option (U16 × Nat) :=
  match store with
  | .array v => v[pos]?.map fun lo => (lo, pos + 1)
  | .dense w =>
    if inside : pos >>> 6 < 1024 then
      (scanWords w ⟨pos >>> 6, inside⟩ (w.get ⟨pos >>> 6, inside⟩ &&& (BitVec.allOnes 64 <<< (pos % 64)))).map fun bit =>
        (bit, bit.val + 1)
    else none

def advance (chunks : List Chunk) (cursor : Cursor) : Option U32 × Cursor :=
  if more : cursor.chunk < chunks.length then
    let chunk := chunks[cursor.chunk]
    match nextLow chunk.store cursor.pos with
    | some (lo, pos) => (some (Fin.mkDivMod chunk.key lo), { cursor with pos := pos })
    | none => advance chunks ⟨cursor.chunk + 1, 0⟩
  else (none, cursor)
termination_by chunks.length - cursor.chunk

end

namespace Bitmap

def next (self : Bitmap) (cursor : Cursor) : Option U32 × Cursor := advance self.chunks cursor

end Bitmap

section

variable {w : Words} {pos : Nat}

structure First (w : Words) (pos : Nat) (found : Option U16) : Prop where
  hit : ∀ lo, found = some lo → testBit w lo = true ∧ pos ≤ lo.val ∧ ∀ x, testBit w x = true → pos ≤ x.val → lo ≤ x
  miss : found = none → ∀ x, testBit w x = true → x.val < pos

theorem scanWords_first
    (masked : ∀ j : Fin 64, word.getLsbD j = true ↔ (w.get wi).getLsbD j = true ∧ pos ≤ (mkDivMod wi j).val)
    (within : pos < 64 * (wi.val + 1)) (passed : ∀ x, testBit w x = true → pos ≤ x.val → wi ≤ x.divNat) :
    First w pos (scanWords w wi word) := by
  fun_induction scanWords w wi word with
  | case1 wi word nonzero =>
    have lowest := (masked ⟨word.ctz.toNat, ctz_lt nonzero⟩).mp (getLsbD_true_ctz_of_ne_zero nonzero)
    constructor
    · intro lo found
      rw [← Option.some.inj found]
      refine ⟨(testBit_mkDivMod w wi _).trans lowest.1, lowest.2, ?_⟩
      intro x set after
      rw [← not_lt, ← divNat_mkDivMod_modNat x, mkDivMod_lt_iff]
      rintro (earlier | ⟨same, below⟩)
      · exact absurd (passed x set after) (not_le.mpr earlier)
      · have bit : word.getLsbD x.modNat = true := by
          rw [masked, ← same, ← testBit_mkDivMod, divNat_mkDivMod_modNat]
          exact ⟨set, after⟩
        rw [getLsbD_false_of_lt_ctz below] at bit
        cases bit
    · intro impossible
      cases impossible
  | case2 wi word zero more ih =>
    have clear : ∀ x, testBit w x = true → pos ≤ x.val → wi < x.divNat := by
      intro x set after
      apply lt_of_le_of_ne (passed x set after)
      intro same
      have bit : word.getLsbD x.modNat = true := by
        rw [masked, same, ← testBit_mkDivMod, divNat_mkDivMod_modNat]
        exact ⟨set, after⟩
      rw [not_not.mp zero] at bit
      cases getLsbD_zero.symm.trans bit
    apply ih
    · intro _
      refine ⟨fun bit => ⟨bit, ?_⟩, And.left⟩
      rw [coe_mkDivMod]
      dsimp only
      omega
    · dsimp only
      omega
    · exact fun x set after => Nat.succ_le_of_lt (clear x set after)
  | case3 wi word zero last =>
    constructor
    · intro lo impossible
      cases impossible
    · intro _ x set
      by_contra after
      have wide := passed x set (not_lt.mp after)
      have bit : word.getLsbD x.modNat = true := by
        have same : wi = x.divNat := by
          apply Fin.ext
          have := Fin.le_def.mp wide
          omega
        rw [masked, same, ← testBit_mkDivMod, divNat_mkDivMod_modNat]
        exact ⟨set, not_lt.mp after⟩
      rw [not_not.mp zero] at bit
      cases getLsbD_zero.symm.trans bit

theorem allOnes_shift (j : Fin 64) : (allOnes 64 <<< k).getLsbD j = decide (k ≤ j.val) := by
  rw [getLsbD_shiftLeft, getLsbD_allOnes, decide_eq_true j.isLt, Bool.true_and]
  by_cases below : j.val < k
  · simp [below, not_le.mpr below]
  · have small : j.val - k < 64 := by omega
    simp [below, not_lt.mp below, small]

theorem scan_first (w : Words) (inside : pos >>> 6 < 1024) :
    First w pos (scanWords w ⟨pos >>> 6, inside⟩ (w.get ⟨pos >>> 6, inside⟩ &&& (allOnes 64 <<< (pos % 64)))) := by
  apply scanWords_first
  · intro _
    rw [getLsbD_and, allOnes_shift, Bool.and_eq_true, decide_eq_true_iff, coe_mkDivMod]
    refine and_congr_right fun _ => ?_
    dsimp only
    omega
  · dsimp only
    omega
  · intro _ _ _
    rw [Fin.le_def, coe_divNat]
    dsimp only
    omega

end

section

def lowsFrom (store : Store) (pos : Nat) : List U16 :=
  match store with
  | .array v => v.drop pos
  | .dense w => (wordsToArray w).filter fun lo => decide (pos ≤ lo.val)

theorem lowsFrom_zero (c : Chunk) : lowsFrom c.store 0 = c.lows := by
  unfold lowsFrom Chunk.lows
  cases c.store with
  | array v => rfl
  | dense w => exact filter_eq_self.mpr fun lo _ => decide_eq_true (Nat.zero_le _)

theorem nextLow_spec (store : Store) (pos : Nat) : (nextLow store pos = none ∧ lowsFrom store pos = []) ∨
    ∃ lo after, nextLow store pos = some (lo, after) ∧ lowsFrom store pos = lo :: lowsFrom store after := by
  cases store with
  | array v =>
    unfold nextLow lowsFrom
    dsimp only
    cases at' : v[pos]? with
    | none => exact .inl ⟨rfl, drop_eq_nil_iff.mpr (List.getElem?_eq_none_iff.mp at')⟩
    | some lo =>
      obtain ⟨inside, held⟩ := List.getElem?_eq_some_iff.mp at'
      refine .inr ⟨lo, pos + 1, rfl, ?_⟩
      rw [drop_eq_getElem_cons inside, held]
  | dense w =>
    have found : First w pos ((nextLow (.dense w) pos).map Prod.fst) ∧
        ∀ lo after, nextLow (.dense w) pos = some (lo, after) → after = lo.val + 1 := by
      unfold nextLow
      dsimp only
      split
      · rename_i inside
        have first := scan_first w inside
        cases scanned : scanWords w ⟨pos >>> 6, inside⟩ (w.get ⟨pos >>> 6, inside⟩ &&& (allOnes 64 <<< (pos % 64))) with
        | none =>
          rw [scanned] at first
          exact ⟨first, fun _ _ impossible => nomatch impossible⟩
        | some lo =>
          rw [scanned] at first
          refine ⟨first, ?_⟩
          intro _ after given
          cases given
          rfl
      · rename_i outside
        refine ⟨⟨fun _ impossible => (nomatch impossible), ?_⟩, fun _ _ impossible => nomatch impossible⟩
        intro _ x _
        omega
    have ascends := wordsToArray_ascends w
    cases given : nextLow (.dense w) pos with
    | none =>
      left
      rw [given] at found
      refine ⟨rfl, filter_eq_nil_iff.mpr ?_⟩
      intro lo mem
      rw [decide_eq_true_iff, not_le]
      exact found.1.miss rfl lo (mem_wordsToArray.mp mem)
    | some pair =>
      obtain ⟨lo, after⟩ := pair
      right
      rw [given] at found
      obtain ⟨set, late, least⟩ := found.1.hit lo rfl
      refine ⟨lo, after, rfl, ?_⟩
      rw [found.2 lo after rfl]
      unfold lowsFrom
      apply List.Pairwise.eq_of_mem_iff (r := (· < ·)) (ascends.filter _)
      · refine pairwise_cons.mpr ⟨?_, ascends.filter _⟩
        intro x mem
        have above := of_decide_eq_true (mem_filter.mp mem).2
        rw [Fin.lt_def]
        omega
      · intro x
        rw [mem_cons, mem_filter, mem_filter, mem_wordsToArray, decide_eq_true_iff, decide_eq_true_iff]
        constructor
        · rintro ⟨mem, from'⟩
          rcases (least x mem from').eq_or_lt with same | less
          · exact .inl same.symm
          · exact .inr ⟨mem, Nat.succ_le_of_lt (Fin.lt_def.mp less)⟩
        · rintro (rfl | ⟨mem, from'⟩)
          · exact ⟨set, late⟩
          · exact ⟨mem, by omega⟩

def Chunk.values (c : Chunk) : List U32 := c.lows.map (Fin.mkDivMod c.key)

def remaining (chunks : List Chunk) (cursor : Cursor) : List U32 :=
  match chunks.drop cursor.chunk with
  | [] => []
  | c :: rest => (lowsFrom c.store cursor.pos).map (Fin.mkDivMod c.key) ++ rest.flatMap Chunk.values

theorem remaining_start (chunks : List Chunk) : remaining chunks Cursor.start = chunks.flatMap Chunk.values := by
  cases chunks with
  | nil => rfl
  | cons c rest =>
    show (lowsFrom c.store 0).map _ ++ _ = _
    rw [lowsFrom_zero]
    rfl

theorem remaining_skip (more : cursor.chunk < chunks.length)
    (empty : lowsFrom chunks[cursor.chunk].store cursor.pos = []) :
    remaining chunks cursor = remaining chunks ⟨cursor.chunk + 1, 0⟩ := by
  unfold remaining
  rw [drop_eq_getElem_cons more]
  dsimp only
  rw [empty, map_nil, nil_append]
  cases chunks.drop (cursor.chunk + 1) with
  | nil => rfl
  | cons c rest =>
    dsimp only
    rw [lowsFrom_zero]
    rfl

theorem advance_spec (chunks : List Chunk) (cursor : Cursor) :
    (advance chunks cursor).1 = (remaining chunks cursor).head? ∧
    remaining chunks (advance chunks cursor).2 = (remaining chunks cursor).tail := by
  fun_induction advance chunks cursor with
  | case1 cursor more chunk lo pos given =>
    rcases nextLow_spec chunk.store cursor.pos with ⟨none', _⟩ | ⟨lo', after, given', rest⟩
    · cases given.symm.trans none'
    · cases given.symm.trans given'
      unfold remaining
      rw [drop_eq_getElem_cons more]
      dsimp only
      have rest' : lowsFrom chunks[cursor.chunk].store cursor.pos = lo :: lowsFrom chunks[cursor.chunk].store pos := rest
      rw [rest']
      exact ⟨rfl, rfl⟩
  | case2 cursor more chunk none' ih =>
    rcases nextLow_spec chunk.store cursor.pos with ⟨_, empty⟩ | ⟨lo', after, given', _⟩
    · rw [remaining_skip more empty]
      exact ih
    · cases none'.symm.trans given'
  | case3 cursor ended =>
    unfold remaining
    rw [drop_eq_nil_iff.mpr (not_lt.mp ended)]
    exact ⟨rfl, rfl⟩

end

namespace Bitmap

variable {P : U32 → Prop} {b : Bitmap} {A : Finset U32}

def values (b : Bitmap) : List U32 := b.chunks.flatMap Chunk.values

theorem yields_values (b : Bitmap) : Yields b.next Cursor.start b.values := by
  unfold values
  rw [← remaining_start]
  exact Yields.of_step (fun state => advance_spec b.chunks state) Cursor.start

theorem values_ascend (canonical : Canonical b) : b.values.Pairwise (· < ·) := by
  unfold values
  rw [pairwise_flatMap]
  constructor
  · intro c mem
    refine pairwise_map.mpr ((canonical.each c mem).ascends.imp ?_)
    exact fun less => mkDivMod_lt_iff.mpr (.inr ⟨rfl, less⟩)
  · apply List.Pairwise.imp _ canonical.ascends
    intro c _ less _ first _ second
    obtain ⟨-, _, rfl⟩ := mem_map.mp first
    obtain ⟨-, _, rfl⟩ := mem_map.mp second
    exact mkDivMod_lt_iff.mpr (.inl less)

theorem mem_values (holds : Holds P b) (v : U32) : v ∈ b.values ↔ P v := by
  have part := (holds.at' v).lows v.modNat
  rw [divNat_mkDivMod_modNat] at part
  rw [← part]
  unfold values Chunk.values
  rw [mem_flatMap]
  constructor
  · rintro ⟨c, inside, mem⟩
    obtain ⟨lo, low, rfl⟩ := mem_map.mp mem
    rw [divNat_mkDivMod, modNat_mkDivMod, holds.ascends.entryAt_of_mem inside]
    exact low
  · intro mem
    cases found : entryAt Chunk.key b.chunks v.divNat with
    | none =>
      rw [found] at mem
      cases mem
    | some c =>
      rw [found] at mem
      obtain ⟨inside, key⟩ := entryAt_some found
      refine ⟨c, inside, mem_map.mpr ⟨v.modNat, mem, ?_⟩⟩
      rw [key, divNat_mkDivMod_modNat]

theorem length_values (canonical : Canonical b) : b.values.length = b.len := by
  unfold values len
  rw [length_flatMap]
  apply congrArg sum
  apply map_congr_left
  intro c mem
  rw [Chunk.values, length_map, (canonical.each c mem).counted]

theorem yields_sort (holds : Holds (· ∈ A) b) : Yields b.next Cursor.start (A.sort (· ≤ ·)) := by
  rw [sort_eq_of_ascending (values_ascend holds.canonical) (mem_values holds)]
  exact yields_values b

theorem len_eq_card (holds : Holds (· ∈ A) b) : b.len = A.card := by
  rw [← length_values holds.canonical, ← Finset.length_sort (· ≤ ·),
    sort_eq_of_ascending (values_ascend holds.canonical) (mem_values holds)]

end Bitmap

end Rezzy.Bitmaps
