import Rezzy.Bitmaps.Codec
import Rezzy.Bitmaps.WideSpec

namespace Rezzy.Bitmaps.Wide

open Sorted SetMachine List

variable {n : Nat} {P : WideValue n → Prop} {w : Wide n} {A : Finset (WideValue n)}

section

def entryValues (e : Fin n × Bitmap) : List (WideValue n) := e.2.values.map (Fin.mkDivMod e.1)

def innerValues : Option (Fin n × Bitmap × Cursor) → List (WideValue n)
  | some (hi, b, cursor) => (remaining b.chunks cursor).map (Fin.mkDivMod hi)
  | none => []

def restOf (it : Iter n) : List (WideValue n) := innerValues it.inner ++ it.outer.flatMap entryValues

theorem innerNext_spec (inner : Option (Fin n × Bitmap × Cursor)) : (innerNext inner = none ∧ innerValues inner = []) ∨
    ∃ value cursor, innerNext inner = some (value, cursor) ∧
      innerValues inner = value :: innerValues (inner.map fun state => (state.1, state.2.1, cursor)) := by
  cases inner with
  | none => exact .inl ⟨rfl, rfl⟩
  | some state =>
    obtain ⟨hi, b, cursor⟩ := state
    have advanced := advance_spec b.chunks cursor
    unfold innerNext innerValues Bitmap.next
    dsimp only [Option.map_some]
    cases given : advance b.chunks cursor with
    | mk item after =>
      rw [given] at advanced
      cases item with
      | none =>
        left
        rw [head?_eq_none_iff.mp advanced.1.symm]
        exact ⟨rfl, rfl⟩
      | some lo =>
        right
        refine ⟨Fin.mkDivMod hi lo, after, rfl, ?_⟩
        cases left : remaining b.chunks cursor with
        | nil =>
          rw [left] at advanced
          cases advanced.1
        | cons first rest =>
          rw [left] at advanced
          rw [advanced.2, Option.some.inj advanced.1]
          rfl

theorem nextFrom_spec (outer : List (Fin n × Bitmap)) (inner : Option (Fin n × Bitmap × Cursor)) :
    (nextFrom outer inner).1 = (restOf ⟨outer, inner⟩).head? ∧
    restOf (nextFrom outer inner).2 = (restOf ⟨outer, inner⟩).tail := by
  induction outer generalizing inner with
  | nil =>
    unfold nextFrom restOf
    rcases innerNext_spec inner with ⟨ended, empty⟩ | ⟨value, cursor, given, rest⟩
    · rw [ended, empty]
      exact ⟨rfl, rfl⟩
    · rw [given, rest]
      exact ⟨rfl, rfl⟩
  | cons e outer ih =>
    rcases innerNext_spec inner with ⟨ended, empty⟩ | ⟨value, cursor, given, rest⟩
    · have moved : restOf ⟨e :: outer, inner⟩ = restOf ⟨outer, some (e.1, e.2, Cursor.start)⟩ := by
        unfold restOf
        rw [empty, nil_append, flatMap_cons]
        apply congrArg (· ++ _)
        show e.2.values.map _ = (remaining e.2.chunks Cursor.start).map _
        rw [remaining_start]
        rfl
      have next : nextFrom (e :: outer) inner = nextFrom outer (some (e.1, e.2, Cursor.start)) := by
        conv_lhs => unfold nextFrom
        rw [ended]
      rw [moved, next]
      exact ih _
    · unfold nextFrom restOf
      rw [given, rest]
      exact ⟨rfl, rfl⟩

end

def values (w : Wide n) : List (WideValue n) := w.map.flatMap entryValues

theorem yields_values (w : Wide n) : Yields Iter.next w.iter w.values :=
  Yields.of_step (fun it => nextFrom_spec it.outer it.inner) w.iter

theorem values_ascend (canonical : Canonical w) : w.values.Pairwise (· < ·) := by
  unfold values
  rw [pairwise_flatMap]
  constructor
  · intro e mem
    refine pairwise_map.mpr ((Bitmap.values_ascend (canonical.each e mem).1).imp ?_)
    exact fun less => mkDivMod_lt_iff.mpr (.inr ⟨rfl, less⟩)
  · apply List.Pairwise.imp _ canonical.sorted
    intro e _ less _ first _ second
    obtain ⟨-, _, rfl⟩ := mem_map.mp first
    obtain ⟨-, _, rfl⟩ := mem_map.mp second
    exact mkDivMod_lt_iff.mpr (.inl less)

theorem mem_values (holds : Holds P w) (v : WideValue n) : v ∈ w.values ↔ P v := by
  rw [holds.iff_within]
  unfold values entryValues
  rw [mem_flatMap]
  apply exists_congr
  intro e
  apply and_congr_right
  intro mem
  have canonical := (holds.canonical.each e mem).1
  rw [mem_map]
  constructor
  · rintro ⟨low, inside, rfl⟩
    refine ⟨Fin.divNat_mkDivMod e.1 low, ?_⟩
    rw [Fin.modNat_mkDivMod]
    exact (Bitmap.mem_values canonical.holds low).mp inside
  · rintro ⟨high, inside⟩
    refine ⟨v.modNat, (Bitmap.mem_values canonical.holds v.modNat).mpr inside, ?_⟩
    rw [← high, Fin.divNat_mkDivMod_modNat]

theorem length_values (canonical : Canonical w) : w.values.length = w.len := by
  unfold values len
  rw [length_flatMap]
  apply congrArg List.sum
  apply map_congr_left
  intro e mem
  rw [entryValues, length_map, Bitmap.length_values (canonical.each e mem).1]

theorem yields_sort (holds : Holds (· ∈ A) w) : Yields Iter.next w.iter (A.sort (· ≤ ·)) := by
  rw [sort_eq_of_ascending (values_ascend holds.canonical) (mem_values holds)]
  exact yields_values w

theorem len_eq_card (holds : Holds (· ∈ A) w) : w.len = A.card := by
  rw [← length_values holds.canonical, ← Finset.length_sort (· ≤ ·),
    sort_eq_of_ascending (values_ascend holds.canonical) (mem_values holds)]

end Rezzy.Bitmaps.Wide

namespace Rezzy.Bitmaps

open SetMachine

section

namespace Bitmap

def sets : Implementation Bitmap U32 where
  new := Bitmap.new
  insert := Bitmap.insert
  remove := Bitmap.remove
  extend self values := some (self.extend values)
  assign
    | .union, aliased, self, rhs => self.bitorAssign aliased rhs
    | .intersection, aliased, self, rhs => self.bitandAssign aliased rhs
    | .difference, aliased, self, rhs => self.subtractAssign aliased rhs
  combine
    | .union, self, rhs => self.bitor rhs
    | .intersection, self, rhs => some (self.bitand rhs)
    | .difference, self, rhs => self.sub rhs

theorem sets_refine : Refines sets fun b A => Bitmap.Holds (· ∈ A) b := by
  refine .of_holds Holds.congr new_holds insert_holds remove_holds
    (fun holds values => ⟨_, rfl, extend_holds holds values⟩) (fun setwise aliased left right same => ?_)
    fun setwise left right => ?_
  · cases setwise <;> exact mergeWith_holds aliased _ left right same
  · cases setwise with
    | intersection => exact ⟨_, rfl, bitand_holds left right⟩
    | _ => exact mergeWith_holds false _ left right fun impossible => nomatch impossible

structure Exact (registers : Nat → Bitmap) (sets : Nat → Finset U32) : Prop where
  canonical : ∀ r, (registers r).Canonical
  contains : ∀ r v, (registers r).contains v = true ↔ v ∈ sets r
  len : ∀ r, (registers r).len = (sets r).card
  iter : ∀ r, Yields (registers r).next Cursor.start ((sets r).sort (· ≤ ·))
  isSubset : ∀ r q, (registers r).isSubset (registers q) = true ↔ sets r ⊆ sets q
  isDisjoint : ∀ r q, (registers r).isDisjoint (registers q) = true ↔ Disjoint (sets r) (sets q)
  eq : ∀ r q, (registers r == registers q) = true ↔ sets r = sets q
  decode : ∀ r, ∃ bytes, (registers r).encode = some bytes ∧ Bitmap.decode bytes = .ok (registers r)

theorem exact_of_holds {sets : Nat → Finset U32} (all : ∀ r, (registers r).Holds (· ∈ sets r)) :
    Exact registers sets := by
  constructor
  · exact fun r => (all r).canonical
  · exact fun r => contains_iff (all r)
  · exact fun r => len_eq_card (all r)
  · exact fun r => yields_sort (all r)
  · exact fun r q => isSubset_iff (all r) (all q)
  · intro r q
    rw [isDisjoint_iff (all r) (all q), Finset.disjoint_left]
  · intro r q
    rw [beq_iff_eq]
    constructor
    · intro same
      ext v
      rw [← contains_iff (all r), ← contains_iff (all q), same]
    · exact fun same => (all r).ext (all q) fun v => by rw [same]
  · intro r
    have canonical := (all r).canonical
    have encoded : ∃ bytes, (registers r).encode = some bytes := by
      unfold encode
      rw [if_pos canonical.length_lt]
      exact ⟨_, rfl⟩
    obtain ⟨bytes, given⟩ := encoded
    exact ⟨bytes, given, decode_iff.mpr ⟨canonical, given⟩⟩

end Bitmap

namespace Wide

variable {n : Nat}

def sets (n : Nat) : Implementation (Wide n) (WideValue n) where
  new := Wide.new
  insert := Wide.insert
  remove := Wide.remove
  extend := Wide.extend
  assign
    | .union, aliased, self, rhs => self.bitorAssign aliased rhs
    | .intersection, aliased, self, rhs => self.bitandAssign aliased rhs
    | .difference, aliased, self, rhs => self.subtractAssign aliased rhs
  combine
    | .union, self, rhs => self.bitor rhs
    | .intersection, self, rhs => some (self.bitand rhs)
    | .difference, self, rhs => self.sub rhs

theorem sets_refine : Refines (sets n) fun w A => Wide.Holds (· ∈ A) w := by
  refine .of_holds Holds.congr new_holds insert_holds remove_holds extend_holds
    (fun setwise aliased left right same => ?_) fun setwise left right => ?_
  · cases setwise with
    | union => exact bitorAssign_holds aliased left right same
    | intersection => exact bitandAssign_holds aliased left right same
    | difference => exact subtractAssign_holds aliased left right same
  · cases setwise with
    | union => exact bitorAssign_holds false left right fun impossible => nomatch impossible
    | intersection => exact ⟨_, rfl, bitand_holds left right⟩
    | difference => exact subtractAssign_holds false left right fun impossible => nomatch impossible

structure Exact (registers : Nat → Wide n) (sets : Nat → Finset (WideValue n)) : Prop where
  canonical : ∀ r, (registers r).Canonical
  contains : ∀ r v, (registers r).contains v = true ↔ v ∈ sets r
  len : ∀ r, (registers r).len = (sets r).card
  iter : ∀ r, Yields Iter.next (registers r).iter ((sets r).sort (· ≤ ·))
  isSubset : ∀ r q, (registers r).isSubset (registers q) = true ↔ sets r ⊆ sets q
  isDisjoint : ∀ r q, (registers r).isDisjoint (registers q) = true ↔ Disjoint (sets r) (sets q)
  eq : ∀ r q, (registers r == registers q) = true ↔ sets r = sets q

theorem exact_of_holds {sets : Nat → Finset (WideValue n)} (all : ∀ r, (registers r).Holds (· ∈ sets r)) :
    Exact registers sets := by
  constructor
  · exact fun r => (all r).canonical
  · exact fun r => contains_iff (all r)
  · exact fun r => len_eq_card (all r)
  · exact fun r => yields_sort (all r)
  · exact fun r q => isSubset_iff (all r) (all q)
  · intro r q
    rw [isDisjoint_iff (all r) (all q), Finset.disjoint_left]
  · intro r q
    rw [beq_iff_eq]
    constructor
    · intro same
      ext v
      rw [← contains_iff (all r), ← contains_iff (all q), same]
    · exact fun same => (all r).ext (all q) fun v => by rw [same]

end Wide

end

/-- After every program the bitmaps are canonical and exactly the sets of the program, and their encoding is one to
    one with the canonical bitmaps. -/
theorem bitmaps_exact :
    (∀ program : List (Op U32), ∃ registers,
      runAll Bitmap.sets (fun _ => Bitmap.new) program = some registers ∧
        Bitmap.Exact registers (setsAfter program)) ∧
    (∀ program : List (Op (WideValue (2 ^ 32))), ∃ registers : Nat → Bitmap64,
      runAll (Wide.sets _) (fun _ => Wide.new) program = some registers ∧ Wide.Exact registers (setsAfter program)) ∧
    (∀ program : List (Op (WideValue (2 ^ 96))), ∃ registers : Nat → Bitmap128,
      runAll (Wide.sets _) (fun _ => Wide.new) program = some registers ∧ Wide.Exact registers (setsAfter program)) ∧
    ∀ bytes b, Bitmap.decode bytes = .ok b → b.Canonical ∧ b.encode = some bytes := by
  refine ⟨?_, ?_, ?_, fun bytes b decoded => Bitmap.decode_iff.mp decoded⟩
  · intro program
    obtain ⟨registers, ran, all⟩ := Bitmap.sets_refine.run program
    exact ⟨registers, ran, Bitmap.exact_of_holds all⟩
  · intro program
    obtain ⟨registers, ran, all⟩ := Wide.sets_refine.run program
    exact ⟨registers, ran, Wide.exact_of_holds all⟩
  · intro program
    obtain ⟨registers, ran, all⟩ := Wide.sets_refine.run program
    exact ⟨registers, ran, Wide.exact_of_holds all⟩

end Rezzy.Bitmaps
