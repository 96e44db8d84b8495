import Rezzy.Bitmaps.Chunk

namespace Rezzy.Bitmaps

open Ascending WordBits Option Ascends
open List (mem_append mem_cons not_mem_nil)
open List (pairwise_cons)

section

theorem mem_unionWalk (as bs : List U16) (x : U16) : x ∈ unionWalk as bs ↔ x ∈ as ∨ x ∈ bs := by
  fun_induction unionWalk as bs with
  | case1 a as b bs less ih =>
    simp only [mem_cons, ih]
    tauto
  | case2 a as b bs less more ih =>
    simp only [mem_cons, ih]
    tauto
  | case3 a as b bs less more ih =>
    have same : a = b := le_antisymm (not_lt.mp more) (not_lt.mp less)
    simp only [mem_cons, ih, same]
    tauto
  | case4 bs => simp
  | case5 as => simp

theorem unionWalk_ascends (left : as.Pairwise (· < ·)) (right : bs.Pairwise (· < ·)) :
    (unionWalk as bs).Pairwise (· < ·) := by
  fun_induction unionWalk as bs with
  | case1 a as b bs less ih =>
    obtain ⟨first, left⟩ := pairwise_cons.mp left
    refine pairwise_cons.mpr ⟨?_, ih left right⟩
    intro x mem
    rcases (mem_unionWalk _ _ x).mp mem with mine | theirs
    · exact first x mine
    · rcases List.mem_cons.mp theirs with rfl | later
      · exact less
      · exact less.trans ((pairwise_cons.mp right).1 x later)
  | case2 a as b bs less more ih =>
    obtain ⟨second, right⟩ := pairwise_cons.mp right
    refine pairwise_cons.mpr ⟨?_, ih left right⟩
    intro x mem
    rcases (mem_unionWalk _ _ x).mp mem with mine | theirs
    · rcases List.mem_cons.mp mine with rfl | later
      · exact more
      · exact more.trans ((pairwise_cons.mp left).1 x later)
    · exact second x theirs
  | case3 a as b bs less more ih =>
    have same : a = b := le_antisymm (not_lt.mp more) (not_lt.mp less)
    obtain ⟨first, left⟩ := pairwise_cons.mp left
    obtain ⟨second, right⟩ := pairwise_cons.mp right
    refine pairwise_cons.mpr ⟨?_, ih left right⟩
    intro x mem
    rcases (mem_unionWalk _ _ x).mp mem with mine | theirs
    · exact first x mine
    · exact same ▸ second x theirs
  | case4 bs => exact right
  | case5 as => exact left

theorem intersectionWalk_cons (a : U16) (as : List U16) (b : U16) (bs : List U16) :
    intersectionWalk (a :: as) (b :: bs) = if a < b then intersectionWalk as (b :: bs)
      else if b < a then intersectionWalk (a :: as) bs
      else a :: intersectionWalk as bs := by
  rw [intersectionWalk]
  rcases lt_trichotomy a b with less | same | more
  · simp [less, less.le, less.ne, not_le.mpr less]
  · simp [same]
  · simp [more, more.le, more.ne', not_le.mpr more, not_lt.mpr more.le]

theorem mem_intersectionWalk (left : as.Pairwise (· < ·)) (right : bs.Pairwise (· < ·)) (x : U16) :
    x ∈ intersectionWalk as bs ↔ x ∈ as ∧ x ∈ bs := by
  fun_induction unionWalk as bs with
  | case1 a as b bs less ih =>
    have absent : a ∉ b :: bs := by
      intro mem
      rcases List.mem_cons.mp mem with rfl | later
      · exact lt_irrefl _ less
      · exact lt_asymm less ((pairwise_cons.mp right).1 a later)
    rw [intersectionWalk_cons, if_pos less, ih (pairwise_cons.mp left).2 right, mem_cons (b := a)]
    constructor
    · exact fun both => ⟨.inr both.1, both.2⟩
    · rintro ⟨rfl | mine, theirs⟩
      · exact absurd theirs absent
      · exact ⟨mine, theirs⟩
  | case2 a as b bs less more ih =>
    have absent : b ∉ a :: as := by
      intro mem
      rcases List.mem_cons.mp mem with rfl | later
      · exact lt_irrefl _ more
      · exact lt_asymm more ((pairwise_cons.mp left).1 b later)
    rw [intersectionWalk_cons, if_neg less, if_pos more, ih left (pairwise_cons.mp right).2, mem_cons (b := b)]
    constructor
    · exact fun both => ⟨both.1, .inr both.2⟩
    · rintro ⟨mine, rfl | theirs⟩
      · exact absurd mine absent
      · exact ⟨mine, theirs⟩
  | case3 a as b bs less more ih =>
    have same : a = b := le_antisymm (not_lt.mp more) (not_lt.mp less)
    obtain ⟨-, left⟩ := pairwise_cons.mp left
    obtain ⟨-, right⟩ := pairwise_cons.mp right
    rw [intersectionWalk_cons, if_neg less, if_neg more, mem_cons, ih left right, mem_cons, mem_cons, same]
    constructor
    · rintro (here | both)
      · exact ⟨.inl here, .inl here⟩
      · exact ⟨.inr both.1, .inr both.2⟩
    · rintro ⟨here | mine, here' | theirs⟩
      · exact .inl here
      · exact .inl here
      · exact .inl here'
      · exact .inr ⟨mine, theirs⟩
  | case4 bs => simp [intersectionWalk]
  | case5 as => simp [intersectionWalk]

theorem intersectionWalk_sublist (as bs : List U16) : (intersectionWalk as bs).Sublist as := by
  fun_induction unionWalk as bs with
  | case1 a as b bs less ih =>
    rw [intersectionWalk_cons, if_pos less]
    exact ih.trans (List.sublist_cons_self a as)
  | case2 a as b bs less more ih =>
    rw [intersectionWalk_cons, if_neg less, if_pos more]
    exact ih
  | case3 a as b bs less more ih =>
    rw [intersectionWalk_cons, if_neg less, if_neg more]
    exact ih.cons_cons a
  | case4 bs => simp [intersectionWalk]
  | case5 as => simp [intersectionWalk]

theorem differenceWalk_sublist (as bs : List U16) : (differenceWalk as bs).Sublist as := by
  induction as generalizing bs with
  | nil => exact List.Sublist.refl _
  | cons x as ih =>
    rw [differenceWalk]
    split
    · exact (ih _).trans (List.sublist_cons_self x as)
    · exact (ih _).cons_cons x

theorem mem_differenceWalk (left : as.Pairwise (· < ·)) (right : bs.Pairwise (· < ·)) (y : U16) :
    y ∈ differenceWalk as bs ↔ y ∈ as ∧ y ∉ bs := by
  induction as generalizing bs with
  | nil => simp [differenceWalk]
  | cons x as ih =>
    obtain ⟨first, left⟩ := pairwise_cons.mp left
    obtain ⟨before, found, after, place⟩ := place (f := id) right x
    have dropped : (bs.dropWhile fun b => decide (b < x)) = found.toList ++ after := place.dropWhile
    have kept : (found.toList ++ after).Pairwise (· < ·) := dropped ▸ right.sublist (List.dropWhile_sublist _)
    -- what is above `x` stands in what is left of the other array
    have later : ∀ z, x < z → (z ∈ bs ↔ z ∈ found.toList ++ after) := by
      intro z above
      rw [place.split, mem_append]
      constructor
      · rintro (earlier | mem)
        · exact absurd (place.below z earlier) (lt_asymm above)
        · exact mem
      · exact .inr
    rw [differenceWalk, dropped]
    cases found with
    | some b =>
      have same : b = x := place.same b rfl
      have mem : x ∈ bs := place.present
      rw [toList_some] at kept later ⊢
      rw [if_pos (by rw [← same]; rfl), ih left kept, mem_cons (b := x)]
      constructor
      · exact fun both => ⟨.inr both.1, fun inside => both.2 ((later y (first y both.1)).mp inside)⟩
      · rintro ⟨rfl | mine, absent⟩
        · exact absurd mem absent
        · exact ⟨mine, fun inside => absent ((later y (first y mine)).mpr inside)⟩
    | none =>
      have absent : x ∉ bs := place.missing
      have other : (toList none ++ after).head? ≠ some x := by
        intro held
        exact lt_irrefl x (place.above x (List.mem_of_mem_head? held))
      rw [if_neg other, mem_cons, ih left kept, mem_cons]
      constructor
      · rintro (here | both)
        · exact ⟨.inl here, here ▸ absent⟩
        · exact ⟨.inr both.1, fun inside => both.2 ((later y (first y both.1)).mp inside)⟩
      · rintro ⟨here | mine, outside⟩
        · exact .inl here
        · exact .inr ⟨mine, fun inside => outside ((later y (first y mine)).mpr inside)⟩

end

def Store.isArray : Store → Bool
  | .array _ => true
  | .dense _ => false

namespace Chunk

def lows (self : Chunk) : List U16 :=
  match self.store with
  | .array v => v
  | .dense w => wordsToArray w

structure Tidy (c : Chunk) : Prop where
  ascends : c.lows.Pairwise (· < ·)
  counted : c.len = c.lows.length
  shape : c.store.isArray = decide (c.len ≤ arrayMax)

structure Canonical (c : Chunk) : Prop extends Tidy c where
  occupied : c.lows ≠ []

variable {self other : Chunk} {key lo x : U16} {values v : List U16} {P Q : U16 → Prop} {result : Option Chunk}

theorem lows_array (array : self.store = .array v) : self.lows = v := by
  unfold lows
  rw [array]

theorem lows_dense (dense : self.store = .dense w) : self.lows = wordsToArray w := by
  unfold lows
  rw [dense]

namespace Tidy

theorem array (tidy : Tidy self) (array : self.store = .array v) :
    v.Pairwise (· < ·) ∧ self.len = v.length ∧ v.length ≤ arrayMax := by
  have shape := tidy.shape
  rw [array, tidy.counted, lows_array array] at shape
  have held := lows_array array
  exact ⟨held ▸ tidy.ascends, held ▸ tidy.counted, of_decide_eq_true shape.symm⟩

theorem dense (tidy : Tidy self) (dense : self.store = .dense w) : self.len = popcount w ∧ arrayMax < popcount w := by
  have counted := tidy.counted
  rw [lows_dense dense, length_wordsToArray] at counted
  have shape := tidy.shape
  rw [dense, counted] at shape
  exact ⟨counted, not_le.mp (of_decide_eq_false shape.symm)⟩

theorem ext (left : Tidy self) (right : Tidy other) (keys : self.key = other.key)
    (same : ∀ x, x ∈ self.lows ↔ x ∈ other.lows) : self = other := by
  have lows : self.lows = other.lows := List.Pairwise.eq_of_mem_iff left.ascends right.ascends same
  have len : self.len = other.len := by rw [left.counted, right.counted, lows]
  have shape : self.store.isArray = other.store.isArray := by rw [left.shape, right.shape, len]
  have store : self.store = other.store := by
    cases mine : self.store with
    | array v =>
      cases theirs : other.store with
      | array u => rw [← lows_array mine, ← lows_array theirs, lows]
      | dense u =>
        rw [mine, theirs] at shape
        cases shape
    | dense w =>
      cases theirs : other.store with
      | array u =>
        rw [mine, theirs] at shape
        cases shape
      | dense u =>
        have equal : w = u := by
          apply words_ext
          intro _
          rw [Bool.eq_iff_iff, ← mem_wordsToArray, ← mem_wordsToArray, ← lows_dense mine, ← lows_dense theirs, lows]
        rw [equal]
  cases self
  cases other
  simp only at keys len store
  rw [keys, len, store]

theorem contains_iff (tidy : Tidy self) (lo : U16) : self.contains lo = true ↔ lo ∈ self.lows := by
  unfold contains
  cases stored : self.store with
  | array v =>
    obtain ⟨before, found, after, place⟩ := place (f := id) (tidy.array stored).1 lo
    rw [lows_array stored]
    show (search id v lo).isOk = true ↔ _
    rw [place.search_isOk]
    cases found with
    | none => exact iff_of_false Bool.false_ne_true place.missing
    | some b => exact iff_of_true rfl place.present
  | dense w =>
    rw [lows_dense stored]
    exact mem_wordsToArray.symm

end Tidy

def lowsOf (result : Option Chunk) : List U16 := result.elim [] lows

structure Holds (key : U16) (P : U16 → Prop) (result : Option Chunk) : Prop where
  canonical : ∀ c, result = some c → c.Canonical ∧ c.key = key
  lows : ∀ x, x ∈ lowsOf result ↔ P x

namespace Holds

theorem ext (left : Holds key P result) (right : Holds key Q results) (same : ∀ x, P x ↔ Q x) : result = results := by
  have lows : ∀ x, x ∈ lowsOf result ↔ x ∈ lowsOf results :=
    fun x => (left.lows x).trans ((same x).trans (right.lows x).symm)
  cases result with
  | none =>
    cases results with
    | none => rfl
    | some d =>
      obtain ⟨x, mem⟩ := List.exists_mem_of_ne_nil _ (right.canonical d rfl).1.occupied
      cases (lows x).mpr mem
  | some c =>
    obtain ⟨canonical, key⟩ := left.canonical c rfl
    cases results with
    | none =>
      obtain ⟨x, mem⟩ := List.exists_mem_of_ne_nil _ canonical.occupied
      cases (lows x).mp mem
    | some d =>
      obtain ⟨canonical', key'⟩ := right.canonical d rfl
      rw [canonical.toTidy.ext canonical'.toTidy (key.trans key'.symm) lows]

theorem congr (holds : Holds key P result) (same : ∀ x, P x ↔ Q x) : Holds key Q result :=
  ⟨holds.canonical, fun x => (holds.lows x).trans (same x)⟩

theorem isSome (holds : Holds key P result) (lo : U16) (occupied : P lo) : ∃ c, result = some c := by
  have mem := (holds.lows lo).mpr occupied
  cases result with
  | none => cases mem
  | some c => exact ⟨c, rfl⟩

end Holds

theorem Canonical.holds (canonical : Canonical self) : Holds self.key (· ∈ self.lows) (some self) :=
  ⟨fun _ same => Option.some.inj same ▸ ⟨canonical, rfl⟩, fun _ => Iff.rfl⟩

theorem holds_of_canonical (canonical : Canonical self) (keys : self.key = key) (lows : ∀ x, x ∈ self.lows ↔ P x) :
    Holds key P (some self) := ⟨fun _ same => Option.some.inj same ▸ ⟨canonical, keys⟩, lows⟩

theorem holds_none (empty : ∀ x, ¬P x) : Holds key P none :=
  ⟨fun _ impossible => (nomatch impossible), fun x => iff_of_false not_mem_nil (empty x)⟩

theorem tidy_ofArray (key : U16) (ascends : values.Pairwise (· < ·)) :
    Tidy ⟨key, values.length, if values.length > arrayMax then .dense (arrayToWords values) else .array values⟩ ∧
    lows ⟨key, values.length, if values.length > arrayMax then .dense (arrayToWords values) else .array values⟩ =
      values := by
  by_cases many : values.length > arrayMax
  · rw [if_pos many]
    have kept : wordsToArray (arrayToWords values) = values := wordsToArray_arrayToWords ascends
    refine ⟨⟨wordsToArray_ascends _, ?_, ?_⟩, kept⟩
    · exact congrArg List.length kept.symm
    · exact (decide_eq_false (not_le.mpr many)).symm
  · rw [if_neg many]
    exact ⟨⟨ascends, rfl, (decide_eq_true (not_lt.mp many)).symm⟩, rfl⟩

theorem fromArray_holds (key : U16) (ascends : values.Pairwise (· < ·)) :
    Holds key (· ∈ values) (fromArray key values) := by
  obtain ⟨tidy, lows⟩ := tidy_ofArray key ascends
  cases values with
  | nil => exact holds_none fun _ => not_mem_nil
  | cons first rest =>
    refine holds_of_canonical ⟨tidy, ?_⟩ rfl fun x => by rw [lows]
    rw [lows]
    exact List.cons_ne_nil first rest

theorem tidy_ofWords (key : U16) (w : Words) :
    Tidy ⟨key, popcount w, if popcount w ≤ arrayMax then .array (wordsToArray w) else .dense w⟩ ∧
    lows ⟨key, popcount w, if popcount w ≤ arrayMax then .array (wordsToArray w) else .dense w⟩ = wordsToArray w := by
  by_cases few : popcount w ≤ arrayMax
  · rw [if_pos few]
    exact ⟨⟨wordsToArray_ascends w, (length_wordsToArray w).symm, (decide_eq_true few).symm⟩, rfl⟩
  · rw [if_neg few]
    exact ⟨⟨wordsToArray_ascends w, (length_wordsToArray w).symm, (decide_eq_false few).symm⟩, rfl⟩

theorem fromWords_holds (key : U16) (w : Words) : Holds key (fun x => testBit w x = true) (fromWords key w) := by
  unfold fromWords fromCountedWords
  obtain ⟨tidy, lows⟩ := tidy_ofWords key w
  by_cases zero : popcount w = 0
  · rw [if_pos zero]
    apply holds_none
    intro x set
    have none : wordsToArray w = [] := List.length_eq_zero_iff.mp ((length_wordsToArray w).trans zero)
    have mem := mem_wordsToArray.mpr set
    rw [none] at mem
    cases mem
  · rw [if_neg zero]
    refine holds_of_canonical ⟨tidy, ?_⟩ rfl fun x => by rw [lows, mem_wordsToArray]
    rw [lows]
    intro none
    rw [← length_wordsToArray, none] at zero
    exact zero rfl

theorem tidy_dense (many : arrayMax < popcount w) :
    Tidy ⟨key, popcount w, .dense w⟩ ∧ lows ⟨key, popcount w, .dense w⟩ = wordsToArray w :=
  ⟨⟨wordsToArray_ascends w, (length_wordsToArray w).symm, (decide_eq_false (not_le.mpr many)).symm⟩, rfl⟩

theorem canonical_dense (many : arrayMax < popcount w) : Canonical ⟨key, popcount w, .dense w⟩ := by
  refine ⟨(tidy_dense many).1, ?_⟩
  rw [(tidy_dense many).2]
  intro none
  rw [← length_wordsToArray, none] at many
  exact absurd many (Nat.not_lt_zero _)

theorem grown_holds (tidy : Tidy self) (array : self.store = .array v) (ascends : u.Pairwise (· < ·))
    (longer : u.length = v.length + 1) : (self.grown u).Canonical ∧ (self.grown u).lows = u := by
  have len : self.len + 1 = u.length := by rw [(tidy.array array).2.1, longer]
  obtain ⟨tidy, lows⟩ := tidy_ofArray self.key ascends
  unfold grown
  rw [len]
  refine ⟨⟨tidy, ?_⟩, lows⟩
  rw [lows]
  intro none
  rw [none] at longer
  cases longer

theorem array_put (place : Place id v lo before none after) (ascends : v.Pairwise (· < ·)) :
    (before ++ (lo :: after)).Pairwise (· < ·) ∧ (before ++ (lo :: after)).length = v.length + 1 ∧
      ∀ x, x ∈ before ++ (lo :: after) ↔ x = lo ∨ x ∈ v := by
  have same : ∀ a, some lo = some a → id a = lo := fun a held => (Option.some.inj held).symm
  refine ⟨place.ascends_put same ascends, ?_, ?_⟩
  · rw [place.split]
    simp
    omega
  · intro _
    rw [place.split]
    simp only [mem_append, mem_cons, Option.toList_none, List.nil_append]
    tauto

theorem array_drop (place : Place id v lo before (some found) after) (ascends : v.Pairwise (· < ·)) :
    (before ++ after).Pairwise (· < ·) ∧ v.length = (before ++ after).length + 1 ∧
      ∀ x, x ∈ before ++ after ↔ x ∈ v ∧ x ≠ lo := by
  have nothing : ∀ a, (none : Option U16) = some a → id a = lo := by
    intro a impossible
    cases impossible
  refine ⟨place.ascends_put nothing ascends, ?_, ?_⟩
  · rw [place.split]
    simp
    omega
  · intro x
    have same : found = lo := place.same found rfl
    rw [place.split, same]
    simp only [mem_append, toList_some, mem_cons, not_mem_nil, or_false]
    constructor
    · rintro (earlier | later)
      · exact ⟨.inl earlier, (place.below x earlier).ne⟩
      · exact ⟨.inr (.inr later), (place.above x later).ne'⟩
    · rintro ⟨earlier | here | later, differs⟩
      · exact .inl earlier
      · exact absurd here differs
      · exact .inr later

theorem insert_array (tidy : Tidy self) (stored : self.store = .array v) (lo : U16) :
    (lo ∈ v ∧ self.insert lo = (false, self)) ∨
    ∃ before after, lo ∉ v ∧ Place id v lo before none after ∧
      self.insert lo = (true, self.grown (before ++ (lo :: after))) := by
  have ascends := (tidy.array stored).1
  obtain ⟨before, found, after, place⟩ := place (f := id) ascends lo
  have last := place.getLast?
  unfold insert
  rw [stored]
  dsimp only
  cases found with
  | some b =>
    have same : b = lo := place.same b rfl
    have mem : lo ∈ v := place.present
    -- the last value is not below the one that is there
    have behind : ¬(v.getLast?.all fun last => decide (last < lo)) = true := by
      rw [last]
      cases end' : after.getLast? with
      | none => simp [same]
      | some z => simpa using (place.above z (List.mem_of_getLast? end')).le
    rw [if_neg behind, place.search_found]
    exact .inl ⟨mem, rfl⟩
  | none =>
    have absent : lo ∉ v := place.missing
    refine .inr ⟨before, after, absent, place, ?_⟩
    by_cases behind : (v.getLast?.all fun last => decide (last < lo)) = true
    · have ended : after = [] := by
        cases end' : after.getLast? with
        | none => exact List.getLast?_eq_none_iff.mp end'
        | some z =>
          rw [last, end'] at behind
          simp only [some_or, all_some, decide_eq_true_iff] at behind
          exact absurd behind (lt_asymm (place.above z (List.mem_of_getLast? end')))
      have whole : v = before := by rw [place.split, ended]; simp
      rw [if_pos behind, ended, whole]
    · rw [if_neg behind, place.search_absent]
      dsimp only
      rw [place.insertIdx]

theorem insert_holds (tidy : Tidy self) (lo : U16) : (self.insert lo).2.Canonical ∧ (self.insert lo).2.key = self.key ∧
      (∀ x, x ∈ (self.insert lo).2.lows ↔ x = lo ∨ x ∈ self.lows) ∧
      ((self.insert lo).1 = true ↔ lo ∉ self.lows) := by
  cases stored : self.store with
  | array v =>
    have held := lows_array stored
    rcases insert_array tidy stored lo with ⟨mem, inserted⟩ | ⟨before, after, absent, place, inserted⟩
    · rw [inserted, held]
      refine ⟨⟨tidy, ?_⟩, rfl, ?_, ?_⟩
      · rw [held]
        exact List.ne_nil_of_mem mem
      · exact fun x => ⟨.inr, fun either => either.elim (fun same => same ▸ mem) id⟩
      · exact iff_of_false Bool.false_ne_true (not_not.mpr mem)
    · obtain ⟨ascends, longer, members⟩ := array_put place (tidy.array stored).1
      obtain ⟨canonical, lows⟩ := grown_holds tidy stored ascends longer
      rw [inserted, held]
      refine ⟨canonical, rfl, ?_, iff_of_true rfl absent⟩
      intro x
      rw [lows, members]
  | dense w =>
    obtain ⟨counted, many⟩ := tidy.dense stored
    have inserted : self.insert lo =
        ((setBit w lo).1, ⟨self.key, popcount (setBit w lo).2, .dense (setBit w lo).2⟩) := by
      unfold insert
      rw [stored, popcount_setBit, counted]
    have more : arrayMax < popcount (setBit w lo).2 := by
      rw [popcount_setBit]
      omega
    have held := lows_dense stored
    rw [inserted, held]
    refine ⟨canonical_dense more, rfl, ?_, ?_⟩
    · intro x
      rw [(tidy_dense more).2, mem_wordsToArray, mem_wordsToArray, testBit_setBit, Bool.or_eq_true, decide_eq_true_iff]
    · rw [mem_wordsToArray, setBit_fresh, Bool.not_eq_true', Bool.not_eq_true]

theorem remove_holds (tidy : Tidy self) (lo : U16) : (self.remove lo).2.Tidy ∧ (self.remove lo).2.key = self.key ∧
      (∀ x, x ∈ (self.remove lo).2.lows ↔ x ∈ self.lows ∧ x ≠ lo) ∧
      ((self.remove lo).1 = true ↔ lo ∈ self.lows) ∧ ((self.remove lo).1 = false → (self.remove lo).2 = self) := by
  cases stored : self.store with
  | array v =>
    obtain ⟨ascends, counted, few⟩ := tidy.array stored
    have held := lows_array stored
    obtain ⟨before, found, after, place⟩ := place (f := id) ascends lo
    unfold remove
    rw [stored]
    dsimp only
    cases found with
    | none =>
      have absent : lo ∉ self.lows := held ▸ place.missing
      rw [place.search_absent]
      refine ⟨tidy, rfl, ?_, iff_of_false Bool.false_ne_true absent, fun _ => rfl⟩
      exact fun x => ⟨fun mem => ⟨mem, fun same => absent (same ▸ mem)⟩, And.left⟩
    | some b =>
      obtain ⟨kept, shorter, members⟩ := array_drop place ascends
      have length : self.len - 1 = (before ++ after).length := by rw [counted, shorter, Nat.add_sub_cancel]
      rw [place.search_found]
      dsimp only
      rw [place.eraseIdx]
      refine ⟨⟨kept, length, ?_⟩, rfl, ?_, ?_, Bool.noConfusion⟩
      · refine (decide_eq_true ?_).symm
        show self.len - 1 ≤ arrayMax
        omega
      · intro x
        rw [held]
        exact members x
      · exact iff_of_true rfl (held ▸ place.present)
  | dense w =>
    obtain ⟨counted, many⟩ := tidy.dense stored
    have held := lows_dense stored
    have fewer := popcount_clearBit w lo
    rw [clearBit_present] at fewer
    unfold remove
    rw [stored]
    dsimp only
    rw [clearBit_present]
    cases present : testBit w lo with
    | false =>
      have absent : lo ∉ wordsToArray w := fun mem => by
        rw [mem_wordsToArray, present] at mem
        cases mem
      have unchanged : { self with store := .dense (clearBit w lo).2 } = self := by
        rw [clearBit_absent present, ← stored]
      rw [if_neg Bool.false_ne_true, unchanged]
      refine ⟨tidy, rfl, ?_, iff_of_false Bool.false_ne_true (held ▸ absent), fun _ => rfl⟩
      intro x
      rw [held]
      constructor
      · intro mem
        refine ⟨mem, ?_⟩
        rintro rfl
        exact absent mem
      · exact And.left
    | true =>
      rw [present] at fewer
      have len : self.len - 1 = popcount (clearBit w lo).2 := by
        rw [counted, fewer]
        rfl
      obtain ⟨tidy', lows⟩ := tidy_ofWords self.key (clearBit w lo).2
      rw [if_pos rfl, len, held]
      refine ⟨tidy', rfl, ?_, ?_, Bool.noConfusion⟩
      · intro x
        rw [lows, mem_wordsToArray, mem_wordsToArray, testBit_clearBit, Bool.and_eq_true, decide_eq_true_iff]
      · rw [mem_wordsToArray, present]

end Chunk

end Rezzy.Bitmaps
