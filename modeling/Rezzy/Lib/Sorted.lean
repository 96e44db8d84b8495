import Mathlib

namespace Sorted

open List Std.ExtTreeMap Prod

variable {K V : Type} [LinearOrder K]

def SortedKeys (entries : List (K × V)) : Prop := entries.Pairwise fun a b => a.1 < b.1

def lookup (entries : List (K × V)) (key : K) : Option V :=
  (entries.find? fun e => decide (e.1 = key)).map Prod.snd

def assign (entries : List (K × V)) (key : K) (value : V) : List (K × V) :=
  entries.filter (fun e => decide (e.1 < key)) ++ (key, value) :: entries.filter fun e => decide (key < e.1)

def erase (entries : List (K × V)) (key : K) : List (K × V) :=
  entries.filter fun e => decide (e.1 ≠ key)

def Below (entries : List (K × V)) (key : K) : Prop := ∀ e ∈ entries, e.1 < key

def Above (entries : List (K × V)) (key : K) : Prop := ∀ e ∈ entries, key < e.1

variable {before middle after entries : List (K × V)} {key : K} {value : V}

theorem lookup_eq_none : lookup entries key = none ↔ ∀ e ∈ entries, e.1 ≠ key := by
  simp [lookup]

theorem lookup_of_mem (sorted : SortedKeys entries) (mem : (key, value) ∈ entries) :
    lookup entries key = some value := by
  induction entries with
  | nil => cases mem
  | cons e rest ih =>
    obtain ⟨first, sorted⟩ := pairwise_cons.mp sorted
    rcases mem_cons.mp mem with rfl | mem
    · simp [lookup]
    · have other : e.1 ≠ key := (first _ mem).ne
      rw [← ih sorted mem, lookup, lookup, find?_cons_of_neg (by simpa using other)]

theorem mem_of_lookup (found : lookup entries key = some value) : (key, value) ∈ entries := by
  obtain ⟨e, first, rfl⟩ := Option.map_eq_some_iff.mp found
  have same : e.1 = key := of_decide_eq_true (find?_some first :)
  exact same ▸ mem_of_find?_eq_some first

theorem mem_iff_lookup (sorted : SortedKeys entries) : (key, value) ∈ entries ↔ lookup entries key = some value :=
  ⟨lookup_of_mem sorted, mem_of_lookup⟩

theorem SortedKeys.ext (left : SortedKeys entries) (right : SortedKeys other) (same : ∀ e, e ∈ entries ↔ e ∈ other) :
    entries = other := by
  have distinct : ∀ {l : List (K × V)}, SortedKeys l → l.Nodup := by
    intro l sorted
    refine List.Pairwise.imp ?_ sorted
    rintro a b less rfl
    exact less.false
  have perm : entries.Perm other := (perm_ext_iff_of_nodup (distinct left) (distinct right)).mpr same
  exact List.Perm.eq_of_pairwise (fun a b _ _ less more => absurd more less.asymm) left right perm

theorem sorted_append_iff : SortedKeys (before ++ after) ↔
    SortedKeys before ∧ SortedKeys after ∧ ∀ a ∈ before, ∀ b ∈ after, a.1 < b.1 := pairwise_append

section

variable (middle) (below : Below before key) (above : Above after key)

include below above

theorem lookup_middle : lookup (before ++ (middle ++ after)) key = lookup middle key := by
  have left : before.find? (fun e => decide (e.1 = key)) = none := by
    simpa using fun a b mem => (below (a, b) mem).ne
  have right : after.find? (fun e => decide (e.1 = key)) = none := by
    simpa using fun a b mem => (above (a, b) mem).ne'
  rw [lookup, find?_append, left, Option.none_or, find?_append, right, Option.or_none]
  rfl

theorem assign_middle (value : V) :
    assign (before ++ (middle ++ after)) key value = before ++ (assign middle key value ++ after) := by
  have low : before.filter (fun e => decide (e.1 < key)) = before :=
    filter_eq_self.mpr fun e mem => decide_eq_true (below e mem)
  have noLow : after.filter (fun e => decide (e.1 < key)) = [] :=
    filter_eq_nil_iff.mpr fun e mem => by simpa using (above e mem).le
  have high : after.filter (fun e => decide (key < e.1)) = after :=
    filter_eq_self.mpr fun e mem => decide_eq_true (above e mem)
  have noHigh : before.filter (fun e => decide (key < e.1)) = [] :=
    filter_eq_nil_iff.mpr fun e mem => by simpa using (below e mem).le
  simp only [assign, filter_append, low, noLow, high, noHigh, nil_append, append_nil, append_assoc, cons_append]

theorem erase_middle : erase (before ++ (middle ++ after)) key = before ++ (erase middle key ++ after) := by
  have low : before.filter (fun e => decide (e.1 ≠ key)) = before :=
    filter_eq_self.mpr fun e mem => decide_eq_true (below e mem).ne
  have high : after.filter (fun e => decide (e.1 ≠ key)) = after :=
    filter_eq_self.mpr fun e mem => decide_eq_true (above e mem).ne'
  rw [erase, filter_append, filter_append, low, high]
  rfl

end

theorem lookup_cons (e : K × V) (entries : List (K × V)) (key : K) :
    lookup (e :: entries) key = if key = e.1 then some e.2 else lookup entries key := by
  by_cases same : key = e.1
  · rw [if_pos same, lookup, find?_cons_of_pos (by simpa using same.symm)]
    rfl
  · rw [if_neg same, lookup, find?_cons_of_neg (by simpa using fun given => same given.symm)]
    rfl

theorem lookup_of_above (above : Above entries key) : lookup entries key = none :=
  lookup_eq_none.mpr fun e mem => (above e mem).ne'

theorem lookup_filter (entries : List (K × V)) (test : K → Bool) (key : K) :
    lookup (entries.filter fun e => test e.1) key = if test key then lookup entries key else none := by
  induction entries with
  | nil => simp [lookup]
  | cons e entries ih =>
    rw [lookup_cons]
    cases taken : test e.1 with
    | true =>
      rw [filter_cons_of_pos (by simp [taken]), lookup_cons, ih]
      by_cases same : key = e.1
      · rw [if_pos same, if_pos same, same, if_pos taken]
      · rw [if_neg same, if_neg same]
    | false =>
      rw [filter_cons_of_neg (by simp [taken]), ih]
      by_cases same : key = e.1
      · rw [same, taken]
        rfl
      · rw [if_neg same]

theorem lookup_filterMap {W : Type} (sorted : SortedKeys entries) (f : K → V → Option W) (key : K) :
    lookup (entries.filterMap fun e => (f e.1 e.2).map (Prod.mk e.1)) key = (lookup entries key).bind (f key) := by
  induction entries with
  | nil => rfl
  | cons e entries ih =>
    obtain ⟨above, rest⟩ := pairwise_cons.mp sorted
    have onward := ih rest
    rw [lookup_cons]
    by_cases same : key = e.1
    · have none : lookup entries key = none := lookup_of_above (same ▸ above)
      rw [none, Option.bind_none] at onward
      rw [if_pos same, Option.bind_some]
      cases mapped : f e.1 e.2 with
      | none => rw [filterMap_cons_none (by rw [mapped]; rfl), onward, same, mapped]
      | some w =>
        rw [filterMap_cons_some (b := (e.1, w)) (by rw [mapped]; rfl), lookup_cons, if_pos same, same, mapped]
    · rw [if_neg same, ← onward]
      cases mapped : f e.1 e.2 with
      | none => rw [filterMap_cons_none (by rw [mapped]; rfl)]
      | some w =>
        rw [filterMap_cons_some (b := (e.1, w)) (by rw [mapped]; rfl), lookup_cons, if_neg same]

theorem SortedKeys.filterMap {W : Type} (sorted : SortedKeys entries) (f : K → V → Option W) :
    SortedKeys (entries.filterMap fun e => (f e.1 e.2).map (Prod.mk e.1)) := by
  apply List.Pairwise.filterMap _ _ sorted
  intro _ _ below _ mapped _ mapped'
  obtain ⟨_, _, rfl⟩ := Option.map_eq_some_iff.mp mapped
  obtain ⟨_, _, rfl⟩ := Option.map_eq_some_iff.mp mapped'
  exact below

@[simp] theorem lookup_nil : lookup ([] : List (K × V)) key = none := rfl

@[simp] theorem lookup_singleton : lookup [(key, value)] key = some value := by simp [lookup]

@[simp] theorem assign_nil : assign [] key value = [(key, value)] := rfl

@[simp] theorem assign_singleton : assign [(key, old)] key value = [(key, value)] := by simp [assign]

@[simp] theorem erase_singleton : erase [(key, value)] key = [] := by simp [erase]

theorem assign_above (above : Above entries key) (value : V) : assign entries key value = (key, value) :: entries := by
  have none : entries.filter (fun e => decide (e.1 < key)) = [] :=
    filter_eq_nil_iff.mpr fun e mem => by simpa using (above e mem).le
  have all : entries.filter (fun e => decide (key < e.1)) = entries :=
    filter_eq_self.mpr fun e mem => decide_eq_true (above e mem)
  rw [assign, none, all, nil_append]

theorem assign_head (above : Above entries key) (old value : V) :
    assign ((key, old) :: entries) key value = (key, value) :: entries := by
  have same : assign ((key, old) :: entries) key value = assign entries key value := by
    rw [assign, assign, filter_cons_of_neg (by simp), filter_cons_of_neg (by simp)]
  rw [same, assign_above above]

theorem assign_cons_below (below : e.1 < key) (value : V) :
    assign (e :: entries) key value = e :: assign entries key value := by
  rw [assign, assign, filter_cons_of_pos (by simpa using below), filter_cons_of_neg (by simpa using below.le)]
  rfl

theorem mem_assign : e ∈ assign entries key value ↔ e = (key, value) ∨ e ∈ entries ∧ e.1 ≠ key := by
  simp only [assign, mem_append, mem_filter, mem_cons, decide_eq_true_eq]
  constructor
  · rintro (⟨mem, less⟩ | rfl | ⟨mem, less⟩)
    · exact .inr ⟨mem, less.ne⟩
    · exact .inl rfl
    · exact .inr ⟨mem, less.ne'⟩
  · rintro (rfl | ⟨mem, other⟩)
    · exact .inr (.inl rfl)
    · rcases lt_or_gt_of_ne other with less | less
      · exact .inl ⟨mem, less⟩
      · exact .inr (.inr ⟨mem, less⟩)

theorem mem_erase : e ∈ erase entries key ↔ e ∈ entries ∧ e.1 ≠ key := by
  simp [erase]

theorem SortedKeys.assign (sorted : SortedKeys entries) (key : K) (value : V) :
    SortedKeys (assign entries key value) := by
  apply sorted_append_iff.mpr
  refine ⟨sorted.sublist filter_sublist, pairwise_cons.mpr ⟨?_, sorted.sublist filter_sublist⟩, ?_⟩
  · intro _ mem
    exact of_decide_eq_true (mem_filter.mp mem).2
  · intro a low _ high
    have less : a.1 < key := of_decide_eq_true (mem_filter.mp low).2
    rcases mem_cons.mp high with rfl | high
    · exact less
    · exact less.trans (of_decide_eq_true (mem_filter.mp high).2)

theorem SortedKeys.erase (sorted : SortedKeys entries) (key : K) : SortedKeys (erase entries key) :=
  sorted.sublist filter_sublist

theorem SortedKeys.ext_lookup (left : SortedKeys entries) (right : SortedKeys other)
    (same : ∀ key, lookup entries key = lookup other key) : entries = other := by
  refine left.ext right fun e => ?_
  obtain ⟨-, -⟩ := e
  rw [mem_iff_lookup left, mem_iff_lookup right, same]

theorem lookup_assign (sorted : SortedKeys entries) (key : K) (value : V) (other : K) :
    lookup (assign entries key value) other = if other = key then some value else lookup entries other := by
  apply Option.ext
  intro _
  rw [← mem_iff_lookup (sorted.assign key value), mem_assign]
  by_cases same : other = key
  · rw [if_pos same, Option.some_inj, Prod.mk.injEq]
    exact ⟨fun given => (given.resolve_right fun kept => kept.2 same).2.symm, fun given => .inl ⟨same, given.symm⟩⟩
  · rw [if_neg same, ← mem_iff_lookup sorted, Prod.mk.injEq]
    exact ⟨fun given => (given.resolve_left fun new => same new.1).1, fun mem => .inr ⟨mem, same⟩⟩

theorem assign_self (sorted : SortedKeys entries) (found : lookup entries key = some value) :
    assign entries key value = entries := by
  apply (sorted.assign key value).ext_lookup sorted
  intro other
  rw [lookup_assign sorted]
  by_cases same : other = key
  · rw [if_pos same, same, found]
  · rw [if_neg same]

theorem lookup_erase (sorted : SortedKeys entries) (key other : K) :
    lookup (erase entries key) other = if other = key then none else lookup entries other := by
  apply Option.ext
  intro _
  rw [← mem_iff_lookup (sorted.erase key), mem_erase]
  by_cases same : other = key
  · rw [if_pos same]
    exact ⟨fun given => absurd same given.2, fun given => nomatch given⟩
  · rw [if_neg same, ← mem_iff_lookup sorted]
    exact ⟨And.left, fun mem => ⟨mem, same⟩⟩

def assignAll (items : List (K × V)) : List (K × V) := items.foldl (fun entries e => assign entries e.1 e.2) []

theorem assignAll_append (items : List (K × V)) (e : K × V) :
    assignAll (items ++ [e]) = assign (assignAll items) e.1 e.2 := by
  rw [assignAll, foldl_append]
  rfl

theorem assignAll_sorted (items : List (K × V)) : SortedKeys (assignAll items) := by
  induction items using reverseRecOn with
  | nil => exact List.Pairwise.nil
  | append_singleton items e ih =>
    rw [assignAll_append]
    exact ih.assign e.1 e.2

theorem lookup_assignAll (items : List (K × V)) (key : K) :
    lookup (assignAll items) key = (items.filter fun e => decide (e.1 = key)).getLast?.map snd := by
  induction items using reverseRecOn with
  | nil => rfl
  | append_singleton items e ih =>
    rw [assignAll_append, lookup_assign (assignAll_sorted items), filter_append]
    by_cases same : key = e.1
    · simp [same]
    · rw [if_neg same, ih, filter_cons_of_neg (by simpa using fun given => same given.symm), filter_nil, append_nil]

theorem mem_assignAll {e : K × V} (mem : e ∈ assignAll items) : e ∈ items := by
  have found := (mem_iff_lookup (assignAll_sorted items)).mp mem
  rw [lookup_assignAll] at found
  obtain ⟨last, taken, value⟩ := Option.map_eq_some_iff.mp found
  obtain ⟨inside, key⟩ := mem_filter.mp (mem_of_getLast? taken)
  have same : last = e := Prod.ext (of_decide_eq_true key) value
  exact same ▸ inside

theorem assignAll_cons_shadowed {e : K × V} (shadowed : ∃ x ∈ items, x.1 = e.1) :
    assignAll (e :: items) = assignAll items := by
  apply (assignAll_sorted _).ext_lookup (assignAll_sorted _)
  intro key
  rw [lookup_assignAll, lookup_assignAll]
  by_cases same : e.1 = key
  · obtain ⟨x, inside, other⟩ := shadowed
    have some_ : items.filter (fun x => decide (x.1 = key)) ≠ [] :=
      ne_nil_of_mem (mem_filter.mpr ⟨inside, decide_eq_true (other.trans same)⟩)
    rw [filter_cons_of_pos (by simpa using same), getLast?_cons_of_ne_nil some_]
  · rw [filter_cons_of_neg (by simpa using same)]

theorem assignAll_cons_below {e : K × V} (below : Above items e.1) :
    assignAll (e :: items) = e :: assignAll items := by
  have sorted : SortedKeys (e :: assignAll items) :=
    pairwise_cons.mpr ⟨fun x mem => below x (mem_assignAll mem), assignAll_sorted items⟩
  apply (assignAll_sorted _).ext_lookup sorted
  intro key
  rw [lookup_assignAll, lookup_cons, lookup_assignAll]
  by_cases same : e.1 = key
  · have none : items.filter (fun x => decide (x.1 = key)) = [] := by
      rw [filter_eq_nil_iff]
      intro x mem
      simpa using fun other => (below x mem).ne (same.trans other.symm)
    rw [filter_cons_of_pos (by simpa using same), none, if_pos same.symm]
    rfl
  · rw [filter_cons_of_neg (by simpa using same), if_neg fun given => same given.symm]

theorem SortedKeys.assignAll_self {items : List (K × V)} (sorted : SortedKeys items) : assignAll items = items := by
  induction items with
  | nil => rfl
  | cons e items ih =>
    obtain ⟨below, rest⟩ := pairwise_cons.mp sorted
    rw [assignAll_cons_below below, ih rest]

def SameKey {W : Type} (related : V → W → Prop) (a : K × V) (b : K × W) : Prop := a.1 = b.1 ∧ related a.2 b.2

theorem assignAll_forall₂ {W : Type} {related : V → W → Prop} {others : List (K × W)}
    (each : List.Forall₂ (SameKey related) items others) :
    List.Forall₂ (SameKey related) (assignAll items) (assignAll others) := by
  have keeps : ∀ (test : K → Bool) {entries : List (K × V)} {entries' : List (K × W)},
      List.Forall₂ (SameKey related) entries entries' →
      List.Forall₂ (SameKey related) (entries.filter fun a => test a.1) (entries'.filter fun b => test b.1) := by
    intro test entries entries' sofar
    apply rel_filter _ sofar
    intro a b same
    dsimp only
    rw [same.1]
  have steps : ∀ {entries : List (K × V)} {entries' : List (K × W)} {a : K × V} {b : K × W},
      List.Forall₂ (SameKey related) entries entries' → SameKey related a b →
      List.Forall₂ (SameKey related) (assign entries a.1 a.2) (assign entries' b.1 b.2) := by
    intro entries entries' a b sofar same
    rw [same.1]
    exact rel_append (keeps (fun key => decide (key < b.1)) sofar)
      (.cons ⟨rfl, same.2⟩ (keeps (fun key => decide (b.1 < key)) sofar))
  have respects : Relator.LiftFun (List.Forall₂ (SameKey related))
      (Relator.LiftFun (SameKey related) (List.Forall₂ (SameKey related)))
      (fun entries a => assign entries a.1 a.2) fun entries b => assign entries b.1 b.2 :=
    fun _ _ sofar _ _ same => steps sofar same
  exact rel_foldl respects .nil each

theorem assignAll_mergeSort (items : List (K × V)) :
    assignAll (items.mergeSort fun a b => decide (a.1 ≤ b.1)) = assignAll items := by
  refine (assignAll_sorted _).ext_lookup (assignAll_sorted _) fun key => ?_
  rw [lookup_assignAll, lookup_assignAll]
  have kept : items.filter (fun e => decide (e.1 = key)) =
      (items.mergeSort fun a b => decide (a.1 ≤ b.1)).filter fun e => decide (e.1 = key) := by
    have equal : (items.filter fun e => decide (e.1 = key)).Pairwise fun a b => decide (a.1 ≤ b.1) = true := by
      apply List.Pairwise.imp_of_mem (R := fun _ _ => True)
      · intro a b left right _
        have l : a.1 = key := of_decide_eq_true (mem_filter.mp left).2
        have r : b.1 = key := of_decide_eq_true (mem_filter.mp right).2
        exact decide_eq_true (l.trans r.symm).le
      · exact pairwise_of_forall (fun _ _ => trivial)
    have within := (sublist_mergeSort (fun a b c ab bc => by simp at *; exact ab.trans bc)
      (fun a b => by simpa using le_total a.1 b.1) equal filter_sublist).filter fun e => decide (e.1 = key)
    rw [filter_filter] at within
    simp only [Bool.and_self] at within
    exact within.eq_of_length ((mergeSort_perm items _).filter _).length_eq.symm
  rw [kept]

theorem SortedKeys.place (sorted : SortedKeys entries) (key : K) :
    ∃ before middle after, entries = before ++ (middle ++ after) ∧ Below before key ∧ Above after key ∧
      (middle = [] ∨ ∃ value, middle = [(key, value)]) ∧
      entries.takeWhile (fun e => decide (e.1 < key)) = before := by
  induction entries with
  | nil => exact ⟨[], [], [], rfl, by simp [Below], by simp [Above], .inl rfl, rfl⟩
  | cons e rest ih =>
    obtain ⟨first, sorted⟩ := pairwise_cons.mp sorted
    rcases lt_trichotomy e.1 key with less | same | more
    · obtain ⟨before, middle, after, split, below, above, shape, taken⟩ := ih sorted
      refine ⟨e :: before, middle, after, by rw [split]; rfl, ?_, above, shape, ?_⟩
      · exact forall_mem_cons.mpr ⟨less, below⟩
      · rw [takeWhile_cons_of_pos (by simpa using less), taken]
    · refine ⟨[], [e], rest, rfl, by simp [Below], ?_, .inr ⟨e.2, by rw [← same]⟩, ?_⟩
      · exact fun a mem => same ▸ first a mem
      · exact takeWhile_cons_of_neg (by simpa using same.ge)
    · refine ⟨[], [], e :: rest, rfl, by simp [Below], ?_, .inl rfl, ?_⟩
      · exact forall_mem_cons.mpr ⟨more, fun a mem => more.trans (first a mem)⟩
      · exact takeWhile_cons_of_neg (by simpa using more.le)

theorem assign_length (sorted : SortedKeys entries) (key : K) (value : V) :
    (assign entries key value).length = if lookup entries key = none then entries.length + 1 else entries.length := by
  obtain ⟨before, middle, after, rfl, below, above, shape, _⟩ := sorted.place key
  rw [assign_middle _ below above, lookup_middle _ below above]
  rcases shape with rfl | ⟨old, rfl⟩
  · simp
    omega
  · simp

theorem erase_length (sorted : SortedKeys entries)
    (found : lookup entries key = some value) : (erase entries key).length + 1 = entries.length := by
  obtain ⟨before, middle, after, rfl, below, above, shape, _⟩ := sorted.place key
  rw [erase_middle _ below above]
  rw [lookup_middle _ below above] at found
  rcases shape with rfl | ⟨old, rfl⟩
  · cases found
  · simp
    omega

theorem erase_of_absent (absent : lookup entries key = none) : erase entries key = entries :=
  filter_eq_self.mpr fun e mem => decide_eq_true (lookup_eq_none.mp absent e mem)

variable (map : Std.ExtTreeMap K V compare)

theorem toList_sorted : SortedKeys map.toList := by
  have ordered := ordered_keys_toList (t := map)
  exact ordered.imp fun less => compare_lt_iff_lt.mp less

theorem getElem?_eq_lookup (key : K) : map[key]? = lookup map.toList key := by
  apply Option.ext
  intro _
  rw [← mem_iff_lookup (toList_sorted map), mem_toList_iff_getElem?_eq_some]

theorem toList_insert (key : K) (value : V) : (map.insert key value).toList = assign map.toList key value := by
  refine (toList_sorted _).ext ((toList_sorted map).assign key value) fun e => ?_
  rw [mem_assign]
  obtain ⟨other, -⟩ := e
  rw [mem_toList_iff_getElem?_eq_some, mem_toList_iff_getElem?_eq_some, Std.ExtTreeMap.getElem?_insert]
  by_cases same : key = other
  · rw [if_pos (compare_eq_iff_eq.mpr same), Option.some_inj, Prod.mk.injEq]
    constructor
    · intro given
      exact .inl ⟨same.symm, given.symm⟩
    · rintro (⟨-, given⟩ | ⟨-, apart⟩)
      · exact given.symm
      · exact absurd same.symm apart
  · rw [if_neg fun equal => same (compare_eq_iff_eq.mp equal)]
    constructor
    · intro found
      exact .inr ⟨found, fun equal => same equal.symm⟩
    · rintro (given | ⟨found, -⟩)
      · exact absurd (congrArg fst given).symm same
      · exact found

theorem toList_erase (key : K) : (map.erase key).toList = erase map.toList key := by
  refine (toList_sorted _).ext ((toList_sorted map).erase key) fun e => ?_
  rw [mem_erase]
  obtain ⟨other, -⟩ := e
  rw [mem_toList_iff_getElem?_eq_some, mem_toList_iff_getElem?_eq_some, getElem?_erase]
  by_cases same : key = other
  · rw [if_pos (compare_eq_iff_eq.mpr same)]
    constructor
    · intro found
      cases found
    · intro ⟨_, apart⟩
      exact absurd same.symm apart
  · rw [if_neg fun equal => same (compare_eq_iff_eq.mp equal)]
    exact ⟨fun found => ⟨found, fun equal => same equal.symm⟩, And.left⟩

omit map in
theorem toList_foldl_insert (items : List (K × V)) :
    (items.foldl (fun map e => map.insert e.1 e.2) (∅ : Std.ExtTreeMap K V compare)).toList = assignAll items := by
  induction items using reverseRecOn with
  | nil => rfl
  | append_singleton items e ih =>
    rw [foldl_append, assignAll_append, ← ih, ← toList_insert]
    rfl

end Sorted
