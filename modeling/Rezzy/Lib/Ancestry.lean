import Mathlib.Data.Finset.Basic
import Rezzy.Lib.Peel
import Rezzy.Lib.Worklist

namespace Ancestry

open List Relation.TransGen

open Peel (Cites ParentsFirst)

variable {α : Type} {parents : α → List α} {items : List α} {rows : List (Finset Nat)}

def rowAt (rows : List (Finset Nat)) (k : Nat) : Finset Nat := rows[k]?.getD ∅

structure Exact (parents : α → List α) (items : List α) (rows : List (Finset Nat)) : Prop where
  nodup : items.Nodup
  sized : rows.length = items.length
  closed : ∀ x ∈ items, ∀ parent ∈ parents x, parent ∈ items
  ancestors : ∀ k x, items[k]? = some x → ∀ j,
    j ∈ rowAt rows k ↔ ∃ y, items[j]? = some y ∧ Relation.TransGen (Cites parents) y x

theorem ancestor_mem (closed : ∀ x ∈ items, ∀ parent ∈ parents x, parent ∈ items) (mem : x ∈ items)
    (path : Relation.TransGen (Cites parents) y x) : y ∈ items := by
  induction path using head_induction_on with
  | single cites => exact closed x mem _ cites
  | head cites _ ih => exact closed _ ih _ cites

theorem Exact.empty : Exact parents [] [] where
  nodup := nodup_nil
  sized := rfl
  closed := by simp
  ancestors := by simp

theorem transGen_iff_parent : Relation.TransGen (Cites parents) y x ↔
    ∃ parent ∈ parents x, y = parent ∨ Relation.TransGen (Cites parents) y parent := by
  constructor
  · intro path
    cases path with
    | single cites => exact ⟨y, cites, .inl rfl⟩
    | tail path cites => exact ⟨_, cites, .inr path⟩
  · rintro ⟨parent, cites, rfl | path⟩
    · exact .single cites
    · exact .tail path cites

theorem transGen_congr (closed : ∀ x ∈ items, ∀ parent ∈ parents x, parent ∈ items)
    (same : ∀ x ∈ items, parents x = others x) (mem : x ∈ items) (path : Relation.TransGen (Cites parents) y x) :
    Relation.TransGen (Cites others) y x := by
  induction path using head_induction_on with
  | single cites =>
    apply single
    rwa [Cites, ← same x mem]
  | head cites path ih =>
    apply Relation.TransGen.head _ ih
    rwa [Cites, ← same _ (ancestor_mem closed mem path)]

theorem Exact.congr (exact : Exact parents items rows) (same : ∀ x ∈ items, parents x = others x) :
    Exact others items rows where
  nodup := exact.nodup
  sized := exact.sized
  closed x mem parent cites := exact.closed x mem parent (same x mem ▸ cites)
  ancestors k x found j := by
    have mem := mem_of_getElem? found
    have back : ∀ z ∈ items, others z = parents z := fun z inside => (same z inside).symm
    have closed : ∀ z ∈ items, ∀ parent ∈ others z, parent ∈ items := by
      intro z inside parent cites
      exact exact.closed z inside parent (same z inside ▸ cites)
    rw [exact.ancestors k x found j]
    refine exists_congr fun y => and_congr_right fun _ => ⟨?_, ?_⟩
    · exact transGen_congr exact.closed same mem
    · exact transGen_congr closed back mem

variable [DecidableEq α]

/-- The row of an item with the given parents: their positions and those of their ancestors. Parents without a
    position are passed over. -/
def gather (items : List α) (rows : List (Finset Nat)) (parents : List α) : Finset Nat :=
  parents.foldl (fun row parent =>
    match items.idxOf? parent with
    | some at' => insert at' (row ∪ rowAt rows at')
    | none => row) ∅

theorem mem_gather_from (items : List α) (rows : List (Finset Nat)) (parents : List α) (start : Finset Nat) (j : Nat) :
    j ∈ parents.foldl (fun row parent =>
      match items.idxOf? parent with
      | some at' => insert at' (row ∪ rowAt rows at')
      | none => row) start ↔
    j ∈ start ∨ ∃ parent ∈ parents, ∃ k, items.idxOf? parent = some k ∧ (j = k ∨ j ∈ rowAt rows k) := by
  induction parents generalizing start with
  | nil => simp
  | cons parent parents ih =>
    rw [foldl_cons, ih]
    cases found : items.idxOf? parent with
    | none => simp [found]
    | some k =>
      rw [Finset.mem_insert, Finset.mem_union]
      constructor
      · rintro ((rfl | old | own) | ⟨other, mem, rest⟩)
        · exact .inr ⟨parent, mem_cons_self .., _, found, .inl rfl⟩
        · exact .inl old
        · exact .inr ⟨parent, mem_cons_self .., k, found, .inr own⟩
        · exact .inr ⟨other, mem_cons_of_mem _ mem, rest⟩
      · rintro (old | ⟨other, mem, at', position, inside⟩)
        · exact .inl (.inr (.inl old))
        · rcases mem_cons.mp mem with rfl | mem
          · obtain rfl := Option.some.inj (found.symm.trans position)
            exact .inl (inside.imp_right .inr)
          · exact .inr ⟨other, mem, at', position, inside⟩

theorem mem_gather {parents : List α} : j ∈ gather items rows parents ↔
      ∃ parent ∈ parents, ∃ k, items.idxOf? parent = some k ∧ (j = k ∨ j ∈ rowAt rows k) := by
  rw [gather, mem_gather_from]
  simp

theorem idxOf?_eq_some_iff (nodup : items.Nodup) : items.idxOf? x = some k ↔ items[k]? = some x := by
  rw [List.idxOf?_eq_some_iff]
  constructor
  · rintro ⟨inside, same, _⟩
    rw [getElem?_eq_getElem inside, same]
  · intro found
    obtain ⟨inside, same⟩ := List.getElem?_eq_some_iff.mp found
    refine ⟨inside, same, fun j before other => ?_⟩
    exact absurd ((List.Nodup.getElem_inj_iff nodup).mp (other.trans same.symm)) (Nat.ne_of_lt before)

theorem gather_append_ids (items : List α) (rows : List (Finset Nat)) (ids : List α) (x : α) :
    gather items rows (ids ++ [x]) = match items.idxOf? x with
      | some at' => insert at' (gather items rows ids ∪ rowAt rows at')
      | none => gather items rows ids := by
  unfold gather
  rw [foldl_append, foldl_cons, foldl_nil]

theorem Exact.append (exact : Exact parents items rows) (fresh : n ∉ items)
    (known : ∀ parent ∈ parents n, parent ∈ items) :
    Exact parents (items ++ [n]) (rows ++ [gather items rows (parents n)]) := by
  have old : ∀ {j : Nat} {y : α}, y ∈ items → ((items ++ [n])[j]? = some y ↔ items[j]? = some y) := by
    intro j y mem
    rw [getElem?_append]
    split
    · rfl
    · rename_i outside
      rw [getElem?_eq_none (Nat.not_lt.mp outside)]
      simp only [reduceCtorEq, iff_false]
      intro last
      have same := mem_of_getElem? last
      exact fresh (mem_singleton.mp same ▸ mem)
  have closed : ∀ x ∈ items ++ [n], ∀ parent ∈ parents x, parent ∈ items := by
    intro x mem parent cites
    rcases mem_append.mp mem with mem | new
    · exact exact.closed x mem parent cites
    · exact known parent (mem_singleton.mp new ▸ cites)
  have inside : ∀ {x y}, x ∈ items ++ [n] → Relation.TransGen (Cites parents) y x → y ∈ items := by
    intro x y mem path
    obtain ⟨parent, cites, rfl | above⟩ := transGen_iff_parent.mp path
    · exact closed x mem y cites
    · exact ancestor_mem exact.closed (closed x mem parent cites) above
  refine ⟨?_, by simp [exact.sized], fun x mem parent cites =>
    mem_append_left _ (closed x mem parent cites), fun k x found j => ?_⟩
  · rw [nodup_append]
    refine ⟨exact.nodup, nodup_singleton n, fun x mem y new => ?_⟩
    rw [mem_singleton.mp new]
    rintro rfl
    exact fresh mem
  · have positions : (∃ y, (items ++ [n])[j]? = some y ∧ Relation.TransGen (Cites parents) y x) ↔
        ∃ y, items[j]? = some y ∧ Relation.TransGen (Cites parents) y x := by
      refine exists_congr fun y => and_congr_left fun path => old (inside (mem_of_getElem? found) path)
    rw [positions]
    by_cases early : k < items.length
    · rw [getElem?_append_left early] at found
      rw [rowAt, getElem?_append_left (exact.sized ▸ early)]
      exact exact.ancestors k x found j
    · have last : k = items.length := by
        have bound := (List.getElem?_eq_some_iff.mp found).1
        rw [length_append, length_singleton] at bound
        omega
      subst last
      rw [getElem?_concat_length] at found
      obtain rfl := Option.some.inj found
      rw [rowAt, ← exact.sized, getElem?_concat_length, Option.getD_some, mem_gather]
      constructor
      · rintro ⟨parent, cites, at', position, rfl | row⟩
        · exact ⟨parent, (idxOf?_eq_some_iff exact.nodup).mp position, .single cites⟩
        · obtain ⟨y, found, path⟩ := (exact.ancestors at' parent
            ((idxOf?_eq_some_iff exact.nodup).mp position) j).mp row
          exact ⟨y, found, .tail path cites⟩
      · rintro ⟨y, found, path⟩
        obtain ⟨parent, cites, same | above⟩ := transGen_iff_parent.mp path
        · subst same
          exact ⟨y, cites, j, (idxOf?_eq_some_iff exact.nodup).mpr found, .inl rfl⟩
        · obtain ⟨at', inside', position⟩ := getElem_of_mem (known parent cites)
          have placed : items[at']? = some parent := by rw [getElem?_eq_getElem inside', position]
          exact ⟨parent, cites, at', (idxOf?_eq_some_iff exact.nodup).mpr placed,
            .inr ((exact.ancestors at' parent placed j).mpr ⟨y, found, above⟩)⟩

theorem gather_append {before after ids : List α} (nodup : (before ++ after).Nodup)
    (known : ∀ parent ∈ ids, parent ∈ before) : gather (before ++ after) rows ids = gather before rows ids := by
  have nodupBefore := (nodup_append.mp nodup).1
  have same : ∀ parent ∈ ids, (before ++ after).idxOf? parent = before.idxOf? parent := by
    intro parent mem
    obtain ⟨k, inside, found⟩ := getElem_of_mem (known parent mem)
    have placed : before[k]? = some parent := by rw [getElem?_eq_getElem inside, found]
    rw [(idxOf?_eq_some_iff nodupBefore).mpr placed, idxOf?_eq_some_iff nodup, getElem?_append_left inside, placed]
  ext j
  rw [mem_gather, mem_gather]
  refine exists_congr fun parent => and_congr_right fun mem => ?_
  rw [same parent mem]

section

open Worklist (Reached Edge)

omit [DecidableEq α] in
theorem reached_iff_ancestor :
    Reached parents start y ↔ ∃ x ∈ start, y = x ∨ Relation.TransGen (Cites parents) y x := by
  have turned : ∀ x, Relation.ReflTransGen (Edge parents) x y ↔ Relation.ReflTransGen (Cites parents) y x := by
    intro x
    rw [← Relation.reflTransGen_swap]
    rfl
  refine exists_congr fun x => and_congr_right fun _ => ?_
  rw [turned, Relation.reflTransGen_iff_eq_or_transGen, eq_comm]

theorem Exact.gathers (exact : Exact parents items rows) (placed : items[j]? = some y) :
    j ∈ gather items rows ids ↔ Reached parents (ids.filter (· ∈ items)) y := by
  rw [mem_gather, reached_iff_ancestor]
  constructor
  · rintro ⟨x, mem, k, position, inside⟩
    have found := (idxOf?_eq_some_iff exact.nodup).mp position
    refine ⟨x, by simp [mem, mem_of_getElem? found], ?_⟩
    rcases inside with rfl | row
    · exact .inl (Option.some.inj (placed.symm.trans found))
    · obtain ⟨z, other, path⟩ := (exact.ancestors k x found j).mp row
      obtain rfl := Option.some.inj (placed.symm.trans other)
      exact .inr path
  · rintro ⟨x, mem, above⟩
    obtain ⟨listed, known⟩ := mem_filter.mp mem
    obtain ⟨k, inside, found⟩ := getElem_of_mem (of_decide_eq_true known)
    have position : items[k]? = some x := by rw [getElem?_eq_getElem inside, found]
    refine ⟨x, listed, k, (idxOf?_eq_some_iff exact.nodup).mpr position, ?_⟩
    rcases above with rfl | path
    · exact .inl ((getElem?_inj (List.getElem?_eq_some_iff.mp placed).1 exact.nodup).mp (placed.trans position.symm))
    · exact .inr ((exact.ancestors k x position j).mpr ⟨y, placed, path⟩)

theorem Exact.gather_placed (exact : Exact parents items rows) (row : j ∈ gather items rows ids) :
    ∃ y, items[j]? = some y := by
  obtain ⟨x, _, k, position, rfl | above⟩ := mem_gather.mp row
  · exact ⟨x, (idxOf?_eq_some_iff exact.nodup).mp position⟩
  · obtain ⟨y, placed, _⟩ := (exact.ancestors k x ((idxOf?_eq_some_iff exact.nodup).mp position) j).mp above
    exact ⟨y, placed⟩

theorem Exact.reached_iff (exact : Exact parents items rows)
    (walked : ∀ x, x ∈ met ↔ Reached (fun x => if x ∈ items then [] else parents x) start x) (y : α) :
    Reached parents start y ↔ y ∉ items ∧ y ∈ met ∨ ∃ j ∈ gather items rows met, items[j]? = some y := by
  have sound : ∀ x ∈ met, Reached parents start x := by
    intro x mem
    apply ((walked x).mp mem).subset_of_closed
    · exact fun x => .seed
    · intro x y reached edge
      split at edge
      · cases edge
      · exact reached.step edge
  have covered : ∀ x ∈ met, x ∉ items ∧ x ∈ met ∨ ∃ j ∈ gather items rows met, items[j]? = some x := by
    intro x mem
    by_cases known : x ∈ items
    · obtain ⟨j, inside, found⟩ := getElem_of_mem known
      have placed : items[j]? = some x := by rw [getElem?_eq_getElem inside, found]
      exact .inr ⟨j, (exact.gathers placed).mpr (.seed (by simp [mem, known])), placed⟩
    · exact .inl ⟨known, mem⟩
  constructor
  · intro reached
    apply reached.subset_of_closed fun y =>
      y ∉ items ∧ y ∈ met ∨ ∃ j ∈ gather items rows met, items[j]? = some y
    · exact fun x mem => covered x ((walked x).mpr (.seed mem))
    · rintro x y (⟨unknown, mem⟩ | ⟨j, row, placed⟩) edge
      · apply covered
        rw [walked]
        exact ((walked x).mp mem).step (by rwa [if_neg unknown])
      · have known := exact.closed x (mem_of_getElem? placed) y edge
        obtain ⟨k, inside, found⟩ := getElem_of_mem known
        have parent : items[k]? = some y := by rw [getElem?_eq_getElem inside, found]
        exact .inr ⟨k, (exact.gathers parent).mpr (((exact.gathers placed).mp row).step edge), parent⟩
  · rintro (⟨_, mem⟩ | ⟨j, row, placed⟩)
    · exact sound y mem
    · apply ((exact.gathers placed).mp row).subset_of_closed
      · exact fun x mem => sound x (mem_of_mem_filter mem)
      · exact fun x y reached => reached.step

end

def tabulate (items : List α) (parents : α → List α) : List (Finset Nat) :=
  items.foldl (fun rows item => rows ++ [gather items rows (parents item)]) []

theorem tabulate_exact (nodup : items.Nodup) (first : ParentsFirst parents items) :
    Exact parents items (tabulate items parents) := by
  have upTo : ∀ after before : List α, items = before ++ after → ∀ rows, Exact parents before rows →
      Exact parents items (after.foldl (fun rows item => rows ++ [gather items rows (parents item)]) rows) := by
    intro after
    induction after with
    | nil =>
      intro before split rows exact
      rw [append_nil] at split
      exact split ▸ exact
    | cons item after ih =>
      intro before split rows exact
      have known := first before item after split
      have fresh : item ∉ before := by
        rw [split, nodup_append] at nodup
        exact fun old => nodup.2.2 item old item (mem_cons_self ..) rfl
      rw [foldl_cons]
      apply ih (before ++ [item]) (by rw [split, append_assoc]; rfl)
      have row : gather items rows (parents item) = gather before rows (parents item) := by
        rw [split] at nodup ⊢
        exact gather_append nodup known
      exact row ▸ exact.append fresh known
  exact upTo items [] rfl [] .empty

end Ancestry
