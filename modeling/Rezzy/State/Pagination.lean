import Rezzy.State.MergeBase

namespace Rezzy.State

open List Option Prod

section

open Basespec

variable {Id C : Type}

inductive PaginationViolation (Id : Type) where
  | duplicate (eventId : Id) (firstPage secondPage : Nat)
  | ancestorAfterDescendant (ancestor descendant : Id) (ancestorPage descendantPage : Nat)
deriving DecidableEq, Repr

def pageEntries (pages : List (List Id)) : List (Id × Nat) :=
  pages.zipIdx.flatMap fun page => page.1.map fun id => (id, page.2)

structure SeenPages (Id : Type) where
  seen : Id → Option Nat
  violations : List (PaginationViolation Id)

variable [LinearOrder Id]

def noteEntry (s : SeenPages Id) (entry : Id × Nat) : SeenPages Id :=
  match s.seen entry.1 with
  | some firstPage => ⟨s.seen, s.violations ++ [.duplicate entry.1 firstPage entry.2]⟩
  | none => ⟨Function.update s.seen entry.1 (some entry.2), s.violations⟩

def prevAncestors (events : EventMap Id C) (id : Id) : List Id :=
  Worklist.close (prevEvents events) events.keys (prevEvents events id)

def earlierAncestors (events : EventMap Id C) (seen : Id → Option Nat) (entry : Id × Nat) :
    List (PaginationViolation Id) :=
  (prevAncestors events entry.1).filterMap fun parentId =>
    match seen parentId with
    | some parentPage =>
      if parentPage < entry.2 then some (.ancestorAfterDescendant parentId entry.1 parentPage entry.2) else none
    | none => none

def verifyPagination (events : EventMap Id C) (pages : List (List Id)) : List (PaginationViolation Id) :=
  let noted := (pageEntries pages).foldl noteEntry ⟨fun _ => none, []⟩
  noted.violations ++ (pageEntries pages).flatMap (earlierAncestors events noted.seen)

end

open Basespec

variable {Id C : Type}

section

def OnPage (pages : List (List Id)) (id : Id) (page : Nat) : Prop := ∃ ids, pages[page]? = some ids ∧ id ∈ ids

def FirstPage (pages : List (List Id)) (id : Id) (page : Nat) : Prop :=
  OnPage pages id page ∧ ∀ earlier < page, ¬OnPage pages id earlier

def OccursAgain (pages : List (List Id)) (id : Id) (page : Nat) : Prop :=
  ∃ before after, pageEntries pages = before ++ (id, page) :: after ∧ id ∈ before.map Prod.fst

variable [LinearOrder Id]

def PrevAncestor (events : EventMap Id C) (ancestor descendant : Id) : Prop :=
  Relation.TransGen (Worklist.Edge (prevEvents events)) descendant ancestor

def PaginationViolation.Holds (events : EventMap Id C) (pages : List (List Id)) : PaginationViolation Id → Prop
  | .duplicate eventId firstPage secondPage =>
    FirstPage pages eventId firstPage ∧ OccursAgain pages eventId secondPage
  | .ancestorAfterDescendant ancestor descendant ancestorPage descendantPage =>
    FirstPage pages ancestor ancestorPage ∧ OnPage pages descendant descendantPage ∧
      ancestorPage < descendantPage ∧ PrevAncestor events ancestor descendant

section

omit [LinearOrder Id]

theorem mem_pageEntries {pages : List (List Id)} {id : Id} {page : Nat} :
    (id, page) ∈ pageEntries pages ↔ OnPage pages id page := by
  unfold pageEntries OnPage
  rw [mem_flatMap]
  constructor
  · rintro ⟨⟨ids, at_⟩, listed, member⟩
    obtain ⟨own, inside, same⟩ := mem_map.mp member
    obtain ⟨rfl, rfl⟩ := mk.inj same
    exact ⟨ids, mem_zipIdx_iff_getElem?.mp listed, inside⟩
  · rintro ⟨ids, found, member⟩
    exact ⟨(ids, page), mem_zipIdx_iff_getElem?.mpr found, mem_map_of_mem member⟩

theorem map_fst_pageEntries (pages : List (List Id)) : (pageEntries pages).map Prod.fst = pages.flatten := by
  have own : ∀ page : List Id × Nat, (page.1.map fun id => (id, page.2)).map fst = page.1 := by
    intro page
    rw [List.map_map]
    exact map_id _
  unfold pageEntries
  rw [map_flatMap, ← flatMap_id', ← zipIdx_map_fst 0 pages, flatMap_map]
  simp only [own, zipIdx_map_fst]

theorem pageEntries_ascend (pages : List (List Id)) :
    (pageEntries pages).Pairwise fun earlier later => earlier.2 ≤ later.2 := by
  unfold pageEntries
  rw [pairwise_flatMap]
  constructor
  · intro page _
    rw [pairwise_map]
    exact List.Pairwise.imp (fun _ => Nat.le_refl page.2) (pairwise_of_forall fun _ _ => trivial)
  · have positions : (pages.zipIdx.map snd).Pairwise (· < ·) := by
      rw [zipIdx_map_snd]
      exact pairwise_lt_range'
    rw [pairwise_map] at positions
    refine positions.imp ?_
    intro _ _ less _ inFirst _ inSecond
    obtain ⟨_, _, rfl⟩ := mem_map.mp inFirst
    obtain ⟨_, _, rfl⟩ := mem_map.mp inSecond
    exact less.le

end

def seenAt (entries : List (Id × Nat)) (id : Id) : Option Nat :=
  (entries.find? fun entry => entry.1 = id).map Prod.snd

theorem seenAt_isSome {entries : List (Id × Nat)} {id : Id} : (seenAt entries id).isSome ↔ id ∈ entries.map fst := by
  simp [seenAt]

theorem seenAt_append (before after : List (Id × Nat)) (id : Id) :
    seenAt (before ++ after) id = (seenAt before id).or (seenAt after id) := by
  unfold seenAt
  rw [find?_append]
  cases before.find? fun entry => entry.1 = id <;> rfl

omit [LinearOrder Id] in
theorem nodup_of_fresh {entries : List (Id × Nat)}
    (fresh : ∀ before entry after, entries = before ++ entry :: after → entry.1 ∉ before.map Prod.fst) :
    (entries.map Prod.fst).Nodup := by
  induction entries using reverseRecOn with
  | nil => exact nodup_nil
  | append_singleton entries entry ih =>
    rw [map_append, map_singleton, ← concat_eq_append]
    refine List.Nodup.concat (fresh entries entry [] rfl) (ih fun before other after split => ?_)
    exact fresh before other (after ++ [entry]) (by rw [split, append_assoc]; rfl)

theorem firstPage_of_seenAt {pages : List (List Id)} {id : Id} {page : Nat}
    (seen : seenAt (pageEntries pages) id = some page) : FirstPage pages id page := by
  obtain ⟨⟨own, at_⟩, found, rfl⟩ := map_eq_some_iff.mp seen
  obtain ⟨named, before, after, split, fresh⟩ := find?_eq_some_iff_append.mp found
  obtain rfl : own = id := of_decide_eq_true named
  refine ⟨mem_pageEntries.mp (split ▸ by simp), fun earlier less on => ?_⟩
  have ascend := pageEntries_ascend pages
  have member := mem_pageEntries.mpr on
  rw [split] at ascend member
  rcases mem_append.mp member with first | rest
  · have := fresh _ first
    simp at this
  · rcases mem_cons.mp rest with same | later
    · obtain rfl := (mk.inj same).2
      exact Nat.lt_irrefl _ less
    · have := (pairwise_cons.mp (pairwise_append.mp ascend).2.1).1 _ later
      exact Nat.lt_irrefl _ (less.trans_le this)

omit [LinearOrder Id] in
theorem FirstPage.unique {pages : List (List Id)} {id : Id} {page other : Nat} (own : FirstPage pages id page)
    (second : FirstPage pages id other) : page = other := by
  rcases Nat.lt_trichotomy page other with less | same | less
  · exact absurd own.1 (second.2 page less)
  · exact same
  · exact absurd second.1 (own.2 other less)

theorem seenAt_pageEntries {pages : List (List Id)} {id : Id} {page : Nat} :
    seenAt (pageEntries pages) id = some page ↔ FirstPage pages id page := by
  refine ⟨firstPage_of_seenAt, fun first => ?_⟩
  have listed : (seenAt (pageEntries pages) id).isSome :=
    seenAt_isSome.mpr (mem_map_of_mem (mem_pageEntries.mpr first.1))
  obtain ⟨other, seen⟩ := isSome_iff_exists.mp listed
  rw [seen, (firstPage_of_seenAt seen).unique first]

structure Noted (entries : List (Id × Nat)) (s : SeenPages Id) : Prop where
  seen : ∀ id, s.seen id = seenAt entries id
  violations : ∀ violation, violation ∈ s.violations ↔ ∃ id firstPage secondPage,
    violation = .duplicate id firstPage secondPage ∧
      ∃ before after, entries = before ++ (id, secondPage) :: after ∧ seenAt before id = some firstPage

theorem Noted.step {entries : List (Id × Nat)} {s : SeenPages Id} (noted : Noted entries s) (entry : Id × Nat) :
    Noted (entries ++ [entry]) (noteEntry s entry) := by
  have last : ∀ {before after : List (Id × Nat)} {x : Id × Nat}, entries ++ [entry] = before ++ x :: after →
      (∃ after', entries = before ++ x :: after') ∨ before = entries ∧ x = entry := by
    intro before after x split
    rcases eq_nil_or_concat after with rfl | ⟨after', y, rfl⟩
    · exact .inr ((append_inj' split rfl).imp Eq.symm fun same => (cons.inj same).1.symm)
    · rw [concat_eq_append, ← cons_append, ← append_assoc] at split
      exact .inl ⟨after', (append_inj' split rfl).1⟩
  have earlier : ∀ violation, (∃ id firstPage secondPage, violation = .duplicate id firstPage secondPage ∧
        ∃ before after, entries ++ [entry] = before ++ (id, secondPage) :: after ∧ seenAt before id = some firstPage) ↔
      violation ∈ s.violations ∨ ∃ firstPage, violation = .duplicate entry.1 firstPage entry.2 ∧
        seenAt entries entry.1 = some firstPage := by
    intro violation
    rw [noted.violations]
    constructor
    · rintro ⟨id, firstPage, secondPage, rfl, before, after, split, seen⟩
      rcases last split with ⟨after', own⟩ | ⟨rfl, rfl⟩
      · exact .inl ⟨id, firstPage, secondPage, rfl, before, after', own, seen⟩
      · exact .inr ⟨firstPage, rfl, seen⟩
    · rintro (⟨id, firstPage, secondPage, rfl, before, after, rfl, seen⟩ | ⟨firstPage, rfl, seen⟩)
      · exact ⟨id, firstPage, secondPage, rfl, before, after ++ [entry], by simp, seen⟩
      · exact ⟨entry.1, firstPage, entry.2, rfl, entries, [], rfl, seen⟩
  have single : ∀ id, seenAt [entry] id = if entry.1 = id then some entry.2 else none := by
    intro id
    by_cases same : entry.1 = id <;> simp [seenAt, same]
  unfold noteEntry
  cases known : s.seen entry.1 with
  | some firstPage =>
    have before := noted.seen entry.1
    rw [known] at before
    constructor
    · intro id
      rw [seenAt_append, single, noted.seen]
      by_cases same : entry.1 = id
      · rw [← same, ← before, some_or]
      · rw [if_neg same, or_none]
    · intro violation
      rw [earlier, mem_append, mem_singleton, ← before]
      simp
  | none =>
    have before := noted.seen entry.1
    rw [known] at before
    constructor
    · intro id
      dsimp only
      rw [seenAt_append, single]
      by_cases same : entry.1 = id
      · subst same
        rw [Function.update_self, ← before, none_or, if_pos rfl]
      · rw [Function.update_of_ne (Ne.symm same), if_neg same, or_none, noted.seen]
    · intro violation
      rw [earlier, ← before]
      simp

theorem noteEntries_noted (entries : List (Id × Nat)) : Noted entries (entries.foldl noteEntry ⟨fun _ => none, []⟩) := by
  induction entries using reverseRecOn with
  | nil => exact ⟨fun _ => rfl, by simp⟩
  | append_singleton entries entry ih =>
    rw [foldl_append]
    exact ih.step entry

theorem mem_prevAncestors {id ancestor : Id} : ancestor ∈ prevAncestors events id ↔ PrevAncestor events ancestor id := by
  have support : ∀ id, prevEvents events id ≠ [] → id ∈ events.keys := by
    intro id some
    by_contra unknown
    exact some (by rw [prevEvents, EventMap.get_eq_none.mpr unknown]; rfl)
  unfold prevAncestors PrevAncestor
  rw [Worklist.mem_close support, Relation.TransGen.head'_iff]
  rfl

theorem mem_earlierAncestors {seen : Id → Option Nat} {entry : Id × Nat} {violation : PaginationViolation Id} :
    violation ∈ earlierAncestors events seen entry ↔ ∃ ancestor page,
      violation = .ancestorAfterDescendant ancestor entry.1 page entry.2 ∧ seen ancestor = some page ∧
        page < entry.2 ∧ PrevAncestor events ancestor entry.1 := by
  unfold earlierAncestors
  rw [mem_filterMap]
  constructor
  · rintro ⟨ancestor, listed, reported⟩
    cases found : seen ancestor with
    | none =>
      rw [found] at reported
      cases reported
    | some page =>
      rw [found] at reported
      dsimp only at reported
      split at reported
      · rename_i earlier
        exact ⟨ancestor, page, (Option.some.inj reported).symm, found, earlier, mem_prevAncestors.mp listed⟩
      · cases reported
  · rintro ⟨ancestor, page, rfl, found, earlier, behind⟩
    refine ⟨ancestor, mem_prevAncestors.mpr behind, ?_⟩
    rw [found]
    exact if_pos earlier

end

variable [LinearOrder Id]

variable (events : EventMap Id C) (pages : List (List Id))

theorem mem_verifyPagination (violation : PaginationViolation Id) :
    violation ∈ verifyPagination events pages ↔ violation.Holds events pages := by
  have noted := noteEntries_noted (pageEntries pages)
  unfold verifyPagination
  rw [mem_append, noted.violations, mem_flatMap]
  simp only [mem_earlierAncestors, noted.seen, seenAt_pageEntries]
  cases violation with
  | duplicate eventId firstPage secondPage =>
    constructor
    · rintro (⟨id, first, second, same, before, after, split, seen⟩ | ⟨entry, _, ancestor, page, other, _⟩)
      · obtain ⟨rfl, rfl, rfl⟩ := PaginationViolation.duplicate.inj same
        refine ⟨firstPage_of_seenAt ?_, before, after, split, seenAt_isSome.mp (seen ▸ rfl)⟩
        rw [split, seenAt_append, seen, some_or]
      · cases other
    · rintro ⟨first, before, after, split, member⟩
      obtain ⟨page, seen⟩ := isSome_iff_exists.mp (seenAt_isSome.mpr member)
      refine .inl ⟨eventId, firstPage, secondPage, rfl, before, after, split, ?_⟩
      have all := seenAt_pageEntries.mpr first
      rw [split, seenAt_append, seen, some_or] at all
      rw [seen, all]
  | ancestorAfterDescendant ancestor descendant ancestorPage descendantPage =>
    constructor
    · rintro (⟨_, _, _, other, _⟩ | ⟨⟨id, page⟩, listed, own, first, same, found, earlier, behind⟩)
      · cases other
      · obtain ⟨rfl, rfl, rfl, rfl⟩ := PaginationViolation.ancestorAfterDescendant.inj same
        exact ⟨found, mem_pageEntries.mp listed, earlier, behind⟩
    · rintro ⟨found, on, earlier, behind⟩
      exact .inr ⟨(descendant, descendantPage), mem_pageEntries.mpr on, ancestor, ancestorPage, rfl, found, earlier,
        behind⟩

/-- Pages pass just when no id occurs twice and no event is on a page behind that of an ancestor; every violation
    that is reported is there. -/
theorem verifyPagination_exact :
    (verifyPagination events pages = [] ↔ pages.flatten.Nodup ∧
      ∀ ancestor descendant, PrevAncestor events ancestor descendant →
        ∀ ancestorPage descendantPage, OnPage pages ancestor ancestorPage → OnPage pages descendant descendantPage →
          descendantPage ≤ ancestorPage) ∧
    ∀ violation, violation ∈ verifyPagination events pages ↔ violation.Holds events pages := by
  refine ⟨?_, mem_verifyPagination events pages⟩
  rw [eq_nil_iff_forall_not_mem]
  simp only [mem_verifyPagination]
  have firstOf : ∀ {id : Id} {page : Nat}, OnPage pages id page → ∃ first ≤ page, FirstPage pages id first := by
    intro id page on
    have member : id ∈ (pageEntries pages).map fst := List.mem_map_of_mem (mem_pageEntries.mpr on)
    obtain ⟨first, seen⟩ := isSome_iff_exists.mp (seenAt_isSome.mpr member)
    have least := firstPage_of_seenAt seen
    exact ⟨first, Nat.le_of_not_lt fun less => least.2 page less on, least⟩
  constructor
  · intro none
    refine ⟨?_, fun ancestor descendant behind ancestorPage descendantPage above below => ?_⟩
    · rw [← map_fst_pageEntries]
      apply nodup_of_fresh
      intro before entry after split member
      obtain ⟨first, _, least⟩ := firstOf (mem_pageEntries.mp (split ▸ by simp) : OnPage pages entry.1 entry.2)
      exact none (.duplicate entry.1 first entry.2) ⟨least, before, after, split, member⟩
    · obtain ⟨first, le, least⟩ := firstOf above
      by_contra less
      exact none (.ancestorAfterDescendant ancestor descendant first descendantPage)
        ⟨least, below, by omega, behind⟩
  · rintro ⟨nodup, ordered⟩ violation
    cases violation with
    | duplicate eventId firstPage secondPage =>
      rintro ⟨_, before, after, split, member⟩
      rw [← map_fst_pageEntries, split, map_append, map_cons, nodup_append] at nodup
      exact nodup.2.2 eventId member eventId (mem_cons_self ..) rfl
    | ancestorAfterDescendant ancestor descendant ancestorPage descendantPage =>
      rintro ⟨least, below, earlier, behind⟩
      have := ordered ancestor descendant behind ancestorPage descendantPage least.1 below
      omega

end Rezzy.State
