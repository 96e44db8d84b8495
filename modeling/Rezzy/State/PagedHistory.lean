import Rezzy.State.Pagination
import Rezzy.State.TopoPositions

namespace Rezzy.State

open Basespec List Resolve Relation

variable {Id C : Type} [LinearOrder Id] {eventsMap : EventMap Id C} (acyclic : ∀ id, ¬TransGen (Precedes eventsMap) id id)
  (fits : eventsMap.keys.length < 2 ^ 64) (tiebreak : Id → Id → Ordering)
include acyclic fits

theorem PrevAncestor.listed_later (path : PrevAncestor eventsMap ancestor descendant)
    (above : ancestor ∈ reverseTopologicalOrder tip eventsMap tiebreak)
    (below : descendant ∈ reverseTopologicalOrder tip eventsMap tiebreak) :
    (reverseTopologicalOrder tip eventsMap tiebreak).idxOf descendant <
      (reverseTopologicalOrder tip eventsMap tiebreak).idxOf ancestor := by
  have listed := fun id => @mem_reverseTopologicalOrder Id C _ eventsMap acyclic tip tiebreak id
  have step : ∀ {parent id}, parent ∈ eventsMap.keys → parent ∈ prevEvents eventsMap id →
      Precedes eventsMap parent id := fun known cited => mem_filter.mpr ⟨cited, containsKey_iff.mpr known⟩
  have later := fun {parent id} => @reverseTopologicalOrder_children_first Id C _ eventsMap acyclic fits tip tiebreak parent id
  induction path using TransGen.head_induction_on with
  | single cited =>
    obtain ⟨known, reached⟩ := (listed ancestor).mp above
    rcases reached.cases_head with rfl | ⟨next, first, -⟩
    · exact later below (step known cited)
    · exact later below (step first.known.1 cited)
  | @head id parent cited rest ih =>
    have known : parent ∈ eventsMap.keys := by
      by_contra unknown
      obtain ⟨next, first, -⟩ := TransGen.head'_iff.mp rest
      rw [Worklist.Edge, prevEvents, EventMap.get_eq_none.mpr unknown] at first
      exact not_mem_nil first
    obtain ⟨tipKnown, reached⟩ := (listed id).mp below
    exact (later below (step known cited)).trans (ih ((listed parent).mpr ⟨tipKnown, reached.head (step known cited)⟩))

/-- However a server cuts the way back from an event into pages and whatever it leaves out of it, the pages pass. -/
theorem verifyPagination_reverseTopologicalOrder (tip : Id) (pages : List (List Id))
    (cut : pages.flatten.Sublist (reverseTopologicalOrder tip eventsMap tiebreak)) :
    verifyPagination eventsMap pages = [] := by
  have once := reverseTopologicalOrder_nodup acyclic tip tiebreak
  have backwards : (reverseTopologicalOrder tip eventsMap tiebreak).Pairwise fun a b => ¬PrevAncestor eventsMap a b := by
    rw [pairwise_iff_getElem]
    intro i j left right earlier path
    have later := path.listed_later acyclic fits tiebreak (getElem_mem left) (getElem_mem right)
    rw [once.idxOf_getElem, once.idxOf_getElem] at later
    exact lt_asymm earlier later
  rw [eq_nil_iff_forall_not_mem]
  simp only [mem_verifyPagination]
  rintro (⟨id, first, second⟩ | ⟨ancestor, descendant, ancestorPage, descendantPage⟩) holds
  · obtain ⟨-, before, after, split, mem⟩ := holds
    have paged := once.sublist cut
    rw [← map_fst_pageEntries, split, map_append, map_cons] at paged
    exact disjoint_of_nodup_append paged mem mem_cons_self
  · obtain ⟨⟨⟨ids, above, inAbove⟩, -⟩, ⟨others, below, inBelow⟩, earlier, path⟩ := holds
    obtain ⟨left, rfl⟩ := List.getElem?_eq_some_iff.mp above
    obtain ⟨right, rfl⟩ := List.getElem?_eq_some_iff.mp below
    exact pairwise_iff_getElem.mp (pairwise_flatten.mp (backwards.sublist cut)).2 _ _ left right earlier _ inAbove _
      inBelow path

omit acyclic fits in
open Sample in
theorem verifyPagination_reverseTopologicalOrder_topicFork : verifyPagination topicFork.eventsMap
    [(reverseTopologicalOrder 6 topicFork.eventsMap compare).take 2,
      (reverseTopologicalOrder 6 topicFork.eventsMap compare).drop 3] = [] := by
  apply verifyPagination_reverseTopologicalOrder topicFork_acyclic (by decide) compare 6
  rw [flatten_cons, flatten_singleton]
  nth_rewrite 3 [← take_append_drop 2 (reverseTopologicalOrder 6 topicFork.eventsMap compare)]
  exact (Sublist.refl _).append (drop_sublist_drop_left _ (by decide))

end Rezzy.State
