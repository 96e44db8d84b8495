import Rezzy.Lib.Sorted

namespace Sorted

open List

variable {K V W : Type} [LinearOrder K]

theorem foldl_assign_some {step : List (K × W) → K × V → List (K × W)} {f : K → V → Option W}
    (skip : ∀ out e, f e.1 e.2 = none → step out e = out)
    (put : ∀ out e w, f e.1 e.2 = some w → step out e = assign out e.1 w) {entries : List (K × V)}
    (sorted : SortedKeys entries) :
    entries.foldl step [] = entries.filterMap fun e => (f e.1 e.2).map (Prod.mk e.1) := by
  have collected : entries.foldl step [] = assignAll (entries.filterMap fun e => (f e.1 e.2).map (Prod.mk e.1)) := by
    clear sorted
    induction entries using List.reverseRecOn with
    | nil => rfl
    | append_singleton before e ih =>
      rw [foldl_append, foldl_cons, foldl_nil, ih, filterMap_append]
      cases given : f e.1 e.2 with
      | none =>
        rw [skip _ e given, filterMap_cons_none (by rw [given]; rfl), filterMap_nil, append_nil]
      | some w =>
        rw [put _ e w given, filterMap_cons_some (b := (e.1, w)) (by rw [given]; rfl), filterMap_nil, assignAll_append]
  rw [collected, (sorted.filterMap f).assignAll_self]

def overlay (combine : Option V → V → V) (entries others : List (K × V)) : List (K × V) :=
  others.foldl (fun out e => assign out e.1 (combine (lookup out e.1) e.2)) entries

theorem overlay_spec (combine : Option V → V → V) {entries others : List (K × V)} (sorted : SortedKeys entries)
    (apart : SortedKeys others) : SortedKeys (overlay combine entries others) ∧
      ∀ key, lookup (overlay combine entries others) key =
        ((lookup others key).map (combine (lookup entries key))).or (lookup entries key) := by
  unfold overlay
  induction others generalizing entries with
  | nil => exact ⟨sorted, fun key => rfl⟩
  | cons e rest ih =>
    obtain ⟨above, later⟩ := pairwise_cons.mp apart
    obtain ⟨ordered, found⟩ := ih (sorted.assign e.1 (combine (lookup entries e.1) e.2)) later
    refine ⟨ordered, fun key => ?_⟩
    rw [foldl_cons, found, lookup_cons, lookup_assign sorted]
    by_cases same : key = e.1
    · rw [if_pos same, if_pos same, same, lookup_of_above above]
      rfl
    · rw [if_neg same, if_neg same]

end Sorted
