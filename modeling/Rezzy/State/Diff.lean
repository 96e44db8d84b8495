import Rezzy.Basespec.EventTypes

namespace Rezzy.State

open Basespec Std.ExtTreeSet List

variable {Id : Type}

inductive StateDiffEntry (Id : Type) where
  | added (key : Key) (eventId : Id)
  | removed (key : Key) (eventId : Id)
  | changed (key : Key) (oldEventId newEventId : Id)
deriving DecidableEq

structure StateDiff (Id : Type) where
  entries : List (StateDiffEntry Id)
deriving DecidableEq

namespace StateDiffEntry

def key : StateDiffEntry Id → Key
  | added key _ | removed key _ | changed key _ _ => key

def oldEventId? : StateDiffEntry Id → Option Id
  | added _ _ => none
  | removed _ old | changed _ old _ => some old

def newEventId? : StateDiffEntry Id → Option Id
  | added _ new | changed _ _ new => some new
  | removed _ _ => none

def applyTo (entry : StateDiffEntry Id) (state : SharedState Id) : SharedState Id :=
  match entry with
  | added key new | changed key _ new => state.insert key new
  | removed key _ => state.erase key

theorem getElem?_applyTo (entry : StateDiffEntry Id) (state : SharedState Id) (key : Key) :
    (entry.applyTo state)[key]? = if key = entry.key then entry.newEventId? else state[key]? := by
  cases entry with
  | added own new => exact getElem?_insert_key _ _ _ _
  | changed own old new => exact getElem?_insert_key _ _ _ _
  | removed own old =>
    change (state.erase own)[key]? = if key = own then none else state[key]?
    rw [Std.ExtTreeMap.getElem?_erase]
    by_cases same : key = own
    · rw [if_pos same, if_pos (same ▸ Std.ReflCmp.compare_self)]
    · rw [if_neg same, if_neg fun equal => same (keyCmp_eq equal).symm]

end StateDiffEntry

def StateDiff.applyTo (diff : StateDiff Id) (state : SharedState Id) : SharedState Id :=
  diff.entries.foldl (fun state entry => entry.applyTo state) state

variable [DecidableEq Id]

def diffEntry (old new : SharedState Id) (key : Key) : Option (StateDiffEntry Id) :=
  match old[key]?, new[key]? with
  | none, some newId => some (.added key newId)
  | some oldId, none => some (.removed key oldId)
  | some oldId, some newId => if oldId ≠ newId then some (.changed key oldId newId) else none
  | none, none => none

theorem diffEntry_some {old new : SharedState Id} (found : diffEntry old new key = some entry) :
    entry.key = key ∧ entry.oldEventId? = old[key]? ∧ entry.newEventId? = new[key]? ∧ old[key]? ≠ new[key]? := by
  unfold diffEntry at found
  cases before : old[key]? with
  | none =>
    cases after : new[key]? with
    | none => simp [before, after] at found
    | some newId =>
      simp only [before, after, Option.some.injEq] at found
      subst found
      exact ⟨rfl, rfl, rfl, by simp⟩
  | some oldId =>
    cases after : new[key]? with
    | none =>
      simp only [before, after, Option.some.injEq] at found
      subst found
      exact ⟨rfl, rfl, rfl, by simp⟩
    | some newId =>
      simp only [before, after] at found
      split at found
      · rename_i differ
        obtain rfl := Option.some.inj found
        exact ⟨rfl, rfl, rfl, by simpa using differ⟩
      · cases found

theorem diffEntry_none {old new : SharedState Id} (found : diffEntry old new key = none) : old[key]? = new[key]? := by
  unfold diffEntry at found
  cases before : old[key]? with
  | none =>
    cases after : new[key]? with
    | none => rfl
    | some newId => simp [before, after] at found
  | some oldId =>
    cases after : new[key]? with
    | none => simp [before, after] at found
    | some newId =>
      simp only [before, after] at found
      split at found
      · cases found
      · rename_i same
        rw [not_not.mp same]

def diffOver (keys : KeySet) (old new : SharedState Id) : StateDiff Id :=
  ⟨keys.toList.filterMap (diffEntry old new)⟩

theorem getElem?_applyEntries (old new : SharedState Id) (keys : List Key) (nodup : keys.Nodup)
    (state : SharedState Id) (untouched : ∀ key ∈ keys, state[key]? = old[key]?) (key : Key) :
    ((keys.filterMap (diffEntry old new)).foldl (fun state entry => entry.applyTo state) state)[key]? =
      if key ∈ keys then new[key]? else state[key]? := by
  induction keys generalizing state with
  | nil => simp
  | cons first keys ih =>
    obtain ⟨fresh, nodup⟩ := nodup_cons.mp nodup
    cases entry : diffEntry old new first with
    | none =>
      rw [filterMap_cons_none entry, ih nodup state fun k mem =>
        untouched k (mem_cons_of_mem _ mem)]
      by_cases same : key = first
      · subst same
        rw [if_neg fresh, if_pos (by simp), untouched key (by simp), diffEntry_none entry]
      · simp [same]
    | some change =>
      obtain ⟨own, _, value, _⟩ := diffEntry_some entry
      rw [filterMap_cons_some entry, foldl_cons, ih nodup]
      · rw [StateDiffEntry.getElem?_applyTo, own, value]
        by_cases same : key = first
        · subst same
          simp [fresh]
        · simp [same]
      · intro k mem
        have differ : k ≠ first := fun same => fresh (same ▸ mem)
        rw [StateDiffEntry.getElem?_applyTo, own, if_neg differ]
        exact untouched k (mem_cons_of_mem _ mem)

section

variable (keys : KeySet) (old new : SharedState Id)

theorem getElem?_diffOver_applyTo (key : Key) :
    ((diffOver keys old new).applyTo old)[key]? = if key ∈ keys then new[key]? else old[key]? := by
  have nodup : keys.toList.Nodup := by
    refine distinct_toList.imp fun differ same => differ ?_
    rw [same]
    exact Std.ReflCmp.compare_self
  unfold diffOver StateDiff.applyTo
  rw [getElem?_applyEntries old new keys.toList nodup old (fun _ _ => rfl)]
  simp only [mem_toList]

theorem diffOver_applyTo_eq_iff :
    (diffOver keys old new).applyTo old = new ↔ ∀ key, key ∉ keys → old[key]? = new[key]? := by
  constructor
  · intro same key outside
    have value := getElem?_diffOver_applyTo keys old new key
    rw [same, if_neg outside] at value
    exact value.symm
  · intro agree
    apply Std.ExtTreeMap.ext_getElem?
    intro key
    rw [getElem?_diffOver_applyTo]
    split
    · rfl
    · rename_i outside
      exact agree key outside

theorem diffOver_sorted : (diffOver keys old new).entries.Pairwise fun a b => keyCmp a.key b.key = .lt := by
  unfold diffOver
  rw [pairwise_filterMap]
  refine ordered_toList.imp fun before a ha b hb => ?_
  rw [(diffEntry_some ha).1, (diffEntry_some hb).1]
  exact before

end

theorem diffOver_honest {keys : KeySet} {old new : SharedState Id} (mem : entry ∈ (diffOver keys old new).entries) :
    entry.oldEventId? = old[entry.key]? ∧ entry.newEventId? = new[entry.key]? ∧ old[entry.key]? ≠ new[entry.key]? := by
  obtain ⟨key, _, found⟩ := mem_filterMap.mp mem
  obtain ⟨rfl, rest⟩ := diffEntry_some found
  exact rest

end Rezzy.State
