import Mathlib.Data.List.Induction
import Rezzy.Auth.Congr
import Rezzy.Lib.Nearest

namespace Rezzy.State

open List hiding lookup
open Option Std.ExtTreeMap

section

open Basespec

variable {Id C : Type}

/-- An auth event with the number of `auth_events` hops at which it was found. -/
structure LocalAuthEntry (Id C : Type) where
  event : LeanEvent Id C
  authDepth : Nat

abbrev LocalAuthCacheMap (Id C : Type) := Std.ExtTreeMap Key (LocalAuthEntry Id C) keyCmp

structure LocalAuthCache (Id C : Type) where
  version : StateResVersion
  map : Id → Option (LocalAuthCacheMap Id C)

def LocalAuthCache.new (version : StateResVersion) : LocalAuthCache Id C := ⟨version, fun _ => none⟩

def LocalAuthCache.insert [DecidableEq Id] (cache : LocalAuthCache Id C) (id : Id)
    (localAuth : LocalAuthCacheMap Id C) : LocalAuthCache Id C :=
  { cache with map := fun other => if other = id then some localAuth else cache.map other }

def lookupAuth [DecidableEq Id] (authContext conflictedEvents : EventMap Id C) (id : Id) :
    Option (LeanEvent Id C) :=
  (authContext.get id).or (conflictedEvents.get id)

def offerEntry (localAuth : LocalAuthCacheMap Id C) (key : Key) (entry : LocalAuthEntry Id C) :
    LocalAuthCacheMap Id C :=
  match localAuth[key]? with
  | none => localAuth.insert key entry
  | some old => if entry.authDepth < old.authDepth then localAuth.insert key entry else localAuth

def updateLocalAuth (localAuth : LocalAuthCacheMap Id C) (aev : LeanEvent Id C) (depth : Nat) :
    LocalAuthCacheMap Id C :=
  match aev.key? with
  | none => localAuth
  | some key => offerEntry localAuth key ⟨aev, depth⟩

def gathersTransitively : StateResVersion → Bool
  | .v2_1_1 | .v2_2 => true
  | .v1 | .v2 | .v2_1 | .v3 => false

def noteAncestor (lookup : Id → Option (LeanEvent Id C)) (cache : LocalAuthCache Id C)
    (version : StateResVersion) (localAuth : LocalAuthCacheMap Id C) (aid : Id) (currentDepth : Nat) :
    LocalAuthCacheMap Id C :=
  let own := match lookup aid with
    | some aev => updateLocalAuth localAuth aev currentDepth
    | none => localAuth
  match cache.map aid with
  | some cachedAncestor =>
    if gathersTransitively version then
      cachedAncestor.toList.foldl (fun gathered cached =>
        offerEntry gathered cached.1 ⟨cached.2.event, currentDepth + cached.2.authDepth⟩) own
    else own
  | none => own

def ancestorEdges (lookup : Id → Option (LeanEvent Id C)) (cache : LocalAuthCache Id C)
    (version : StateResVersion) (aid : Id) : List Id :=
  match cache.map aid, lookup aid with
  | none, some aev => if gathersTransitively version then aev.authEvents else []
  | _, _ => []

def computeLocalAuth [DecidableEq Id] (event : LeanEvent Id C)
    (authContext conflictedEvents : EventMap Id C) (cache : LocalAuthCache Id C)
    (version : StateResVersion) : LocalAuthCacheMap Id C × LocalAuthCache Id C :=
  match cache.map event.eventId with
  | some cached => (cached, cache)
  | none =>
    let lookup := lookupAuth authContext conflictedEvents
    let localAuth := Nearest.walk (ancestorEdges lookup cache version) (noteAncestor lookup cache version)
      (authContext.keys ++ conflictedEvents.keys) event.authEvents ∅
    (localAuth, cache.insert event.eventId localAuth)

structure OverlayState (Id C : Type) where
  resolved : SharedState Id
  authContext : EventMap Id C
  sortSet : EventMap Id C
  localAuth : LocalAuthCacheMap Id C
  createEv : Option (LeanEvent Id C)
  version : StateResVersion
  isPowerPhase : Bool
  candidateEventType : String

def OverlayState.getEvent [DecidableEq Id] (overlay : OverlayState Id C) (eventType stateKey : String) :
    Option (LeanEvent Id C) :=
  let query : Key := (⟨eventType⟩, stateKey)
  match overlay.resolved[query]?.bind (lookupAuth overlay.authContext overlay.sortSet) with
  | some ev => some ev
  | none =>
    match overlay.localAuth[query]? with
    | some entry =>
      if overlay.isPowerPhase ∧ overlay.version.hasBanEvasionHardening ∧
          (eventType = mRoomPowerLevels ∨ eventType = mRoomJoinRules) then
        if query ∈ overlay.resolved then none
        else if overlay.candidateEventType = mRoomPowerLevels ∨
            overlay.candidateEventType = mRoomJoinRules ∨ overlay.candidateEventType = mRoomMember then
          some entry.event
        else none
      else some entry.event
    | none => if eventType = mRoomCreate ∧ stateKey = mEmptyStateKey then overlay.createEv else none

section

variable [DecidableEq Id] [ToString Id] [EventContent C]

def iterativeAuthOk (ev : LeanEvent Id C) (resolved : SharedState Id)
    (authContext sortSet : EventMap Id C) (localAuth : LocalAuthCacheMap Id C)
    (cachedCreate : Option (LeanEvent Id C)) (version : StateResVersion) (isPowerPhase : Bool) : Bool :=
  if ev.rejected then false
  else
    let overlay : OverlayState Id C :=
      { resolved, authContext, sortSet, localAuth, createEv := cachedCreate, version, isPowerPhase,
        candidateEventType := ev.eventType }
    (Auth.checkAuth ev overlay.getEvent version none).isOk

end

def chainEdges (lookup : Id → Option (LeanEvent Id C)) (aid : Id) : List Id :=
  ((lookup aid).map LeanEvent.authEvents).getD []

theorem ancestorEdges_subset (lookup : Id → Option (LeanEvent Id C)) (cache : LocalAuthCache Id C)
    (version : StateResVersion) (aid parent : Id) (edge : parent ∈ ancestorEdges lookup cache version aid) :
    parent ∈ chainEdges lookup aid := by
  unfold ancestorEdges at edge
  unfold chainEdges
  split at edge
  · rename_i found
    split at edge
    · simpa [found] using edge
    · simp at edge
  · simp at edge

variable [DecidableEq Id]

theorem ancestorEdges_support (authContext conflictedEvents : EventMap Id C)
    (cache : LocalAuthCache Id C) (version : StateResVersion) (aid : Id)
    (edges : ancestorEdges (lookupAuth authContext conflictedEvents) cache version aid ≠ []) :
    aid ∈ authContext.keys ++ conflictedEvents.keys := by
  by_contra outside
  rw [mem_append, not_or] at outside
  have missing : lookupAuth authContext conflictedEvents aid = none := by
    rw [lookupAuth, EventMap.get_eq_none.mpr outside.1, EventMap.get_eq_none.mpr outside.2]
    rfl
  apply edges
  unfold ancestorEdges
  rw [missing]
  cases cache.map aid <;> rfl

theorem computeLocalAuth_congr {event : LeanEvent Id C} (version : StateResVersion)
    (own : left.map event.eventId = right.map event.eventId)
    (same : ∀ aid, Worklist.Reached (chainEdges (lookupAuth authLeft conflictedLeft)) event.authEvents aid →
      lookupAuth authLeft conflictedLeft aid = lookupAuth authRight conflictedRight aid ∧
        (gathersTransitively version = true → left.map aid = right.map aid)) :
    (computeLocalAuth event authLeft conflictedLeft left version).1 =
      (computeLocalAuth event authRight conflictedRight right version).1 := by
  unfold computeLocalAuth
  rw [← own]
  cases left.map event.eventId with
  | some cached => rfl
  | none =>
    have inside : ∀ aid, Worklist.Reached
        (ancestorEdges (lookupAuth authLeft conflictedLeft) left version) event.authEvents aid →
        Worklist.Reached (chainEdges (lookupAuth authLeft conflictedLeft)) event.authEvents aid := by
      intro aid reached
      exact reached.subset_of_closed _ (fun _ mem => .seed mem)
        fun x y inside edge => inside.step (ancestorEdges_subset _ _ _ x y edge)
    refine Nearest.walk_congr (ancestorEdges_support _ _ left version) (ancestorEdges_support _ _ right version) ?_ ?_ _
    · intro aid reached
      obtain ⟨lookup, cached⟩ := same aid (inside aid reached)
      by_cases gathers : gathersTransitively version = true
      · simp only [ancestorEdges, lookup, cached gathers]
      · unfold ancestorEdges
        rw [lookup]
        cases left.map aid <;> cases right.map aid <;> cases lookupAuth authRight conflictedRight aid <;> simp [gathers]
    · intro aid reached _ _
      obtain ⟨lookup, cached⟩ := same aid (inside aid reached)
      by_cases gathers : gathersTransitively version = true
      · simp only [noteAncestor, lookup, cached gathers]
      · unfold noteAncestor
        rw [lookup]
        cases left.map aid <;> cases right.map aid <;> simp [gathers]

theorem computeLocalAuth_map (event : LeanEvent Id C) (authContext conflictedEvents : EventMap Id C)
    (cache : LocalAuthCache Id C) (version : StateResVersion) (id : Id) :
    (computeLocalAuth event authContext conflictedEvents cache version).2.map id = if id = event.eventId then
        some (computeLocalAuth event authContext conflictedEvents cache version).1
      else cache.map id := by
  unfold computeLocalAuth
  cases own : cache.map event.eventId with
  | none => rfl
  | some cached =>
    by_cases same : id = event.eventId
    · rw [if_pos same, same, own]
    · rw [if_neg same]

end

open Basespec Nearest

variable {Id C : Type}

section

def ancestorOffers (lookup : Id → Option (LeanEvent Id C)) (cache : LocalAuthCache Id C)
    (version : StateResVersion) (aid : Id) (depth : Nat) : List (Key × LocalAuthEntry Id C) :=
  ((lookup aid).bind fun aev => aev.key?.map fun key => (key, ⟨aev, depth⟩)).toList ++
    if gathersTransitively version then
      ((cache.map aid).map fun cached => cached.toList.map fun entry =>
        (entry.1, (⟨entry.2.event, depth + entry.2.authDepth⟩ : LocalAuthEntry Id C))).getD []
    else []

theorem noteAncestor_eq (lookup : Id → Option (LeanEvent Id C)) (cache : LocalAuthCache Id C)
    (version : StateResVersion) (localAuth : LocalAuthCacheMap Id C) (aid : Id) (depth : Nat) :
    noteAncestor lookup cache version localAuth aid depth = (ancestorOffers lookup cache version aid depth).foldl
        (fun gathered offer => offerEntry gathered offer.1 offer.2) localAuth := by
  have first : ∀ aev : LeanEvent Id C, updateLocalAuth localAuth aev depth =
      (aev.key?.map fun key => (key, (⟨aev, depth⟩ : LocalAuthEntry Id C))).toList.foldl
        (fun gathered offer => offerEntry gathered offer.1 offer.2) localAuth := by
    intro aev
    unfold updateLocalAuth
    cases aev.key? <;> rfl
  unfold noteAncestor ancestorOffers
  rw [foldl_append]
  cases cache.map aid with
  | none =>
    cases lookup aid with
    | none => simp
    | some aev =>
      dsimp only
      rw [first, bind_some, map_none, getD_none, ite_self]
      rfl
  | some cached =>
    dsimp only
    rw [map_some, getD_some]
    cases lookup aid with
    | none =>
      split
      · rw [foldl_map]
        rfl
      · rfl
    | some aev =>
      dsimp only
      rw [first, bind_some]
      split
      · rw [foldl_map]
      · rfl

structure Shallowest (offers : List (Key × LocalAuthEntry Id C)) (key : Key)
    (entry : LocalAuthEntry Id C) : Prop where
  offered : (key, entry) ∈ offers
  least : ∀ other, (key, other) ∈ offers → entry.authDepth ≤ other.authDepth

theorem getElem?_offerEntry (localAuth : LocalAuthCacheMap Id C) (own : Key) (entry : LocalAuthEntry Id C) (key : Key) :
    (offerEntry localAuth own entry)[key]? =
      if key = own then some ((localAuth[own]?.filter fun old => old.authDepth ≤ entry.authDepth).getD entry)
      else localAuth[key]? := by
  unfold offerEntry
  by_cases same : key = own
  · subst same
    cases found : localAuth[key]? with
    | none => simp
    | some old =>
      by_cases deeper : entry.authDepth < old.authDepth
      · simp [deeper, Option.filter, Nat.not_le_of_lt deeper]
      · simp [deeper, Option.filter, Nat.le_of_not_lt deeper, found]
  · cases found : localAuth[own]? with
    | none => simp [same, getElem?_insert_key]
    | some old =>
      dsimp only
      split <;> simp [same, getElem?_insert_key]

theorem offers_shallowest (offers : List (Key × LocalAuthEntry Id C)) (key : Key) :
    match (offers.foldl (fun gathered offer => offerEntry gathered offer.1 offer.2)
        (∅ : LocalAuthCacheMap Id C))[key]? with
    | none => ∀ entry, (key, entry) ∉ offers
    | some entry => Shallowest offers key entry := by
  induction offers using reverseRecOn with
  | nil => simp
  | append_singleton offers offer ih =>
    obtain ⟨own, entry⟩ := offer
    rw [foldl_append, foldl_cons, foldl_nil, getElem?_offerEntry]
    by_cases same : key = own
    · subst same
      rw [if_pos rfl]
      cases before : (offers.foldl (fun gathered offer => offerEntry gathered offer.1 offer.2)
          (∅ : LocalAuthCacheMap Id C))[key]? with
      | none =>
        rw [before] at ih
        refine ⟨by simp, fun other mem => ?_⟩
        rcases mem_append.mp mem with old | new
        · exact absurd old (ih other)
        · simp only [mem_singleton, Prod.mk.injEq, true_and] at new
          simp [new]
      | some old =>
        rw [before] at ih
        by_cases kept : old.authDepth ≤ entry.authDepth
        · simp only [Option.filter, kept, decide_true, if_true, getD_some]
          refine ⟨mem_append_left _ ih.offered, fun other mem => ?_⟩
          rcases mem_append.mp mem with older | new
          · exact ih.least other older
          · simp only [mem_singleton, Prod.mk.injEq, true_and] at new
            rw [new]
            exact kept
        · simp only [Option.filter, kept, decide_false, Bool.false_eq_true, if_false, getD_none]
          refine ⟨by simp, fun other mem => ?_⟩
          rcases mem_append.mp mem with older | new
          · exact Nat.le_of_lt (Nat.lt_of_lt_of_le (Nat.lt_of_not_le kept) (ih.least other older))
          · simp only [mem_singleton, Prod.mk.injEq, true_and] at new
            rw [new]
    · rw [if_neg same]
      have members : ∀ other, (key, other) ∈ offers ++ [(own, entry)] ↔ (key, other) ∈ offers := by
        simp [same]
      cases found : (offers.foldl (fun gathered offer => offerEntry gathered offer.1 offer.2)
          (∅ : LocalAuthCacheMap Id C))[key]? with
      | none =>
        rw [found] at ih
        exact fun other mem => ih other ((members other).mp mem)
      | some shallowest =>
        rw [found] at ih
        exact ⟨(members _).mpr ih.offered, fun other mem => ih.least other ((members other).mp mem)⟩

def KeyedAt (lookup : Id → Option (LeanEvent Id C)) (start : List Id) (key : Key) (event : LeanEvent Id C)
    (hops : Nat) : Prop :=
  ∃ aid, Hops (chainEdges lookup) start aid hops ∧ lookup aid = some event ∧ event.key? = some key

def IsNearest (lookup : Id → Option (LeanEvent Id C)) (start : List Id)
    (localAuth : LocalAuthCacheMap Id C) : Prop :=
  ∀ key, match localAuth[key]? with
    | none => ∀ event hops, ¬KeyedAt lookup start key event hops
    | some entry => KeyedAt lookup start key entry.event entry.authDepth ∧
        ∀ event hops, KeyedAt lookup start key event hops → entry.authDepth ≤ hops

def TieFreeAt (lookup : Id → Option (LeanEvent Id C)) (start : List Id) (key : Key) : Prop :=
  ∀ event other hops, KeyedAt lookup start key event hops → KeyedAt lookup start key other hops →
    (∀ event' hops', KeyedAt lookup start key event' hops' → hops ≤ hops') → event = other

def TieFree (lookup : Id → Option (LeanEvent Id C)) (start : List Id) : Prop :=
  ∀ key, TieFreeAt lookup start key

theorem IsNearest.unique_at (tieFree : TieFreeAt lookup start key) (nearestLeft : IsNearest lookup start left)
    (nearestRight : IsNearest lookup start right) : left[key]? = right[key]? := by
  have leftSpec := nearestLeft key
  have rightSpec := nearestRight key
  cases foundLeft : left[key]? with
  | none =>
    rw [foundLeft] at leftSpec
    cases foundRight : right[key]? with
    | none => rfl
    | some entry =>
      rw [foundRight] at rightSpec
      exact absurd rightSpec.1 (leftSpec _ _)
  | some entry =>
    rw [foundLeft] at leftSpec
    cases foundRight : right[key]? with
    | none =>
      rw [foundRight] at rightSpec
      exact absurd leftSpec.1 (rightSpec _ _)
    | some other =>
      rw [foundRight] at rightSpec
      have depths : entry.authDepth = other.authDepth :=
        Nat.le_antisymm (leftSpec.2 _ _ rightSpec.1) (rightSpec.2 _ _ leftSpec.1)
      have events := tieFree entry.event other.event entry.authDepth leftSpec.1 (depths ▸ rightSpec.1) leftSpec.2
      obtain ⟨event, depth⟩ := entry
      obtain ⟨event', depth'⟩ := other
      dsimp only at depths events
      rw [depths, events]

theorem IsNearest.unique (tieFree : TieFree lookup start) (nearestLeft : IsNearest lookup start left)
    (nearestRight : IsNearest lookup start right) : left = right :=
  ext_getElem? fun key => nearestLeft.unique_at (tieFree key) nearestRight

def LocalAuthCache.Valid (lookup : Id → Option (LeanEvent Id C)) (version : StateResVersion)
    (cache : LocalAuthCache Id C) : Prop :=
  gathersTransitively version = true → ∀ id localAuth, cache.map id = some localAuth →
    ∃ event, lookup id = some event ∧ IsNearest lookup event.authEvents localAuth

theorem ancestorOffers_sound (valid : cache.Valid lookup version) (gathers : gathersTransitively version = true)
    (hops : Hops (ancestorEdges lookup cache version) start aid depth)
    (offered : (key, entry) ∈ ancestorOffers lookup cache version aid depth) :
    KeyedAt lookup start key entry.event entry.authDepth := by
  have chain := hops.mono (ancestorEdges_subset lookup cache version) fun _ seed => seed
  unfold ancestorOffers at offered
  rw [if_pos gathers, mem_append] at offered
  rcases offered with own | cached
  · simp only [mem_toList, bind_eq_some_iff, map_eq_some_iff, Prod.mk.injEq] at own
    obtain ⟨aev, found, own, known, rfl, rfl⟩ := own
    exact ⟨aid, chain, found, known⟩
  · cases known : cache.map aid with
    | none => simp [known] at cached
    | some localAuth =>
      rw [known, map_some, getD_some, List.mem_map] at cached
      obtain ⟨⟨key', old⟩, mem, same⟩ := cached
      obtain ⟨rfl, rfl⟩ := Prod.mk.inj same
      obtain ⟨event, found, nearest⟩ := valid gathers aid localAuth known
      have spec := nearest key'
      rw [mem_toList_iff_getElem?_eq_some.mp mem] at spec
      obtain ⟨other, further, answered, keyed⟩ := spec.1
      exact ⟨other, chain.trans further (fun z cites => by simpa [chainEdges, found] using cites), answered, keyed⟩

theorem hops_walked (valid : cache.Valid lookup version) (gathers : gathersTransitively version = true)
    (hops : Hops (chainEdges lookup) start y n) : Hops (ancestorEdges lookup cache version) start y n ∨
      ∃ x i j localAuth event, Hops (ancestorEdges lookup cache version) start x i ∧
        cache.map x = some localAuth ∧ lookup x = some event ∧
        IsNearest lookup event.authEvents localAuth ∧ Hops (chainEdges lookup) event.authEvents y j ∧
        i + j = n := by
  induction hops with
  | seed mem => exact .inl (.seed mem)
  | @step x y n _ edge ih =>
    rcases ih with walked | ⟨z, i, j, localAuth, event, walked, cached, found, nearest, further, sum⟩
    · cases cached : cache.map x with
      | none =>
        left
        refine walked.step ?_
        cases found : lookup x with
        | none => simp [chainEdges, found] at edge
        | some event => simpa [ancestorEdges, cached, found, gathers, chainEdges] using edge
      | some localAuth =>
        obtain ⟨event, found, nearest⟩ := valid gathers x localAuth cached
        have cites : y ∈ event.authEvents := by simpa [chainEdges, found] using edge
        exact .inr ⟨x, n, 1, localAuth, event, walked, cached, found, nearest, .seed cites, rfl⟩
    · exact .inr ⟨z, i, j + 1, localAuth, event, walked, cached, found, nearest, further.step edge, by omega⟩

end

variable [DecidableEq Id] {authContext conflictedEvents : EventMap Id C} {cache : LocalAuthCache Id C}
  {version : StateResVersion}

variable (valid : cache.Valid (lookupAuth authContext conflictedEvents) version)
include valid

theorem walk_isNearest (gathers : gathersTransitively version = true) (start : List Id) :
    IsNearest (lookupAuth authContext conflictedEvents) start
      (walk (ancestorEdges (lookupAuth authContext conflictedEvents) cache version)
        (noteAncestor (lookupAuth authContext conflictedEvents) cache version)
        (authContext.keys ++ conflictedEvents.keys) start ∅) := by
  have support := ancestorEdges_support authContext conflictedEvents cache version
  rw [walk_eq_foldl]
  simp only [noteAncestor_eq]
  have flat : ∀ (steps : List (Id × Nat)) (localAuth : LocalAuthCacheMap Id C), steps.foldl (fun noted entry =>
        (ancestorOffers (lookupAuth authContext conflictedEvents) cache version entry.1 entry.2).foldl
          (fun gathered offer => offerEntry gathered offer.1 offer.2) noted) localAuth =
      (steps.flatMap fun entry =>
        ancestorOffers (lookupAuth authContext conflictedEvents) cache version entry.1 entry.2).foldl
          (fun gathered offer => offerEntry gathered offer.1 offer.2) localAuth := by
    intro steps
    induction steps with
    | nil => exact fun _ => rfl
    | cons step steps ih => intro localAuth; rw [foldl_cons, ih, flatMap_cons, foldl_append]
  rw [flat]
  -- Every chain to a key is matched by an offer that is no deeper.
  have complete : ∀ key event hops, KeyedAt (lookupAuth authContext conflictedEvents) start key event hops →
      ∃ entry, (key, entry) ∈ (order (ancestorEdges (lookupAuth authContext conflictedEvents) cache version)
          (authContext.keys ++ conflictedEvents.keys) start).flatMap (fun entry =>
        ancestorOffers (lookupAuth authContext conflictedEvents) cache version entry.1 entry.2) ∧
        entry.authDepth ≤ hops := by
    rintro key event n ⟨y, hops, found, keyed⟩
    rcases hops_walked valid gathers hops with
      walked | ⟨x, i, j, localAuth, middle, walked, cached, known, nearest, further, rfl⟩
    · obtain ⟨depth, le, mem⟩ := order_nearest support walked
      refine ⟨⟨event, depth⟩, mem_flatMap.mpr ⟨(y, depth), mem, ?_⟩, le⟩
      simp [ancestorOffers, found, keyed]
    · obtain ⟨depth, le, mem⟩ := order_nearest support walked
      have spec := nearest key
      cases entry : localAuth[key]? with
      | none =>
        rw [entry] at spec
        exact absurd ⟨y, further, found, keyed⟩ (spec event j)
      | some old =>
        rw [entry] at spec
        refine ⟨⟨old.event, depth + old.authDepth⟩, mem_flatMap.mpr ⟨(x, depth), mem, ?_⟩, ?_⟩
        · unfold ancestorOffers
          rw [if_pos gathers, cached, map_some, getD_some]
          refine mem_append_right _ (mem_map.mpr ⟨(key, old), ?_, rfl⟩)
          exact mem_toList_iff_getElem?_eq_some.mpr entry
        · exact Nat.add_le_add le (spec.2 event j ⟨y, further, found, keyed⟩)
  intro key
  have shallowest := offers_shallowest ((order (ancestorEdges (lookupAuth authContext conflictedEvents) cache version)
      (authContext.keys ++ conflictedEvents.keys) start).flatMap fun entry =>
        ancestorOffers (lookupAuth authContext conflictedEvents) cache version entry.1 entry.2) key
  split at shallowest
  · intro event hops keyed
    obtain ⟨entry, offered, _⟩ := complete key event hops keyed
    exact shallowest entry offered
  · obtain ⟨⟨aid, depth⟩, mem, offered⟩ := mem_flatMap.mp shallowest.offered
    refine ⟨ancestorOffers_sound valid gathers (hops_of_mem_order support mem) offered, ?_⟩
    intro event hops keyed
    obtain ⟨other, offered, le⟩ := complete key event hops keyed
    exact Nat.le_trans (shallowest.least other offered) le

theorem computeLocalAuth_valid (known : gathersTransitively version = true →
      lookupAuth authContext conflictedEvents event.eventId = some event) :
    (gathersTransitively version = true → IsNearest (lookupAuth authContext conflictedEvents) event.authEvents
      (computeLocalAuth event authContext conflictedEvents cache version).1) ∧
    (computeLocalAuth event authContext conflictedEvents cache version).2.Valid
      (lookupAuth authContext conflictedEvents) version := by
  have nearest : gathersTransitively version = true →
      IsNearest (lookupAuth authContext conflictedEvents) event.authEvents
        (computeLocalAuth event authContext conflictedEvents cache version).1 := by
    intro gathers
    unfold computeLocalAuth
    cases own : cache.map event.eventId with
    | none => exact walk_isNearest valid gathers event.authEvents
    | some cached =>
      obtain ⟨other, found, nearest⟩ := valid gathers event.eventId cached own
      rw [known gathers] at found
      rw [Option.some.inj found]
      exact nearest
  refine ⟨nearest, fun gathers id localAuth found => ?_⟩
  rw [computeLocalAuth_map] at found
  split at found
  · rename_i same
    rw [← Option.some.inj found, same]
    exact ⟨event, known gathers, nearest gathers⟩
  · exact valid gathers id localAuth found

end Rezzy.State
