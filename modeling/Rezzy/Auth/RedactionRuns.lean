import Rezzy.Auth.Redactions

namespace Rezzy.Auth

open List Prod
open Option (bind_some map_some)

section

open Basespec Json

variable {Id : Type} [ToString Id] {floatToI64 : Number → Option Int} {events : Batch Id floatToI64}

def DistinctIds (events : Batch Id floatToI64) : Prop := (events.map fun event => toString event.eventId).Nodup

structure Redacts (events : Batch Id floatToI64) (redaction target : FlaggedEvent Id (JsonContent floatToI64)) :
    Prop where
  inBatch : redaction ∈ events
  targetInBatch : target ∈ events
  active : isActiveRedaction redaction = true
  names : redaction.getRedacts = some (toString target.eventId)
  other : toString redaction.eventId ≠ toString target.eventId

structure NamesOther (redaction : FlaggedEvent Id (JsonContent floatToI64)) : Prop where
  active : isActiveRedaction redaction = true
  names : ∃ targetId, redaction.getRedacts = some targetId ∧ targetId ≠ toString redaction.eventId

theorem DistinctIds.position (distinct : DistinctIds events) {i j : Nat} (here : events[i]? = some left)
    (there : events[j]? = some right) (same : toString left.eventId = toString right.eventId) : i = j := by
  have bound := (List.getElem?_eq_some_iff.mp here).1
  have ids : (events.map fun event => toString event.eventId)[i]? =
      (events.map fun event => toString event.eventId)[j]? := by
    rw [getElem?_map, getElem?_map, here, there]
    exact congrArg some same
  exact (getElem?_inj (by rwa [length_map]) distinct).mp ids

omit [ToString Id] in
theorem mem_redactionPositions :
    rp ∈ redactionPositions events ↔ ∃ redaction, events[rp]? = some redaction ∧ isActiveRedaction redaction = true := by
  unfold redactionPositions
  rw [mem_map]
  constructor
  · rintro ⟨⟨redaction, i⟩, mem, rfl⟩
    obtain ⟨listed, active⟩ := mem_filter.mp mem
    exact ⟨redaction, mem_zipIdx_iff_getElem?.mp listed, active⟩
  · rintro ⟨redaction, here, active⟩
    exact ⟨(redaction, rp), mem_filter.mpr ⟨mem_zipIdx_iff_getElem?.mpr here, active⟩, rfl⟩

omit [ToString Id] in
theorem redactionPositions_nodup (events : Batch Id floatToI64) : (redactionPositions events).Nodup := by
  have all : (events.zipIdx.map snd).Nodup := by
    rw [zipIdx_map_snd]
    exact nodup_range'
  exact (filter_sublist.map snd).nodup all

theorem posById_eq_some (distinct : DistinctIds events) {tp : Nat} :
    posById events targetId = some tp ↔ ∃ target, events[tp]? = some target ∧ toString target.eventId = targetId := by
  unfold posById
  rw [Option.map_eq_some_iff]
  constructor
  · rintro ⟨⟨target, i⟩, found, rfl⟩
    have mem := mem_reverse.mp (mem_of_find?_eq_some found)
    have own := find?_some found
    exact ⟨target, mem_zipIdx_iff_getElem?.mp mem, of_decide_eq_true own⟩
  · rintro ⟨target, here, same⟩
    cases found : events.zipIdx.reverse.find? fun entry => toString entry.1.eventId = targetId with
    | none =>
      have missing := find?_eq_none.mp found (target, tp) (mem_reverse.mpr (mem_zipIdx_iff_getElem?.mpr here))
      simp [same] at missing
    | some entry =>
      obtain ⟨other, i⟩ := entry
      have mem := mem_reverse.mp (mem_of_find?_eq_some found)
      have own := find?_some found
      exact ⟨_, rfl, distinct.position (mem_zipIdx_iff_getElem?.mp mem) here ((of_decide_eq_true own).trans same.symm)⟩

theorem posById_eq_none : posById events targetId = none ↔ ∀ event ∈ events, toString event.eventId ≠ targetId := by
  unfold posById
  rw [Option.map_eq_none_iff, find?_eq_none]
  constructor
  · intro missing _ mem same
    obtain ⟨i, bound, rfl⟩ := getElem_of_mem mem
    have listed : (events[i], i) ∈ events.zipIdx := mem_zipIdx_iff_getElem?.mpr (getElem?_eq_getElem bound)
    exact missing _ (mem_reverse.mpr listed) (decide_eq_true same)
  · intro missing entry mem same
    have listed := mem_zipIdx_iff_getElem?.mp (mem_reverse.mp mem)
    exact missing entry.1 (mem_of_getElem? listed) (of_decide_eq_true same)

def pairAt (events : Batch Id floatToI64) (rp : Nat) : Option (Nat × Nat) :=
  ((events[rp]?.bind FlaggedEvent.getRedacts).bind (posById events)).bind fun tp => if tp ≠ rp then some (rp, tp) else none

def deferralAt (events : Batch Id floatToI64) (rp : Nat) : Option (Nat × String) :=
  (events[rp]?.bind FlaggedEvent.getRedacts).bind fun targetId =>
    if (posById events targetId).isNone then some (rp, targetId) else none

theorem pairRedaction_eq (events : Batch Id floatToI64) (found : List (Nat × Nat) × List (Nat × String)) (rp : Nat) :
    pairRedaction events found rp = (found.1 ++ (pairAt events rp).toList, found.2 ++ (deferralAt events rp).toList) := by
  unfold pairRedaction pairAt deferralAt
  cases events[rp]?.bind FlaggedEvent.getRedacts with
  | none => simp
  | some targetId =>
    simp only [bind_some]
    cases posById events targetId with
    | none => simp
    | some tp =>
      by_cases self : tp = rp
      · simp [self]
      · simp [self]

theorem pairRedactions_eq (events : Batch Id floatToI64) (positions : List Nat)
    (found : List (Nat × Nat) × List (Nat × String)) : positions.foldl (pairRedaction events) found =
      (found.1 ++ positions.filterMap (pairAt events), found.2 ++ positions.filterMap (deferralAt events)) := by
  induction positions generalizing found with
  | nil => simp
  | cons rp positions ih =>
    rw [foldl_cons, ih, pairRedaction_eq, filterMap_cons, filterMap_cons]
    cases pairAt events rp <;> cases deferralAt events rp <;> simp

theorem pairAt_eq_some (distinct : DistinctIds events) :
    pairAt events rp = some pair ↔ pair.1 = rp ∧ ∃ redaction target, events[rp]? = some redaction ∧
      events[pair.2]? = some target ∧ redaction.getRedacts = some (toString target.eventId) ∧
      toString redaction.eventId ≠ toString target.eventId := by
  unfold pairAt
  rw [Option.bind_eq_some_iff]
  constructor
  · rintro ⟨tp, found, kept⟩
    obtain ⟨targetId, named, found⟩ := Option.bind_eq_some_iff.mp found
    obtain ⟨redaction, here, names⟩ := Option.bind_eq_some_iff.mp named
    obtain ⟨target, there, same⟩ := (posById_eq_some distinct).mp found
    split at kept
    · rename_i differs
      obtain rfl := Option.some.inj kept
      exact ⟨rfl, redaction, target, here, there, same ▸ names, fun own => differs (distinct.position there here own.symm)⟩
    · cases kept
  · rintro ⟨rfl, redaction, target, here, there, names, other⟩
    refine ⟨pair.2, ?_, ?_⟩
    · rw [here, bind_some, names, bind_some]
      exact (posById_eq_some distinct).mpr ⟨target, there, rfl⟩
    · rw [if_pos]
      intro same
      rw [same, here] at there
      exact other (congrArg (fun event => toString event.eventId) (Option.some.inj there))

theorem deferralAt_eq_some :
    deferralAt events rp = some deferral ↔ deferral.1 = rp ∧ ∃ redaction, events[rp]? = some redaction ∧
      redaction.getRedacts = some deferral.2 ∧ ∀ event ∈ events, toString event.eventId ≠ deferral.2 := by
  unfold deferralAt
  rw [Option.bind_eq_some_iff]
  constructor
  · rintro ⟨targetId, named, kept⟩
    obtain ⟨redaction, here, names⟩ := Option.bind_eq_some_iff.mp named
    split at kept
    · rename_i missing
      obtain rfl := Option.some.inj kept
      exact ⟨rfl, redaction, here, names, posById_eq_none.mp (Option.isNone_iff_eq_none.mp missing)⟩
    · cases kept
  · rintro ⟨rfl, redaction, here, names, missing⟩
    refine ⟨deferral.2, by rw [here, bind_some, names], ?_⟩
    rw [if_pos (Option.isNone_iff_eq_none.mpr (posById_eq_none.mpr missing))]

def batchPairs (events : Batch Id floatToI64) : List (Nat × Nat) := (redactionPositions events).filterMap (pairAt events)

def batchDeferrals (events : Batch Id floatToI64) : List (Nat × String) :=
  (redactionPositions events).filterMap (deferralAt events)

def Located (events : Batch Id floatToI64) (pair : Nat × Nat)
    (redaction target : FlaggedEvent Id (JsonContent floatToI64)) : Prop :=
  events[pair.1]? = some redaction ∧ events[pair.2]? = some target

theorem mem_batchPairs (distinct : DistinctIds events) :
    pair ∈ batchPairs events ↔ ∃ redaction target, Located events pair redaction target ∧ Redacts events redaction target := by
  unfold batchPairs Located
  rw [mem_filterMap]
  constructor
  · rintro ⟨rp, mem, found⟩
    obtain ⟨rfl, redaction, target, here, there, names, other⟩ := (pairAt_eq_some distinct).mp found
    obtain ⟨same, own, active⟩ := mem_redactionPositions.mp mem
    rw [here] at own
    obtain rfl := Option.some.inj own
    exact ⟨redaction, target, ⟨here, there⟩, mem_of_getElem? here, mem_of_getElem? there, active, names, other⟩
  · rintro ⟨redaction, target, ⟨here, there⟩, redacts⟩
    exact ⟨pair.1, mem_redactionPositions.mpr ⟨redaction, here, redacts.active⟩,
      (pairAt_eq_some distinct).mpr ⟨rfl, redaction, target, here, there, redacts.names, redacts.other⟩⟩

theorem mem_batchDeferrals : deferral ∈ batchDeferrals events ↔ ∃ redaction, events[deferral.1]? = some redaction ∧
      isActiveRedaction redaction = true ∧ redaction.getRedacts = some deferral.2 ∧
      ∀ event ∈ events, toString event.eventId ≠ deferral.2 := by
  unfold batchDeferrals
  rw [mem_filterMap]
  constructor
  · rintro ⟨rp, mem, found⟩
    obtain ⟨rfl, redaction, here, names, missing⟩ := deferralAt_eq_some.mp found
    obtain ⟨same, own, active⟩ := mem_redactionPositions.mp mem
    rw [here] at own
    obtain rfl := Option.some.inj own
    exact ⟨redaction, here, active, names, missing⟩
  · rintro ⟨redaction, here, active, names, missing⟩
    exact ⟨deferral.1, mem_redactionPositions.mpr ⟨redaction, here, active⟩,
      deferralAt_eq_some.mpr ⟨rfl, redaction, here, names, missing⟩⟩

theorem filterMap_fst_sublist {β : Type} {f : Nat → Option (Nat × β)} (own : ∀ i x, f i = some x → x.1 = i)
    (l : List Nat) : ((l.filterMap f).map fst).Sublist l := by
  induction l with
  | nil => exact .slnil
  | cons i l ih =>
    rw [filterMap_cons]
    cases found : f i with
    | none => exact ih.cons i
    | some x =>
      rw [map_cons, own i x found]
      exact ih.cons_cons i

theorem batchPairs_distinct (distinct : DistinctIds events) : DistinctRedactors (batchPairs events) :=
  (filterMap_fst_sublist (fun _ _ found => ((pairAt_eq_some distinct).mp found).1) _).nodup
    (redactionPositions_nodup events)

theorem batchDeferrals_distinct (events : Batch Id floatToI64) : ((batchDeferrals events).map fst).Nodup :=
  (filterMap_fst_sublist (fun _ _ found => (deferralAt_eq_some.mp found).1) _).nodup (redactionPositions_nodup events)

end

open Basespec Json

variable {Id : Type} [ToString Id] [DecidableEq Id] {floatToI64 : Number → Option Int} {events : Batch Id floatToI64}

section

def stripped (roomVersion : String) (applied : List (Id × Id)) (event : FlaggedEvent Id (JsonContent floatToI64)) :
    FlaggedEvent Id (JsonContent floatToI64) :=
  if event.eventId ∈ applied.map Prod.snd then event.redacted roomVersion else event

variable {stateAt : Id → Option (StateProvider Id (JsonContent floatToI64))} {version : StateResVersion}

omit [ToString Id] in
@[simp] theorem stripped_eventId (applied : List (Id × Id)) (event : FlaggedEvent Id (JsonContent floatToI64)) :
    (stripped roomVersion applied event).eventId = event.eventId := by
  unfold stripped
  split <;> rfl

omit [ToString Id] in
@[simp] theorem stripped_sender (applied : List (Id × Id)) (event : FlaggedEvent Id (JsonContent floatToI64)) :
    (stripped roomVersion applied event).sender = event.sender := by
  unfold stripped
  split <;> rfl

omit [ToString Id] in
@[simp] theorem stripped_redacted (applied : List (Id × Id)) (event : FlaggedEvent Id (JsonContent floatToI64)) :
    (stripped roomVersion applied event).redacted roomVersion = event.redacted roomVersion := by
  unfold stripped
  split
  · exact event.redacted_again roomVersion
  · rfl

theorem isAuthorizedAt_stripped (applied : List (Id × Id)) (redaction target : FlaggedEvent Id (JsonContent floatToI64)) :
    isAuthorizedAt stateAt version roomVersion redaction (stripped roomVersion applied target) =
      isAuthorizedAt stateAt version roomVersion redaction target := by
  unfold isAuthorizedAt redactionIsAuthorized
  rw [stripped_sender]

theorem stripped_set (distinct : DistinctIds events) {tp : Nat} (there : events[tp]? = some target)
    (applied : List (Id × Id)) (redactionId : Id) :
    (events.map (stripped roomVersion applied)).set tp (target.redacted roomVersion) =
      events.map (stripped roomVersion (applied ++ [(redactionId, target.eventId)])) := by
  apply ext_getElem?
  intro i
  rw [getElem?_set, length_map, getElem?_map]
  have bound := (List.getElem?_eq_some_iff.mp there).1
  by_cases same : tp = i
  · subst same
    rw [if_pos rfl, if_pos bound, getElem?_map, there, map_some, stripped, if_pos (by simp)]
  · rw [if_neg same, getElem?_map]
    cases here : events[i]? with
    | none => rfl
    | some event =>
      have other : event.eventId ≠ target.eventId :=
        fun ids => same (distinct.position there here (congrArg toString ids.symm))
      have known : event.eventId ∈ (applied ++ [(redactionId, target.eventId)]).map snd ↔
          event.eventId ∈ applied.map snd := by
        simp [other]
      rw [map_some, map_some]
      unfold stripped
      by_cases before : event.eventId ∈ applied.map snd
      · rw [if_pos before, if_pos (known.mpr before)]
      · rw [if_neg before, if_neg fun after => before (known.mp after)]

variable (stateAt version) in
theorem applyPair_located (distinct : DistinctIds events)
    (shape : s.1 = events.map (stripped roomVersion s.2.applied)) (located : Located events pair redaction target) :
    applyPair stateAt version roomVersion s pair =
      if isAuthorizedAt stateAt version roomVersion (stripped roomVersion s.2.applied redaction) target then
        if (stripped roomVersion s.2.applied redaction).getRedacts = some (toString target.eventId) then
          (events.map (stripped roomVersion (s.2.applied ++ [(redaction.eventId, target.eventId)])),
            { s.2 with applied := s.2.applied ++ [(redaction.eventId, target.eventId)] })
        else (s.1, { s.2 with failedToApply := s.2.failedToApply ++ [(redaction.eventId, target.eventId)] })
      else (s.1, { s.2 with
        skippedUnauthorized := s.2.skippedUnauthorized ++ [(redaction.eventId, target.eventId)] }) := by
  obtain ⟨here, there⟩ := located
  unfold applyPair
  rw [shape, getElem?_map, getElem?_map, here, there, map_some, map_some]
  dsimp only
  rw [isAuthorizedAt_stripped, stripped_eventId, stripped_eventId]
  by_cases allowed : isAuthorizedAt stateAt version roomVersion (stripped roomVersion s.2.applied redaction) target = true
  · rw [if_pos allowed, if_pos allowed]
    unfold applyRedaction
    rw [stripped_eventId, stripped_redacted]
    by_cases names : (stripped roomVersion s.2.applied redaction).getRedacts = some (toString target.eventId)
    · rw [if_pos names, if_pos names]
      dsimp only
      rw [stripped_set distinct there]
    · rw [if_neg names, if_neg names]
  · rw [if_neg allowed, if_neg allowed]

end

section

def idsAt (events : Batch Id floatToI64) (pair : Nat × Nat) : Option (Id × Id) :=
  events[pair.1]?.bind fun redaction => events[pair.2]?.map fun target => (redaction.eventId, target.eventId)

omit [ToString Id] [DecidableEq Id] in
theorem Located.ids (located : Located events pair redaction target) :
    idsAt events pair = some (redaction.eventId, target.eventId) := by
  obtain ⟨here, there⟩ := located
  rw [idsAt, here, there]
  rfl

structure Spent (events : Batch Id floatToI64) (roomVersion : String) (done : List (Nat × Nat))
    (s : Batch Id floatToI64 × RedactionReport Id) : Prop where
  shape : s.1 = events.map (stripped roomVersion s.2.applied)
  reported : (s.2.applied ++ s.2.skippedUnauthorized ++ s.2.failedToApply).Perm (done.filterMap (idsAt events))
  deferred : s.2.targetNotInBatch = []

variable (stateAt : Id → Option (StateProvider Id (JsonContent floatToI64))) (version : StateResVersion)
  (roomVersion : String)

theorem Spent.step (distinct : DistinctIds events) {done : List (Nat × Nat)}
    {s : Batch Id floatToI64 × RedactionReport Id} (spent : Spent events roomVersion done s) {pair : Nat × Nat}
    (paired : pair ∈ batchPairs events) :
    Spent events roomVersion (done ++ [pair]) (applyPair stateAt version roomVersion s pair) := by
  obtain ⟨redaction, target, located, _⟩ := (mem_batchPairs distinct).mp paired
  have all : (done ++ [pair]).filterMap (idsAt events) =
      done.filterMap (idsAt events) ++ [(redaction.eventId, target.eventId)] := by
    rw [filterMap_append, filterMap_cons, located.ids]
    rfl
  have more := spent.reported.append_right [(redaction.eventId, target.eventId)]
  rw [applyPair_located stateAt version distinct spent.shape located]
  split
  · split
    · refine ⟨rfl, ?_, spent.deferred⟩
      rw [all]
      refine List.Perm.trans ?_ more
      grind
    · refine ⟨spent.shape, ?_, spent.deferred⟩
      rw [all]
      exact (List.Perm.of_eq (append_assoc _ _ _).symm).trans more
  · refine ⟨spent.shape, ?_, spent.deferred⟩
    rw [all]
    refine List.Perm.trans ?_ more
    grind

theorem Spent.run (distinct : DistinctIds events) (pairs : List (Nat × Nat)) {done : List (Nat × Nat)}
    {s : Batch Id floatToI64 × RedactionReport Id} (spent : Spent events roomVersion done s)
    (paired : ∀ pair ∈ pairs, pair ∈ batchPairs events) :
    Spent events roomVersion (done ++ pairs) (pairs.foldl (applyPair stateAt version roomVersion) s) := by
  induction pairs generalizing done s with
  | nil => rwa [append_nil]
  | cons pair pairs ih =>
    have next := spent.step stateAt version roomVersion distinct (paired pair (by simp))
    rw [foldl_cons, append_cons]
    exact ih next fun other mem => paired other (mem_cons_of_mem _ mem)

def authorizedPair (events : Batch Id floatToI64) (pair : Nat × Nat) : Bool :=
  (events[pair.1]?.bind fun redaction => events[pair.2]?.map fun target =>
    isAuthorizedAt stateAt version roomVersion redaction target).getD false

omit [DecidableEq Id] in
theorem Located.authorized (located : Located events pair redaction target) :
    authorizedPair stateAt version roomVersion events pair =
      isAuthorizedAt stateAt version roomVersion redaction target := by
  obtain ⟨here, there⟩ := located
  rw [authorizedPair, here, there]
  rfl

theorem applyPairs_settled (distinct : DistinctIds events) (pairs : List (Nat × Nat))
    (paired : ∀ pair ∈ pairs, pair ∈ batchPairs events)
    (spends : pairs.Pairwise fun earlier later => earlier.2 ≠ later.1) {s : Batch Id floatToI64 × RedactionReport Id}
    (shape : s.1 = events.map (stripped roomVersion s.2.applied))
    (unspent : ∀ pair ∈ pairs, ∀ redaction target, Located events pair redaction target →
      redaction.eventId ∉ s.2.applied.map snd) :
    (pairs.foldl (applyPair stateAt version roomVersion) s).2 = { s.2 with
      applied := s.2.applied ++
        (pairs.filter (authorizedPair stateAt version roomVersion events)).filterMap (idsAt events)
      skippedUnauthorized := s.2.skippedUnauthorized ++
        (pairs.filter fun pair => !authorizedPair stateAt version roomVersion events pair).filterMap (idsAt events) } := by
  induction pairs generalizing s with
  | nil => simp
  | cons pair pairs ih =>
    obtain ⟨first, spends⟩ := pairwise_cons.mp spends
    obtain ⟨redaction, target, located, redacts⟩ := (mem_batchPairs distinct).mp (paired pair (by simp))
    have paired := fun other mem => paired other (mem_cons_of_mem pair mem)
    have later := fun other mem => unspent other (mem_cons_of_mem pair mem)
    have whole : stripped roomVersion s.2.applied redaction = redaction :=
      if_neg (unspent pair (by simp) redaction target located)
    have stepped := applyPair_located stateAt version distinct shape located
    rw [whole, if_pos redacts.names, ← located.authorized] at stepped
    rw [foldl_cons, stepped, filter_cons, filter_cons]
    cases allowed : authorizedPair stateAt version roomVersion events pair with
    | true =>
      rw [if_pos rfl]
      refine (ih paired spends rfl fun other mem redaction' target' located' replaced => ?_).trans ?_
      · rw [map_append, mem_append, map_singleton, mem_singleton] at replaced
        rcases replaced with before | now
        · exact later other mem redaction' target' located' before
        · exact first other mem (distinct.position located.2 located'.1 (congrArg toString now.symm))
      · simp [located.ids]
    | false =>
      rw [if_neg Bool.false_ne_true]
      refine (ih paired spends (s := (s.1, { s.2 with
        skippedUnauthorized := s.2.skippedUnauthorized ++ [(redaction.eventId, target.eventId)] })) shape later).trans ?_
      simp [located.ids]

end

omit [ToString Id] [DecidableEq Id] in
theorem deferRedactions_eq (events : Batch Id floatToI64) (deferrals : List (Nat × String)) (report : RedactionReport Id) :
    deferrals.foldl (deferRedaction events) report = { report with
      targetNotInBatch := report.targetNotInBatch ++
        deferrals.filterMap fun deferral => events[deferral.1]?.map fun event => (event.eventId, deferral.2) } := by
  induction deferrals generalizing report with
  | nil => simp
  | cons deferral deferrals ih =>
    rw [foldl_cons, ih, deferRedaction, filterMap_cons]
    cases events[deferral.1]? with
    | none => rfl
    | some event => simp

omit [ToString Id] in
theorem stripped_position (roomVersion : String) (applied : List (Id × Id)) (i : Nat) :
    (events.map (stripped roomVersion applied))[i]?.map (fun event => event.eventId) =
      events[i]?.map fun event => event.eventId := by
  rw [getElem?_map, Option.map_map]
  congr 1
  funext event
  exact stripped_eventId applied event

end Rezzy.Auth
