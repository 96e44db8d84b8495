import Rezzy.Auth.RedactionRuns

namespace Rezzy.Auth

open Basespec Json List
open Prod (ext fst)

variable {Id : Type} [ToString Id] [DecidableEq Id] {floatToI64 : Number → Option Int} {events : Batch Id floatToI64}

def RedactionReport.reported {Id : Type} (report : RedactionReport Id) : List Id :=
  (report.applied ++ report.skippedUnauthorized ++ report.failedToApply).map fst ++
    report.targetNotInBatch.map fst

def NoRedactionCycle (events : Batch Id floatToI64) : Prop :=
  ∀ event, ¬Relation.TransGen (Redacts events) event event

def idAt (events : Batch Id floatToI64) (position : Nat) : Option Id :=
  events[position]?.map fun event => event.eventId

section

def reportedPositions (events : Batch Id floatToI64) : List Nat :=
  (batchPairs events).map fst ++ (batchDeferrals events).map fst

section

omit [DecidableEq Id]

theorem reportedPositions_nodup (distinct : DistinctIds events) : (reportedPositions events).Nodup := by
  apply nodup_append.mpr
  refine ⟨batchPairs_distinct distinct, batchDeferrals_distinct events, fun rp paired other put same => ?_⟩
  subst same
  obtain ⟨pair, member, rfl⟩ := mem_map.mp paired
  obtain ⟨deferral, member', same⟩ := mem_map.mp put
  obtain ⟨redaction, target, ⟨here, _⟩, redacts⟩ := (mem_batchPairs distinct).mp member
  obtain ⟨own, here', _, names, missing⟩ := mem_batchDeferrals.mp member'
  rw [same, here] at here'
  obtain rfl := Option.some.inj here'
  rw [redacts.names] at names
  exact missing target redacts.targetInBatch (Option.some.inj names)

theorem mem_reportedPositions (distinct : DistinctIds events) :
    rp ∈ reportedPositions events ↔ ∃ redaction, events[rp]? = some redaction ∧ NamesOther redaction := by
  unfold reportedPositions
  rw [mem_append, mem_map, mem_map]
  constructor
  · rintro (⟨pair, member, rfl⟩ | ⟨deferral, member, rfl⟩)
    · obtain ⟨redaction, target, ⟨here, _⟩, redacts⟩ := (mem_batchPairs distinct).mp member
      exact ⟨redaction, here, redacts.active, _, redacts.names, redacts.other.symm⟩
    · obtain ⟨redaction, here, active, names, missing⟩ := mem_batchDeferrals.mp member
      exact ⟨redaction, here, active, _, names, (missing redaction (mem_of_getElem? here)).symm⟩
  · rintro ⟨redaction, here, active, targetId, names, other⟩
    cases found : posById events targetId with
    | none => exact .inr ⟨(rp, targetId), mem_batchDeferrals.mpr ⟨redaction, here, active, names, posById_eq_none.mp found⟩, rfl⟩
    | some tp =>
      obtain ⟨target, there, same⟩ := (posById_eq_some distinct).mp found
      refine .inl ⟨(rp, tp), (mem_batchPairs distinct).mpr ⟨redaction, target, ⟨here, there⟩, ?_⟩, rfl⟩
      exact ⟨mem_of_getElem? here, mem_of_getElem? there, active, same ▸ names, fun own => other (same ▸ own.symm)⟩

theorem idAt_inj (distinct : DistinctIds events) (i j : Nat) (id : Id) (here : id ∈ idAt events i)
    (there : id ∈ idAt events j) : i = j := by
  obtain ⟨left, atLeft, rfl⟩ := Option.map_eq_some_iff.mp here
  obtain ⟨right, atRight, same⟩ := Option.map_eq_some_iff.mp there
  exact distinct.position atLeft atRight (congrArg toString same.symm)

theorem map_idsAt (distinct : DistinctIds events) (pairs : List (Nat × Nat))
    (paired : ∀ pair ∈ pairs, pair ∈ batchPairs events) :
    (pairs.filterMap (idsAt events)).map fst = (pairs.map fst).filterMap (idAt events) := by
  rw [map_filterMap, filterMap_map]
  apply filterMap_congr
  intro pair member
  obtain ⟨redaction, target, located, _⟩ := (mem_batchPairs distinct).mp (paired pair member)
  rw [located.ids, Function.comp_apply, idAt, located.1]
  rfl

end

variable (stateAt : Id → Option (StateProvider Id (JsonContent floatToI64))) (version : StateResVersion)
  (roomVersion : String)

def spend (events : Batch Id floatToI64) : Batch Id floatToI64 × RedactionReport Id :=
  (orderPairs (batchPairs events)).foldl (applyPair stateAt version roomVersion) (events, {})

theorem spend_spent (distinct : DistinctIds events) :
    Spent events roomVersion (orderPairs (batchPairs events)) (spend stateAt version roomVersion events) := by
  have start : Spent events roomVersion [] (events, {}) := by
    refine ⟨?_, .refl _, rfl⟩
    have untouched : stripped roomVersion ([] : List (Id × Id)) = (id : FlaggedEvent Id (JsonContent floatToI64) → _) := by
      funext event
      exact if_neg (by simp)
    exact (untouched ▸ map_id events).symm
  have perm := orderPairs_perm (batchPairs_distinct distinct)
  exact start.run stateAt version roomVersion distinct _ fun pair member => perm.mem_iff.mp member

def deferralIds (events : Batch Id floatToI64) : List (Id × String) :=
  (batchDeferrals events).filterMap fun deferral => (idAt events deferral.1).map fun id => (id, deferral.2)

theorem applyAuthorizedRedactions_eq (distinct : DistinctIds events) :
    applyAuthorizedRedactionsWithStateAt stateAt version roomVersion events =
      ((spend stateAt version roomVersion events).1,
        { (spend stateAt version roomVersion events).2 with targetNotInBatch := deferralIds events }) := by
  have spent := spend_spent stateAt version roomVersion distinct
  unfold applyAuthorizedRedactionsWithStateAt
  by_cases none : (redactionPositions events).isEmpty = true
  · rw [if_pos none]
    have empty := List.isEmpty_iff.mp none
    unfold spend deferralIds batchPairs batchDeferrals
    rw [empty]
    rfl
  · rw [if_neg none, pairRedactions_eq]
    rw [nil_append, nil_append]
    have shape : deferralIds events = (batchDeferrals events).filterMap fun deferral =>
        (spend stateAt version roomVersion events).1[deferral.1]?.map fun event => (event.eventId, deferral.2) := by
      unfold deferralIds idAt
      apply filterMap_congr
      intro deferral _
      rw [spent.shape, ← stripped_position roomVersion (spend stateAt version roomVersion events).2.applied, Option.map_map]
      rfl
    have deferred := deferRedactions_eq (spend stateAt version roomVersion events).1 (batchDeferrals events)
      (spend stateAt version roomVersion events).2
    rw [← shape, spent.deferred, nil_append] at deferred
    exact ext rfl deferred

theorem reported_perm (distinct : DistinctIds events) :
    (applyAuthorizedRedactionsWithStateAt stateAt version roomVersion events).2.reported.Perm
      ((reportedPositions events).filterMap (idAt events)) := by
  have spent := spend_spent stateAt version roomVersion distinct
  have perm := orderPairs_perm (batchPairs_distinct distinct)
  rw [applyAuthorizedRedactions_eq stateAt version roomVersion distinct, reportedPositions, filterMap_append,
    ← map_idsAt distinct _ fun _ => id]
  apply List.Perm.append
  · exact (spent.reported.trans (perm.filterMap _)).map fst
  · unfold deferralIds
    rw [map_filterMap, filterMap_map]
    apply List.Perm.of_eq
    apply filterMap_congr
    intro _ _
    rw [Option.map_map, Function.comp_apply]
    exact Option.map_id'

omit [DecidableEq Id] in
theorem replaces_redacts (distinct : DistinctIds events)
    (path : Relation.TransGen (Replaces (batchPairs events)) first second) :
    ∃ redaction other, events[first.1]? = some redaction ∧ events[second.1]? = some other ∧
      Relation.TransGen (Redacts events) other redaction := by
  have edge : ∀ {first second}, Replaces (batchPairs events) first second → ∃ redaction other,
      events[first.1]? = some redaction ∧ events[second.1]? = some other ∧ Redacts events other redaction := by
    rintro first second ⟨_, member, same⟩
    obtain ⟨other, redaction, ⟨there, here⟩, redacts⟩ := (mem_batchPairs distinct).mp member
    exact ⟨redaction, other, same ▸ here, there, redacts⟩
  induction path with
  | single step =>
    obtain ⟨redaction, other, here, there, redacts⟩ := edge step
    exact ⟨redaction, other, here, there, .single redacts⟩
  | tail _ step ih =>
    obtain ⟨redaction, middle, here, between, path⟩ := ih
    obtain ⟨middle', other, between', there, redacts⟩ := edge step
    obtain rfl : middle = middle' := Option.some.inj (between.symm.trans between')
    exact ⟨redaction, other, here, there, .head redacts path⟩

theorem spend_settled (distinct : DistinctIds events) (acyclic : NoRedactionCycle events) :
    (spend stateAt version roomVersion events).2 = {
      applied := ((orderPairs (batchPairs events)).filter
        (authorizedPair stateAt version roomVersion events)).filterMap (idsAt events)
      skippedUnauthorized := ((orderPairs (batchPairs events)).filter
        fun pair => !authorizedPair stateAt version roomVersion events pair).filterMap (idsAt events) } := by
  have perm := orderPairs_perm (batchPairs_distinct distinct)
  have spends := orderPairs_spends (batchPairs_distinct distinct) fun pair cycle => by
    obtain ⟨redaction, other, here, there, path⟩ := replaces_redacts distinct cycle
    obtain rfl : redaction = other := Option.some.inj (here.symm.trans there)
    exact acyclic redaction path
  have start : (events, ({} : RedactionReport Id)).1 =
      events.map (stripped roomVersion (events, ({} : RedactionReport Id)).2.applied) := by
    have untouched : stripped roomVersion ([] : List (Id × Id)) = (id : FlaggedEvent Id (JsonContent floatToI64) → _) := by
      funext event
      exact if_neg (by simp)
    exact (untouched ▸ map_id events).symm
  exact applyPairs_settled stateAt version roomVersion distinct _ (fun pair member => perm.mem_iff.mp member) spends start
    (by simp)

section

omit [DecidableEq Id]

theorem mem_settled (distinct : DistinctIds events) (verdict : Bool) :
    entry ∈ ((orderPairs (batchPairs events)).filter
        fun pair => authorizedPair stateAt version roomVersion events pair == verdict).filterMap (idsAt events) ↔
      ∃ redaction target, Redacts events redaction target ∧
        isAuthorizedAt stateAt version roomVersion redaction target = verdict ∧
        entry = (redaction.eventId, target.eventId) := by
  have perm := orderPairs_perm (batchPairs_distinct distinct)
  rw [mem_filterMap]
  constructor
  · rintro ⟨pair, member, found⟩
    obtain ⟨member, allowed⟩ := mem_filter.mp member
    obtain ⟨redaction, target, located, redacts⟩ := (mem_batchPairs distinct).mp (perm.mem_iff.mp member)
    rw [located.ids] at found
    rw [located.authorized] at allowed
    exact ⟨redaction, target, redacts, eq_of_beq allowed, (Option.some.inj found).symm⟩
  · rintro ⟨redaction, target, redacts, allowed, rfl⟩
    obtain ⟨rp, here⟩ := getElem?_of_mem redacts.inBatch
    obtain ⟨tp, there⟩ := getElem?_of_mem redacts.targetInBatch
    have located : Located events (rp, tp) redaction target := ⟨here, there⟩
    refine ⟨(rp, tp), mem_filter.mpr ⟨perm.mem_iff.mpr ?_, ?_⟩, located.ids⟩
    · exact (mem_batchPairs distinct).mpr ⟨redaction, target, located, redacts⟩
    · rw [located.authorized, allowed, beq_self_eq_true]

theorem mem_deferralIds : entry ∈ deferralIds events ↔ ∃ redaction ∈ events, isActiveRedaction redaction = true ∧
      redaction.eventId = entry.1 ∧ redaction.getRedacts = some entry.2 ∧
      ∀ event ∈ events, toString event.eventId ≠ entry.2 := by
  unfold deferralIds
  rw [mem_filterMap]
  constructor
  · rintro ⟨deferral, member, found⟩
    obtain ⟨redaction, here, active, names, missing⟩ := mem_batchDeferrals.mp member
    rw [idAt, here] at found
    obtain rfl := Option.some.inj found
    exact ⟨redaction, mem_of_getElem? here, active, rfl, names, missing⟩
  · rintro ⟨redaction, member, active, same, names, missing⟩
    obtain ⟨rp, here⟩ := getElem?_of_mem member
    refine ⟨(rp, entry.2), mem_batchDeferrals.mpr ⟨redaction, here, active, names, missing⟩, ?_⟩
    rw [idAt, here, Option.map_some, Option.map_some, same]

theorem Redacts.perm {other : Batch Id floatToI64} (same : other.Perm events) :
    Redacts other redaction target ↔ Redacts events redaction target := by
  constructor
  · rintro ⟨here, there, active, names, differs⟩
    exact ⟨same.mem_iff.mp here, same.mem_iff.mp there, active, names, differs⟩
  · rintro ⟨here, there, active, names, differs⟩
    exact ⟨same.mem_iff.mpr here, same.mem_iff.mpr there, active, names, differs⟩

end

theorem reported_exact (distinct : DistinctIds events) :
    (applyAuthorizedRedactionsWithStateAt stateAt version roomVersion events).2.reported.Nodup ∧
      ∀ id, id ∈ (applyAuthorizedRedactionsWithStateAt stateAt version roomVersion events).2.reported ↔
        ∃ redaction ∈ events, redaction.eventId = id ∧ NamesOther redaction := by
  have perm := reported_perm stateAt version roomVersion distinct
  refine ⟨perm.nodup_iff.mpr ((reportedPositions_nodup distinct).filterMap (idAt_inj distinct)), fun id => ?_⟩
  rw [perm.mem_iff, mem_filterMap]
  constructor
  · rintro ⟨rp, member, found⟩
    obtain ⟨redaction, here, names⟩ := (mem_reportedPositions distinct).mp member
    rw [idAt, here] at found
    exact ⟨redaction, mem_of_getElem? here, Option.some.inj found, names⟩
  · rintro ⟨redaction, member, rfl, names⟩
    obtain ⟨rp, here⟩ := getElem?_of_mem member
    exact ⟨rp, (mem_reportedPositions distinct).mpr ⟨redaction, here, names⟩, by rw [idAt, here, Option.map_some]⟩

theorem settled_exact (distinct : DistinctIds events) (acyclic : NoRedactionCycle events) :
    (applyAuthorizedRedactionsWithStateAt stateAt version roomVersion events).2.failedToApply = [] ∧
      (∀ entry, entry ∈ (applyAuthorizedRedactionsWithStateAt stateAt version roomVersion events).2.applied ↔
        ∃ redaction target, Redacts events redaction target ∧
          isAuthorizedAt stateAt version roomVersion redaction target = true ∧
          entry = (redaction.eventId, target.eventId)) ∧
      ∀ entry, entry ∈ (applyAuthorizedRedactionsWithStateAt stateAt version roomVersion events).2.skippedUnauthorized ↔
        ∃ redaction target, Redacts events redaction target ∧
          isAuthorizedAt stateAt version roomVersion redaction target = false ∧
          entry = (redaction.eventId, target.eventId) := by
  rw [applyAuthorizedRedactions_eq stateAt version roomVersion distinct, spend_settled stateAt version roomVersion distinct
    acyclic]
  refine ⟨rfl, fun entry => ?_, fun entry => ?_⟩
  · rw [← mem_settled stateAt version roomVersion distinct true]
    simp
  · rw [← mem_settled stateAt version roomVersion distinct false]
    simp

/-- Every redaction in force that names another event is reported once, and the events change just where one was
    applied. Without circles the order of the batch does not matter. -/
theorem redactions_exact (events : Batch Id floatToI64) (distinct : DistinctIds events) :
    ∃ after report, applyAuthorizedRedactionsWithStateAt stateAt version roomVersion events = (after, report) ∧
      (report.reported.Nodup ∧ ∀ id, id ∈ report.reported ↔
        ∃ redaction ∈ events, redaction.eventId = id ∧ NamesOther redaction) ∧
      (∀ entry ∈ report.applied ++ report.skippedUnauthorized ++ report.failedToApply,
        ∃ redaction target, Redacts events redaction target ∧ entry = (redaction.eventId, target.eventId)) ∧
      (∀ entry, entry ∈ report.targetNotInBatch ↔ ∃ redaction ∈ events, isActiveRedaction redaction = true ∧
        redaction.eventId = entry.1 ∧ redaction.getRedacts = some entry.2 ∧
        ∀ event ∈ events, toString event.eventId ≠ entry.2) ∧
      after = events.map (stripped roomVersion report.applied) ∧
      (NoRedactionCycle events → report.failedToApply = [] ∧
        ∀ other : Batch Id floatToI64, other.Perm events → ∃ after' report',
          applyAuthorizedRedactionsWithStateAt stateAt version roomVersion other = (after', report') ∧
          after'.Perm after ∧ report'.failedToApply = [] ∧
          (∀ entry, entry ∈ report'.applied ↔ entry ∈ report.applied) ∧
          (∀ entry, entry ∈ report'.skippedUnauthorized ↔ entry ∈ report.skippedUnauthorized) ∧
          ∀ entry, entry ∈ report'.targetNotInBatch ↔ entry ∈ report.targetNotInBatch) := by
  have shape : ∀ {batch : Batch Id floatToI64}, DistinctIds batch →
      (applyAuthorizedRedactionsWithStateAt stateAt version roomVersion batch).1 = batch.map
        (stripped roomVersion (applyAuthorizedRedactionsWithStateAt stateAt version roomVersion batch).2.applied) := by
    intro batch distinct
    rw [applyAuthorizedRedactions_eq stateAt version roomVersion distinct]
    exact (spend_spent stateAt version roomVersion distinct).shape
  have deferred : ∀ {batch : Batch Id floatToI64}, DistinctIds batch →
      (applyAuthorizedRedactionsWithStateAt stateAt version roomVersion batch).2.targetNotInBatch = deferralIds batch := by
    intro batch distinct
    rw [applyAuthorizedRedactions_eq stateAt version roomVersion distinct]
  refine ⟨_, _, Prod.mk.eta.symm, reported_exact stateAt version roomVersion distinct, fun entry member => ?_, fun entry => ?_,
    shape distinct, fun acyclic => ?_⟩
  · have perm := orderPairs_perm (batchPairs_distinct distinct)
    rw [applyAuthorizedRedactions_eq stateAt version roomVersion distinct] at member
    have listed := (spend_spent stateAt version roomVersion distinct).reported.mem_iff.mp member
    obtain ⟨pair, paired, found⟩ := mem_filterMap.mp listed
    obtain ⟨redaction, target, located, redacts⟩ := (mem_batchPairs distinct).mp (perm.mem_iff.mp paired)
    rw [located.ids] at found
    exact ⟨redaction, target, redacts, (Option.some.inj found).symm⟩
  · rw [deferred distinct]
    exact mem_deferralIds
  · obtain ⟨failed, applied, skipped⟩ := settled_exact stateAt version roomVersion distinct acyclic
    refine ⟨failed, fun other same => ?_⟩
    have distinct' : DistinctIds other := (same.map _).nodup_iff.mpr distinct
    have edges : Redacts other = Redacts events := by
      funext redaction target
      exact propext (Redacts.perm same)
    have acyclic' : NoRedactionCycle other := by
      unfold NoRedactionCycle
      rwa [edges]
    obtain ⟨failed', applied', skipped'⟩ := settled_exact stateAt version roomVersion distinct' acyclic'
    rw [edges] at applied' skipped'
    have applies : ∀ entry, entry ∈ (applyAuthorizedRedactionsWithStateAt stateAt version roomVersion other).2.applied ↔
        entry ∈ (applyAuthorizedRedactionsWithStateAt stateAt version roomVersion events).2.applied :=
      fun entry => (applied' entry).trans (applied entry).symm
    refine ⟨_, _, Prod.mk.eta.symm, ?_, failed', applies, fun entry => (skipped' entry).trans (skipped entry).symm, fun entry => ?_⟩
    · have strips : (stripped roomVersion (applyAuthorizedRedactionsWithStateAt stateAt version roomVersion other).2.applied :
            FlaggedEvent Id (JsonContent floatToI64) → _) =
          stripped roomVersion (applyAuthorizedRedactionsWithStateAt stateAt version roomVersion events).2.applied := by
        funext event
        have known : event.eventId ∈
            (applyAuthorizedRedactionsWithStateAt stateAt version roomVersion other).2.applied.map Prod.snd ↔
            event.eventId ∈
              (applyAuthorizedRedactionsWithStateAt stateAt version roomVersion events).2.applied.map Prod.snd := by
          simp only [mem_map, applies]
        unfold stripped
        simp only [known]
      rw [shape distinct', shape distinct, strips]
      exact same.map _
    · rw [deferred distinct', deferred distinct, mem_deferralIds, mem_deferralIds]
      simp only [same.mem_iff]

end

namespace Sample

open JsonContent.Sample

def message (eventId : Nat) (eventType : String) (content : JsonContent fun _ => none) :
    FlaggedEvent Nat (JsonContent fun _ => none) :=
  { stateEvent eventId eventType "" "@a:x" content with softFail := false }

def emptied : Batch Nat fun _ => none :=
  [message 1 "m.room.message" ⟨.object [], 1, .object .nil (by simp)⟩, message 2 mRoomRedaction (text fieldRedacts "1")]

end Sample

open Sample

theorem redactions_exact_emptied :
    ∃ after report, applyAuthorizedRedactionsWithStateAt (fun _ => some fun _ _ => none) .v2 "11" emptied = (after, report) ∧
      report.reported.Nodup ∧ after = emptied.map (stripped "11" report.applied) := by
  have distinct : DistinctIds emptied := by
    unfold DistinctIds
    decide
  obtain ⟨after, report, ran, ⟨nodup, _⟩, _, _, shape, _⟩ :=
    redactions_exact (fun _ => some fun _ _ => none) .v2 "11" emptied distinct
  exact ⟨after, report, ran, nodup, shape⟩

/-- The redaction is applied, and the content of its target is what it was. -/
theorem applied_unchanged :
    (applyAuthorizedRedactionsWithStateAt (fun _ => some fun _ _ => none) .v2 "11" emptied).2.applied = [(2, 1)] ∧
      (applyAuthorizedRedactionsWithStateAt (fun _ => some fun _ _ => none) .v2 "11" emptied).1.map
        (fun event => event.content) = emptied.map fun event => event.content := by
  constructor
  · decide
  · rfl

end Rezzy.Auth
