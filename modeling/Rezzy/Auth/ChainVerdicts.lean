import Mathlib.Logic.Relation
import Rezzy.Auth.Chain

namespace Rezzy.Auth

open Basespec Outcome Sample List Prod
open LeanEvent (eventId)

variable {Id C : Type}

def FollowsAuth (sortedEvents : List (LeanEvent Id C)) : Prop :=
  ∀ n : Fin sortedEvents.length, ∀ cited ∈ sortedEvents[n].authEvents,
    cited ∈ sortedEvents.map eventId → cited ∈ (sortedEvents.take n).map eventId

instance [DecidableEq Id] (sortedEvents : List (LeanEvent Id C)) : Decidable (FollowsAuth sortedEvents) :=
  inferInstanceAs (Decidable (∀ n : Fin sortedEvents.length, ∀ cited ∈ sortedEvents[n].authEvents,
    cited ∈ sortedEvents.map eventId → cited ∈ (sortedEvents.take n).map eventId))

def CitesWithin (sortedEvents : List (LeanEvent Id C)) (child parent : Id) : Prop :=
  parent ∈ sortedEvents.map eventId ∧
    ∃ event ∈ sortedEvents, event.eventId = child ∧ parent ∈ event.authEvents

structure Sorted (sortedEvents seen : List (LeanEvent Id C)) (run : ChainRun Id C) : Prop where
  accepted : run.accepted.Sublist (seen.map eventId)
  rejected : (run.rejected.map Prod.fst).Sublist (seen.map eventId)
  listed : ∀ id, id ∈ run.rejectedIds ↔ id ∈ run.rejected.map Prod.fst
  settled : ∀ id ∈ seen.map eventId, id ∈ run.accepted ∨ id ∈ run.rejectedIds
  disjoint : ∀ id ∈ run.accepted, id ∉ run.rejectedIds
  grounded : ∀ event ∈ seen, event.eventId ∈ run.accepted → ∀ cited ∈ event.authEvents,
    cited ∈ sortedEvents.map eventId → cited ∈ run.accepted

namespace Sorted

variable {sortedEvents seen : List (LeanEvent Id C)} {run : ChainRun Id C} {event : LeanEvent Id C}

theorem start (initialState : RoomState Id C) : Sorted sortedEvents [] (.start initialState) where
  accepted := .slnil
  rejected := .slnil
  listed := by simp [ChainRun.start]
  settled := by simp
  disjoint := by simp [ChainRun.start]
  grounded := by simp

section

variable (sorted : Sorted sortedEvents seen run) (fresh : event.eventId ∉ seen.map eventId)
include sorted fresh

theorem fresh_accepted : event.eventId ∉ run.accepted :=
  fun old => fresh (sorted.accepted.subset old)

theorem fresh_rejected : event.eventId ∉ run.rejectedIds :=
  fun old => fresh (sorted.rejected.subset ((sorted.listed _).mp old))

theorem accept (follows : ∀ cited ∈ event.authEvents, cited ∈ sortedEvents.map eventId → cited ∈ seen.map eventId)
    (clean : ∀ cited ∈ event.authEvents, cited ∉ run.rejectedIds) :
    Sorted sortedEvents (seen ++ [event]) (run.accept event) where
  accepted := by
    rw [map_append]
    exact sorted.accepted.append (List.Sublist.refl _)
  rejected := by
    rw [map_append]
    exact sorted.rejected.trans (sublist_append_left _ _)
  listed := sorted.listed
  settled := by
    intro id mem
    rw [map_append, mem_append] at mem
    rcases mem with old | new
    · exact (sorted.settled id old).imp_left (mem_append_left _)
    · exact .inl (mem_append_right _ new)
  disjoint := by
    intro id kept
    rcases mem_append.mp kept with old | new
    · exact sorted.disjoint id old
    · rw [mem_singleton.mp new]
      exact sorted.fresh_rejected fresh
  grounded := by
    intro other mem kept cited cites inside
    apply mem_append_left
    rcases mem_append.mp mem with old | new
    · rcases mem_append.mp kept with oldKept | newKept
      · exact sorted.grounded other old oldKept cited cites inside
      · exact absurd (mem_map_of_mem old) (mem_singleton.mp newKept ▸ fresh)
    · obtain rfl := mem_singleton.mp new
      exact (sorted.settled cited (follows cited cites inside)).resolve_right (clean cited cites)

theorem reject (error : AuthError Id) : Sorted sortedEvents (seen ++ [event]) (run.reject event error) where
  accepted := by
    rw [map_append]
    exact sorted.accepted.trans (sublist_append_left _ _)
  rejected := by
    rw [ChainRun.reject, map_append, map_append]
    exact sorted.rejected.append (List.Sublist.refl _)
  listed := by
    intro id
    rw [ChainRun.reject, mem_cons, sorted.listed, map_append, mem_append, or_comm]
    simp
  settled := by
    intro id mem
    rw [map_append, mem_append] at mem
    rcases mem with old | new
    · exact (sorted.settled id old).imp_right (mem_cons_of_mem _)
    · exact .inr (mem_cons.mpr (.inl (mem_singleton.mp new)))
  disjoint := by
    intro id kept turned
    rcases mem_cons.mp turned with new | old
    · exact sorted.fresh_accepted fresh (new ▸ kept)
    · exact sorted.disjoint id kept old
  grounded := by
    intro other mem kept
    rcases mem_append.mp mem with old | new
    · exact sorted.grounded other old kept
    · exact absurd (mem_singleton.mp new ▸ kept) (sorted.fresh_accepted fresh)

end

theorem ancestor_accepted (sorted : Sorted sortedEvents sortedEvents run) (kept : descendant ∈ run.accepted)
    (path : Relation.TransGen (CitesWithin sortedEvents) descendant ancestor) : ancestor ∈ run.accepted := by
  induction path with
  | single cites =>
    obtain ⟨inside, event, mem, own, cited⟩ := cites
    exact sorted.grounded event mem (own ▸ kept) _ cited inside
  | tail path cites ih =>
    obtain ⟨inside, event, mem, own, cited⟩ := cites
    exact sorted.grounded event mem (own ▸ ih) _ cited inside

end Sorted

section

variable [DecidableEq Id] [ToString Id] [EventContent C] {sortedEvents : List (LeanEvent Id C)}
  {initialState : RoomState Id C} {version : StateResVersion}

theorem ChainRun.Accepts.clean {run : ChainRun Id C} (accepts : ChainRun.Accepts version eventMap run event) :
    ∀ cited ∈ event.authEvents, cited ∉ run.rejectedIds := by
  have pre := accepts.1
  obtain ⟨_, _, pre⟩ := bind_eq_ok.mp pre
  obtain ⟨_, _, pre⟩ := bind_eq_ok.mp pre
  obtain ⟨_, clean, _⟩ := bind_eq_ok.mp pre
  rw [checkNotCitingRejectedAuthEvent] at clean
  cases found : event.authEvents.find? (· ∈ run.rejectedIds) with
  | none =>
    intro cited cites turned
    exact absurd turned (by simpa using find?_eq_none.mp found cited cites)
  | some cited =>
    rw [found] at clean
    cases clean

variable (initialState version) in
theorem sorted_chainAt (distinct : (sortedEvents.map eventId).Nodup) (follows : FollowsAuth sortedEvents)
    {n : Nat} (within : n ≤ sortedEvents.length) :
    Sorted sortedEvents (sortedEvents.take n) (chainAt sortedEvents initialState version n) := by
  apply Trace.stateAt_invariant (fun n run => Sorted sortedEvents (sortedEvents.take n) run)
    (Sorted.start initialState) _ within
  intro n event next sorted
  have seen : sortedEvents.take (n + 1) = sortedEvents.take n ++ [event] := by
    rw [take_add_one, next, Option.toList_some]
  obtain ⟨inside, rfl⟩ := List.getElem?_eq_some_iff.mp next
  have fresh : sortedEvents[n].eventId ∉ (sortedEvents.take n).map eventId := by
    have split := distinct
    rw [← take_append_drop n sortedEvents, ← getElem_cons_drop inside, map_append, map_cons, nodup_append] at split
    intro old
    exact split.2.2 _ old _ (mem_cons_self ..) rfl
  rw [seen]
  rcases ChainRun.step_cases version (chainEventMap sortedEvents initialState)
    (chainAt sortedEvents initialState version n) sortedEvents[n] with ⟨accepts, stepped⟩ | ⟨_, error, stepped⟩
  · exact stepped ▸ sorted.accept fresh (follows ⟨n, inside⟩) accepts.clean
  · exact stepped ▸ sorted.reject fresh error

theorem mem_accepted_chainAt {id : Id} : id ∈ (chainAt sortedEvents initialState version n).accepted ↔
      ∃ k < n, ∃ event, AcceptedAt sortedEvents initialState version k event ∧ event.eventId = id := by
  induction n with
  | zero => simp [chainAt, ChainRun.start]
  | succ n ih =>
    cases next : sortedEvents[n]? with
    | none =>
      rw [chainAt, Trace.stateAt_past next, ← chainAt, ih]
      constructor
      · rintro ⟨k, before, accepted⟩
        exact ⟨k, Nat.lt_succ_of_lt before, accepted⟩
      · rintro ⟨k, before, event, accepted, own⟩
        rcases Nat.lt_succ_iff_lt_or_eq.mp before with before | rfl
        · exact ⟨k, before, event, accepted, own⟩
        · exact absurd (next.symm.trans accepted.1) (by simp)
    | some event =>
      rcases ChainRun.step_cases version (chainEventMap sortedEvents initialState)
        (chainAt sortedEvents initialState version n) event with ⟨accepts, stepped⟩ | ⟨refuses, error, stepped⟩
      · rw [chainAt_succ next, stepped, ChainRun.accept, mem_append, ih, mem_singleton]
        constructor
        · rintro (⟨k, before, accepted⟩ | rfl)
          · exact ⟨k, Nat.lt_succ_of_lt before, accepted⟩
          · exact ⟨n, Nat.lt_succ_self n, event, acceptedAt_iff.mpr ⟨next, accepts⟩, rfl⟩
        · rintro ⟨k, before, other, accepted, own⟩
          rcases Nat.lt_succ_iff_lt_or_eq.mp before with before | rfl
          · exact .inl ⟨k, before, other, accepted, own⟩
          · rw [Option.some.inj (next.symm.trans accepted.1)]
            exact .inr own.symm
      · rw [chainAt_succ next, stepped, ChainRun.reject, ih]
        constructor
        · rintro ⟨k, before, accepted⟩
          exact ⟨k, Nat.lt_succ_of_lt before, accepted⟩
        · rintro ⟨k, before, other, accepted, own⟩
          rcases Nat.lt_succ_iff_lt_or_eq.mp before with before | rfl
          · exact ⟨k, before, other, accepted, own⟩
          · have accepts := (acceptedAt_iff.mp accepted).2
            rw [Option.some.inj (accepted.1.symm.trans next)] at accepts
            exact absurd accepts refuses

theorem AcceptedAt.cites_create (accepted : AcceptedAt sortedEvents initialState version n event)
    (early : version.isV2_1Plus = false) (ordinary : event.eventType ≠ mRoomCreate) :
    ∃ createEv, chainState sortedEvents initialState version n mRoomCreate "" = some createEv ∧
      createEv.eventId ∈ event.authEvents := by
  have ok := checkAuth_ordinary (acceptedAt_iff.mp accepted).2.isOk ordinary
  iterate 4 obtain ⟨_, _, ok⟩ := isOk_bind ok
  obtain ⟨_, cited, _⟩ := isOk_bind ok
  rw [when, if_pos (by rintro rfl; cases early)] at cited
  obtain ⟨_, create, _⟩ := bind_eq_ok.mp cited
  rw [when, if_pos (by simp [early])] at create
  obtain ⟨createEv, found, cites⟩ := bind_eq_ok.mp create
  exact ⟨createEv, required_eq_ok found, not_not.mp (rejectIf_ok cites)⟩

/-- A rejection reaches everything that builds on the rejected event. -/
theorem checkAuthChain_rejection_spreads (sortedEvents : List (LeanEvent Id C)) (initialState : RoomState Id C)
    (version : StateResVersion) (distinct : (sortedEvents.map LeanEvent.eventId).Nodup)
    (follows : FollowsAuth sortedEvents) :
    let verdicts := checkAuthChain sortedEvents initialState version
    verdicts.1.Sublist (sortedEvents.map eventId) ∧
      (verdicts.2.map fst).Sublist (sortedEvents.map eventId) ∧
      (∀ event ∈ sortedEvents, Xor (event.eventId ∈ verdicts.1) (event.eventId ∈ verdicts.2.map fst)) ∧
      (∀ descendant ancestor, descendant ∈ verdicts.1 →
        Relation.TransGen (CitesWithin sortedEvents) descendant ancestor → ancestor ∉ verdicts.2.map fst) ∧
      (version.isV2_1Plus = false → ∀ n event, sortedEvents[n]? = some event → event.eventId ∈ verdicts.1 →
        event.eventType ≠ mRoomCreate →
        ∃ createEv, chainState sortedEvents initialState version n mRoomCreate "" = some createEv ∧
          createEv.eventId ∈ event.authEvents) := by
  have last : runAuthChain sortedEvents initialState version =
      chainAt sortedEvents initialState version sortedEvents.length := Trace.stateAt_length.symm
  have sorted : Sorted sortedEvents sortedEvents (runAuthChain sortedEvents initialState version) := by
    have run := sorted_chainAt initialState version distinct follows (Nat.le_refl sortedEvents.length)
    rwa [take_length, ← last] at run
  refine ⟨sorted.accepted, sorted.rejected, ?_, ?_, ?_⟩
  · intro event member
    have settled := sorted.settled event.eventId (mem_map_of_mem member)
    rw [sorted.listed] at settled
    rcases settled with kept | turned
    · exact .inl ⟨kept, fun turned => sorted.disjoint _ kept ((sorted.listed _).mpr turned)⟩
    · exact .inr ⟨turned, fun kept => sorted.disjoint _ kept ((sorted.listed _).mpr turned)⟩
  · intro descendant ancestor kept path turned
    exact sorted.disjoint _ (sorted.ancestor_accepted kept path) ((sorted.listed _).mpr turned)
  · intro early n event next kept ordinary
    have kept : event.eventId ∈ (runAuthChain sortedEvents initialState version).accepted := kept
    rw [last] at kept
    obtain ⟨k, _, other, accepted, own⟩ := mem_accepted_chainAt.mp kept
    have same : k = n := by
      have left : (sortedEvents.map eventId)[k]? = some event.eventId := by
        rw [getElem?_map, accepted.1, Option.map_some, own]
      have right : (sortedEvents.map eventId)[n]? = some event.eventId := by
        rw [getElem?_map, next, Option.map_some]
      obtain ⟨inside, _⟩ := List.getElem?_eq_some_iff.mp left
      exact (getElem?_inj inside distinct).mp (left.trans right.symm)
    subst same
    obtain rfl := Option.some.inj (accepted.1.symm.trans next)
    exact accepted.cites_create early ordinary

end

theorem checkAuthChain_rejection_spreads_ban :
    let verdicts := checkAuthChain banRun ∅ .v2
    verdicts.1.Sublist (banRun.map eventId) ∧
      (verdicts.2.map fst).Sublist (banRun.map eventId) ∧
      (∀ event ∈ banRun, Xor (event.eventId ∈ verdicts.1) (event.eventId ∈ verdicts.2.map fst)) ∧
      (∀ descendant ancestor, descendant ∈ verdicts.1 →
        Relation.TransGen (CitesWithin banRun) descendant ancestor → ancestor ∉ verdicts.2.map fst) ∧
      (StateResVersion.v2.isV2_1Plus = false → ∀ n event, banRun[n]? = some event →
        event.eventId ∈ verdicts.1 → event.eventType ≠ mRoomCreate →
        ∃ createEv, chainState banRun ∅ .v2 n mRoomCreate "" = some createEv ∧
          createEv.eventId ∈ event.authEvents) :=
  checkAuthChain_rejection_spreads banRun ∅ .v2 (by decide) (by decide)

end Rezzy.Auth
