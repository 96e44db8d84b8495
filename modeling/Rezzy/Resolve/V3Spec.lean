import Mathlib.Data.Finset.Card
import Rezzy.Resolve.V3

namespace Rezzy.Resolve

open List hiding getElem?_map
open Basespec Permuted Outcome Except Prod CausalRelationCache Std.ExtTreeMap

variable {Id C : Type} [LinearOrder Id]

section

variable (admission : V3AdmissionProvider Id C)

def MaximalAmong (writers : List Id) (candidate : Id) : Prop :=
  ∀ other ∈ writers, other ≠ candidate → admission.causallyPrecedes candidate other = .ok false

def NotAbove (left right : Id) : Prop :=
  ∃ lower upper, admission.admission left = some lower ∧ admission.admission right = some upper ∧
    toLex (lower.rank, left) ≤ toLex (upper.rank, right)

def CacheSound (cache : CausalRelationCache Id) : Prop :=
  ∀ ancestor descendant result, cache.lookup (ancestor, descendant) = some result →
    admission.causallyPrecedes ancestor descendant = .ok result

variable {admission}

/-- The only failures are errors that the source reports; its expectations hold. -/
def Reported (failure : V3Failure Id) : Prop := ∃ reason, failure = .error reason

theorem precedes_ensures (sound : CacheSound admission cache) (ancestor descendant : Id) :
    Ensures Reported (fun answer => admission.causallyPrecedes ancestor descendant = .ok answer.1 ∧
      CacheSound admission answer.2) (precedes admission cache ancestor descendant) := by
  unfold precedes
  cases cached : cache.lookup (ancestor, descendant) with
  | some known => exact .ok ⟨sound _ _ _ cached, sound⟩
  | none =>
    cases asked : admission.causallyPrecedes ancestor descendant with
    | error reason => exact .error ⟨reason, rfl⟩
    | ok answer =>
      refine .ok ⟨rfl, fun a d known found => ?_⟩
      rw [lookup_cons] at found
      split at found
      · rename_i same
        obtain ⟨rfl, rfl⟩ := Prod.mk.inj (eq_of_beq same)
        rw [asked, Option.some.inj found]
      · exact sound a d known found

theorem isMaximal_ensures (sound : CacheSound admission cache) (candidate : Id) (others : List Id) :
    Ensures Reported (fun answer => CacheSound admission answer.2 ∧
      (answer.1 = true ↔ MaximalAmong admission others candidate)) (isMaximal admission candidate others cache) := by
  induction others generalizing cache with
  | nil => exact .ok ⟨sound, by simp [MaximalAmong]⟩
  | cons other others ih =>
    rw [isMaximal]
    by_cases same : candidate = other
    · rw [if_pos same]
      refine (ih sound).mono fun answer maximal => ⟨maximal.1, maximal.2.trans ?_⟩
      simp [MaximalAmong, same]
    · rw [if_neg same]
      have asked := precedes_ensures sound candidate other
      generalize precedes admission cache candidate other = outcome at asked ⊢
      cases asked with
      | error expected => exact .error expected
      | @ok answer holds =>
        obtain ⟨result, between⟩ := answer
        obtain ⟨precedes, kept⟩ := holds
        cases result with
        | true =>
          refine .ok ⟨kept, iff_of_false Bool.false_ne_true fun maximal => ?_⟩
          have unrelated := maximal other (.head _) (Ne.symm same)
          rw [precedes] at unrelated
          cases unrelated
        | false =>
          refine (ih kept).mono fun answer maximal => ⟨maximal.1, maximal.2.trans
            ⟨fun rest x member differ => ?_, fun all x member => all x (.tail _ member)⟩⟩
          rcases mem_cons.mp member with rfl | member
          · exact precedes
          · exact rest x member differ

theorem maximalWriters_ensures (sound : CacheSound admission cache) (writers candidates : List Id) :
    Ensures Reported (fun answer => CacheSound admission answer.2 ∧
      ∀ id, id ∈ answer.1 ↔ id ∈ candidates ∧ MaximalAmong admission writers id)
      (maximalWriters admission writers candidates cache) := by
  induction candidates generalizing cache with
  | nil => exact .ok ⟨sound, by simp⟩
  | cons candidate candidates ih =>
    refine (isMaximal_ensures sound candidate writers).bind ?_
    rintro ⟨result, between⟩ ⟨kept, own⟩
    refine (ih kept).bind ?_
    rintro ⟨rest, last⟩ ⟨kept', members⟩
    refine .ok ⟨kept', fun id => ?_⟩
    cases result with
    | true =>
      rw [if_pos rfl, mem_cons, mem_cons, members, or_and_right]
      refine or_congr_left ⟨fun same => ⟨same, same ▸ own.mp rfl⟩, And.left⟩
    | false =>
      rw [if_neg Bool.false_ne_true, mem_cons, members, or_and_right]
      refine ⟨.inr, fun either => either.resolve_left ?_⟩
      rintro ⟨rfl, maximal⟩
      cases own.mpr maximal

def Certified (admission : V3AdmissionProvider Id C) (writers : List Id) : Prop := ∀ id ∈ writers, (admission.admission id).isSome

theorem NotAbove.refl {id : Id} (certified : (admission.admission id).isSome) : NotAbove admission id id := by
  obtain ⟨certificate, found⟩ := Option.isSome_iff_exists.mp certified
  exact ⟨certificate, certificate, found, found, le_refl _⟩

theorem NotAbove.trans {first second third : Id} (below : NotAbove admission first second)
    (above : NotAbove admission second third) : NotAbove admission first third := by
  obtain ⟨lower, middle, found, known, le⟩ := below
  obtain ⟨same, upper, known', found', le'⟩ := above
  obtain rfl := Option.some.inj (known.symm.trans known')
  exact ⟨lower, upper, found, found', le.trans le'⟩

theorem keepGreater_ok {left right : Id} (certified : (admission.admission left).isSome)
    (certified' : (admission.admission right).isSome) :
    ∃ kept, keepGreater admission left right = .ok kept ∧ (kept = left ∨ kept = right) ∧
      NotAbove admission left kept ∧ NotAbove admission right kept := by
  obtain ⟨leftRank, found⟩ := Option.isSome_iff_exists.mp certified
  obtain ⟨rightRank, found'⟩ := Option.isSome_iff_exists.mp certified'
  have compares : (compare leftRank.rank rightRank.rank).then (compare left right) = .gt ↔
      toLex (rightRank.rank, right) < toLex (leftRank.rank, left) := by
    rw [Ordering.then_eq_gt, compare_gt_iff_gt, compare_eq_iff_eq, compare_gt_iff_gt, Prod.Lex.toLex_lt_toLex]
    exact or_congr_right (and_congr_left' eq_comm)
  unfold keepGreater certifiedRank
  rw [found, found']
  dsimp only [bind, Except.bind, pure, Except.pure]
  by_cases greater : toLex (rightRank.rank, right) < toLex (leftRank.rank, left)
  · rw [if_pos (compares.mpr greater)]
    exact ⟨left, rfl, .inl rfl, .refl certified, rightRank, leftRank, found', found, greater.le⟩
  · rw [if_neg (mt compares.mp greater)]
    exact ⟨right, rfl, .inr rfl, ⟨leftRank, rightRank, found, found', not_lt.mp greater⟩, .refl certified'⟩

theorem keepGreatest_ok (certified : Certified admission (first :: rest)) :
    ∃ winner, rest.foldlM (keepGreater admission) first = .ok winner ∧ winner ∈ first :: rest ∧
      ∀ id ∈ first :: rest, NotAbove admission id winner := by
  induction rest generalizing first with
  | nil =>
    refine ⟨first, rfl, .head _, fun id member => ?_⟩
    rw [mem_singleton.mp member]
    exact .refl (certified first (.head _))
  | cons next rest ih =>
    obtain ⟨kept, ran, either, firstBelow, nextBelow⟩ :=
      keepGreater_ok (certified first (.head _)) (certified next (.tail _ (.head _)))
    have others : Certified admission (kept :: rest) := by
      intro id member
      rcases mem_cons.mp member with rfl | member
      · rcases either with rfl | rfl
        · exact certified _ (.head _)
        · exact certified _ (.tail _ (.head _))
      · exact certified id (.tail _ (.tail _ member))
    obtain ⟨winner, folded, member, greatest⟩ := ih others
    refine ⟨winner, ?_, ?_, ?_⟩
    · rw [foldlM_cons, ran]
      exact folded
    · rcases mem_cons.mp member with rfl | member
      · rcases either with rfl | rfl
        · exact .head _
        · exact .tail _ (.head _)
      · exact .tail _ (.tail _ member)
    · intro id member
      rcases mem_cons.mp member with rfl | member
      · exact firstBelow.trans (greatest kept (.head _))
      · rcases mem_cons.mp member with rfl | member
        · exact nextBelow.trans (greatest kept (.head _))
        · exact greatest id (.tail _ member)

structure Wins (admission : V3AdmissionProvider Id C) (writers : List Id) (winner : Id) : Prop where
  member : winner ∈ writers
  maximal : MaximalAmong admission writers winner
  greatest : ∀ other ∈ writers, MaximalAmong admission writers other → NotAbove admission other winner

theorem selectWriter_ensures (certified : Certified admission writers) (sound : CacheSound admission cache) :
    Ensures Reported (fun answer => CacheSound admission answer.2 ∧ Wins admission writers answer.1)
      (selectWriter admission writers cache) := by
  refine (maximalWriters_ensures sound writers writers).bind ?_
  rintro ⟨maximal, between⟩ ⟨kept, members⟩
  cases maximal with
  | nil => exact .error ⟨_, rfl⟩
  | cons first rest =>
    have own : Certified admission (first :: rest) := fun id member =>
      certified id ((members id).mp member).1
    obtain ⟨greatest, folded, member, above⟩ := keepGreatest_ok own
    obtain ⟨listed, maximal⟩ := (members _).mp member
    dsimp only
    rw [folded]
    exact .ok ⟨kept, listed, maximal, fun other inside otherMaximal => above other ((members other).mpr ⟨inside, otherMaximal⟩)⟩

theorem selectRound_ensures (certified : ∀ entry ∈ entries, Certified admission entry.2) (sound : CacheSound admission cache) :
    Ensures Reported (fun answer => CacheSound admission answer.2 ∧
      answer.1.map RoundSelection.key = entries.map Prod.fst ∧ ∀ selection ∈ answer.1, ∃ writers,
        (selection.key, writers) ∈ entries ∧ Wins admission writers selection.eventId)
      (selectRound admission entries cache) := by
  induction entries generalizing cache with
  | nil => exact .ok ⟨sound, rfl, by simp⟩
  | cons entry entries ih =>
    obtain ⟨key, writers⟩ := entry
    refine (selectWriter_ensures (certified _ (.head _)) sound).bind ?_
    rintro ⟨winner, between⟩ ⟨kept, wins⟩
    refine (ih (fun entry member => certified entry (.tail _ member)) kept).bind ?_
    rintro ⟨rest, last⟩ ⟨kept', keys, all⟩
    refine .ok ⟨kept', congrArg (key :: ·) keys, fun selection member => ?_⟩
    rcases mem_cons.mp member with rfl | member
    · exact ⟨writers, .head _, wins⟩
    · obtain ⟨own, listed, wins⟩ := all selection member
      exact ⟨own, .tail _ listed, wins⟩

def ErrorsOnly {α : Type} (outcome : Except (V3Failure Id) α) : Prop :=
  ∀ failure, outcome = .error failure → ∃ reason, failure = .error reason

end

section

variable {unconflictedState : SharedState Id} {conflictedEvents : ConflictedEvents Id C}
  {admission : V3AdmissionProvider Id C}

omit [LinearOrder Id] in
theorem getElem?_stateForRound (nodup : (selections.map RoundSelection.key).Nodup) :
    (∀ selection ∈ selections, (stateForRound unconflictedState selections)[selection.key]? = some selection.eventId) ∧
    ∀ key, key ∉ selections.map RoundSelection.key →
      (stateForRound unconflictedState selections)[key]? = unconflictedState[key]? := by
  induction selections generalizing unconflictedState with
  | nil => exact ⟨by simp, fun _ _ => rfl⟩
  | cons first selections ih =>
    rw [map_cons, nodup_cons] at nodup
    obtain ⟨written, others⟩ := @ih (unconflictedState.insert first.key first.eventId) nodup.2
    constructor
    · intro selection member
      rcases mem_cons.mp member with rfl | member
      · refine (others _ nodup.1).trans ?_
        rw [getElem?_insert_key, if_pos rfl]
      · exact written selection member
    · intro key absent
      rw [map_cons, mem_cons, not_or] at absent
      refine (others key absent.2).trans ?_
      rw [getElem?_insert_key, if_neg absent.1]

def Judged (conflictedEvents : ConflictedEvents Id C) (admission : V3AdmissionProvider Id C)
    (state : SharedState Id) (id : Id) (authorized : Bool) : Prop :=
  ∃ event, conflictedEvents.get id = some event ∧ admission.jointlyAuthorized event state = .ok authorized

theorem rejectSelections_ensures (state : SharedState Id) {selections : List (RoundSelection Id)}
    (known : ∀ selection ∈ selections, (conflictedEvents.get selection.eventId).isSome) (before : List Id) :
    Ensures Reported (fun rejected => (∀ selection ∈ selections, ∃ authorized,
        Judged conflictedEvents admission state selection.eventId authorized) ∧
      ∀ id, id ∈ rejected ↔ id ∈ before ∨ ∃ selection ∈ selections, selection.eventId = id ∧
        Judged conflictedEvents admission state id false)
      (selections.foldlM (rejectSelection conflictedEvents admission state) before) := by
  induction selections generalizing before with
  | nil => exact .ok (by simp)
  | cons selection selections ih =>
    rw [foldlM_cons]
    obtain ⟨event, found⟩ := Option.isSome_iff_exists.mp (known selection (.head _))
    have later := ih fun other member => known other (.tail _ member)
    unfold rejectSelection
    rw [found]
    dsimp only
    cases asked : admission.jointlyAuthorized event state with
    | error reason => exact .error ⟨reason, rfl⟩
    | ok authorized =>
      have own : ∀ verdict, Judged conflictedEvents admission state selection.eventId verdict ↔
          verdict = authorized := by
        intro verdict
        constructor
        · rintro ⟨other, found', answer⟩
          obtain rfl := Option.some.inj (found.symm.trans found')
          exact Except.ok.inj (answer.symm.trans asked)
        · rintro rfl
          exact ⟨event, found, asked⟩
      refine (later _).mono ?_
      rintro rejected ⟨verdicts, members⟩
      refine ⟨forall_mem_cons.mpr ⟨⟨authorized, (own _).mpr rfl⟩, verdicts⟩, fun id => ?_⟩
      rw [members, exists_mem_cons_iff, ← or_assoc]
      refine or_congr_left ?_
      cases authorized with
      | true =>
        refine ⟨.inl, fun either => either.resolve_right ?_⟩
        rintro ⟨rfl, denied⟩
        cases (own _).mp denied
      | false =>
        rw [if_neg Bool.false_ne_true, mem_append, mem_singleton]
        refine or_congr_right ⟨?_, fun rejected => rejected.1.symm⟩
        rintro rfl
        exact ⟨rfl, (own _).mpr rfl⟩

def AdmittedWriterIndex.writersOf (index : AdmittedWriterIndex Id) (key : Key) : List Id :=
  index.writers[key]?.getD []

theorem AdmittedWriterIndex.mem_writersOf_removeAll (index : AdmittedWriterIndex Id) (rejected : List Id) (key : Key)
    (id : Id) : id ∈ (index.removeAll rejected).writersOf key ↔ id ∈ index.writersOf key ∧ id ∉ rejected := by
  unfold AdmittedWriterIndex.writersOf AdmittedWriterIndex.removeAll
  rw [getElem?_filter', getElem?_map]
  cases found : index.writers[key]? with
  | none => simp
  | some writers =>
    have kept : ∀ ids : List Id, ((some ids).filter fun ids => decide (ids ≠ [])).getD [] = ids := by
      intro ids
      cases ids <;> rfl
    rw [Option.map_some, kept, mem_filter, decide_eq_true_eq]
    rfl

structure Sound (conflictedEvents : ConflictedEvents Id C) (admission : V3AdmissionProvider Id C)
    (index : AdmittedWriterIndex Id) (cache : CausalRelationCache Id) : Prop where
  certified : ∀ key, Certified admission (index.writersOf key)
  known : ∀ key, ∀ id ∈ index.writersOf key, (conflictedEvents.get id).isSome
  cache : CacheSound admission cache

variable {index : AdmittedWriterIndex Id} {cache after : CausalRelationCache Id} {round : RepairRound Id}

theorem Sound.removeAll (sound : Sound conflictedEvents admission index cache) (rejected : List Id)
    (kept : CacheSound admission after) : Sound conflictedEvents admission (index.removeAll rejected) after where
  certified key id member := sound.certified key id ((index.mem_writersOf_removeAll rejected key id).mp member).1
  known key id member := sound.known key id ((index.mem_writersOf_removeAll rejected key id).mp member).1
  cache := kept

omit [LinearOrder Id] in
theorem mem_index_toList (member : (key, writers) ∈ index.writers.toList) : index.writersOf key = writers := by
  rw [AdmittedWriterIndex.writersOf, mem_toList_iff_getElem?_eq_some.mp member, Option.getD_some]

theorem Sound.entries (sound : Sound conflictedEvents admission index cache) :
    ∀ entry ∈ index.writers.toList, Certified admission entry.2 := by
  rintro ⟨key, writers⟩ member
  exact mem_index_toList member ▸ sound.certified key

/-- A round selects the winner of every key that has writers, and rejects the winners that the state made up of
    them all does not admit. -/
structure RoundOf (unconflictedState : SharedState Id) (conflictedEvents : ConflictedEvents Id C)
    (admission : V3AdmissionProvider Id C) (index : AdmittedWriterIndex Id) (round : RepairRound Id) : Prop where
  nodup : (round.selections.map RoundSelection.key).Nodup
  keys : ∀ key, key ∈ round.selections.map RoundSelection.key ↔ index.writersOf key ≠ []
  wins : ∀ selection ∈ round.selections, Wins admission (index.writersOf selection.key) selection.eventId
  judged : ∀ selection ∈ round.selections, ∃ authorized, Judged conflictedEvents admission
    (stateForRound unconflictedState round.selections) selection.eventId authorized
  rejected : ∀ id, id ∈ round.rejected ↔ ∃ selection ∈ round.selections, selection.eventId = id ∧
    Judged conflictedEvents admission (stateForRound unconflictedState round.selections) id false

theorem repairRound_ensures (sound : Sound conflictedEvents admission index cache) :
    Ensures Reported (fun answer => CacheSound admission answer.2 ∧
      RoundOf unconflictedState conflictedEvents admission index answer.1)
      (repairRound unconflictedState conflictedEvents admission index cache) := by
  refine (selectRound_ensures sound.entries sound.cache).bind ?_
  rintro ⟨selections, between⟩ ⟨kept, keys, all⟩
  have wins : ∀ selection ∈ selections, Wins admission (index.writersOf selection.key) selection.eventId := by
    intro selection member
    obtain ⟨writers, listed, wins⟩ := all selection member
    exact mem_index_toList listed ▸ wins
  have known : ∀ selection ∈ selections, (conflictedEvents.get selection.eventId).isSome :=
    fun selection member => sound.known selection.key _ (wins selection member).member
  suffices judged : Ensures Reported (RoundOf unconflictedState conflictedEvents admission index) (evaluateRound
      conflictedEvents admission selections (stateForRound unconflictedState selections)) from
    judged.bind fun round chosen => .ok ⟨kept, chosen⟩
  refine (rejectSelections_ensures _ known []).bind ?_
  rintro rejected ⟨verdicts, members⟩
  refine .ok ⟨keys ▸ nodup_keys_toList _, fun key => ⟨?_, fun some => ?_⟩, wins, verdicts, fun id => ?_⟩
  · intro member
    obtain ⟨selection, listed, rfl⟩ := mem_map.mp member
    exact ne_nil_of_mem (wins selection listed).member
  · rw [keys]
    cases found : index.writers[key]? with
    | none =>
      rw [AdmittedWriterIndex.writersOf, found] at some
      exact absurd rfl some
    | some writers =>
      exact mem_map.mpr ⟨(key, writers), Std.ExtTreeMap.mem_toList_iff_getElem?_eq_some.mpr found, rfl⟩
  · rw [mem_dedup, mem_insertionSort, members]
    simp

/-- The rounds of the loop, each on what the rounds before it left, up to one that rejects nothing. -/
inductive RoundsFrom (unconflictedState : SharedState Id) (conflictedEvents : ConflictedEvents Id C)
    (admission : V3AdmissionProvider Id C) :
    AdmittedWriterIndex Id → CausalRelationCache Id → List (RepairRound Id) → RepairRound Id → Prop
  | last {index cache after last}
      (ran : repairRound unconflictedState conflictedEvents admission index cache = .ok (last, after))
      (accepted : last.rejected = []) :
      RoundsFrom unconflictedState conflictedEvents admission index cache [last] last
  | more {index cache after round rounds last}
      (ran : repairRound unconflictedState conflictedEvents admission index cache = .ok (round, after))
      (failed : round.rejected ≠ [])
      (rest : RoundsFrom unconflictedState conflictedEvents admission (index.removeAll round.rejected) after rounds last) :
      RoundsFrom unconflictedState conflictedEvents admission index cache (round :: rounds) last

theorem repair_ok (ran : repair unconflictedState conflictedEvents admission rounds index cache = some (.ok state)) :
    ∃ trace last, RoundsFrom unconflictedState conflictedEvents admission index cache trace last ∧
      state = stateForRound unconflictedState last.selections := by
  induction rounds generalizing index cache with
  | zero => cases ran
  | succ rounds ih =>
    rw [repair] at ran
    cases turn : repairRound unconflictedState conflictedEvents admission index cache with
    | error failure => simp [turn] at ran
    | ok outcome =>
      obtain ⟨round, after⟩ := outcome
      simp only [turn] at ran
      by_cases accepted : round.rejected = []
      · rw [if_pos accepted] at ran
        exact ⟨[round], round, .last turn accepted, (ok.inj (Option.some.inj ran)).symm⟩
      · rw [if_neg accepted] at ran
        obtain ⟨trace, last, rest, same⟩ := ih ran
        exact ⟨round :: trace, last, .more turn accepted rest, same⟩

theorem repair_terminates (alive : Finset Id) (bound : alive.card < rounds)
    (sound : Sound conflictedEvents admission index cache) (inside : ∀ key, ∀ id ∈ index.writersOf key, id ∈ alive) :
    ∃ outcome, repair unconflictedState conflictedEvents admission rounds index cache = some outcome ∧
      ErrorsOnly outcome := by
  induction rounds generalizing index cache alive with
  | zero => exact absurd bound (Nat.not_lt_zero _)
  | succ rounds ih =>
    rw [repair]
    cases turn : repairRound unconflictedState conflictedEvents admission index cache with
    | error failure =>
      refine ⟨_, rfl, fun other same => ?_⟩
      obtain rfl := error.inj same
      exact (repairRound_ensures sound).allowed_of turn
    | ok outcome =>
      obtain ⟨round, after⟩ := outcome
      obtain ⟨kept, chosen⟩ := (repairRound_ensures sound).post_of turn
      dsimp only
      by_cases accepted : round.rejected = []
      · rw [if_pos accepted]
        exact ⟨_, rfl, fun _ failed => nomatch failed⟩
      · rw [if_neg accepted]
        obtain ⟨id, member⟩ := exists_mem_of_ne_nil _ accepted
        obtain ⟨selection, listed, rfl, _⟩ := (chosen.rejected id).mp member
        have was := inside _ _ (chosen.wins selection listed).member
        apply ih (alive.filter (· ∉ round.rejected)) _ (sound.removeAll _ kept)
        · intro key other survivor
          obtain ⟨old, stays⟩ := (index.mem_writersOf_removeAll _ _ _).mp survivor
          exact Finset.mem_filter.mpr ⟨inside key other old, stays⟩
        · have fewer : (alive.filter (· ∉ round.rejected)).card < alive.card := by
            apply Finset.card_lt_card
            refine Finset.filter_ssubset.mpr ⟨_, was, not_not.mpr member⟩
          omega

theorem RoundsFrom.spec {last : RepairRound Id}
    (rounds : RoundsFrom unconflictedState conflictedEvents admission index cache trace last)
    (sound : Sound conflictedEvents admission index cache) :
    ∃ final, RoundOf unconflictedState conflictedEvents admission final last ∧ last.rejected = [] ∧
      (∀ key id, id ∈ final.writersOf key ↔ id ∈ index.writersOf key ∧ ∀ round ∈ trace, id ∉ round.rejected) ∧
      ∀ round ∈ trace, ∀ id ∈ round.rejected,
        Judged conflictedEvents admission (stateForRound unconflictedState round.selections) id false := by
  induction rounds with
  | @last index cache after last ran accepted =>
    refine ⟨index, ((repairRound_ensures sound).post_of ran).2, accepted, fun key id => ?_, fun round member id rejected => ?_⟩
    · simp [accepted]
    · rw [mem_singleton.mp member, accepted] at rejected
      cases rejected
  | @more index cache after round rounds last ran failed rest ih =>
    obtain ⟨kept, chosen⟩ := (repairRound_ensures sound).post_of ran
    obtain ⟨final, ends, accepted, survivors, verdicts⟩ := ih (sound.removeAll _ kept)
    refine ⟨final, ends, accepted, fun key id => ?_, fun other member id rejected => ?_⟩
    · rw [survivors, index.mem_writersOf_removeAll, forall_mem_cons, and_assoc]
    · rcases mem_cons.mp member with rfl | member
      · obtain ⟨selection, listed, rfl, denied⟩ := (chosen.rejected id).mp rejected
        exact denied
      · exact verdicts other member id rejected

end

section

variable {conflictedEvents : ConflictedEvents Id C} {admission : V3AdmissionProvider Id C}

def Uncertified (admission : V3AdmissionProvider Id C) (event : LeanEvent Id C) : Prop :=
  event.stateKey.isSome ∧ admission.admission event.eventId = none

omit [LinearOrder Id] in
theorem admitWriters_certified {values : List (LeanEvent Id C)} (certified : ∀ event ∈ values, ¬Uncertified admission event)
    (before : List Id) :
    values.foldlM (admitWriter admission) before =
      .ok (before ++ (values.filter (·.stateKey.isSome)).map LeanEvent.eventId) := by
  induction values generalizing before with
  | nil => simp [pure, Except.pure]
  | cons event values ih =>
    have rest := ih fun other member => certified other (.tail _ member)
    rw [foldlM_cons]
    cases keyed : event.stateKey with
    | none =>
      have turn : admitWriter admission before event = .ok before := by simp [admitWriter, keyed]
      rw [turn, filter_cons, keyed]
      exact rest before
    | some stateKey =>
      have held : (admission.admission event.eventId).isNone = false := by
        rw [Option.isNone_eq_false_iff, Option.isSome_iff_ne_none]
        exact fun missing => certified event (.head _) ⟨by rw [keyed]; rfl, missing⟩
      have turn : admitWriter admission before event = .ok (before ++ [event.eventId]) := by
        simp [admitWriter, keyed, held]
      rw [turn, filter_cons, keyed]
      exact (rest (before ++ [event.eventId])).trans (by simp)

omit [LinearOrder Id] in
theorem admitWriters_uncertified {values : List (LeanEvent Id C)}
    (missing : ∃ event ∈ values, Uncertified admission event) (before : List Id) :
    ∃ event ∈ values, Uncertified admission event ∧ values.foldlM (admitWriter admission) before =
      .error (.error (.missingVerifiedAdmission event.eventId)) := by
  induction values generalizing before with
  | nil => simp at missing
  | cons event values ih =>
    by_cases own : Uncertified admission event
    · refine ⟨event, .head _, own, ?_⟩
      have keyed : event.stateKey.isNone = false := by
        rw [Option.isNone_eq_false_iff]
        exact own.1
      rw [foldlM_cons, admitWriter, keyed, own.2]
      rfl
    · have later : ∃ event ∈ values, Uncertified admission event := by
        obtain ⟨other, member, uncertified⟩ := missing
        rcases mem_cons.mp member with rfl | member
        · exact absurd uncertified own
        · exact ⟨other, member, uncertified⟩
      have turn : ∃ admitted, admitWriter admission before event = .ok admitted := by
        have single : ∀ other ∈ [event], ¬Uncertified admission other := by simpa using own
        have alone := admitWriters_certified single before
        rw [foldlM_cons] at alone
        obtain ⟨admitted, turn, _⟩ := bind_eq_ok.mp alone
        exact ⟨admitted, turn⟩
      obtain ⟨admitted, turn⟩ := turn
      obtain ⟨first, member, uncertified, ran⟩ := ih later admitted
      refine ⟨first, .tail _ member, uncertified, ?_⟩
      rw [foldlM_cons, turn]
      exact ran

def Writer (conflictedEvents : ConflictedEvents Id C) (key : Key) (id : Id) : Prop :=
  (∃ entry ∈ conflictedEvents.entries, entry.2.eventId = id ∧ entry.2.stateKey.isSome) ∧
    ∃ event, conflictedEvents.get id = some event ∧ event.key? = some key

theorem build_ensures (admitted : List Id) (start : AdmittedWriterIndex Id) :
    Ensures Reported (fun index => ∀ key id, id ∈ index.writersOf key ↔ id ∈ start.writersOf key ∨
      id ∈ admitted ∧ ∃ event, conflictedEvents.get id = some event ∧ event.key? = some key)
      (admitted.foldlM (AdmittedWriterIndex.add conflictedEvents) start) := by
  induction admitted generalizing start with
  | nil => exact .ok (by simp)
  | cons first admitted ih =>
    rw [foldlM_cons]
    have added : Ensures Reported (fun between => ∀ key id, id ∈ between.writersOf key ↔ id ∈ start.writersOf key ∨
        id = first ∧ ∃ event, conflictedEvents.get id = some event ∧ event.key? = some key)
        (AdmittedWriterIndex.add conflictedEvents start first) := by
      unfold AdmittedWriterIndex.add
      cases known : conflictedEvents.get first with
      | none => exact .error ⟨_, rfl⟩
      | some event =>
        have events (key : Key) (id : Id) :
            (id = first ∧ ∃ event, conflictedEvents.get id = some event ∧ event.key? = some key) ↔
              id = first ∧ event.key? = some key := by
          refine and_congr_right fun same => ?_
          rw [same, known]
          simp
        simp only [events]
        cases keyed : event.key? with
        | none => exact .ok (by simp)
        | some other =>
          refine .ok fun key id => ?_
          unfold AdmittedWriterIndex.writersOf
          rw [getElem?_insert_key]
          by_cases same : key = other
          · rw [if_pos same, same, Option.getD_some, mem_append, mem_singleton]
            simp
          · rw [if_neg same]
            simp [Ne.symm same]
    refine added.bind fun between own => (ih between).mono fun index members key id => ?_
    rw [members, own, mem_cons, or_and_right, or_assoc]

omit [LinearOrder Id] in
theorem mem_iterated (order : HashOrder V3Site) (event : LeanEvent Id C) :
    event ∈ (order.iter .conflictedEvents conflictedEvents.entries).map Prod.snd ↔
      ∃ entry ∈ conflictedEvents.entries, entry.2 = event := by
  rw [mem_map]
  simp only [(order.perm _ _).mem_iff]

theorem admittedIndex_uncertified (order : HashOrder V3Site)
    (missing : ∃ entry ∈ conflictedEvents.entries, Uncertified admission entry.2) :
    ∃ entry ∈ conflictedEvents.entries, Uncertified admission entry.2 ∧ admittedIndex conflictedEvents admission order =
        .error (.error (.missingVerifiedAdmission entry.2.eventId)) := by
  have some : ∃ event ∈ (order.iter .conflictedEvents conflictedEvents.entries).map snd,
      Uncertified admission event := by
    obtain ⟨entry, member, uncertified⟩ := missing
    exact ⟨entry.2, (mem_iterated order entry.2).mpr ⟨entry, member, rfl⟩, uncertified⟩
  obtain ⟨event, member, uncertified, ran⟩ := admitWriters_uncertified some []
  obtain ⟨entry, listed, rfl⟩ := (mem_iterated order event).mp member
  refine ⟨entry, listed, uncertified, ?_⟩
  unfold admittedIndex
  dsimp only
  rw [ran]
  rfl

theorem admittedIndex_certified (order : HashOrder V3Site)
    (certified : ∀ entry ∈ conflictedEvents.entries, ¬Uncertified admission entry.2) :
    ∃ sorted : List Id, sorted.Pairwise (· ≤ ·) ∧
      sorted.Perm (((conflictedEvents.entries.map snd).filter (·.stateKey.isSome)).map LeanEvent.eventId) ∧
      admittedIndex conflictedEvents admission order = (do
        let index ← AdmittedWriterIndex.build sorted conflictedEvents
        return (sorted, index)) := by
  have all : ∀ event ∈ (order.iter .conflictedEvents conflictedEvents.entries).map snd,
      ¬Uncertified admission event := by
    intro event member
    obtain ⟨entry, listed, rfl⟩ := (mem_iterated order event).mp member
    exact certified entry listed
  have ran := admitWriters_certified all []
  rw [nil_append] at ran
  refine ⟨((((order.iter .conflictedEvents conflictedEvents.entries).map snd).filter
    (·.stateKey.isSome)).map LeanEvent.eventId).insertionSort (· ≤ ·), pairwise_insertionSort _ _, ?_, ?_⟩
  · exact (perm_insertionSort _ _).trans ((((order.perm _ _).map _).filter _).map _)
  · unfold admittedIndex
    dsimp only
    rw [ran]
    rfl

theorem admittedIndex_ok (ran : admittedIndex conflictedEvents admission order = .ok (admitted, index)) :
    (∀ key id, id ∈ index.writersOf key ↔ Writer conflictedEvents key id) ∧
      (∀ key, ∀ id ∈ index.writersOf key, id ∈ admitted) ∧ Sound conflictedEvents admission index [] := by
  have certified : ∀ entry ∈ conflictedEvents.entries, ¬Uncertified admission entry.2 := by
    intro entry member uncertified
    obtain ⟨_, _, _, failed⟩ := admittedIndex_uncertified order ⟨entry, member, uncertified⟩
    rw [failed] at ran
    cases ran
  obtain ⟨sorted, _, listed, same⟩ := admittedIndex_certified order certified
  rw [same] at ran
  obtain ⟨built, added, ran⟩ := bind_eq_ok.mp ran
  obtain ⟨rfl, rfl⟩ := Prod.mk.inj (ok.inj ran)
  have inSorted : ∀ id, id ∈ sorted ↔ ∃ entry ∈ conflictedEvents.entries, entry.2.eventId = id ∧
      entry.2.stateKey.isSome := by
    intro id
    rw [listed.mem_iff]
    simp only [mem_map, mem_filter]
    constructor
    · rintro ⟨event, ⟨⟨entry, member, rfl⟩, keyed⟩, rfl⟩
      exact ⟨entry, member, rfl, keyed⟩
    · rintro ⟨entry, member, rfl, keyed⟩
      exact ⟨entry.2, ⟨⟨entry, member, rfl⟩, keyed⟩, rfl⟩
  have members := (build_ensures sorted ⟨∅⟩).post_of added
  have none : ∀ key, (⟨∅⟩ : AdmittedWriterIndex Id).writersOf key = [] := by
    intro key
    rw [AdmittedWriterIndex.writersOf, getElem?_empty]
    rfl
  have writers : ∀ key id, id ∈ built.writersOf key ↔ Writer conflictedEvents key id := by
    intro key id
    rw [members, none, inSorted, Writer]
    simp
  refine ⟨writers, fun key id member => ?_, fun key id member => ?_, fun key id member => ?_, ?_⟩
  · exact (inSorted id).mpr ((writers key id).mp member).1
  · obtain ⟨⟨entry, listed, rfl, keyed⟩, _⟩ := (writers key id).mp member
    rw [Option.isSome_iff_ne_none]
    exact fun missing => certified entry listed ⟨keyed, missing⟩
  · obtain ⟨_, event, found, _⟩ := (writers key id).mp member
    exact Option.isSome_iff_exists.mpr ⟨event, found⟩
  · intro _ _ _ found
    cases found

end

section

variable (unconflictedState : SharedState Id) (conflictedEvents : ConflictedEvents Id C)
  (admission : V3AdmissionProvider Id C)

theorem resolveV3_terminates (order : HashOrder V3Site) :
    ∃ outcome, resolveV3 unconflictedState conflictedEvents admission order = some outcome ∧ ErrorsOnly outcome := by
  unfold resolveV3
  cases admits : admittedIndex conflictedEvents admission order with
  | error failure =>
    refine ⟨_, rfl, fun other same => ?_⟩
    obtain rfl := error.inj same
    by_cases missing : ∃ entry ∈ conflictedEvents.entries, Uncertified admission entry.2
    · obtain ⟨_, _, _, failed⟩ := admittedIndex_uncertified order missing
      obtain rfl := error.inj (admits.symm.trans failed)
      exact ⟨_, rfl⟩
    · have certified : ∀ entry ∈ conflictedEvents.entries, ¬Uncertified admission entry.2 := fun entry member own =>
        missing ⟨entry, member, own⟩
      obtain ⟨sorted, _, _, same⟩ := admittedIndex_certified order certified
      have safe : Ensures Reported (fun _ => True) (AdmittedWriterIndex.build sorted conflictedEvents >>= fun index =>
          pure (sorted, index)) := (build_ensures sorted ⟨∅⟩).bind fun _ _ => .ok trivial
      exact safe.allowed_of (same.symm.trans admits)
  | ok outcome =>
    obtain ⟨admitted, index⟩ := outcome
    obtain ⟨_, inside, sound⟩ := admittedIndex_ok admits
    apply repair_terminates admitted.toFinset _ sound
    · exact fun key id member => mem_toFinset.mpr (inside key id member)
    · exact Nat.lt_succ_of_le admitted.toFinset_card_le

theorem resolveV3_certified (certified : ∀ entry ∈ conflictedEvents.entries, ¬Uncertified admission entry.2)
    (orderLeft orderRight : HashOrder V3Site) :
    resolveV3 unconflictedState conflictedEvents admission orderLeft =
      resolveV3 unconflictedState conflictedEvents admission orderRight := by
  obtain ⟨left, sortedLeft, listedLeft, sameLeft⟩ := admittedIndex_certified orderLeft certified
  obtain ⟨right, sortedRight, listedRight, sameRight⟩ := admittedIndex_certified orderRight certified
  have same : left = right := (listedLeft.trans listedRight.symm).eq_of_pairwise' sortedLeft sortedRight
  unfold resolveV3
  rw [sameLeft, sameRight, same]

/-- The loop ends, with a state that admits all its winners. The winner of a key is maximal among the writers that no
    round rejected. The order decides at most which missing certificate is reported. -/
theorem resolveV3_fixpoint :
    (∀ order, ∃ outcome, resolveV3 unconflictedState conflictedEvents admission order = some outcome ∧
      ErrorsOnly outcome) ∧
    (∀ order state, resolveV3 unconflictedState conflictedEvents admission order = some (.ok state) →
      ∃ admitted index trace last, admittedIndex conflictedEvents admission order = .ok (admitted, index) ∧
        RoundsFrom unconflictedState conflictedEvents admission index [] trace last ∧
        state = stateForRound unconflictedState last.selections ∧
        (∀ round ∈ trace, ∀ id ∈ round.rejected,
          Judged conflictedEvents admission (stateForRound unconflictedState round.selections) id false) ∧
        ∀ key, let survives := fun id => Writer conflictedEvents key id ∧ ∀ round ∈ trace, id ∉ round.rejected
          (∀ id, ¬survives id) ∧ state[key]? = unconflictedState[key]? ∨
          ∃ winner, survives winner ∧ state[key]? = some winner ∧
            Judged conflictedEvents admission state winner true ∧
            (∀ other, survives other → other ≠ winner → admission.causallyPrecedes winner other = .ok false) ∧
            ∀ other, survives other →
              (∀ third, survives third → third ≠ other → admission.causallyPrecedes other third = .ok false) →
                NotAbove admission other winner) ∧
    ((∀ entry ∈ conflictedEvents.entries, ¬Uncertified admission entry.2) → ∀ orderLeft orderRight,
      resolveV3 unconflictedState conflictedEvents admission orderLeft =
        resolveV3 unconflictedState conflictedEvents admission orderRight) ∧
    ((∃ entry ∈ conflictedEvents.entries, Uncertified admission entry.2) → ∀ order,
      ∃ entry ∈ conflictedEvents.entries, Uncertified admission entry.2 ∧
        resolveV3 unconflictedState conflictedEvents admission order =
          some (.error (.error (.missingVerifiedAdmission entry.2.eventId)))) := by
  refine ⟨resolveV3_terminates _ _ _, ?_, resolveV3_certified _ _ _, ?_⟩
  · intro order state ran
    unfold resolveV3 at ran
    cases admits : admittedIndex conflictedEvents admission order with
    | error failure => simp [admits] at ran
    | ok outcome =>
      obtain ⟨admitted, index⟩ := outcome
      simp only [admits] at ran
      obtain ⟨trace, last, rounds, rfl⟩ := repair_ok ran
      obtain ⟨writers, _, sound⟩ := admittedIndex_ok admits
      obtain ⟨final, ends, accepted, survivors, verdicts⟩ := rounds.spec sound
      refine ⟨admitted, index, trace, last, rfl, rounds, rfl, verdicts, fun key => ?_⟩
      dsimp only
      have survives : ∀ id, id ∈ final.writersOf key ↔
          Writer conflictedEvents key id ∧ ∀ round ∈ trace, id ∉ round.rejected := by
        intro id
        rw [survivors, writers]
      obtain ⟨written, others⟩ := @getElem?_stateForRound Id unconflictedState _ ends.nodup
      simp only [← survives]
      by_cases none : final.writersOf key = []
      · left
        rw [none]
        refine ⟨by simp, others key fun chosen => (ends.keys key).mp chosen none⟩
      · right
        obtain ⟨selection, listed, rfl⟩ := List.mem_map.mp ((ends.keys key).mpr none)
        obtain ⟨member, maximal, greatest⟩ := ends.wins selection listed
        refine ⟨selection.eventId, member, written selection listed, ?_, maximal, greatest⟩
        obtain ⟨authorized, verdict⟩ := ends.judged selection listed
        cases authorized with
        | true => exact verdict
        | false =>
          have denied := (ends.rejected selection.eventId).mpr ⟨selection, listed, rfl, verdict⟩
          rw [accepted] at denied
          cases denied
  · intro missing order
    obtain ⟨entry, member, uncertified, failed⟩ := admittedIndex_uncertified order missing
    refine ⟨entry, member, uncertified, ?_⟩
    unfold resolveV3
    rw [failed]

end

namespace Sample

open Basespec.Sample

def twoTopics : ConflictedEvents Nat Content := ⟨[(4, topic 4 "@a:x" []), (5, topic 5 "@b:x" [])], by decide⟩

def nothingCertified : V3AdmissionProvider Nat Content := ⟨fun _ => none, fun _ _ => .ok false, fun _ _ => .ok true⟩

end Sample

open Sample

/-- Of two missing certificates, the one that is met first is reported. -/
theorem missing_certificate_by_order :
    resolveV3 ∅ twoTopics nothingCertified .asListed = some (.error (.error (.missingVerifiedAdmission 4))) ∧
      resolveV3 ∅ twoTopics nothingCertified .reversed = some (.error (.error (.missingVerifiedAdmission 5))) :=
  ⟨rfl, rfl⟩

end Rezzy.Resolve
