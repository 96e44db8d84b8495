import Rezzy.Recon.Soundness

namespace Rezzy.Recon

open List hiding after next
open Region Relation Prod
open List.Perm (refl)

namespace BucketExchange

variable {exchange : BucketExchange} {round : List Slot}

section

def descendants (exchange : BucketExchange) (node : Node) : List (Node × NodeSummary) :=
  exchange.awaiting.filter fun s => node.1 < s.1.1 && covers node s.1

/-- What the walk over the parents has left of one that it has not come to: it is gone, or as it was with the
    summaries of its parts. -/
def Untouched (first exchange : BucketExchange) (parent : Node) : Prop :=
  exchange.parents.find? (fun p => p.1 = parent) = none ∨
    (exchange.parents.find? (fun p => p.1 = parent) = first.parents.find? (fun p => p.1 = parent) ∧
      exchange.descendants parent = first.descendants parent ∧
      ∀ region ∈ exchange.ladderFailed, Within parent region → region ∈ first.ladderFailed)

theorem Untouched.unbroken (untouched : Untouched first exchange parent)
    (unbroken : first.blames parent = true → first.Unbroken parent) (blamed : exchange.blames parent = true) :
    exchange.Unbroken parent := by
  rcases untouched with gone | ⟨found, parts, regions⟩
  · unfold blames at blamed
    rw [gone] at blamed
    cases blamed
  · have same : first.blames parent = exchange.blames parent := by
      unfold descendants at parts
      unfold blames summarizeDescendantCover
      rw [found, parts]
    exact fun region given inside => unbroken (same.trans blamed) region (regions region given inside) inside

theorem find?_eraseP_other {parents : List (Node × NodeSummary)} (different : parent ≠ other) :
    (parents.eraseP fun p => p.1 = other).find? (fun p => p.1 = parent) = parents.find? fun p => p.1 = parent := by
  induction parents with
  | nil => rfl
  | cons entry parents ih =>
    by_cases here : entry.1 = other
    · have passed : entry.1 ≠ parent := by
        rw [here]
        exact different.symm
      rw [eraseP_cons, find?_cons, decide_eq_true here, decide_eq_false passed]
      rfl
    · rw [eraseP_cons, decide_eq_false here, cond_false, find?_cons, find?_cons, ih]

theorem Untouched.forget (untouched : Untouched first exchange parent) (different : parent ≠ other) :
    Untouched first { exchange with parents := exchange.parents.eraseP fun p => p.1 = other } parent := by
  unfold Untouched
  rw [find?_eraseP_other different]
  exact untouched

theorem Untouched.ladderFail (untouched : Untouched first exchange parent) (outside : ¬ Within parent other)
    (shallow : parent.1 ≤ maxDepth) (batch : BucketDecodeBatch) :
    Untouched first (exchange.ladderFail other batch).1 parent := by
  have kept : (exchange.ladderFail other batch).1.parents.find? (fun p => p.1 = parent) =
      if covers other parent then none else exchange.parents.find? fun p => p.1 = parent := by
    show (exchange.parents.filter _).find? _ = _
    rw [find?_filter]
    split
    · rename_i inside
      apply find?_eq_none.mpr
      intro entry _
      by_cases here : entry.1 = parent
      · simp [here, inside]
      · simp [here]
    · rename_i inside
      apply congrArg (exchange.parents.find? ·)
      funext entry
      by_cases here : entry.1 = parent
      · simp [here, inside]
      · simp [here]
  by_cases inside : covers other parent = true
  · left
    rw [kept, if_pos inside]
  · rw [if_neg inside] at kept
    rcases untouched with gone | ⟨found, parts, regions⟩
    · left
      rw [kept, gone]
    · have apart : Apart parent other := ⟨outside, fun within => inside ((covers_iff shallow).mpr within)⟩
      refine .inr ⟨kept.trans found, .trans ?_ parts, fun region given within => ?_⟩
      · show (exchange.awaiting.filter _).filter _ = exchange.awaiting.filter _
        rw [filter_filter]
        apply filter_congr
        intro entry _
        cases below : decide (parent.1 < entry.1.1) && covers parent entry.1 with
        | false => rfl
        | true =>
          have under := covers_within (Bool.and_eq_true_iff.mp below).2
          have clear : covers other entry.1 = false := by
            rw [← Bool.not_eq_true]
            exact fun covered => (apart.mono under (covers_within covered)).1 (.refl entry.1)
          rw [clear]
          rfl
      · rcases mem_ladderFail_ladderFailed given with rfl | given
        · exact absurd within outside
        · exact regions region given within

theorem Untouched.checkParent (untouched : Untouched first state.1 parent) (outside : ¬ Within parent other)
    (shallow : parent.1 ≤ maxDepth) : Untouched first (checkParent state other).1 parent := by
  obtain ⟨exchange, batch⟩ := state
  have different : parent ≠ other := by
    rintro rfl
    exact outside (.refl parent)
  rw [checkParent.eq_def]
  dsimp only
  split
  · exact untouched
  · split
    · exact untouched
    · split
      · exact (untouched.forget different).ladderFail outside shallow batch
      · exact untouched.forget different

theorem eachBlame_unbroken (first : BucketExchange) {parents : List Node}
    (order : parents.Pairwise fun first later => ¬ Within later first)
    (shallow : ∀ parent ∈ parents, parent.1 ≤ maxDepth)
    (unbroken : ∀ parent ∈ parents, first.blames parent = true → first.Unbroken parent)
    (untouched : ∀ parent ∈ parents, Untouched first state.1 parent) : EachBlame Unbroken parents state := by
  induction parents generalizing state with
  | nil => exact trivial
  | cons parent parents ih =>
    obtain ⟨ahead, order⟩ := pairwise_cons.mp order
    refine ⟨(untouched parent mem_cons_self).unbroken (unbroken parent mem_cons_self), ?_⟩
    apply ih order
    · exact fun other mem => shallow other (mem_cons_of_mem _ mem)
    · exact fun other mem => unbroken other (mem_cons_of_mem _ mem)
    · intro other mem
      have later := mem_cons_of_mem parent mem
      exact (untouched other later).checkParent (ahead other mem) (shallow other later)

theorem foldl_parents {β : Type} {f : Progress → β → Progress}
    (each : ∀ state b, (f state b).1.parents.Sublist state.1.parents) (list : List β) (state : Progress) :
    (list.foldl f state).1.parents.Sublist state.1.parents := by
  induction list generalizing state with
  | nil => exact .refl _
  | cons b list ih => exact (ih (f state b)).trans (each state b)

theorem checkParent_parents (state : Progress) (parent : Node) :
    (checkParent state parent).1.parents.Sublist state.1.parents := by
  obtain ⟨-, -⟩ := state
  rw [checkParent.eq_def]
  dsimp only
  split
  · exact .refl _
  · split
    · exact .refl _
    · split
      · exact filter_sublist.trans eraseP_sublist
      · exact eraseP_sublist

theorem handlePhase1Rejection_parents (round : List Slot) (state : Progress) (rejection : Rejected) :
    (handlePhase1Rejection round state rejection).1.parents.Sublist state.1.parents := by
  unfold handlePhase1Rejection
  dsimp only
  split
  · exact .refl _
  · split
    · exact .refl _
    · split
      · exact filter_sublist
      · exact .refl _

theorem rememberFailedNodes_nodup (once : (exchange.parents.map fst).Nodup) (batch : BucketDecodeBatch)
    (round : List Slot) : ((exchange.rememberFailedNodes batch round).parents.map fst).Nodup := by
  unfold rememberFailedNodes
  induction batch.failedBuckets generalizing exchange with
  | nil => exact once
  | cons node failed ih =>
    apply ih
    unfold rememberFailedNode
    split
    · exact once
    · split
      · exact once
      · rename_i new
        rw [map_append]
        refine nodup_append.mpr ⟨once, nodup_singleton _, fun parent known other same => ?_⟩
        obtain ⟨entry, mem, rfl⟩ := mem_map.mp known
        rw [mem_singleton.mp same]
        intro equal
        exact new (any_eq_true.mpr ⟨entry, mem, decide_eq_true equal⟩)

theorem checkRound_nodup (once : (exchange.parents.map fst).Nodup) (outcome : VerifiedBatch) (round : List Slot) :
    ((exchange.checkRound outcome round).1.parents.map fst).Nodup := by
  obtain ⟨forceSplit, overflowRetry, wideSplit, marked⟩ :=
    exchange.scheduleOverflowRetries_marks outcome.batch outcome.rejected round
  apply rememberFailedNodes_nodup
  refine once.sublist (List.Sublist.map _ ?_)
  have rejections := foldl_parents (handlePhase1Rejection_parents round) outcome.rejected
  have overflows := foldl_parents (f := fun state node => state.1.ladderFail node state.2) fun _ _ => filter_sublist
  have parents := foldl_parents checkParent_parents
  refine (rejections _).trans ((overflows _ _).trans ((parents _ _).trans ?_))
  rw [marked]

def UnbrokenBlames (exchange : BucketExchange) (round : List Slot) : Prop :=
  ∀ parent ∈ exchange.parents.map Prod.fst, (exchange.withRound round).blames parent = true → exchange.Unbroken parent

theorem Sound.checkRound (sound : Sound exchange (openNodes (exchange, outcome.batch)))
    (once : (exchange.parents.map fst).Nodup)
    (rejected : ∀ rejection ∈ outcome.rejected, rejection.1 ∈ outcome.batch.failedBuckets)
    (unbroken : exchange.UnbrokenBlames round) :
    Changes Unbroken round (exchange, outcome.batch) (exchange.checkRound outcome round) := by
  obtain ⟨forceSplit, overflowRetry, wideSplit, marked⟩ :=
    exchange.scheduleOverflowRetries_marks outcome.batch outcome.rejected round
  have failed : ∀ node ∈ outcome.batch.failedBuckets, node ∈ openNodes (exchange, outcome.batch) :=
    fun node mem => mem_append_right _ (mem_append_right _ mem)
  have spread := (pairwise_append.mp sound.spread).1
  apply checkRound_changes ?_ ?_ rejected
  · unfold splitState
    rw [marked]
    apply eachBlame_unbroken (exchange.withRound round)
    · exact List.Pairwise.imp₂ (fun _ _ order different inside => different (order inside).symm) sound.order once
    · exact fun parent known => (sound.parents parent known).1
    · exact unbroken
    · exact fun parent _ => .inr ⟨rfl, rfl, fun _ given _ => given⟩
  · exact (pairwise_append.mp (pairwise_append.mp spread).2.1).2.1
  · exact fun node mem => (sound.formed node (mem_append_left _ (failed node mem))).1

end

theorem advance_queued
    (queued : queueFailedNodes requests (exchange.ingestedShare batch requests globalEstimate) batch.failedBuckets
      (exchange.ingest batch requests) = (reached, none)) : exchange.advance batch requests globalEstimate =
      if batch.failedBuckets.isEmpty && reached.sortPending.pending.isEmpty then
        (reached.sortPending, reached.sortPending.partialAction)
      else reached.sortPending.drainNextAction := by
  unfold BucketExchange.advance
  dsimp only
  split
  · rename_i looped
    cases looped.symm.trans queued
  · rename_i looped
    cases looped.symm.trans queued
    rfl

theorem verifyRound_eq
    (verified : verifyBatch batch requests localSummaries remoteSummaries localCandidates = .ok outcome) :
    exchange.verifyRound batch requests localSummaries remoteSummaries localCandidates =
      .ok ((exchange.checkRound outcome (slots requests localSummaries remoteSummaries)).1.withVerified outcome.verified,
        (exchange.checkRound outcome (slots requests localSummaries remoteSummaries)).2) := by
  unfold BucketExchange.verifyRound
  rw [verified]
  rfl

/-- The roots are those of the classified nodes, each once; none of them and no classified node is in a region given
    up, and those regions have no key in common. -/
structure Consistent (exchange : BucketExchange) : Prop where
  roots : exchange.accumulatedRoots.Perm (exchange.classified.flatMap Classified.roots)
  distinct : exchange.accumulatedRoots.Nodup
  rootsOutside : ∀ root ∈ exchange.accumulatedRoots, ∀ region ∈ exchange.ladderFailed, inNode root region = false
  classifiedOutside : ∀ c ∈ exchange.classified, ∀ region ∈ exchange.ladderFailed, covers region c.node = false
  disjoint : exchange.ladderFailed.Pairwise fun a b => ∀ h64, ¬ (inNode h64 a = true ∧ inNode h64 b = true)

theorem Sound.consistent (sound : Sound exchange opened) : Consistent exchange := by
  have settled := (pairwise_append.mp sound.spread).2.1
  obtain ⟨_, given, apart⟩ := pairwise_append.mp settled
  have formed : ∀ node ∈ exchange.places, Formed maxDepth node :=
    fun node mem => sound.formed node (mem_append_right _ mem)
  have separate : ∀ c ∈ exchange.classified, ∀ region ∈ exchange.ladderFailed, Apart region c.node :=
    fun c mem region known => (apart c.node (mem_map_of_mem mem) region known).symm
  have outside : ∀ c ∈ exchange.classified, ∀ region ∈ exchange.ladderFailed, covers region c.node = false := by
    intro c mem region known
    rw [← Bool.not_eq_true]
    exact fun covered => (separate c mem region known).1 (covers_within covered)
  refine ⟨sound.roots, sound.distinct, fun root mem region known => ?_, outside, ?_⟩
  · obtain ⟨c, inside, own⟩ := mem_flatMap.mp (sound.roots.mem_iff.mp mem)
    have placed := formed region (mem_append_right _ known)
    rw [sound.inNode_covers placed inside (.inl (separate c inside region known)) own]
    exact outside c inside region known
  · refine given.imp_of_mem fun {a b} left right apart h64 both => ?_
    have wide : maxDepth ≤ h64TrieWidth := by decide
    have first := formed a (mem_append_right _ left)
    have second := formed b (mem_append_right _ right)
    exact apart.not_common (first.1.trans wide) (second.1.trans wide) ((inNode_iff first).mp both.1)
      ((inNode_iff second).mp both.2)

end BucketExchange

namespace Session

open BucketExchange

structure Settled (session : Session) : Prop where
  orderly : Orderly session
  sound : Sound session.exchange ((session.exchange.pending ++ session.outstanding).map BucketRequest.node)
  once : (session.exchange.parents.map Prod.fst).Nodup

/-- The call is one of `advance_verified`. Where it finds that the parts of a remembered node do not make it up, no region
    given up before is strictly inside that node. -/
def Unbroken (exchange : BucketExchange) (requests : List BucketRequest) : Call → Prop
  | .advance _ _ => False
  | .advanceVerified _ localSummaries remoteSummaries _ _ =>
    exchange.UnbrokenBlames (slots requests localSummaries remoteSummaries)

theorem Settled.verifyRound (settled : Settled session)
    (answers : (Call.advanceVerified batch localSummaries remoteSummaries globalEstimate localCandidates).Answers
      session.outstanding)
    (unbroken : session.exchange.UnbrokenBlames (slots session.outstanding localSummaries remoteSummaries))
    (made : session.exchange.verifyRound batch session.outstanding localSummaries remoteSummaries
      localCandidates = .ok ready) : (ready.1.parents.map fst).Nodup ∧
      Sound { ready.1 with
        accumulatedRoots := ready.1.accumulatedRoots ++ ready.2.successfulBuckets.flatMap BucketDecodeSuccess.roots }
        (ready.2.failedBuckets ++ ready.1.pending.map BucketRequest.node) := by
  obtain ⟨ready, left⟩ := ready
  obtain ⟨outcome, verified, rfl, rfl⟩ := verifyRound_ok made
  obtain ⟨each, perm, rejected⟩ := verifyBatch_ok verified
  have answered := (perm.append_left (session.exchange.pending.map BucketRequest.node)).trans (openNodes_answered answers)
  have before : Sound session.exchange (openNodes (session.exchange, outcome.batch)) := settled.sound.perm answered.symm
  have changes := before.checkRound settled.once rejected unbroken
  have sound := Changes.sound changes before
  have outside : ∀ success ∈ outcome.batch.successfulBuckets, ∀ region ∈ session.exchange.ladderFailed,
      covers region success.node = false := by
    intro success mem region given
    have opened : success.node ∈ openNodes (session.exchange, outcome.batch) :=
      mem_append_right _ (mem_append_left _ (mem_map_of_mem mem))
    have apart := (pairwise_append.mp before.spread).2.2 success.node opened region (mem_append_right _ given)
    rw [← Bool.not_eq_true]
    exact fun covered => apart.2 (covers_within covered)
  have successes := Changes.successes changes outside
  have once := checkRound_nodup settled.once outcome (slots session.outstanding localSummaries remoteSummaries)
  generalize session.exchange.checkRound outcome (slots session.outstanding localSummaries remoteSummaries) = checked
    at sound successes once
  obtain ⟨checked, left⟩ := checked
  refine ⟨once, sound.ingest ?_⟩
  rw [successes]
  refine rel_filter (fun {success c} own => ?_) each
  show _ = true ↔ _ = true
  rw [own.node]

theorem Step.settled (step : Step Unbroken before after) (settled : Settled before) : Settled after := by
  have orderly := step.orderly settled.orderly
  cases step with
  | @mk call ready next action answers met made ran =>
    obtain ⟨_, prepared, advanced⟩ := Call.run_ok ran
    obtain rfl := Except.ok.inj (made.symm.trans prepared)
    have moved : Advanced True _ _ _ _ := settled.orderly.advanced answers (settled.orderly.prepared answers made)
      (fun no => absurd trivial no) advanced
    have frame := advance_frame advanced
    cases call with
    | advance batch globalEstimate => exact absurd met id
    | advanceVerified batch localSummaries remoteSummaries globalEstimate localCandidates =>
      obtain ⟨once, sound⟩ := settled.verifyRound answers met made
      refine ⟨orderly, sound.advance moved.moves frame.classified frame.parents moved.roots, ?_⟩
      rw [frame.parents]
      exact once

theorem Steps.settled (steps : Steps Unbroken before after) (settled : Settled before) : Settled after := by
  induction steps with
  | refl => exact settled
  | tail _ step ih => exact step.settled ih

section

variable {maxRounds maxBucketsPerRound maxAggregateCapacity : Nat} {initial : List BucketRequest}
  (valid : validateAdaptiveBucketRequests initial = .ok ())
include valid

theorem Settled.start : Settled (start (.new [] maxRounds maxBucketsPerRound maxAggregateCapacity) initial) where
  orderly := .start rfl rfl rfl valid
  sound := by
    obtain ⟨admissible, apart⟩ := validateAdaptive_apart valid
    have nodes : initial.map BucketRequest.node ++ [] = initial.map BucketRequest.node := append_nil _
    refine ⟨?_, ?_, fun parent none => (nomatch none), fun parent none => (nomatch none), .nil,
      fun c none => (nomatch none), .refl _⟩
    · show ∀ node ∈ initial.map BucketRequest.node ++ [], _
      rw [nodes]
      intro node mem
      obtain ⟨request, inside, rfl⟩ := mem_map.mp mem
      exact (admissible request inside).formed
    · show (initial.map BucketRequest.node ++ []).Pairwise _
      rw [nodes]
      exact apart
  once := .nil

/-- An exchange that starts with no roots is consistent in every state of a run of `advance_verified` in which no node
    around a region given up is found inconsistent. -/
theorem run_consistent {session : Session}
    (run : Steps Unbroken (start (.new [] maxRounds maxBucketsPerRound maxAggregateCapacity) initial) session) :
    session.exchange.Consistent :=
  (Steps.settled run (.start valid)).sound.consistent

end

theorem Step.of_run {meets : BucketExchange → List BucketRequest → Call → Prop} (session : Session) (call : Call)
    (answers : call.Answers session.outstanding) (met : meets session.exchange session.outstanding call)
    (ran : call.run session.exchange session.outstanding = .ok (next, action)) :
    ∃ decoded emitted, Step meets session ⟨next, action.requests, decoded, emitted⟩ := by
  obtain ⟨ready, made, _⟩ := Call.run_ok ran
  exact ⟨_, _, .mk answers met made ran⟩

namespace Sample

def pair : List BucketRequest := [.new 1 0 4, .new 1 1 4]

def lowerDecoded : Call :=
  .advanceVerified ⟨[⟨1, 0, [5]⟩], [(1, 1)]⟩ [⟨0, 0⟩, ⟨0, 0⟩] [⟨1, 7⟩, ⟨3, 0⟩] none fun _ => []

def roomy : BucketExchange := .new [] 0 1 1024

def upperGivenUp : BucketExchange :=
  { roomy with
    accumulatedRoots := [5]
    classified := [⟨1, 0, [], [5], 0, ⟨0, 0⟩, ⟨1, 7⟩⟩]
    ladderFailed := [(1, 1)]
    parents := [((1, 1), ⟨3, 0⟩)] }

theorem upperGivenUp_consistent : upperGivenUp.Consistent := by
  have valid : validateAdaptiveBucketRequests pair = .ok () := rfl
  have ran : lowerDecoded.run roomy pair = .ok (upperGivenUp, .resolveRoots [5] [(1, 1)]) := by decide +kernel
  have unbroken : Unbroken roomy pair lowerDecoded := fun parent none => nomatch none
  obtain ⟨decoded, emitted, step⟩ := Step.of_run (start roomy pair) lowerDecoded (List.Perm.refl _) unbroken ran
  have run : Steps Unbroken (start roomy pair) ⟨upperGivenUp, [], decoded, emitted⟩ := .single step
  exact run_consistent valid run

def deep : List BucketRequest := [.new 31 0 32]

def splitting : BucketExchange := .new [] 3 1 64

def split : BucketExchange :=
  { splitting with pending := [.new 32 1 10], roundsEmitted := 1, parents := [((31, 0), ⟨5, 0⟩)] }

def firstLost : BucketExchange :=
  { splitting with
    roundsEmitted := 2
    ladderFailed := [(32, 0)]
    parents := [((31, 0), ⟨5, 0⟩), ((32, 0), ⟨1, 1⟩)]
    awaiting := [((32, 0), ⟨1, 1⟩)] }

def nested : BucketExchange := { splitting with roundsEmitted := 2, ladderFailed := [(32, 0), (31, 0)] }

def Verified (_ : BucketExchange) (_ : List BucketRequest) : Call → Prop
  | .advance _ _ => False
  | .advanceVerified _ _ _ _ _ => True

def firstFails : Call := .advanceVerified ⟨[], [(31, 0)]⟩ [⟨0, 0⟩] [⟨5, 0⟩] none fun _ => []

def secondFails : Call := .advanceVerified ⟨[], [(32, 0)]⟩ [⟨0, 0⟩] [⟨1, 1⟩] none fun _ => []

def thirdDecodes : Call := .advanceVerified ⟨[⟨32, 1, []⟩], []⟩ [⟨0, 0⟩] [⟨0, 0⟩] none fun _ => []

theorem firstFails_run : firstFails.run splitting deep = .ok (split, .bucketSketches [.new 32 0 10] []) := by
  let marked : BucketExchange := { splitting with
    forceSplit := [(31, 0)], wideSplit := [(31, 0)], parents := [((31, 0), ⟨5, 0⟩)] }
  let queued : BucketExchange := { splitting with
    pending := [.new 32 0 10, .new 32 1 10], parents := [((31, 0), ⟨5, 0⟩)] }
  have verified : verifyRound splitting ⟨[], [(31, 0)]⟩ deep [⟨0, 0⟩] [⟨5, 0⟩] (fun _ => []) =
      .ok (marked, ⟨[], [(31, 0)]⟩) := by decide
  have looped : queueFailedNodes deep (marked.ingestedShare ⟨[], [(31, 0)]⟩ deep none) [(31, 0)]
      (marked.ingest ⟨[], [(31, 0)]⟩ deep) = (queued, none) := by decide
  have sorted : queued.sortPending = queued := by
    have pending : queued.pending.mergeSort (fun a b => bucketRangeStart a ≤ bucketRangeStart b) = queued.pending :=
      mergeSort_of_pairwise (by decide)
    unfold sortPending
    rw [pending]
  have advanced : marked.advance ⟨[], [(31, 0)]⟩ deep none = queued.drainNextAction := by
    rw [advance_queued looped, sorted]
    rfl
  show (verifyRound _ _ _ _ _ _ >>= _) = _
  rw [verified]
  show Except.ok (marked.advance ⟨[], [(31, 0)]⟩ deep none) = _
  rw [advanced]
  decide

theorem secondFails_run : secondFails.run split [.new 32 0 10] = .ok (firstLost, .bucketSketches [.new 32 1 10] []) := by
  decide +kernel

theorem parts_covered :
    summarizeDescendantCover (31, 0) [((32, 0), ⟨1, 1⟩), ((32, 1), ⟨0, 0⟩)] = some (⟨1, 1⟩, true) := by
  have sorted : [(((0 : Nat), (1 : Nat)), (⟨1, 1⟩ : NodeSummary)), ((1, 2), ⟨0, 0⟩)].mergeSort
      (fun a b => a.1.1 ≤ b.1.1) = [((0, 1), ⟨1, 1⟩), ((1, 2), ⟨0, 0⟩)] := mergeSort_of_pairwise (by decide)
  show Option.bind (walkCover (mergeSort [((0, 1), ⟨1, 1⟩), ((1, 2), ⟨0, 0⟩)] _) 0 0 true 0) _ = _
  rw [sorted]
  decide

theorem parent_blamed : checkParent (firstLost.withRound [⟨.new 32 1 10, ⟨0, 0⟩, ⟨0, 0⟩⟩], ⟨[⟨32, 1, []⟩], []⟩) (31, 0) =
    (nested, ⟨[], []⟩) := by
  have waiting : (firstLost.withRound [⟨.new 32 1 10, ⟨0, 0⟩, ⟨0, 0⟩⟩]).awaiting =
      [((32, 0), ⟨1, 1⟩), ((32, 1), ⟨0, 0⟩)] := by decide
  have found : (firstLost.withRound [⟨.new 32 1 10, ⟨0, 0⟩, ⟨0, 0⟩⟩]).parents.find? (fun p => p.1 = (31, 0)) =
      some ((31, 0), ⟨5, 0⟩) := by decide
  rw [checkParent.eq_def]
  dsimp only
  rw [found, waiting, parts_covered]
  decide

theorem thirdDecodes_run : thirdDecodes.run firstLost [.new 32 1 10] =
    .ok (nested, .resolveRoots [] [(32, 0), (31, 0)]) := by
  let round : List Slot := [⟨.new 32 1 10, ⟨0, 0⟩, ⟨0, 0⟩⟩]
  let outcome : VerifiedBatch := ⟨⟨[⟨32, 1, []⟩], []⟩, [⟨32, 1, [], [], 0, ⟨0, 0⟩, ⟨0, 0⟩⟩], []⟩
  have verified : verifyBatch ⟨[⟨32, 1, []⟩], []⟩ [.new 32 1 10] [⟨0, 0⟩] [⟨0, 0⟩] (fun _ => []) = .ok outcome := by
    decide +kernel
  have parents : [(31, 0), (32, 0)].foldl checkParent (firstLost.withRound round, outcome.batch) = (nested, ⟨[], []⟩) := by
    rw [foldl_cons, parent_blamed]
    decide
  have checked : checkSplitConsistency firstLost round outcome.batch = (nested, ⟨[], []⟩) := by
    have folded : (firstLost.parents.map fst).foldl checkParent (firstLost.withRound round, outcome.batch) =
      (nested, ⟨[], []⟩) := parents
    unfold withRound at folded
    unfold checkSplitConsistency
    dsimp only
    rw [folded]
    decide
  have ready : firstLost.checkRound outcome round = (nested, ⟨[], []⟩) := by
    have scheduled : firstLost.scheduleOverflowRetries outcome.batch outcome.rejected round = firstLost := rfl
    unfold checkRound
    rw [scheduled, checked]
    decide
  show (verifyRound _ _ _ _ _ _ >>= _) = _
  rw [verifyRound_eq verified]
  show Except.ok (((firstLost.checkRound outcome round).1.withVerified outcome.verified).advance
    (firstLost.checkRound outcome round).2 _ none) = _
  rw [ready]
  decide +kernel

/-- A part that was given up stays next to its parent, which is given up for its summary when the other part is in. -/
theorem nested_regions : validateAdaptiveBucketRequests deep = .ok () ∧
    ∃ session, Steps Verified (start splitting deep) session ∧ session.exchange.ladderFailed = [(32, 0), (31, 0)] ∧
      ¬ session.exchange.Consistent := by
  refine ⟨rfl, ?_⟩
  obtain ⟨decoded, emitted, first⟩ : ∃ decoded emitted, Step Verified _ ⟨_, _, decoded, emitted⟩ :=
    Step.of_run (start splitting deep) firstFails (List.Perm.refl _) trivial firstFails_run
  obtain ⟨decoded', emitted', second⟩ : ∃ decoded emitted, Step Verified _ ⟨_, _, decoded, emitted⟩ :=
    Step.of_run ⟨split, [.new 32 0 10], decoded, emitted⟩ secondFails (List.Perm.refl _) trivial secondFails_run
  obtain ⟨_, _, third⟩ : ∃ decoded emitted, Step Verified _ ⟨_, _, decoded, emitted⟩ :=
    Step.of_run ⟨firstLost, [.new 32 1 10], decoded', emitted'⟩ thirdDecodes (List.Perm.refl _) trivial thirdDecodes_run
  refine ⟨_, .tail (.tail (.single first) second) third, rfl, fun consistent => ?_⟩
  have apart := consistent.disjoint
  exact (List.pairwise_cons.mp apart).1 (31, 0) (List.mem_singleton_self _) 0 (by decide)

end Sample

end Session

end Rezzy.Recon
