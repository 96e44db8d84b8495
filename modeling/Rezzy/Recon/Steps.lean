import Rezzy.Lib.Loop
import Rezzy.Recon.Retry

namespace Rezzy.Recon

open Region List Outcome Except

structure ClassifiedAs (success : BucketDecodeSuccess) (classified : Classified) : Prop where
  node : classified.node = success.node
  roots : (classified.lRoots ++ classified.mRoots).Perm success.roots
  distinct : success.roots.Nodup
  inside : ∀ root ∈ success.roots, inNode root success.node = true

theorem nodup_of_repeats (ordered : sorted.Pairwise (· ≤ ·)) (once : repeats sorted = false) : sorted.Nodup := by
  induction sorted with
  | nil => exact .nil
  | cons first rest ih =>
    rw [pairwise_cons] at ordered
    cases rest with
    | nil => exact nodup_singleton first
    | cons second rest =>
      have parts : decide (first = second) = false ∧ repeats (second :: rest) = false := by
        simpa [repeats] using once
      have behind := ih ordered.2 parts.2
      have less : first < second := lt_of_le_of_ne (ordered.1 second mem_cons_self) (of_decide_eq_false parts.1)
      refine nodup_cons.mpr ⟨fun mem => ?_, behind⟩
      rcases mem_cons.mp mem with same | mem
      · omega
      · have := (pairwise_cons.mp ordered.2).1 first mem
        omega

theorem verifyDecode_ok
    (decoded : verifyDecode request localSummary remoteSummary roots localCandidates = .ok classified) :
    classified.node = request.node ∧ (classified.lRoots ++ classified.mRoots).Perm roots ∧ roots.Nodup ∧
      ∀ root ∈ roots, inNode root request.node = true := by
  unfold verifyDecode at decoded
  dsimp only at decoded
  split at decoded
  · cases decoded
  · rename_i once
    split at decoded
    · cases decoded
    · rename_i inside
      split at decoded
      · cases decoded
      · obtain rfl : ⟨request.depth, request.prefix_, roots.filter fun root => !(localCandidates root).isEmpty,
            (roots.filter fun root => (localCandidates root).isEmpty).mergeSort (· ≤ ·), _, localSummary,
            remoteSummary⟩ = classified := by
          split at decoded
          · obtain ⟨_, _, made⟩ := bind_eq_ok.mp decoded
            exact ok.inj made
          · exact ok.inj decoded
        refine ⟨rfl, ?_, ?_, ?_⟩
        · refine .trans ((mergeSort_perm _ _).append_left _) ?_
          have parts := filter_append_perm (fun root => !(localCandidates root).isEmpty) roots
          simpa using parts
        · have sorted : (roots.mergeSort (· ≤ ·)).Pairwise (· ≤ ·) := by
            have trans : ∀ a b c : Nat, decide (a ≤ b) → decide (b ≤ c) → decide (a ≤ c) := by simpa using fun _ _ _ => Nat.le_trans
            have total : ∀ a b : Nat, decide (a ≤ b) || decide (b ≤ a) := by simpa using Nat.le_total
            simpa using pairwise_mergeSort trans total roots
          have distinct := nodup_of_repeats sorted (by simpa using once)
          exact (mergeSort_perm roots _).nodup_iff.mp distinct
        · intro root mem
          rw [Bool.not_eq_true, any_eq_false] at inside
          have both : (boundsUnchecked request).1 ≤ root ∧ root < (boundsUnchecked request).2 := by
            simpa using inside root mem
          exact Bool.and_eq_true_iff.mpr ⟨decide_eq_true both.1, decide_eq_true both.2⟩

variable {round : List Slot} {localCandidates : Nat → List Nat}

theorem verifySuccesses_ok
    (checked : verifySuccesses round localCandidates successes = .ok (admitted, verified, rejected)) :
    List.Forall₂ ClassifiedAs admitted verified ∧
      (admitted.map BucketDecodeSuccess.node ++ rejected.map Prod.fst).Perm (successes.map BucketDecodeSuccess.node) := by
  induction successes generalizing admitted verified rejected with
  | nil =>
    obtain ⟨rfl, rfl, rfl⟩ : [] = admitted ∧ [] = verified ∧ [] = rejected := by simpa [verifySuccesses] using checked
    exact ⟨.nil, .refl _⟩
  | cons success successes ih =>
    rw [verifySuccesses] at checked
    split at checked
    · cases checked
    · rename_i slot found
      have own : slot.request.node = success.node := by simpa using find?_some found
      split at checked
      · rename_i classified decoded
        obtain ⟨⟨rest, behind, refused⟩, further, made⟩ := bind_eq_ok.mp checked
        obtain ⟨rfl, rfl, rfl⟩ : _ = admitted ∧ _ = verified ∧ _ = rejected := by simpa using made
        obtain ⟨each, perm⟩ := ih further
        obtain ⟨node, roots, distinct, inside⟩ := verifyDecode_ok decoded
        rw [own] at node inside
        exact ⟨.cons ⟨node, roots, distinct, inside⟩ each, perm.cons _⟩
      · obtain ⟨⟨rest, behind, refused⟩, further, made⟩ := bind_eq_ok.mp checked
        obtain ⟨rfl, rfl, rfl⟩ : _ = admitted ∧ _ = verified ∧ _ = rejected := by simpa using made
        obtain ⟨each, perm⟩ := ih further
        refine ⟨each, ?_⟩
        rw [map_cons, map_cons]
        exact perm_middle.trans (perm.cons _)
      · cases checked

theorem verifyBatch_ok
    (checked : verifyBatch batch requests localSummaries remoteSummaries localCandidates = .ok outcome) :
    List.Forall₂ ClassifiedAs outcome.batch.successfulBuckets outcome.verified ∧
      (outcome.batch.successfulBuckets.map BucketDecodeSuccess.node ++ outcome.batch.failedBuckets).Perm
        (batch.successfulBuckets.map BucketDecodeSuccess.node ++ batch.failedBuckets) ∧
      ∀ rejection ∈ outcome.rejected, rejection.1 ∈ outcome.batch.failedBuckets := by
  unfold verifyBatch at checked
  split at checked
  · cases checked
  · obtain ⟨⟨admitted, verified, rejected⟩, sorted, made⟩ := bind_eq_ok.mp checked
    obtain rfl := ok.inj made
    obtain ⟨each, perm⟩ := verifySuccesses_ok sorted
    refine ⟨each, ?_, fun rejection mem => mem_append_right _ (mem_map_of_mem mem)⟩
    refine .trans ?_ (perm.append_right _)
    rw [append_assoc]
    exact perm_append_comm.append_left _

end Rezzy.Recon

namespace Rezzy.Recon.BucketExchange

open Region Relation

abbrev Progress := BucketExchange × BucketDecodeBatch

/-- One change of the check of a round. A parent that is found inconsistent meets the condition. -/
inductive Change (condition : BucketExchange → Node → Prop) (round : List Slot) : Progress → Progress → Prop where
  | marks (exchange : BucketExchange) (batch : BucketDecodeBatch) (failures : List Phase1Failure)
      (forceSplit overflowRetry wideSplit : List Node) : Change condition round (exchange, batch)
        ({ exchange with
            failures := failures, forceSplit := forceSplit, overflowRetry := overflowRetry, wideSplit := wideSplit }, batch)
  | awaits (exchange : BucketExchange) (batch : BucketDecodeBatch) (awaiting : List (Node × NodeSummary)) :
      Change condition round (exchange, batch) ({ exchange with awaiting := awaiting }, batch)
  | settles (exchange : BucketExchange) (batch : BucketDecodeBatch) (parent : Node) : Change condition round (exchange, batch)
        ({ exchange with parents := exchange.parents.eraseP fun p => p.1 = parent }, batch)
  | blames (exchange : BucketExchange) (batch : BucketDecodeBatch) (parent : Node)
      (known : parent ∈ exchange.parents.map Prod.fst) (meets : condition exchange parent) :
      Change condition round (exchange, batch)
        (ladderFail { exchange with parents := exchange.parents.eraseP fun p => p.1 = parent } parent batch)
  | givesUp (exchange : BucketExchange) (batch : BucketDecodeBatch) (node : Node) (failed : node ∈ batch.failedBuckets) :
      Change condition round (exchange, batch) (exchange.ladderFail node batch)
  | remembers (exchange : BucketExchange) (batch : BucketDecodeBatch) (slot : Slot) (inRound : slot ∈ round)
      (failed : slot.request.node ∈ batch.failedBuckets) : Change condition round (exchange, batch)
        ({ exchange with parents := exchange.parents ++ [(slot.request.node, slot.remoteSummary)] }, batch)

abbrev Changes (condition : BucketExchange → Node → Prop) (round : List Slot) : Progress → Progress → Prop :=
  ReflTransGen (Change condition round)

variable {condition : BucketExchange → Node → Prop} {round : List Slot} {exchange : BucketExchange}

section

theorem Change.ladderFailed (change : Change condition round state next) (mem : region ∈ state.1.ladderFailed) :
    region ∈ next.1.ladderFailed := by
  have added : ∀ (exchange : BucketExchange) (batch : BucketDecodeBatch) (node : Node), region ∈ exchange.ladderFailed →
      region ∈ (exchange.ladderFail node batch).1.ladderFailed := by
    intro exchange batch node mem
    show region ∈ ite _ _ _
    split
    · exact mem
    · exact List.mem_append_left _ mem
  cases change with
  | blames exchange batch parent known meets => exact added _ batch parent mem
  | givesUp exchange batch node failed => exact added exchange batch node mem
  | _ => exact mem

theorem mem_ladderFail (exchange : BucketExchange) (batch : BucketDecodeBatch) (region : Node) :
    region ∈ (exchange.ladderFail region batch).1.ladderFailed := by
  show region ∈ ite _ _ _
  split
  · assumption
  · simp

def Tracked (state : Progress) (node : Node) : Prop :=
  node ∈ state.2.failedBuckets ∨ ∃ region ∈ state.1.ladderFailed, covers region node = true

theorem Change.tracked (change : Change condition round state next) (tracked : Tracked state node) :
    Tracked next node := by
  rcases tracked with failed | ⟨region, mem, inside⟩
  · have lost : ∀ (exchange : BucketExchange) (batch : BucketDecodeBatch) (region : Node), node ∈ batch.failedBuckets →
        Tracked (exchange.ladderFail region batch) node := by
      intro exchange batch region failed
      by_cases inside : covers region node = true
      · exact .inr ⟨region, mem_ladderFail exchange batch region, inside⟩
      · exact .inl (List.mem_filter.mpr ⟨failed, by simpa using inside⟩)
    cases change with
    | blames exchange batch parent known meets => exact lost _ batch parent failed
    | givesUp exchange batch region here => exact lost exchange batch region failed
    | _ => exact .inl failed
  · exact .inr ⟨region, change.ladderFailed mem, inside⟩

theorem Changes.tracked (changes : Changes condition round state next) (tracked : Tracked state node) :
    Tracked next node := by
  induction changes with
  | refl => exact tracked
  | tail _ change ih => exact change.tracked ih

structure Shrinks (state next : Progress) : Prop where
  pending : next.1.pending.Sublist state.1.pending
  successes : next.2.successfulBuckets.Sublist state.2.successfulBuckets
  failed : next.2.failedBuckets.Sublist state.2.failedBuckets
  rounds : next.1.roundsEmitted = state.1.roundsEmitted
  maxRounds : next.1.maxRounds = state.1.maxRounds
  maxBucketsPerRound : next.1.maxBucketsPerRound = state.1.maxBucketsPerRound
  maxAggregateCapacity : next.1.maxAggregateCapacity = state.1.maxAggregateCapacity

theorem Shrinks.refl (state : Progress) : Shrinks state state := ⟨.refl _, .refl _, .refl _, rfl, rfl, rfl, rfl⟩

theorem Shrinks.trans {a b c : Progress} (first : Shrinks a b) (second : Shrinks b c) : Shrinks a c :=
  ⟨second.1.trans first.1, second.2.trans first.2, second.3.trans first.3, second.4.trans first.4,
    second.5.trans first.5, second.6.trans first.6, second.7.trans first.7⟩

theorem Change.shrinks (change : Change condition round state next) : Shrinks state next := by
  cases change with
  | blames exchange batch parent known meets =>
    exact ⟨List.filter_sublist, List.filter_sublist, List.filter_sublist, rfl, rfl, rfl, rfl⟩
  | givesUp exchange batch node failed =>
    exact ⟨List.filter_sublist, List.filter_sublist, List.filter_sublist, rfl, rfl, rfl, rfl⟩
  | _ => exact ⟨.refl _, .refl _, .refl _, rfl, rfl, rfl, rfl⟩

theorem Changes.shrinks (changes : Changes condition round state next) : Shrinks state next := by
  induction changes with
  | refl => exact .refl state
  | tail _ change ih => exact ih.trans change.shrinks

end

theorem scheduleOverflowRetry_marks (rejected : List Rejected) (round : List Slot) (exchange : BucketExchange) (node : Node) :
    ∃ forceSplit overflowRetry wideSplit, scheduleOverflowRetry rejected round exchange node =
      { exchange with forceSplit := forceSplit, overflowRetry := overflowRetry, wideSplit := wideSplit } := by
  unfold scheduleOverflowRetry
  split
  · exact ⟨_, _, _, rfl⟩
  · split
    · exact ⟨_, _, _, rfl⟩
    · dsimp only
      split
      · exact ⟨_, _, _, rfl⟩
      · split
        · exact ⟨_, _, _, rfl⟩
        · exact ⟨_, _, _, rfl⟩

theorem scheduleOverflowRetries_marks (exchange : BucketExchange) (batch : BucketDecodeBatch) (rejected : List Rejected)
    (round : List Slot) :
    ∃ forceSplit overflowRetry wideSplit, exchange.scheduleOverflowRetries batch rejected round =
      { exchange with forceSplit := forceSplit, overflowRetry := overflowRetry, wideSplit := wideSplit } := by
  unfold scheduleOverflowRetries
  induction batch.failedBuckets generalizing exchange with
  | nil => exact ⟨_, _, _, rfl⟩
  | cons node failed ih =>
    obtain ⟨_, _, _, marked⟩ := scheduleOverflowRetry_marks rejected round exchange node
    obtain ⟨_, _, _, rest⟩ := ih (scheduleOverflowRetry rejected round exchange node)
    rw [List.foldl_cons, rest, marked]
    exact ⟨_, _, _, rfl⟩

def blames (exchange : BucketExchange) (parent : Node) : Bool :=
  match exchange.parents.find? fun p => p.1 = parent with
  | none => false
  | some (_, parentSummary) =>
    match summarizeDescendantCover parent exchange.awaiting with
    | none => false
    | some (descendantSummary, countValid) => countValid = false ∨ descendantSummary ≠ parentSummary

def EachBlame (condition : BucketExchange → Node → Prop) : List Node → Progress → Prop
  | [], _ => True
  | parent :: parents, state =>
    (state.1.blames parent = true → condition state.1 parent) ∧ EachBlame condition parents (checkParent state parent)

theorem checkParent_changes (blame : state.1.blames parent = true → condition state.1 parent) :
    Changes condition round state (checkParent state parent) := by
  obtain ⟨exchange, batch⟩ := state
  rw [checkParent.eq_def]
  dsimp only
  split
  · exact .refl
  · rename_i node summary found
    have known : parent ∈ exchange.parents.map Prod.fst := by
      have same : node = parent := by simpa using List.find?_some found
      exact List.mem_map.mpr ⟨_, List.mem_of_find?_eq_some found, same⟩
    split
    · exact .refl
    · rename_i total fits covered
      split
      · rename_i bad
        have blamed : exchange.blames parent = true := by
          unfold blames
          rw [found]
          rw [covered]
          exact decide_eq_true bad
        exact .single (.blames exchange batch parent known (blame blamed))
      · exact .single (.settles exchange batch parent)

theorem checkParents_changes {parents : List Node} (blames : EachBlame condition parents state) :
    Changes condition round state (parents.foldl checkParent state) := by
  induction parents generalizing state with
  | nil => exact .refl
  | cons parent parents ih => exact (checkParent_changes blames.1).trans (ih blames.2)

def withRound (exchange : BucketExchange) (round : List Slot) : BucketExchange :=
  { exchange with awaiting := round.foldl (awaitSummary exchange.parents) exchange.awaiting }

theorem checkSplitConsistency_changes
    (blames : EachBlame condition (exchange.parents.map Prod.fst) (exchange.withRound round, batch)) :
    Changes condition round (exchange, batch) (exchange.checkSplitConsistency round batch) := by
  have checked : Changes condition round _ _ := checkParents_changes blames
  exact .tail (.trans (.single (.awaits exchange batch _)) checked) (.awaits _ _ _)

theorem giveUps_changes {nodes : List Node} (apart : nodes.Pairwise Apart)
    (shallow : ∀ node ∈ nodes, node.1 ≤ maxDepth) (failed : ∀ node ∈ nodes, node ∈ state.2.failedBuckets) :
    Changes condition round state (nodes.foldl (fun state node => state.1.ladderFail node state.2) state) := by
  induction nodes generalizing state with
  | nil => exact .refl
  | cons node nodes ih =>
    rw [List.pairwise_cons] at apart
    have first : Change condition round state (state.1.ladderFail node state.2) :=
      .givesUp state.1 state.2 node (failed node List.mem_cons_self)
    refine .head first (ih apart.2 (fun other mem => shallow other (List.mem_cons_of_mem _ mem)) ?_)
    intro other mem
    have separate := (apart.1 other mem).1
    rw [← covers_iff (shallow other (List.mem_cons_of_mem _ mem))] at separate
    exact List.mem_filter.mpr ⟨failed other (List.mem_cons_of_mem _ mem), by simpa using separate⟩

theorem handlePhase1Rejection_changes (tracked : Tracked state rejection.1) :
    Changes condition round state (handlePhase1Rejection round state rejection) := by
  obtain ⟨exchange, batch⟩ := state
  obtain ⟨node, roots⟩ := rejection
  unfold handlePhase1Rejection
  dsimp only
  split
  · exact .refl
  · rename_i left
    have failed : node ∈ batch.failedBuckets := by
      rcases tracked with failed | ⟨region, mem, inside⟩
      · exact failed
      · exact absurd (List.any_eq_true.mpr ⟨region, mem, inside⟩) left
    split
    · exact .refl
    · split
      · exact .single (.givesUp exchange batch node failed)
      · exact .single (.marks exchange batch _ _ exchange.overflowRetry exchange.wideSplit)

theorem handlePhase1Rejections_changes {rejected : List Rejected}
    (tracked : ∀ rejection ∈ rejected, Tracked state rejection.1) :
    Changes condition round state (rejected.foldl (handlePhase1Rejection round) state) := by
  induction rejected generalizing state with
  | nil => exact .refl
  | cons rejection rejected ih =>
    have first : Changes condition round state (handlePhase1Rejection round state rejection) :=
      handlePhase1Rejection_changes (tracked rejection List.mem_cons_self)
    exact first.trans (ih fun other mem => first.tracked (tracked other (List.mem_cons_of_mem _ mem)))

theorem slotOf_some (found : slotOf round node = some slot) : slot ∈ round ∧ slot.request.node = node :=
  ⟨List.mem_of_find?_eq_some found, by simpa using List.find?_some found⟩

theorem rememberFailedNodes_changes (exchange : BucketExchange) (batch : BucketDecodeBatch) (round : List Slot) :
    Changes condition round (exchange, batch) (exchange.rememberFailedNodes batch round, batch) := by
  have fold : ∀ (nodes : List Node) (exchange : BucketExchange), (∀ node ∈ nodes, node ∈ batch.failedBuckets) →
      Changes condition round (exchange, batch) (nodes.foldl (rememberFailedNode round) exchange, batch) := by
    intro nodes
    induction nodes with
    | nil => exact fun _ _ => .refl
    | cons node nodes ih =>
      intro exchange failed
      refine .trans ?_ (ih (rememberFailedNode round exchange node) fun other mem =>
        failed other (List.mem_cons_of_mem _ mem))
      unfold rememberFailedNode
      split
      · exact .refl
      · rename_i slot found
        obtain ⟨inRound, rfl⟩ := slotOf_some found
        split
        · exact .refl
        · exact .single (.remembers exchange batch slot inRound (failed _ List.mem_cons_self))
  exact fold batch.failedBuckets exchange fun _ mem => mem

theorem eachBlame_of_forall (always : ∀ exchange node, condition exchange node)
    (parents : List Node) (state : Progress) : EachBlame condition parents state := by
  induction parents generalizing state with
  | nil => exact trivial
  | cons parent parents ih => exact ⟨fun _ => always _ _, ih _⟩

def checkRound (exchange : BucketExchange) (outcome : VerifiedBatch) (round : List Slot) : Progress :=
  let split := (exchange.scheduleOverflowRetries outcome.batch outcome.rejected round).checkSplitConsistency round
    outcome.batch
  let overflows := split.1.giveUpSmallFailedOverflows split.2 outcome.rejected round
  let rejections := overflows.1.handlePhase1Rejections outcome.rejected round overflows.2
  (rejections.1.rememberFailedNodes rejections.2 round, rejections.2)

def withVerified (exchange : BucketExchange) (verified : List Classified) : BucketExchange :=
  { exchange with
    classified := exchange.classified ++
      verified.filter fun c => !exchange.ladderFailed.any fun region => covers region c.node }

theorem verifyRound_ok
    (made : exchange.verifyRound batch requests localSummaries remoteSummaries localCandidates = .ok (next, left)) :
    ∃ outcome, verifyBatch batch requests localSummaries remoteSummaries localCandidates = .ok outcome ∧
      next = (exchange.checkRound outcome (slots requests localSummaries remoteSummaries)).1.withVerified outcome.verified ∧
      left = (exchange.checkRound outcome (slots requests localSummaries remoteSummaries)).2 := by
  obtain ⟨outcome, verified, rest⟩ := Outcome.bind_eq_ok.mp made
  obtain ⟨rfl, rfl⟩ := Prod.mk.inj (Except.ok.inj rest)
  exact ⟨outcome, verified, rfl, rfl⟩

def splitState (exchange : BucketExchange) (outcome : VerifiedBatch) (round : List Slot) : Progress :=
  ((exchange.scheduleOverflowRetries outcome.batch outcome.rejected round).withRound round, outcome.batch)

theorem checkRound_changes (apart : outcome.batch.failedBuckets.Pairwise Apart)
    (shallow : ∀ node ∈ outcome.batch.failedBuckets, node.1 ≤ maxDepth)
    (rejected : ∀ rejection ∈ outcome.rejected, rejection.1 ∈ outcome.batch.failedBuckets)
    (blames : EachBlame condition (exchange.parents.map Prod.fst) (exchange.splitState outcome round)) :
    Changes condition round (exchange, outcome.batch) (exchange.checkRound outcome round) := by
  obtain ⟨forceSplit, overflowRetry, wideSplit, marked⟩ :=
    exchange.scheduleOverflowRetries_marks outcome.batch outcome.rejected round
  have scheduled : Changes condition round (exchange, outcome.batch)
      (exchange.scheduleOverflowRetries outcome.batch outcome.rejected round, outcome.batch) := by
    rw [marked]
    exact .single (.marks exchange outcome.batch exchange.failures forceSplit overflowRetry wideSplit)
  have parents : (exchange.scheduleOverflowRetries outcome.batch outcome.rejected round).parents = exchange.parents := by
    rw [marked]
  have afterSplit : Changes condition round (exchange, outcome.batch) _ := scheduled.trans
    (checkSplitConsistency_changes (by rw [parents]; exact blames))
  have failed := (Changes.shrinks afterSplit).failed
  have afterGiveUps : Changes condition round (exchange, outcome.batch) _ := afterSplit.trans (giveUps_changes
    ((apart.sublist failed).filter (smallFailedOverflow outcome.rejected round))
    (fun node mem => shallow node (failed.subset (List.mem_filter.mp mem).1))
    fun node mem => (List.mem_filter.mp mem).1)
  have afterRejections : Changes condition round (exchange, outcome.batch) _ :=
    afterGiveUps.trans (handlePhase1Rejections_changes
      fun rejection mem => Changes.tracked afterGiveUps (.inl (rejected rejection mem)))
  exact afterRejections.trans (rememberFailedNodes_changes _ _ round)

end Rezzy.Recon.BucketExchange
