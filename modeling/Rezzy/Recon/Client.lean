import Rezzy.Recon.Runs

namespace Rezzy.Recon

open List hiding after

def strataCount : Nat := 32
def stratumCapacity : Nat := 8
def saturatedDeltaEstimate : Nat := 8 * 2 ^ 31
def overCapacityDeltaFloor : Nat := stratumCapacity + 1

def singleCallWorkCeiling (degree : Nat) : Nat :=
  degree * degree * 63 + 72 * (64 * degree + degree * degree) + degree * degree

def maxStrataFactorWork : Nat := strataCount * singleCallWorkCeiling stratumCapacity

structure RoomAccumulator where
  digest : Nat
  knownEventCount : Nat
deriving DecidableEq, Repr

structure ResidentKernel where
  accumulator : RoomAccumulator
  strata : List (List Nat)
deriving DecidableEq, Repr

structure RemoteDigest where
  digest : Nat
  knownEventCount : Nat
  strata : List (List Nat)
  frameMatches : Bool
  hasUnknownExtremity : Bool
deriving DecidableEq, Repr

structure ReconciliationClient where
  gateThreshold : Option Nat
  maxAggregateCapacity : Nat
deriving DecidableEq, Repr

/-- Decodes a sketch of at most so many elements with so much work, and says what is left of the work. -/
abbrev DecodeWithBudget := List Nat → Nat → Nat → Except AlgebraicError (List Nat) × Nat

def estimateDeltaInternal (decodeWithBudget : DecodeWithBudget) (localStrata remoteStrata : List (List Nat)) :
    Nat → Nat → Option Nat → Nat → Except AlgebraicError (Nat × Bool)
  | 0, decodedTail, lowestDecoded, _ => .ok (min (decodedTail * 2 ^ lowestDecoded.getD 0) u64Max, false)
  | stratum + 1, decodedTail, lowestDecoded, budget =>
    let localStratum := localStrata.getD stratum []
    let remoteStratum := remoteStrata.getD stratum []
    if localStratum = remoteStratum then
      estimateDeltaInternal decodeWithBudget localStrata remoteStrata stratum decodedTail (some stratum) budget
    else
      let residual := List.zipWith (· ^^^ ·) localStratum remoteStratum
      let allowance := min budget (singleCallWorkCeiling stratumCapacity)
      match decodeWithBudget residual stratumCapacity allowance with
      | (.ok roots, remaining) =>
        if u64Max < decodedTail + roots.length then .error .countOverflow
        else if allowance < remaining then .error .budgetExhausted
        else
          estimateDeltaInternal decodeWithBudget localStrata remoteStrata stratum (decodedTail + roots.length)
            (some stratum) (budget - (allowance - remaining))
      | (.error .decodeFailure, _) =>
        if lowestDecoded.isNone && stratum = strataCount - 1 then .ok (saturatedDeltaEstimate, true)
        else .ok (min (max decodedTail overCapacityDeltaFloor * 2 ^ lowestDecoded.getD stratum) u64Max, true)
      | (.error error, _) => .error error

def estimateStrata (decodeWithBudget : DecodeWithBudget) (localStrata remoteStrata : List (List Nat)) (budget : Nat) :
    Except AlgebraicError (Nat × Bool) :=
  estimateDeltaInternal decodeWithBudget localStrata remoteStrata strataCount 0 none budget

def provisionCapacity (delta headroom : Nat) : Option Nat :=
  if delta + delta / 2 + delta % 2 + 4 + headroom ≤ u64Max then some (delta + delta / 2 + delta % 2 + 4 + headroom)
  else none

namespace ReconciliationClient

def rootBucketAction : ClientAction := .bucketSketches [.new 0 0 maxBucketSketchCapacity] []

def actionForRemoteState (own : ResidentKernel) (remote : RemoteDigest) : Option ClientAction :=
  if !remote.frameMatches || remote.hasUnknownExtremity then some .extremityDiff
  else if own.accumulator.digest = remote.digest ∧ own.accumulator.knownEventCount = remote.knownEventCount then
    some .synchronized
  else none

def estimateDelta (decodeWithBudget : DecodeWithBudget) (own : ResidentKernel) (remote : RemoteDigest) :
    Except ClientAction Nat :=
  let countDelta := (own.accumulator.knownEventCount - remote.knownEventCount) +
    (remote.knownEventCount - own.accumulator.knownEventCount)
  match estimateStrata decodeWithBudget own.strata remote.strata maxStrataFactorWork with
  | .error _ => .error rootBucketAction
  | .ok (delta, _) => .ok (max delta countDelta)

def widenPlan (targetCapacity : Nat) : Nat → Nat → Nat → Nat × Nat
  | 0, depth, buckets => (depth, buckets)
  | left + 1, depth, buckets =>
    if min (buckets * maxBucketSketchCapacity) usizeMax < targetCapacity then
      widenPlan targetCapacity left (depth + 1) (min (buckets * 2) usizeMax)
    else (depth, buckets)

def selectSketchAction (client : ReconciliationClient) (estimatedDelta concurrencyHeadroom : Nat) : ClientAction :=
  if saturatedDeltaEstimate ≤ estimatedDelta then rootBucketAction
  else if client.gateThreshold.any fun threshold => threshold < estimatedDelta then .extremityDiff
  else
    match provisionCapacity estimatedDelta concurrencyHeadroom with
    | none => .extremityDiff
    | some provisioned =>
      let targetCapacity := min provisioned client.maxAggregateCapacity
      let (depth, buckets) := widenPlan targetCapacity maxBucketRoundDepth 0 1
      let perBucket := max minBucketSketchCapacity
        (min ((targetCapacity + buckets - 1) / buckets) maxBucketSketchCapacity)
      let totalCapacity := min (buckets * perBucket) usizeMax
      if maxBucketsPerRound < buckets ∨ client.maxAggregateCapacity < totalCapacity then .extremityDiff
      else .bucketSketches ((List.range buckets).map fun prefix_ => .new depth prefix_ perBucket) []

def selectAction (client : ReconciliationClient) (decodeWithBudget : DecodeWithBudget) (own : ResidentKernel)
    (remote : RemoteDigest) (concurrencyHeadroom : Nat) : ClientAction :=
  match actionForRemoteState own remote with
  | some action => action
  | none =>
    match estimateDelta decodeWithBudget own remote with
    | .error action => action
    | .ok estimatedDelta => client.selectSketchAction estimatedDelta concurrencyHeadroom

end ReconciliationClient

open Region Relation BucketExchange

structure Acceptable (maxBuckets : Nat) (requests : List BucketRequest) : Prop where
  nonempty : requests ≠ []
  few : requests.length ≤ maxBuckets
  valid : validateAdaptiveBucketRequests requests = .ok ()

section

open ReconciliationClient

theorem widenPlan_power (targetCapacity : Nat) (room : depth + left ≤ maxBucketRoundDepth) :
    ∃ wider ≤ maxBucketRoundDepth, widenPlan targetCapacity left depth (2 ^ depth) = (wider, 2 ^ wider) := by
  induction left generalizing depth with
  | zero => exact ⟨depth, room, rfl⟩
  | succ left ih =>
    rw [widenPlan]
    split
    · have double : min (2 ^ depth * 2) usizeMax = 2 ^ (depth + 1) := by
        rw [← pow_succ]
        apply Nat.min_eq_left
        have shallow : depth + 1 ≤ maxBucketRoundDepth := by omega
        exact (Nat.pow_le_pow_right (by decide) shallow).trans (by decide)
      rw [double]
      exact ih (by omega)
    · exact ⟨depth, by omega, rfl⟩

theorem level_acceptable (shallow : depth ≤ maxBucketRoundDepth) (positive : 0 < capacity)
    (limited : capacity ≤ maxBucketSketchCapacity) :
    Acceptable maxBucketsPerRound ((range (2 ^ depth)).map fun prefix_ => .new depth prefix_ capacity) := by
  have buckets : 2 ^ depth ≤ maxBucketsPerRound := (Nat.pow_le_pow_right (by decide) shallow).trans (by decide)
  have deep : 0 + depth ≤ maxDepth := by
    rw [Nat.zero_add]
    exact shallow.trans (by decide)
  refine ⟨?_, ?_, ?_⟩
  · simp
  · rwa [length_map, length_range]
  · apply validateAdaptive_of_sorted
    · intro _ mem
      obtain ⟨prefix_, inside, rfl⟩ := mem_map.mp mem
      exact ⟨⟨shallow.trans (by decide), mem_range.mp inside⟩, positive, limited⟩
    · have parts : Parts maxDepth maxDepth (0, 0) _ := Parts.children deep (le_refl _)
      rw [List.map_map]
      refine (congrArg (List.Pairwise Apart) (map_congr_left fun suffix _ => ?_)).mp parts.apart
      show (0 + depth, 0 * 2 ^ depth + suffix) = (depth, suffix)
      rw [Nat.zero_add, Nat.zero_mul, Nat.zero_add]
    · rw [pairwise_map]
      refine pairwise_lt_range.imp fun less => ?_
      show _ <<< _ ≤ _ <<< _
      rw [Nat.shiftLeft_eq, Nat.shiftLeft_eq]
      exact Nat.mul_le_mul_right _ (Nat.le_of_lt less)
    · have sum : totalCapacity ((range (2 ^ depth)).map fun prefix_ => .new depth prefix_ capacity) =
          2 ^ depth * capacity := by
        unfold totalCapacity
        rw [List.map_map]
        show ((range (2 ^ depth)).map fun _ => capacity).sum = _
        rw [map_const', sum_replicate, length_range, smul_eq_mul]
      rw [sum]
      exact (Nat.mul_le_mul buckets limited).trans (by decide)

theorem rootBucket_acceptable : Acceptable maxBucketsPerRound [.new 0 0 maxBucketSketchCapacity] :=
  level_acceptable (Nat.zero_le maxBucketRoundDepth) (by decide) (le_refl _)

theorem selectSketchAction_acceptable {client : ReconciliationClient}
    (selected : client.selectSketchAction estimatedDelta concurrencyHeadroom = .bucketSketches requests roots) :
    Acceptable maxBucketsPerRound requests := by
  unfold selectSketchAction at selected
  split at selected
  · obtain ⟨rfl, _⟩ := ClientAction.bucketSketches.inj selected
    exact rootBucket_acceptable
  · split at selected
    · cases selected
    · split at selected
      · cases selected
      · rename_i provisioned _
        have room : 0 + maxBucketRoundDepth ≤ maxBucketRoundDepth := by decide
        obtain ⟨depth, shallow, plan⟩ := widenPlan_power (min provisioned client.maxAggregateCapacity) room
        rw [pow_zero] at plan
        dsimp only at selected
        rw [plan] at selected
        split at selected
        · cases selected
        · obtain ⟨rfl, _⟩ := ClientAction.bucketSketches.inj selected
          refine level_acceptable shallow ?_ ?_
          · exact Nat.lt_of_lt_of_le (by decide) (Nat.le_max_left _ _)
          · exact Nat.max_le.mpr ⟨by decide, Nat.min_le_right _ _⟩

theorem selectAction_acceptable {client : ReconciliationClient}
    (selected : client.selectAction decodeWithBudget own remote concurrencyHeadroom = .bucketSketches requests roots) :
    Acceptable maxBucketsPerRound requests := by
  unfold selectAction at selected
  split at selected
  · rename_i action known
    subst selected
    unfold actionForRemoteState at known
    split at known
    · cases known
    · split at known
      · cases known
      · cases known
  · split at selected
    · rename_i action failed
      subst selected
      unfold estimateDelta at failed
      split at failed
      · obtain ⟨rfl, _⟩ := ClientAction.bucketSketches.inj (Except.error.inj failed)
        exact rootBucket_acceptable
      · cases failed
    · exact selectSketchAction_acceptable selected

variable {meets : BucketExchange → List BucketRequest → Call → Prop}

structure Counted (start : BucketExchange) (session : Session) : Prop where
  orderly : session.Orderly
  acceptable : ∀ requests ∈ session.emitted, Acceptable start.maxBucketsPerRound requests
  counted : session.exchange.roundsEmitted = session.emitted.length
  budget : session.emitted.length ≤ start.maxRounds
  maxRounds : session.exchange.maxRounds = start.maxRounds
  maxBucketsPerRound : session.exchange.maxBucketsPerRound = start.maxBucketsPerRound
  maxAggregateCapacity : session.exchange.maxAggregateCapacity = start.maxAggregateCapacity

theorem Counted.step {exchange : BucketExchange} (word : exchange.maxRounds ≤ usizeMax)
    (room : exchange.maxAggregateCapacity ≤ maxBucketedSketchCapacity) {before after : Session}
    (step : Session.Step meets before after) (counted : Counted exchange before) : Counted exchange after := by
  have orderly := step.orderly counted.orderly
  cases step with
  | @mk call ready next action answers met made ran =>
    obtain ⟨_, prepares, advanced⟩ := Call.run_ok ran
    obtain rfl := Except.ok.inj (made.symm.trans prepares)
    have prepared := counted.orderly.prepared answers made
    have moved : Advanced True _ _ _ _ :=
      counted.orderly.advanced answers prepared (fun no => absurd trivial no) advanced
    have frame := advance_frame advanced
    have rounds := prepared.rounds.trans counted.counted
    have limits := And.intro (prepared.maxRounds.trans counted.maxRounds)
      (And.intro (prepared.maxBucketsPerRound.trans counted.maxBucketsPerRound)
        (prepared.maxAggregateCapacity.trans counted.maxAggregateCapacity))
    have emits := moved.emits
    cases emits with
    | @round requests nonempty few small sorted budget count =>
      have length : (before.emitted ++ [requests]).length = before.emitted.length + 1 := length_append
      rw [rounds] at budget count
      rw [limits.1] at budget
      refine ⟨orderly, ?_, ?_, ?_, frame.maxRounds.trans limits.1, frame.maxBucketsPerRound.trans limits.2.1,
        frame.maxAggregateCapacity.trans limits.2.2⟩
      · intro other mem
        rcases mem_append.mp mem with earlier | new
        · exact counted.acceptable other earlier
        · obtain rfl := mem_singleton.mp new
          rw [limits.2.1] at few
          rw [limits.2.2] at small
          have apart := (pairwise_append.mp (map_append ▸ orderly.apart)).2.1
          refine ⟨nonempty, few, validateAdaptive_of_sorted ?_ apart sorted (small.trans room)⟩
          exact fun request inside => orderly.admissible request (mem_append_right _ inside)
      · show next.roundsEmitted = (before.emitted ++ [requests]).length
        rw [count, length]
        exact Nat.min_eq_left (Nat.le_trans budget word)
      · show (before.emitted ++ [requests]).length ≤ exchange.maxRounds
        rw [length]
        exact budget
    | resolve done count =>
      have same : before.emitted ++ [] = before.emitted := append_nil _
      refine ⟨orderly, ?_, ?_, ?_, frame.maxRounds.trans limits.1, frame.maxBucketsPerRound.trans limits.2.1,
        frame.maxAggregateCapacity.trans limits.2.2⟩
      · show ∀ requests ∈ before.emitted ++ [], _
        rw [same]
        exact counted.acceptable
      · show next.roundsEmitted = (before.emitted ++ []).length
        rw [same, count, rounds]
      · show (before.emitted ++ []).length ≤ exchange.maxRounds
        rw [same]
        exact counted.budget

theorem Counted.steps (word : exchange.maxRounds ≤ usizeMax)
    (room : exchange.maxAggregateCapacity ≤ maxBucketedSketchCapacity) (steps : Session.Steps meets before after)
    (counted : Counted exchange before) : Counted exchange after := by
  induction steps with
  | refl => exact counted
  | tail _ step ih => exact ih.step word room step

end

def Anyhow (_ : BucketExchange) (_ : List BucketRequest) (_ : Call) : Prop := True

/-- The first round of a client is acceptable with its own limit, every later one with that of the exchange, and no
    more rounds are emitted than allowed. -/
theorem rounds_acceptable {client : ReconciliationClient} {decodeWithBudget : DecodeWithBudget}
    {own : ResidentKernel} {remote : RemoteDigest} {concurrencyHeadroom : Nat} {first : List BucketRequest}
    {roots : List Nat}
    (selected : client.selectAction decodeWithBudget own remote concurrencyHeadroom = .bucketSketches first roots)
    {limitRounds limitBuckets limitCapacity : Nat} (word : limitRounds ≤ usizeMax)
    (room : limitCapacity ≤ maxBucketedSketchCapacity) {session : Session}
    (run : Session.Steps Anyhow (.start (.new roots limitRounds limitBuckets limitCapacity) first) session) :
    Acceptable maxBucketsPerRound first ∧ (∀ requests ∈ session.emitted, Acceptable limitBuckets requests) ∧
      session.emitted.length ≤ limitRounds := by
  have acceptable := selectAction_acceptable selected
  have start : Counted (.new roots limitRounds limitBuckets limitCapacity)
      (.start (.new roots limitRounds limitBuckets limitCapacity) first) :=
    ⟨.start rfl rfl rfl acceptable.valid, (fun requests none => nomatch none), rfl, Nat.zero_le _, rfl, rfl, rfl⟩
  have finished := start.steps word room run
  exact ⟨acceptable, finished.acceptable, finished.budget⟩

namespace Sample

def ahead : ResidentKernel := ⟨⟨1, 100⟩, []⟩

def behind : RemoteDigest := ⟨0, 0, [], true, false⟩

def roomy : ReconciliationClient := ⟨none, 4096⟩

def eighths : List BucketRequest := (List.range 8).map fun prefix_ => .new 3 prefix_ 20

def undecodable : DecodeWithBudget := fun _ _ budget => (.error .decodeFailure, budget)

theorem roomy_selects : roomy.selectAction undecodable ahead behind 0 = .bucketSketches eighths [] := rfl

def lastFails : Call := .advance ⟨(List.range 7).map fun prefix_ => ⟨3, prefix_, [prefix_ <<< 61]⟩, [(3, 7)]⟩ none

theorem eighths_narrows : lastFails.run (.new [] 1 1 64) eighths = .ok
    ({ BucketExchange.new ((List.range 7).map (· <<< 61)) 1 1 64 with roundsEmitted := 1 },
      .bucketSketches [.new 3 7 32] ((List.range 7).map (· <<< 61))) := by
  decide +kernel

/-- Seven of the eight nodes decode, and the last is asked for again. -/
theorem eighths_acceptable : Acceptable maxBucketsPerRound eighths ∧
    (∀ requests ∈ [] ++ [[BucketRequest.new 3 7 32]], Acceptable 1 requests) ∧
      ([] ++ [[BucketRequest.new 3 7 32]]).length ≤ 1 := by
  have answers : lastFails.Answers eighths := List.Perm.refl _
  have step := @Session.Step.mk Anyhow (.start (.new [] 1 1 64) eighths) lastFails _ _ _ answers trivial rfl eighths_narrows
  exact rounds_acceptable roomy_selects (by decide) (by decide) (.single step)

/-- The limits of an exchange say nothing about the round that was selected before it began. -/
theorem first_round_unlimited : ∃ first roots, ∃ exchange : BucketExchange,
    roomy.selectAction undecodable ahead behind 0 = .bucketSketches first roots ∧
      exchange = .new roots 0 1 64 ∧ exchange.maxBucketsPerRound < first.length ∧
        exchange.maxRounds < [first].length :=
  ⟨eighths, [], .new [] 0 1 64, roomy_selects, rfl, by decide, by decide⟩

end Sample

end Rezzy.Recon
