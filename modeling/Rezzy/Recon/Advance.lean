import Rezzy.Recon.Retry

namespace Rezzy.Recon

open List hiding next
open Region Relation

def ClientAction.requests : ClientAction → List BucketRequest
  | .bucketSketches requests _ => requests
  | _ => []

namespace BucketExchange

structure Frame (before after : BucketExchange) : Prop where
  maxRounds : after.maxRounds = before.maxRounds
  maxBucketsPerRound : after.maxBucketsPerRound = before.maxBucketsPerRound
  maxAggregateCapacity : after.maxAggregateCapacity = before.maxAggregateCapacity
  maxPendingRequests : after.maxPendingRequests = before.maxPendingRequests
  classified : after.classified = before.classified
  parents : after.parents = before.parents
  awaiting : after.awaiting = before.awaiting

theorem Frame.refl (exchange : BucketExchange) : Frame exchange exchange := ⟨rfl, rfl, rfl, rfl, rfl, rfl, rfl⟩

theorem Frame.after (second : Frame b c) (first : Frame a b) : Frame a c :=
  ⟨second.1.trans first.1, second.2.trans first.2, second.3.trans first.3, second.4.trans first.4,
    second.5.trans first.5, second.6.trans first.6, second.7.trans first.7⟩

section

theorem recordLadderFailed_frame (exchange : BucketExchange) (node : Node) :
    Frame exchange (exchange.recordLadderFailed node) := by
  unfold recordLadderFailed
  split
  · exact .refl exchange
  · exact ⟨rfl, rfl, rfl, rfl, rfl, rfl, rfl⟩

theorem recordPending_frame (exchange : BucketExchange) : Frame exchange exchange.recordPending := by
  have fold : ∀ (requests : List BucketRequest) (exchange : BucketExchange),
      Frame exchange (requests.foldl (fun exchange request => exchange.recordLadderFailed request.node) exchange) := by
    intro requests
    induction requests with
    | nil => exact .refl
    | cons request requests ih => exact fun exchange => (ih _).after (exchange.recordLadderFailed_frame request.node)
  exact (fold exchange.pending { exchange with pending := [] }).after ⟨rfl, rfl, rfl, rfl, rfl, rfl, rfl⟩

theorem queueFailedNodes_frame (previousRequests : List BucketRequest) (share : Nat) (failed : List Node)
    (exchange : BucketExchange) : Frame exchange (queueFailedNodes previousRequests share failed exchange).1 := by
  induction failed generalizing exchange with
  | nil => exact .refl exchange
  | cons node failed ih =>
    have marked : Frame exchange (exchange.takeRetry previousRequests share node).1 :=
      ⟨rfl, rfl, rfl, rfl, rfl, rfl, rfl⟩
    rw [queueFailedNodes]
    split
    · rename_i reached taken
      rw [taken] at marked
      exact (ih _).after ((reached.recordLadderFailed_frame node).after marked)
    · rename_i reached requests taken
      rw [taken] at marked
      have grown : Frame exchange { reached with pending := reached.pending ++ requests } :=
        ⟨marked.1, marked.2, marked.3, marked.4, marked.5, marked.6, marked.7⟩
      dsimp only
      split
      · exact (recordPending_frame _).after grown
      · exact (ih _).after grown

theorem drainPendingRound_frame (exchange : BucketExchange) : Frame exchange exchange.drainPendingRound.1 := by
  unfold drainPendingRound
  split
  · exact .refl exchange
  · dsimp only
    split
    · exact ⟨rfl, rfl, rfl, rfl, rfl, rfl, rfl⟩
    · exact ⟨rfl, rfl, rfl, rfl, rfl, rfl, rfl⟩

def ingest (exchange : BucketExchange) (batch : BucketDecodeBatch) (requests : List BucketRequest) : BucketExchange :=
  { exchange.observeProgress batch requests with
    accumulatedRoots := exchange.accumulatedRoots ++ batch.successfulBuckets.flatMap BucketDecodeSuccess.roots }

def ingestedShare (exchange : BucketExchange) (batch : BucketDecodeBatch) (requests : List BucketRequest)
    (globalEstimate : Option Nat) : Nat :=
  (exchange.ingest batch requests).failedNodeShare batch.failedBuckets.length globalEstimate

def sortPending (exchange : BucketExchange) : BucketExchange :=
  { exchange with pending := exchange.pending.mergeSort fun a b => bucketRangeStart a ≤ bucketRangeStart b }

inductive AdvanceCases (exchange : BucketExchange) (batch : BucketDecodeBatch) (requests : List BucketRequest)
    (globalEstimate : Option Nat) : BucketExchange → ClientAction → Prop where
  | stopped {next : BucketExchange} {action : ClientAction}
      (queued : queueFailedNodes requests (exchange.ingestedShare batch requests globalEstimate) batch.failedBuckets
        (exchange.ingest batch requests) = (next, some action)) :
      AdvanceCases exchange batch requests globalEstimate next action
  | complete {reached : BucketExchange}
      (queued : queueFailedNodes requests (exchange.ingestedShare batch requests globalEstimate) batch.failedBuckets
        (exchange.ingest batch requests) = (reached, none)) (done : reached.sortPending.pending = []) :
      AdvanceCases exchange batch requests globalEstimate reached.sortPending reached.sortPending.partialAction
  | drained {reached next : BucketExchange} {action : ClientAction}
      (queued : queueFailedNodes requests (exchange.ingestedShare batch requests globalEstimate) batch.failedBuckets
        (exchange.ingest batch requests) = (reached, none))
      (drains : reached.sortPending.drainNextAction = (next, action)) :
      AdvanceCases exchange batch requests globalEstimate next action

theorem advance_cases (advanced : exchange.advance batch requests globalEstimate = (next, action)) :
    AdvanceCases exchange batch requests globalEstimate next action := by
  unfold advance at advanced
  dsimp only at advanced
  split at advanced
  · rename_i queued
    obtain ⟨rfl, rfl⟩ := Prod.mk.inj advanced
    exact .stopped queued
  · rename_i queued
    split at advanced
    · rename_i complete
      obtain ⟨rfl, rfl⟩ := Prod.mk.inj advanced
      rw [Bool.and_eq_true, List.isEmpty_iff, List.isEmpty_iff] at complete
      exact .complete queued complete.2
    · exact .drained queued advanced

theorem queued_frame
    (queued : queueFailedNodes requests share batch.failedBuckets (exchange.ingest batch requests) = (reached, action)) :
    Frame exchange reached ∧ Frame exchange reached.sortPending := by
  have ingested : Frame exchange (exchange.ingest batch requests) := ⟨rfl, rfl, rfl, rfl, rfl, rfl, rfl⟩
  have looped := (queueFailedNodes_frame requests share batch.failedBuckets (exchange.ingest batch requests)).after ingested
  rw [queued] at looped
  exact ⟨looped, looped.1, looped.2, looped.3, looped.4, looped.5, looped.6, looped.7⟩

theorem advance_frame (advanced : exchange.advance batch requests globalEstimate = (next, action)) :
    Frame exchange next := by
  cases advance_cases advanced with
  | stopped queued => exact (queued_frame queued).1
  | complete queued done => exact (queued_frame queued).2
  | @drained reached _ _ queued drains =>
    have drained := reached.sortPending.drainPendingRound_frame.after (queued_frame queued).2
    unfold drainNextAction at drains
    split at drains
    · rename_i round
      rw [round] at drained
      obtain ⟨rfl, _⟩ := Prod.mk.inj drains
      exact (recordPending_frame _).after drained
    · rename_i round
      rw [round] at drained
      obtain ⟨rfl, _⟩ := Prod.mk.inj drains
      exact drained

theorem recordLadderFailed_recorded (exchange : BucketExchange) (node : Node) :
    Recorded exchange.ladderFailed node (exchange.recordLadderFailed node).ladderFailed := by
  unfold recordLadderFailed
  split
  · rename_i covered
    obtain ⟨outer, member, inside⟩ := any_eq_true.mp covered
    have within : Within outer node := covers_within inside
    refine ⟨fun region member => ⟨region, member, .refl region⟩, ⟨outer, member, within⟩, fun _ => .inr, fun apart => ?_⟩
    exact absurd within (apart outer member).1
  · have mem : ∀ region, region ∈ ((exchange.ladderFailed.filter fun existing => !covers node existing) ++
        [node]).mergeSort nodeLe ↔ (region ∈ exchange.ladderFailed ∧ covers node region = false) ∨ region = node := by
      intro region
      rw [mem_mergeSort, mem_append, mem_filter, mem_singleton, Bool.not_eq_true']
    constructor
    · intro region member
      cases inside : covers node region with
      | true => exact ⟨node, (mem node).mpr (.inr rfl), covers_within inside⟩
      | false => exact ⟨region, (mem region).mpr (.inl ⟨member, inside⟩), .refl region⟩
    · exact ⟨node, (mem node).mpr (.inr rfl), .refl node⟩
    · intro region member
      rcases (mem region).mp member with ⟨member, _⟩ | same
      · exact .inr member
      · exact .inl same
    · intro apart
      have all : exchange.ladderFailed.filter (fun existing => !covers node existing) = exchange.ladderFailed := by
        apply filter_eq_self.mpr
        intro region member
        have := mt covers_within (apart region member).2
        simpa using this
      rw [all]
      exact (mergeSort_perm _ _).trans perm_append_comm

theorem recordLadderFailed_eq (exchange : BucketExchange) (node : Node) : exchange.recordLadderFailed node =
      { exchange with ladderFailed := (exchange.recordLadderFailed node).ladderFailed } := by
  unfold recordLadderFailed
  split
  · rfl
  · rfl

variable {lossy : Prop}

theorem foldl_recordLadderFailed (requests : List BucketRequest) (exchange : BucketExchange) (rest : List Node) :
    ∃ ladderFailed, requests.foldl (fun exchange request => exchange.recordLadderFailed request.node) exchange =
        { exchange with ladderFailed := ladderFailed } ∧
      Moves h64TrieWidth maxDepth lossy (requests.map BucketRequest.node ++ rest, exchange.ladderFailed)
        (rest, ladderFailed) := by
  induction requests generalizing exchange with
  | nil => exact ⟨exchange.ladderFailed, rfl, .refl⟩
  | cons request requests ih =>
    obtain ⟨ladderFailed, same, moves⟩ := ih (exchange.recordLadderFailed request.node)
    refine ⟨ladderFailed, ?_, .head (.giveUp (exchange.recordLadderFailed_recorded request.node)) moves⟩
    rw [foldl_cons, same, recordLadderFailed_eq]

theorem recordPending_moves (lossy : Prop) (exchange : BucketExchange) (rest : List Node) :
    ∃ ladderFailed, exchange.recordPending = { exchange with pending := [], ladderFailed := ladderFailed } ∧
      Moves h64TrieWidth maxDepth lossy (exchange.pending.map BucketRequest.node ++ rest, exchange.ladderFailed)
        (rest, ladderFailed) := foldl_recordLadderFailed exchange.pending { exchange with pending := [] } rest

end

section

variable {previousRequests : List BucketRequest} {share : Nat}

def retryCount (exchange : BucketExchange) (previousRequests : List BucketRequest) (share : Nat) (node : Node) : Nat :=
  ((exchange.takeRetry previousRequests share node).2.getD []).length

def QueueFits (exchange : BucketExchange) (previousRequests : List BucketRequest) (share : Nat)
    (failedBuckets : List Node) : Prop :=
  exchange.pending.length + (failedBuckets.dropLast.map (exchange.retryCount previousRequests share)).sum ≤
    exchange.maxPendingRequests

theorem takeRetry_congr {a b : BucketExchange} {node : Node} (force : node ∈ a.forceSplit ↔ node ∈ b.forceSplit)
    (overflow : node ∈ a.overflowRetry ↔ node ∈ b.overflowRetry) (wide : node ∈ a.wideSplit ↔ node ∈ b.wideSplit)
    (progress : a.noProgressRounds = b.noProgressRounds) :
    (a.takeRetry previousRequests share node).2 = (b.takeRetry previousRequests share node).2 := by
  unfold takeRetry
  simp only [force, overflow, wide, progress]

theorem retryCount_other (exchange : BucketExchange) (different : later ≠ node) (pending : List BucketRequest)
    (ladderFailed : List Node) : retryCount { (exchange.takeRetry previousRequests share node).1 with
      pending := pending, ladderFailed := ladderFailed } previousRequests share later =
      exchange.retryCount previousRequests share later := by
  unfold retryCount
  rw [takeRetry_congr (b := exchange)]
  all_goals simp [takeRetry, different]

theorem QueueFits.tail {exchange : BucketExchange} {node : Node} {failed : List Node}
    (fits : exchange.QueueFits previousRequests share (node :: failed)) (distinct : (node :: failed).Nodup)
    {pending : List BucketRequest} (ladderFailed : List Node)
    (length : pending.length = exchange.pending.length + exchange.retryCount previousRequests share node)
    (below : pending.length ≤ exchange.maxPendingRequests) :
    QueueFits { (exchange.takeRetry previousRequests share node).1 with
      pending := pending, ladderFailed := ladderFailed } previousRequests share failed := by
  unfold QueueFits
  cases failed with
  | nil => exact below
  | cons other failed =>
    have whole : exchange.pending.length + (exchange.retryCount previousRequests share node +
        ((other :: failed).dropLast.map (exchange.retryCount previousRequests share)).sum) ≤ exchange.maxPendingRequests :=
      fits
    have same : ∀ later ∈ (other :: failed).dropLast, retryCount { (exchange.takeRetry previousRequests share node).1 with
        pending := pending, ladderFailed := ladderFailed } previousRequests share later =
        exchange.retryCount previousRequests share later := by
      intro later mem
      apply retryCount_other
      rintro rfl
      exact (nodup_cons.mp distinct).1 (mem_of_mem_dropLast mem)
    rw [map_congr_left same, length]
    show _ ≤ exchange.maxPendingRequests
    omega

theorem QueueFits.head {exchange : BucketExchange} {node : Node} {failed : List Node} (more : failed ≠ [])
    (fits : exchange.QueueFits previousRequests share (node :: failed)) :
    exchange.pending.length + exchange.retryCount previousRequests share node ≤ exchange.maxPendingRequests := by
  have whole : exchange.pending.length + ((node :: failed).dropLast.map
      (exchange.retryCount previousRequests share)).sum ≤ exchange.maxPendingRequests := fits
  rw [dropLast_cons_of_ne_nil more, map_cons, sum_cons] at whole
  omega

structure Queued (lossy : Prop) (exchange : BucketExchange) (failed : List Node) (next : BucketExchange)
    (action : Option ClientAction) : Prop where
  moves : Moves h64TrieWidth maxDepth lossy (failed ++ exchange.pending.map BucketRequest.node, exchange.ladderFailed)
    (next.pending.map BucketRequest.node, next.ladderFailed)
  admissible : (∀ request ∈ exchange.pending, Admissible request) → ∀ request ∈ next.pending, Admissible request
  roots : next.accumulatedRoots = exchange.accumulatedRoots
  rounds : next.roundsEmitted = exchange.roundsEmitted
  stops : ∀ stopped, action = some stopped → stopped = next.partialAction ∧ next.pending = []

theorem queueFailedNodes_queued {lossy : Prop} (admissible : ∀ request ∈ previousRequests, Admissible request)
    (asked : ∀ node ∈ failed, ∃ request ∈ previousRequests, request.node = node) (distinct : failed.Nodup)
    (fits : ¬lossy → exchange.QueueFits previousRequests share failed)
    (queued : queueFailedNodes previousRequests share failed exchange = (next, action)) :
    Queued lossy exchange failed next action := by
  induction failed generalizing exchange with
  | nil =>
    obtain ⟨rfl, rfl⟩ := Prod.mk.inj queued
    exact ⟨.refl, fun known => known, rfl, rfl, fun _ none => nomatch none⟩
  | cons node failed ih =>
    have others : ∀ node ∈ failed, ∃ request ∈ previousRequests, request.node = node :=
      fun other mem => asked other (mem_cons_of_mem _ mem)
    obtain ⟨previous, isPrevious, own⟩ := asked node mem_cons_self
    rw [queueFailedNodes] at queued
    split at queued
    · rename_i marked taken
      obtain rfl : (exchange.takeRetry previousRequests share node).1 = marked := by rw [taken]
      have length : exchange.pending.length =
          exchange.pending.length + exchange.retryCount previousRequests share node := by
        unfold retryCount
        rw [taken]
        rfl
      have recorded := recordLadderFailed_recorded (exchange.takeRetry previousRequests share node).1 node
      rw [recordLadderFailed_eq] at queued
      have rest := ih others (nodup_cons.mp distinct).2
        (fun lossless => (fits lossless).tail distinct _ (length.trans rfl)
          (Nat.le_trans (Nat.le_add_right _ _) (fits lossless))) queued
      exact ⟨.head (.giveUp recorded) rest.moves, rest.admissible, rest.roots, rest.rounds, rest.stops⟩
    · rename_i marked requests taken
      obtain rfl : (exchange.takeRetry previousRequests share node).1 = marked := by rw [taken]
      have count : exchange.retryCount previousRequests share node = requests.length := by
        unfold retryCount
        rw [taken]
        rfl
      have again : AsksAgain node requests := by
        rw [← own]
        exact takeRetry_asksAgain isPrevious admissible (by rw [own, taken])
      have length : (exchange.pending ++ requests).length =
          exchange.pending.length + exchange.retryCount previousRequests share node := by
        rw [length_append, count]
      have admitted : (∀ request ∈ exchange.pending, Admissible request) →
          ∀ request ∈ exchange.pending ++ requests, Admissible request :=
        fun known => forall_mem_append.mpr ⟨known, again.admissible⟩
      -- The parts go behind the other nodes of the frontier.
      have parts : (requests.map BucketRequest.node ++ (failed ++ exchange.pending.map BucketRequest.node)).Perm
          (failed ++ (exchange.pending ++ requests).map BucketRequest.node) := by
        rw [map_append, ← append_assoc failed]
        exact perm_append_comm
      have moved : Moves h64TrieWidth maxDepth lossy
          (node :: failed ++ exchange.pending.map BucketRequest.node, exchange.ladderFailed)
          (failed ++ (exchange.pending ++ requests).map BucketRequest.node, exchange.ladderFailed) :=
        .head (.split again.parts) (.single (.sort parts))
      dsimp only at queued
      split at queued
      · rename_i past
        obtain ⟨reached, stopped⟩ := Prod.mk.inj queued
        have loss : failed = [] ∨ lossy := by
          by_contra both
          obtain ⟨some_, lossless⟩ := not_or.mp both
          exact Nat.not_lt.mpr ((fits lossless).head some_) (length ▸ past)
        obtain ⟨ladderFailed, same, given⟩ := recordPending_moves lossy
          { (exchange.takeRetry previousRequests share node).1 with pending := exchange.pending ++ requests } failed
        have emptied := moved.trans (.head (.sort perm_append_comm) (given.trans (Moves.dropAll loss ladderFailed)))
        have named := reached.symm.trans same
        have pending : next.pending = [] := congrArg BucketExchange.pending named
        have given : next.ladderFailed = ladderFailed := congrArg BucketExchange.ladderFailed named
        constructor
        · rw [pending, given]
          exact emptied
        · rw [pending]
          exact fun _ request mem => nomatch mem
        · rw [named]
          rfl
        · rw [named]
          rfl
        · rintro stopped' rfl
          obtain rfl := Option.some.inj stopped
          exact ⟨congrArg partialAction reached, pending⟩
      · rename_i within
        have rest := ih others (nodup_cons.mp distinct).2
          (fun lossless => (fits lossless).tail distinct _ length (Nat.le_of_not_lt within)) queued
        exact ⟨moved.trans rest.moves, fun all => rest.admissible (admitted all), rest.roots, rest.rounds, rest.stops⟩

theorem drainLoop_ok {pending taken requests rest : List BucketRequest} (sum : total = totalCapacity taken)
    (few : taken.length ≤ maxBuckets) (small : total ≤ maxAggregate)
    (drained : drainLoop maxBuckets maxAggregate pending total taken = (requests, rest, overflowed)) :
    taken ++ pending = requests ++ rest ∧ requests.length ≤ maxBuckets ∧ totalCapacity requests ≤ maxAggregate ∧
      (overflowed = true → usizeMax < totalCapacity (taken ++ pending)) := by
  induction pending generalizing total taken with
  | nil =>
    obtain ⟨rfl, rfl, rfl⟩ : taken = requests ∧ [] = rest ∧ false = overflowed := by simpa [drainLoop] using drained
    exact ⟨rfl, few, sum ▸ small, fun no => nomatch no⟩
  | cons candidate pending ih =>
    have whole : totalCapacity (taken ++ candidate :: pending) =
        total + candidate.capacity + totalCapacity pending := by
      unfold totalCapacity at sum ⊢
      rw [map_append, sum_append, map_cons, sum_cons, ← sum, Nat.add_assoc]
    rw [drainLoop] at drained
    split at drained
    · obtain ⟨rfl, rfl, rfl⟩ : taken = requests ∧ candidate :: pending = rest ∧ false = overflowed := by
        simpa using drained
      exact ⟨rfl, few, sum ▸ small, fun no => nomatch no⟩
    · split at drained
      · rename_i over_
        obtain ⟨rfl, rfl, rfl⟩ : taken = requests ∧ candidate :: pending = rest ∧ true = overflowed := by
          simpa using drained
        exact ⟨rfl, few, sum ▸ small, fun _ => by omega⟩
      · split at drained
        · obtain ⟨rfl, rfl, rfl⟩ : taken = requests ∧ candidate :: pending = rest ∧ false = overflowed := by
            simpa using drained
          exact ⟨rfl, few, sum ▸ small, fun no => nomatch no⟩
        · rename_i room _ fits
          have sum' : total + candidate.capacity = totalCapacity (taken ++ [candidate]) := by
            simp [totalCapacity, sum]
          have next := ih sum' (by rw [length_append, length_singleton]; omega) (Nat.le_of_not_lt fits) drained
          rwa [append_assoc, singleton_append] at next

theorem totalCapacity_le (admissible : ∀ request ∈ requests, Admissible request)
    (apart : (requests.map BucketRequest.node).Pairwise Apart) : totalCapacity requests ≤ usizeMax := by
  have formed : ∀ node ∈ requests.map BucketRequest.node, Formed maxDepth node := by
    intro node mem
    obtain ⟨request, inside, rfl⟩ := mem_map.mp mem
    exact (admissible request inside).formed
  have few := length_le_of_apart formed apart
  have each : ∀ capacity ∈ requests.map BucketRequest.capacity, capacity ≤ maxOverflowBucketCapacity := by
    intro capacity mem
    obtain ⟨request, inside, rfl⟩ := mem_map.mp mem
    refine (admissible request inside).limited.trans ?_
    unfold BucketRequest.itemLimit
    split
    · exact le_refl _
    · decide
  have bound := sum_le_card_nsmul _ _ each
  rw [length_map] at few bound
  calc totalCapacity requests ≤ requests.length * maxOverflowBucketCapacity := bound
    _ ≤ 2 ^ maxDepth * maxOverflowBucketCapacity := Nat.mul_le_mul_right _ few
    _ ≤ usizeMax := by decide

structure Drained (exchange : BucketExchange) (requests rest : List BucketRequest) : Prop where
  nonempty : requests ≠ []
  taken : exchange.pending = requests ++ rest
  few : requests.length ≤ exchange.maxBucketsPerRound
  small : totalCapacity requests ≤ exchange.maxAggregateCapacity
  budget : exchange.roundsEmitted < exchange.maxRounds

theorem drainPendingRound_cases (exchange : BucketExchange) (fits : totalCapacity exchange.pending ≤ usizeMax) :
    exchange.drainPendingRound = (exchange, none) ∨
      ∃ requests rest, exchange.Drained requests rest ∧ exchange.drainPendingRound =
        ({ exchange with pending := rest, roundsEmitted := min (exchange.roundsEmitted + 1) usizeMax }, some requests) := by
  unfold drainPendingRound
  split
  · exact .inl rfl
  · rename_i budget
    rcases drained : drainLoop exchange.maxBucketsPerRound exchange.maxAggregateCapacity exchange.pending 0 [] with
      ⟨requests, rest, overflowed⟩
    obtain ⟨taken, few, small, passed⟩ := drainLoop_ok (rfl : 0 = totalCapacity []) (Nat.zero_le _) (Nat.zero_le _) drained
    have within : overflowed = false := by
      rw [← Bool.not_eq_true]
      intro over_
      exact absurd (passed over_) (Nat.not_lt.mpr fits)
    subst within
    cases requests with
    | nil =>
      left
      obtain rfl : exchange.pending = rest := taken
      rfl
    | cons request requests =>
      exact .inr ⟨_, rest, ⟨cons_ne_nil _ _, taken, few, small, Nat.lt_of_not_le budget⟩, rfl⟩

end

inductive Emits (exchange next : BucketExchange) : ClientAction → Prop where
  | round {requests : List BucketRequest} (nonempty : requests ≠ []) (few : requests.length ≤ exchange.maxBucketsPerRound)
      (small : totalCapacity requests ≤ exchange.maxAggregateCapacity)
      (sorted : requests.Pairwise fun a b => bucketRangeStart a ≤ bucketRangeStart b)
      (budget : exchange.roundsEmitted < exchange.maxRounds)
      (counted : next.roundsEmitted = min (exchange.roundsEmitted + 1) usizeMax) :
      Emits exchange next (.bucketSketches requests next.accumulatedRoots)
  | resolve (done : next.pending = []) (counted : next.roundsEmitted = exchange.roundsEmitted) :
      Emits exchange next (.resolveRoots next.accumulatedRoots next.ladderFailed)

theorem Emits.before (emits : Emits middle next action) (frame : Frame exchange middle)
    (rounds : middle.roundsEmitted = exchange.roundsEmitted) : Emits exchange next action := by
  cases emits with
  | round nonempty few small sorted budget counted =>
    rw [frame.maxBucketsPerRound] at few
    rw [frame.maxAggregateCapacity] at small
    rw [rounds, frame.maxRounds] at budget
    rw [rounds] at counted
    exact .round nonempty few small sorted budget counted
  | resolve done counted => exact .resolve done (counted.trans rounds)

structure Advanced (lossy : Prop) (exchange : BucketExchange) (batch : BucketDecodeBatch) (next : BucketExchange)
    (action : ClientAction) : Prop where
  moves : Moves h64TrieWidth maxDepth lossy
    (batch.failedBuckets ++ exchange.pending.map BucketRequest.node, exchange.ladderFailed)
    ((next.pending ++ action.requests).map BucketRequest.node, next.ladderFailed)
  admissible : ∀ request ∈ next.pending ++ action.requests, Admissible request
  roots : next.accumulatedRoots =
    exchange.accumulatedRoots ++ batch.successfulBuckets.flatMap BucketDecodeSuccess.roots
  emits : Emits exchange next action

def FrontierFits (exchange : BucketExchange) (batch : BucketDecodeBatch) (requests : List BucketRequest)
    (globalEstimate : Option Nat) : Prop :=
  (exchange.ingest batch requests).QueueFits requests (exchange.ingestedShare batch requests globalEstimate)
    batch.failedBuckets

theorem drainNextAction_advanced (lossy : Prop) (admissible : ∀ request ∈ exchange.pending, Admissible request)
    (apart : (exchange.pending.map BucketRequest.node).Pairwise Apart)
    (sorted : exchange.pending.Pairwise fun a b => bucketRangeStart a ≤ bucketRangeStart b)
    (drained : exchange.drainNextAction = (next, action)) : Advanced lossy exchange ⟨[], []⟩ next action := by
  unfold drainNextAction at drained
  rcases exchange.drainPendingRound_cases (totalCapacity_le admissible apart) with none_ | ⟨requests, rest, round, some_⟩
  · rw [none_] at drained
    obtain ⟨reached, answered⟩ := Prod.mk.inj drained
    rw [reached] at answered
    obtain ⟨ladderFailed, same, moves⟩ := exchange.recordPending_moves lossy []
    obtain rfl := reached.symm.trans same
    subst answered
    rw [append_nil] at moves
    exact ⟨moves, (fun request mem => nomatch mem), (append_nil _).symm, .resolve rfl rfl⟩
  · rw [some_] at drained
    obtain ⟨rfl, rfl⟩ := Prod.mk.inj drained
    have turned : (requests ++ rest).Perm (rest ++ requests) := perm_append_comm
    refine ⟨?_, ?_, (append_nil _).symm, ?_⟩
    · rw [round.taken]
      exact .single (.sort (turned.map BucketRequest.node))
    · intro request mem
      apply admissible
      rw [round.taken]
      exact turned.mem_iff.mpr mem
    · rw [round.taken] at sorted
      exact .round round.nonempty round.few round.small (pairwise_append.mp sorted).1 round.budget rfl

theorem sortPending_spec (exchange : BucketExchange) :
    (∀ lossy, Move h64TrieWidth maxDepth lossy (exchange.pending.map BucketRequest.node, exchange.ladderFailed)
      (exchange.sortPending.pending.map BucketRequest.node, exchange.sortPending.ladderFailed)) ∧
    ((∀ request ∈ exchange.pending, Admissible request) → ∀ request ∈ exchange.sortPending.pending, Admissible request) ∧
    exchange.sortPending.pending.Pairwise fun a b => bucketRangeStart a ≤ bucketRangeStart b := by
  have perm : exchange.sortPending.pending.Perm exchange.pending := mergeSort_perm _ _
  refine ⟨fun lossy => .sort (perm.symm.map BucketRequest.node),
    fun known request mem => known request (perm.mem_iff.mp mem), ?_⟩
  have trans : ∀ a b c : BucketRequest, decide (bucketRangeStart a ≤ bucketRangeStart b) →
      decide (bucketRangeStart b ≤ bucketRangeStart c) → decide (bucketRangeStart a ≤ bucketRangeStart c) := by
    simpa using fun _ _ _ => Nat.le_trans
  have total : ∀ a b : BucketRequest, decide (bucketRangeStart a ≤ bucketRangeStart b) ||
      decide (bucketRangeStart b ≤ bucketRangeStart a) := by
    simpa using fun _ _ => Nat.le_total _ _
  have sorted := pairwise_mergeSort trans total exchange.pending
  exact sorted.imp fun le => of_decide_eq_true le

theorem advance_advanced {lossy : Prop} (admissible : ∀ request ∈ exchange.pending ++ requests, Admissible request)
    (asked : ∀ node ∈ batch.failedBuckets, ∃ request ∈ requests, request.node = node)
    (apart : (batch.failedBuckets ++ exchange.pending.map BucketRequest.node).Pairwise Apart)
    (fits : ¬lossy → exchange.FrontierFits batch requests globalEstimate)
    (advanced : exchange.advance batch requests globalEstimate = (next, action)) :
    Advanced lossy exchange batch next action := by
  obtain ⟨pendingAdmissible, previous⟩ := forall_mem_append.mp admissible
  have distinct : batch.failedBuckets.Nodup := (pairwise_append.mp apart).1.imp Apart.ne
  cases advance_cases advanced with
  | stopped looped =>
    have queued := queueFailedNodes_queued previous asked distinct fits looped
    obtain ⟨rfl, done⟩ := queued.stops _ rfl
    refine ⟨?_, ?_, queued.roots, .resolve done queued.rounds⟩
    · show Moves _ _ _ _ ((next.pending ++ []).map _, _)
      rw [append_nil]
      exact queued.moves
    · rw [done]
      exact fun request mem => nomatch mem
  | @complete reached looped done =>
    have queued := queueFailedNodes_queued previous asked distinct fits looped
    obtain ⟨sorting, admissible, _⟩ := sortPending_spec reached
    refine ⟨?_, ?_, queued.roots, .resolve done queued.rounds⟩
    · show Moves _ _ _ _ ((reached.sortPending.pending ++ []).map _, _)
      rw [append_nil]
      exact .tail queued.moves (sorting lossy)
    · show ∀ request ∈ reached.sortPending.pending ++ [], _
      rw [append_nil]
      exact admissible (queued.admissible pendingAdmissible)
  | @drained reached _ _ looped drains =>
    have queued := queueFailedNodes_queued previous asked distinct fits looped
    obtain ⟨sorting, admissible, sorted⟩ := sortPending_spec reached
    have moves := ReflTransGen.tail queued.moves (sorting lossy)
    have drained := drainNextAction_advanced lossy (admissible (queued.admissible pendingAdmissible))
      (Moves.apart moves apart) sorted drains
    refine ⟨moves.trans drained.moves, drained.admissible, ?_,
      drained.emits.before (queued_frame looped).2 queued.rounds⟩
    rw [drained.roots, flatMap_nil, append_nil]
    exact queued.roots

end BucketExchange

end Rezzy.Recon
