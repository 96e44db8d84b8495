import Rezzy.Lib.Frontier
import Rezzy.Recon.Exchange

namespace Rezzy.Recon

open Region List

theorem boundsUnchecked_eq (shallow : depth ≤ h64TrieWidth) : boundsUnchecked (.new depth prefix_ capacity) =
      (prefix_ % 2 ^ depth * 2 ^ (h64TrieWidth - depth), (prefix_ % 2 ^ depth + 1) * 2 ^ (h64TrieWidth - depth)) := by
  have mask : min ((1 <<< depth) - 1) u64Max = 2 ^ depth - 1 := by
    rw [Nat.one_shiftLeft]
    exact Nat.min_eq_left (Nat.sub_le_sub_right (Nat.pow_le_pow_right (by decide) shallow) 1)
  have masked : prefix_ &&& min ((1 <<< depth) - 1) u64Max = prefix_ % 2 ^ depth := by
    rw [mask, Nat.and_two_pow_sub_one_eq_mod]
  have start : (prefix_ &&& min ((1 <<< depth) - 1) u64Max) <<< (h64TrieWidth - depth) =
      prefix_ % 2 ^ depth * 2 ^ (h64TrieWidth - depth) := by
    rw [masked, Nat.shiftLeft_eq]
  have stop : (prefix_ &&& min ((1 <<< depth) - 1) u64Max) <<< (h64TrieWidth - depth) + 1 <<< (h64TrieWidth - depth) =
      (prefix_ % 2 ^ depth + 1) * 2 ^ (h64TrieWidth - depth) := by
    rw [start, Nat.one_shiftLeft, Nat.add_one_mul]
  exact Prod.ext start stop

theorem inNode_iff (formed : Formed maxDepth node) : inNode h64 node = true ↔ Holds h64TrieWidth node h64 := by
  have shallow : node.1 ≤ h64TrieWidth := formed.1.trans (by decide)
  unfold inNode
  rw [boundsUnchecked_eq shallow, Nat.mod_eq_of_lt formed.2, holds_iff_interval, Bool.and_eq_true, decide_eq_true_iff,
    decide_eq_true_iff]
  rfl

theorem covers_within (inside : covers ancestor node = true) : Within ancestor node := by
  unfold covers at inside
  rw [Bool.and_eq_true, Bool.and_eq_true, decide_eq_true_iff, decide_eq_true_iff, decide_eq_true_iff,
    Nat.shiftRight_eq_div_pow] at inside
  exact ⟨inside.1.1, inside.2⟩

theorem covers_iff (shallow : node.1 ≤ maxDepth) : covers ancestor node = true ↔ Within ancestor node := by
  refine ⟨covers_within, fun inside => ?_⟩
  have narrow : node.1 - ancestor.1 < 128 := lt_of_le_of_lt ((Nat.sub_le _ _).trans shallow) (by decide)
  unfold covers
  rw [Bool.and_eq_true, Bool.and_eq_true, decide_eq_true_iff, decide_eq_true_iff, decide_eq_true_iff,
    Nat.shiftRight_eq_div_pow]
  exact ⟨⟨inside.1, narrow⟩, inside.2⟩

def BucketRequest.itemLimit (request : BucketRequest) : Nat :=
  if request.overflow then maxOverflowBucketCapacity else maxBucketSketchCapacity

structure Admissible (request : BucketRequest) : Prop where
  formed : Formed maxDepth request.node
  positive : 0 < request.capacity
  limited : request.capacity ≤ request.itemLimit

def totalCapacity (requests : List BucketRequest) : Nat := (requests.map BucketRequest.capacity).sum

theorem bucketRangeStart_eq (request : BucketRequest) : bucketRangeStart request = start maxDepth request.node :=
  Nat.shiftLeft_eq _ _

theorem validateRequests_iff (small : total ≤ maxBucketedSketchCapacity) :
    validateRequests maxOverflowBucketCapacity total previousEnd requests = .ok () ↔
      (∀ request ∈ requests, Admissible request) ∧ total + totalCapacity requests ≤ maxBucketedSketchCapacity ∧
      (∀ request ∈ requests, previousEnd ≤ start maxDepth request.node) ∧
      requests.Pairwise fun a b => stop maxDepth a.node ≤ start maxDepth b.node := by
  induction requests generalizing total previousEnd with
  | nil => simp [validateRequests, totalCapacity, small]
  | cons request requests ih =>
    have range : bucketRangeStart request + 1 <<< (maxDepth - request.depth) = stop maxDepth request.node := by
      rw [bucketRangeStart_eq, Nat.one_shiftLeft, start, stop, Nat.add_one_mul]
      rfl
    have whole : total + totalCapacity (request :: requests) = total + request.capacity + totalCapacity requests := by
      simp [totalCapacity, Nat.add_assoc]
    have own : Admissible request ↔ ¬(request.capacity = 0 ∨ request.itemLimit < request.capacity) ∧
        ¬maxDepth < request.depth ∧ ¬1 <<< request.depth ≤ request.prefix_ := by
      rw [Nat.one_shiftLeft, not_or, ← ne_eq, ← Nat.pos_iff_ne_zero, Nat.not_lt, Nat.not_lt, Nat.not_le]
      exact ⟨fun ok => ⟨⟨ok.positive, ok.limited⟩, ok.formed.1, ok.formed.2⟩,
        fun ok => ⟨⟨ok.2.1, ok.2.2⟩, ok.1.1, ok.1.2⟩⟩
    rw [validateRequests, whole, forall_mem_cons, forall_mem_cons, pairwise_cons, own]
    have limit : (if request.overflow = true then maxOverflowBucketCapacity else maxBucketSketchCapacity) =
      request.itemLimit := rfl
    dsimp only
    rw [range, bucketRangeStart_eq, limit]
    have less := start_lt_stop maxDepth request.node
    constructor
    · intro checked
      split at checked
      · cases checked
      · rename_i limited
        split at checked
        · cases checked
        · rename_i shallow
          split at checked
          · cases checked
          · rename_i narrow
            split at checked
            · cases checked
            · rename_i room
              split at checked
              · cases checked
              · rename_i behind
                obtain ⟨all, fits, later, ordered⟩ := (ih (Nat.le_of_not_lt room)).mp checked
                refine ⟨⟨⟨limited, shallow, narrow⟩, all⟩, fits, ⟨Nat.le_of_not_lt behind, ?_⟩, later, ordered⟩
                intro other mem
                have := later other mem
                omega
    · rintro ⟨⟨⟨limited, shallow, narrow⟩, all⟩, fits, ⟨behind, _⟩, later, ordered⟩
      have room : total + request.capacity ≤ maxBucketedSketchCapacity := by omega
      rw [if_neg limited, if_neg shallow, if_neg narrow, if_neg (Nat.not_lt.mpr room), if_neg (Nat.not_lt.mpr behind)]
      exact (ih room).mpr ⟨all, fits, later, ordered⟩

theorem validateAdaptive_apart (valid : validateAdaptiveBucketRequests requests = .ok ()) :
    (∀ request ∈ requests, Admissible request) ∧ (requests.map BucketRequest.node).Pairwise Apart := by
  obtain ⟨admissible, _, _, ordered⟩ := (validateRequests_iff (Nat.zero_le _)).mp valid
  refine ⟨admissible, ?_⟩
  rw [pairwise_map]
  exact ordered.imp_of_mem fun left right before =>
    apart_of_stop_le (admissible _ left).formed.1 (admissible _ right).formed.1 before

theorem validateAdaptive_of_sorted (admissible : ∀ request ∈ requests, Admissible request)
    (apart : (requests.map BucketRequest.node).Pairwise Apart)
    (sorted : requests.Pairwise fun a b => bucketRangeStart a ≤ bucketRangeStart b)
    (room : totalCapacity requests ≤ maxBucketedSketchCapacity) :
    validateAdaptiveBucketRequests requests = .ok () := by
  rw [pairwise_map] at apart
  have ordered := (apart.and sorted).imp_of_mem fun left right both => by
    obtain ⟨apart, le⟩ := both
    rw [bucketRangeStart_eq, bucketRangeStart_eq] at le
    exact apart.stop_le (admissible _ left).formed.1 (admissible _ right).formed.1 le
  exact (validateRequests_iff (Nat.zero_le _)).mpr
    ⟨admissible, (Nat.zero_add _).trans_le room, fun _ _ => Nat.zero_le _, ordered⟩

structure AsksAgain (node : Node) (requests : List BucketRequest) : Prop where
  parts : Parts h64TrieWidth maxDepth node (requests.map BucketRequest.node)
  admissible : ∀ request ∈ requests, Admissible request

theorem provisionBucketCapacity_bounds (low : floor ≤ maxBucketSketchCapacity)
    (provisioned : provisionBucketCapacity target floor = some capacity) :
    floor ≤ capacity ∧ capacity ≤ maxBucketSketchCapacity := by
  unfold provisionBucketCapacity at provisioned
  split at provisioned
  · obtain rfl := Option.some.inj provisioned
    exact ⟨Nat.le_max_left _ _, Nat.max_le.mpr ⟨low, Nat.min_le_right _ _⟩⟩
  · cases provisioned

theorem AsksAgain.same (formed : Formed maxDepth node) (own : request.node = node) (positive : 0 < request.capacity)
    (limited : request.capacity ≤ request.itemLimit) : AsksAgain node [request] where
  parts := by
    rw [map_singleton, own]
    exact .self formed.1
  admissible := by
    intro _ mem
    rw [mem_singleton.mp mem]
    exact ⟨own ▸ formed, positive, limited⟩

theorem shifted_mod (small : prefix_ < 2 ^ depth) (shallow : depth + jump ≤ maxDepth) (bits : suffix < 2 ^ jump) :
    (prefix_ <<< jump) % 2 ^ 64 ||| suffix = prefix_ * 2 ^ jump + suffix := by
  have room : prefix_ * 2 ^ jump < 2 ^ 64 := by
    calc prefix_ * 2 ^ jump < 2 ^ depth * 2 ^ jump := Nat.mul_lt_mul_of_pos_right small (by positivity)
      _ = 2 ^ (depth + jump) := (pow_add 2 depth jump).symm
      _ ≤ 2 ^ 64 := Nat.pow_le_pow_right (by decide) (shallow.trans (by decide))
  rw [Nat.mod_eq_of_lt (by rwa [Nat.shiftLeft_eq]), ← Nat.shiftLeft_add_eq_or_of_lt bits, Nat.shiftLeft_eq]

theorem AsksAgain.split {previous : BucketRequest} (formed : Formed maxDepth previous.node) {jump : Nat}
    (shallow : previous.depth + jump ≤ maxDepth) {capacity : Nat} (positive : 0 < capacity)
    (limited : capacity ≤ maxBucketSketchCapacity) :
    AsksAgain previous.node ((range (1 <<< jump)).map fun suffix =>
      .new (previous.depth + jump) ((previous.prefix_ <<< jump) % 2 ^ 64 ||| suffix) capacity) := by
  have node : ∀ suffix ∈ range (2 ^ jump),
      (BucketRequest.new (previous.depth + jump) ((previous.prefix_ <<< jump) % 2 ^ 64 ||| suffix) capacity).node =
        child previous.node jump suffix := by
    intro suffix mem
    exact Prod.ext rfl (shifted_mod formed.2 shallow (mem_range.mp mem))
  rw [Nat.one_shiftLeft]
  constructor
  · rw [map_map]
    show Parts _ _ _ ((range (2 ^ jump)).map fun suffix => BucketRequest.node _)
    rw [map_congr_left node]
    exact .children shallow (by decide)
  · intro _ mem
    obtain ⟨suffix, inside, rfl⟩ := mem_map.mp mem
    refine ⟨?_, positive, limited⟩
    rw [node suffix inside]
    exact formed.inner (within_child (mem_range.mp inside)) shallow

theorem retryOrSplit_asksAgain (admissible : Admissible previous)
    (retried : retryOrSplitBucketWithFanout previous share forceSplit maxJump = some requests) :
    AsksAgain previous.node requests := by
  unfold retryOrSplitBucketWithFanout at retried
  split at retried
  · rename_i below
    obtain ⟨capacity, provisioned, rfl⟩ := Option.map_eq_some_iff.mp retried
    obtain ⟨floor, limited⟩ := provisionBucketCapacity_bounds (Nat.succ_le_of_lt below.1) provisioned
    exact .same admissible.formed rfl (Nat.lt_of_lt_of_le (Nat.succ_pos _) floor) limited
  · split at retried
    · cases retried
    · obtain ⟨capacity, provisioned, rfl⟩ := Option.map_eq_some_iff.mp retried
      obtain ⟨floor, limited⟩ := provisionBucketCapacity_bounds (by decide) provisioned
      have jump : previous.depth + min (maxDepth - previous.depth) maxJump ≤ maxDepth := by
        have := Nat.min_le_left (maxDepth - previous.depth) maxJump
        omega
      exact .split admissible.formed jump (Nat.lt_of_lt_of_le (by decide) floor) limited

namespace BucketExchange

theorem takeRetry_asksAgain {exchange : BucketExchange} (asked : previous ∈ previousRequests)
    (admissible : ∀ request ∈ previousRequests, Admissible request)
    (retried : (exchange.takeRetry previousRequests share previous.node).2 = some requests) :
    AsksAgain previous.node requests := by
  unfold takeRetry at retried
  dsimp only at retried
  split at retried
  · obtain rfl := Option.some.inj retried
    exact .same (admissible previous asked).formed rfl (Nat.zero_lt_succ _) (le_refl maxOverflowBucketCapacity)
  · obtain ⟨found, first, retried⟩ := Option.bind_eq_some_iff.mp retried
    have same : found.node = previous.node := by simpa using find?_some first
    rw [← same]
    exact retryOrSplit_asksAgain (admissible found (mem_of_find?_eq_some first)) retried

end BucketExchange

end Rezzy.Recon
