import Rezzy.Lib.Region

namespace Rezzy.Recon

open Region

inductive AlgebraicError where
  | invalidEventId
  | invalidBase64
  | invalidDigestLength
  | invalidSketchCapacity
  | invalidSketchLength
  | decodeFailure
  | budgetExhausted
  | zeroShortIdentifier
  | invalidBucketIndex
  | countOverflow
  | countUnderflow
  | unsupportedRoomVersion
deriving DecidableEq, Repr

def maxDepth : Nat := 32
def h64TrieWidth : Nat := 64
def maxBucketedSketchCapacity : Nat := 4096
def maxBucketSketchCapacity : Nat := 32
def maxOverflowBucketCapacity : Nat := 256
def u64Max : Nat := 2 ^ 64 - 1
def usizeMax : Nat := 2 ^ 64 - 1

structure BucketRequest where
  depth : Nat
  prefix_ : Nat
  capacity : Nat
  overflow : Bool
deriving DecidableEq, Repr

namespace BucketRequest

def new (depth prefix_ capacity : Nat) : BucketRequest := ⟨depth, prefix_, capacity, false⟩

def withOverflow (depth prefix_ capacity : Nat) : BucketRequest := ⟨depth, prefix_, capacity, true⟩

def node (request : BucketRequest) : Node := (request.depth, request.prefix_)

end BucketRequest

structure NodeSummary where
  count : Nat
  digest : Nat
deriving DecidableEq, Repr

structure BucketDecodeSuccess where
  depth : Nat
  prefix_ : Nat
  roots : List Nat
deriving DecidableEq, Repr

namespace BucketDecodeSuccess

def node (success : BucketDecodeSuccess) : Node := (success.depth, success.prefix_)

end BucketDecodeSuccess

structure BucketDecodeBatch where
  successfulBuckets : List BucketDecodeSuccess
  failedBuckets : List Node
deriving DecidableEq, Repr

def bucketRangeStart (request : BucketRequest) : Nat := request.prefix_ <<< (maxDepth - request.depth)

def validateRequests (maxBucketCapacity : Nat) : Nat → Nat → List BucketRequest → Except AlgebraicError Unit
  | _, _, [] => .ok ()
  | totalCapacity, previousEnd, request :: requests =>
    let itemLimit := if request.overflow then maxBucketCapacity else maxBucketSketchCapacity
    if request.capacity = 0 ∨ itemLimit < request.capacity then .error .invalidSketchCapacity
    else if maxDepth < request.depth then .error .invalidBucketIndex
    else if 1 <<< request.depth ≤ request.prefix_ then .error .invalidBucketIndex
    else if maxBucketedSketchCapacity < totalCapacity + request.capacity then .error .invalidSketchCapacity
    else
      let start := bucketRangeStart request
      if start < previousEnd then .error .invalidBucketIndex
      else
        validateRequests maxBucketCapacity (totalCapacity + request.capacity)
          (start + 1 <<< (maxDepth - request.depth)) requests

def validateBucketRequestsWithLimit (requests : List BucketRequest) (maxBucketCapacity : Nat) :
    Except AlgebraicError Unit := validateRequests maxBucketCapacity 0 0 requests

def validateBucketRequests (requests : List BucketRequest) : Except AlgebraicError Unit :=
  if requests.any BucketRequest.overflow then .error .invalidSketchCapacity
  else validateBucketRequestsWithLimit requests maxBucketSketchCapacity

def validateAdaptiveBucketRequests (requests : List BucketRequest) : Except AlgebraicError Unit :=
  validateBucketRequestsWithLimit requests maxOverflowBucketCapacity

def boundsUnchecked (request : BucketRequest) : Nat × Nat :=
  let shift := h64TrieWidth - request.depth
  let prefixMask := min ((1 <<< request.depth) - 1) u64Max
  let start := (request.prefix_ &&& prefixMask) <<< shift
  (start, start + 1 <<< shift)

structure Classified where
  depth : Nat
  prefix_ : Nat
  lRoots : List Nat
  mRoots : List Nat
  localAccumulated : Nat
  localSummary : NodeSummary
  remoteSummary : NodeSummary
deriving DecidableEq, Repr

namespace Classified

def residual (classified : Classified) : Nat := classified.localSummary.digest ^^^ classified.remoteSummary.digest

def population (classified : Classified) : Nat := max classified.localSummary.count classified.remoteSummary.count

def node (classified : Classified) : Node := (classified.depth, classified.prefix_)

end Classified

def verifyGlobalResidual (expectedResidual : Nat) (localRoots remoteRoots : List Nat) : Except AlgebraicError Unit :=
  if (localRoots ++ remoteRoots).foldl (· ^^^ ·) 0 = expectedResidual then .ok () else .error .decodeFailure

def repeats (sorted : List Nat) : Bool := (sorted.zip sorted.tail).any fun pair => pair.1 = pair.2

/-- `localCandidates` gives the wide hashes of the local elements with a short hash. -/
def verifyDecode (request : BucketRequest) (localSummary remoteSummary : NodeSummary) (roots : List Nat)
    (localCandidates : Nat → List Nat) : Except AlgebraicError Classified :=
  let bounds := boundsUnchecked request
  if repeats (roots.mergeSort (· ≤ ·)) then .error .decodeFailure
  else if roots.any (fun root => ¬ (bounds.1 ≤ root ∧ root < bounds.2)) then .error .decodeFailure
  else
    let lRoots := roots.filter fun root => !(localCandidates root).isEmpty
    let mRoots := (roots.filter fun root => (localCandidates root).isEmpty).mergeSort (· ≤ ·)
    let localAccumulated := (roots.flatMap localCandidates).foldl (· ^^^ ·) 0
    let ambiguous := roots.any fun root => 1 < (localCandidates root).length
    if (localSummary.count : Int) - remoteSummary.count ≠ (lRoots.length : Int) - mRoots.length then
      .error .decodeFailure
    else do
      if mRoots.isEmpty && !ambiguous then
        verifyGlobalResidual (localSummary.digest ^^^ remoteSummary.digest) [localAccumulated] []
      .ok ⟨request.depth, request.prefix_, lRoots, mRoots, localAccumulated, localSummary, remoteSummary⟩

structure Slot where
  request : BucketRequest
  localSummary : NodeSummary
  remoteSummary : NodeSummary
deriving DecidableEq, Repr

def slots (requests : List BucketRequest) (localSummaries remoteSummaries : List NodeSummary) : List Slot :=
  List.zipWith (fun request summaries => ⟨request, summaries.1, summaries.2⟩) requests
    (localSummaries.zip remoteSummaries)

def slotOf (round : List Slot) (node : Node) : Option Slot := round.find? fun slot => slot.request.node = node

abbrev Rejected := Node × List Nat

structure VerifiedBatch where
  batch : BucketDecodeBatch
  verified : List Classified
  rejected : List Rejected
deriving DecidableEq, Repr

def verifySuccesses (round : List Slot) (localCandidates : Nat → List Nat) :
    List BucketDecodeSuccess → Except AlgebraicError (List BucketDecodeSuccess × List Classified × List Rejected)
  | [] => .ok ([], [], [])
  | success :: successes =>
    match slotOf round success.node with
    | none => .error .invalidBucketIndex
    | some slot =>
      match verifyDecode slot.request slot.localSummary slot.remoteSummary success.roots localCandidates with
      | .ok classified => do
        let (admitted, verified, rejected) ← verifySuccesses round localCandidates successes
        .ok (success :: admitted, classified :: verified, rejected)
      | .error .decodeFailure => do
        let (admitted, verified, rejected) ← verifySuccesses round localCandidates successes
        .ok (admitted, verified, (success.node, success.roots.mergeSort (· ≤ ·)) :: rejected)
      | .error error => .error error

def verifyBatch (batch : BucketDecodeBatch) (requests : List BucketRequest)
    (localSummaries remoteSummaries : List NodeSummary) (localCandidates : Nat → List Nat) :
    Except AlgebraicError VerifiedBatch :=
  if requests.length ≠ localSummaries.length ∨ requests.length ≠ remoteSummaries.length then
    .error .invalidSketchLength
  else do
    let (admitted, verified, rejected) ←
      verifySuccesses (slots requests localSummaries remoteSummaries) localCandidates batch.successfulBuckets
    .ok ⟨⟨admitted, batch.failedBuckets ++ rejected.map Prod.fst⟩, verified, rejected⟩

end Rezzy.Recon
