import Rezzy.Hamt.Codec
import Rezzy.State.Hashed

namespace Rezzy.State

open Basespec Hamt List MapTotal

variable {Id : Type} {lanes : Nat}

section

/-- Continuation bytes of UTF-8 start with the bits `10`. -/
def isCharBoundary (bytes : Bytes) (index : Nat) : Bool :=
  index == 0 || index == bytes.length || bytes[index]?.any fun byte => byte &&& 0xC0 != 0x80

def backToBoundary (bytes : Bytes) : Nat → Nat
  | 0 => 0
  | index + 1 => if isCharBoundary bytes (index + 1) then index + 1 else backToBoundary bytes index

def truncateToU16Limit (text : String) : Bytes :=
  let bytes := asBytes text
  if bytes.length > 65535 then bytes.take (backToBoundary bytes 65535) else bytes

def laneOfLeBytes (low high : UInt8) : UInt16 := UInt16.ofNat (fromLeBytes [low, high])

def expandLanes (xof : Bytes → Nat → UInt8) (input : Bytes) : LtLattice lanes :=
  fun lane => laneOfLeBytes (xof input (2 * lane)) (xof input (2 * lane + 1))

def seedLattice [ToString Id] (xof : Bytes → Nat → UInt8) (dst : Bytes) : Seed Id lanes :=
  fun key eventId =>
    let eventType := truncateToU16Limit key.1.asStr
    let stateKey := truncateToU16Limit key.2
    expandLanes xof (dst ++ toLeBytes 2 eventType.length ++ eventType ++ toLeBytes 2 stateKey.length ++ stateKey ++
      asBytes (toString eventId))

def ltHashDst : Bytes := asBytes "msc4500:lthash16:blake3:v1"

def ltHashSeed [ToString Id] (xof : Bytes → Nat → UInt8) : Seed Id lanes := seedLattice xof ltHashDst

end

namespace LtLattice

section

def chunkedLanes (op : UInt16 → UInt16 → UInt16) : List UInt16 → List UInt16 → List UInt16
  | a0 :: a1 :: a2 :: a3 :: a4 :: a5 :: a6 :: a7 :: dst, b0 :: b1 :: b2 :: b3 :: b4 :: b5 :: b6 :: b7 :: src =>
    op a0 b0 :: op a1 b1 :: op a2 b2 :: op a3 b3 :: op a4 b4 :: op a5 b5 :: op a6 b6 :: op a7 b7 ::
      chunkedLanes op dst src
  | dst, src => List.zipWith op dst src

theorem chunkedLanes_eq_zipWith (op : UInt16 → UInt16 → UInt16) (dst src : List UInt16) :
    chunkedLanes op dst src = zipWith op dst src := by
  fun_induction chunkedLanes op dst src with
  | case1 a0 a1 a2 a3 a4 a5 a6 a7 dst b0 b1 b2 b3 b4 b5 b6 b7 src ih => simp only [zipWith_cons_cons, ih]
  | case2 dst src => rfl

theorem length_chunkedLanes (op : UInt16 → UInt16 → UInt16) (dst src : LtLattice lanes) :
    (chunkedLanes op (ofFn dst) (ofFn src)).length = lanes := by
  rw [chunkedLanes_eq_zipWith, length_zipWith, length_ofFn, length_ofFn, Nat.min_self]

def addLattice (dst src : LtLattice lanes) : LtLattice lanes :=
  fun lane => (chunkedLanes (· + ·) (List.ofFn dst) (List.ofFn src)).get
    (lane.cast (length_chunkedLanes (· + ·) dst src).symm)

def subLattice (dst src : LtLattice lanes) : LtLattice lanes :=
  fun lane => (chunkedLanes (· - ·) (List.ofFn dst) (List.ofFn src)).get
    (lane.cast (length_chunkedLanes (· - ·) dst src).symm)

theorem addLattice_eq (dst src : LtLattice lanes) : addLattice dst src = dst + src := by
  funext lane
  simp [addLattice, chunkedLanes_eq_zipWith]

theorem subLattice_eq (dst src : LtLattice lanes) : subLattice dst src = dst - src := by
  funext lane
  simp [subLattice, chunkedLanes_eq_zipWith]

end

def toBytes (hash : LtLattice lanes) : Bytes := (List.ofFn hash).flatMap fun lane => toLeBytes 2 lane.toNat

def pairedLanes : Bytes → List UInt16
  | low :: high :: bytes => laneOfLeBytes low high :: pairedLanes bytes
  | _ => []

def fromBytes (lanes : Nat) (bytes : Bytes) : Option (LtLattice lanes) :=
  if bytes.length ≠ 2 * lanes then none
  else some fun lane => (pairedLanes bytes)[lane.val]?.getD 0

theorem length_toBytes (hash : LtLattice lanes) : hash.toBytes.length = 2 * lanes := by
  have counted : ∀ values : List UInt16, (values.flatMap fun lane => toLeBytes 2 lane.toNat).length = 2 * values.length := by
    intro values
    induction values with
    | nil => rfl
    | cons lane values ih =>
      rw [flatMap_cons, length_append, ih, length_toLeBytes, length_cons]
      omega
  rw [toBytes, counted, length_ofFn]

theorem laneOfLeBytes_toLeBytes (lane : UInt16) :
    laneOfLeBytes (UInt8.ofNat lane.toNat) (UInt8.ofNat (lane.toNat / 256)) = lane := by
  have read := fromLeBytes_toLeBytes 2 lane.toNat
  have bound := lane.toNat_lt
  rw [Nat.mod_eq_of_lt (by omega)] at read
  rw [laneOfLeBytes]
  show UInt16.ofNat (fromLeBytes (toLeBytes 2 lane.toNat)) = lane
  rw [read, UInt16.ofNat_toNat]

theorem pairedLanes_flatMap (values : List UInt16) :
    pairedLanes (values.flatMap fun lane => toLeBytes 2 lane.toNat) = values := by
  induction values with
  | nil => rfl
  | cons lane values ih =>
    rw [flatMap_cons]
    show laneOfLeBytes _ _ :: pairedLanes (values.flatMap fun lane => toLeBytes 2 lane.toNat) = _
    rw [laneOfLeBytes_toLeBytes, ih]

theorem fromBytes_toBytes (hash : LtLattice lanes) : fromBytes lanes hash.toBytes = some hash := by
  rw [fromBytes, if_neg (by rw [length_toBytes]; simp), toBytes, pairedLanes_flatMap]
  congr 1
  funext lane
  simp

end LtLattice

inductive LtUpdate (Id : Type) where
  | insert (key : Key) (eventId : Id)
  | remove (key : Key) (eventId : Id)
  | replace (key : Key) (oldEventId newEventId : Id)
  | replaceChecked (oldKey : Key) (oldEventId : Id) (newKey : Key) (newEventId : Id)
  | insertBatch (items : List (Key × Id))
  | removeBatch (items : List (Key × Id))

namespace LtUpdate

open LtLattice

def accumulate (seed : Seed Id lanes) (hash : LtLattice lanes) (key : Key) (eventId : Id) (add : Bool) :
    LtLattice lanes :=
  if add then addLattice hash (seed key eventId) else subLattice hash (seed key eventId)

def mismatchedKey (oldKey newKey : Key) : String :=
  s!"mismatched replacement key: ({oldKey.1.asStr}, {oldKey.2}) -> ({newKey.1.asStr}, {newKey.2})"

/-- Only the checked replacement can panic. -/
def apply (seed : Seed Id lanes) (hash : LtLattice lanes) : LtUpdate Id → Except String (LtLattice lanes)
  | insert key eventId => .ok (accumulate seed hash key eventId true)
  | remove key eventId => .ok (accumulate seed hash key eventId false)
  | replace key oldEventId newEventId =>
    .ok (addLattice (subLattice hash (seed key oldEventId)) (seed key newEventId))
  | replaceChecked oldKey oldEventId newKey newEventId =>
    if oldKey = newKey then
      .ok (addLattice (subLattice hash (seed oldKey oldEventId)) (seed newKey newEventId))
    else .error (mismatchedKey oldKey newKey)
  | insertBatch items => .ok (items.foldl (fun hash item => accumulate seed hash item.1 item.2 true) hash)
  | removeBatch items => .ok (items.foldl (fun hash item => accumulate seed hash item.1 item.2 false) hash)

def run (seed : Seed Id lanes) (hash : LtLattice lanes) (updates : List (LtUpdate Id)) :
    Except String (LtLattice lanes) :=
  updates.foldlM (apply seed) hash

def Matched : LtUpdate Id → Prop
  | replaceChecked oldKey _ newKey _ => oldKey = newKey
  | _ => True

noncomputable def effect : LtUpdate Id → (Key × Id →₀ ℤ)
  | insert key eventId => .single (key, eventId) 1
  | remove key eventId => -.single (key, eventId) 1
  | replace key oldEventId newEventId => -.single (key, oldEventId) 1 + .single (key, newEventId) 1
  | replaceChecked oldKey oldEventId newKey newEventId =>
    -.single (oldKey, oldEventId) 1 + .single (newKey, newEventId) 1
  | insertBatch items => MapTotal.tally items
  | removeBatch items => -MapTotal.tally items

noncomputable def net (updates : List (LtUpdate Id)) : Key × Id →₀ ℤ := (updates.map effect).sum

variable {seed : Seed Id lanes}

noncomputable def digestOf (seed : Seed Id lanes) (entries : Key × Id →₀ ℤ) : LtLattice lanes :=
  MapTotal.weigh (fun entry => seed entry.1 entry.2) entries

theorem digestOf_apply (entries : Key × Id →₀ ℤ) (lane : Fin lanes) :
    digestOf seed entries lane = entries.sum fun entry times => times • seed entry.1 entry.2 lane := by
  simp [digestOf, weigh, Finsupp.sum, Finset.sum_apply]

theorem digestOf_add (first second : Key × Id →₀ ℤ) :
    digestOf seed (first + second) = digestOf seed first + digestOf seed second := weigh_add _ first second

theorem digestOf_neg (entries : Key × Id →₀ ℤ) : digestOf seed (-entries) = -digestOf seed entries := by
  apply eq_neg_of_add_eq_zero_left
  rw [← digestOf_add, neg_add_cancel]
  exact weigh_zero _

theorem digestOf_single (key : Key) (eventId : Id) : digestOf seed (.single (key, eventId) 1) = seed key eventId := by
  rw [digestOf, weigh_single, one_zsmul]

section

variable (hash : LtLattice lanes)

theorem accumulate_true (key : Key) (eventId : Id) :
    accumulate seed hash key eventId true = hash + seed key eventId := addLattice_eq hash _

theorem accumulate_false (key : Key) (eventId : Id) :
    accumulate seed hash key eventId false = hash - seed key eventId := subLattice_eq hash _

theorem foldl_insert (items : List (Key × Id)) :
    items.foldl (fun hash item => accumulate seed hash item.1 item.2 true) hash =
      hash + digestOf seed (tally items) := by
  rw [digestOf, weigh_tally]
  induction items generalizing hash with
  | nil => simp
  | cons item items ih => rw [foldl_cons, ih, accumulate_true, map_cons, sum_cons, add_assoc]

theorem foldl_remove (items : List (Key × Id)) :
    items.foldl (fun hash item => accumulate seed hash item.1 item.2 false) hash =
      hash - digestOf seed (tally items) := by
  rw [digestOf, weigh_tally]
  induction items generalizing hash with
  | nil => simp
  | cons item items ih => rw [foldl_cons, ih, accumulate_false, map_cons, sum_cons, sub_add_eq_sub_sub]

theorem apply_matched {update : LtUpdate Id} (matched : update.Matched) :
    update.apply seed hash = .ok (hash + digestOf seed update.effect) := by
  cases update with
  | insert key eventId => rw [apply, effect, digestOf_single, accumulate_true]
  | remove key eventId => rw [apply, effect, digestOf_neg, digestOf_single, accumulate_false, sub_eq_add_neg]
  | replace key oldEventId newEventId =>
    rw [apply, effect, digestOf_add, digestOf_neg, digestOf_single, digestOf_single, addLattice_eq, subLattice_eq,
      sub_eq_add_neg, add_assoc]
  | replaceChecked oldKey oldEventId newKey newEventId =>
    have same : oldKey = newKey := matched
    rw [apply, if_pos same, effect, digestOf_add, digestOf_neg, digestOf_single, digestOf_single, addLattice_eq,
      subLattice_eq, sub_eq_add_neg, add_assoc]
  | insertBatch items => rw [apply, effect, foldl_insert]
  | removeBatch items => rw [apply, effect, foldl_remove, digestOf_neg, sub_eq_add_neg]

theorem apply_mismatched {update : LtUpdate Id} (mismatched : ¬update.Matched) :
    ∃ message, update.apply seed hash = .error message := by
  cases update with
  | replaceChecked oldKey oldEventId newKey newEventId => exact ⟨_, if_neg mismatched⟩
  | _ => exact absurd trivial mismatched

theorem run_matched (matched : ∀ update ∈ updates, update.Matched) :
    run seed hash updates = .ok (hash + digestOf seed (net updates)) := by
  induction updates generalizing hash with
  | nil =>
    rw [net, map_nil, sum_nil, digestOf, weigh_zero, add_zero]
    rfl
  | cons update updates ih =>
    obtain ⟨first, others⟩ := forall_mem_cons.mp matched
    have rest := ih (hash + digestOf seed update.effect) others
    rw [run] at rest ⊢
    rw [foldlM_cons, apply_matched hash first]
    show foldlM (apply seed) _ updates = _
    rw [rest, net, net, map_cons, sum_cons, digestOf_add, add_assoc]

theorem run_mismatched (mismatched : ¬∀ update ∈ updates, update.Matched) :
    ∃ message, run seed hash updates = .error message := by
  induction updates generalizing hash with
  | nil => exact absurd (by simp) mismatched
  | cons update updates ih =>
    rw [run, foldlM_cons]
    by_cases first : update.Matched
    · rw [apply_matched hash first]
      apply ih
      intro others
      exact mismatched (forall_mem_cons.mpr ⟨first, others⟩)
    · obtain ⟨message, stopped⟩ : ∃ message, update.apply seed hash = .error message := apply_mismatched hash first
      exact ⟨message, by rw [stopped]; rfl⟩

end

/-- However a multiset of entries is reached, its lanes are the wrapping sums over the entries, and those of
    `from_state` once the multiset is a state. -/
theorem run_digest [ToString Id] [DecidableEq Id] (xof : Bytes → Nat → UInt8) (updates : List (LtUpdate Id)) :
    ((∀ update ∈ updates, update.Matched) ↔ ∃ hash : LtLattice lanes, run (ltHashSeed xof) 0 updates = .ok hash) ∧
    ((∀ update ∈ updates, update.Matched) → ∀ start : LtLattice lanes,
      run (ltHashSeed xof) start updates = .ok fun lane =>
        start lane + (net updates).sum fun entry times => times • ltHashSeed xof entry.1 entry.2 lane) ∧
    (∀ others : List (LtUpdate Id), net others = net updates → ∀ left right start : LtLattice lanes,
      run (ltHashSeed xof) start updates = .ok left → run (ltHashSeed xof) start others = .ok right → left = right) ∧
    (∀ state : SharedState Id,
      (∀ key eventId, net updates (key, eventId) = if state[key]? = some eventId then 1 else 0) →
      ∀ hash : LtLattice lanes, run (ltHashSeed xof) 0 updates = .ok hash →
        hash = LtLattice.fromState (ltHashSeed xof) state) ∧
    ∀ hash : LtLattice lanes, fromBytes lanes hash.toBytes = some hash := by
  have reached : ∀ {updates : List (LtUpdate Id)} {start hash : LtLattice lanes},
      run (ltHashSeed xof) start updates = .ok hash → hash = start + digestOf (ltHashSeed xof) (net updates) := by
    intro updates start hash ran
    by_cases matched : ∀ update ∈ updates, update.Matched
    · rw [run_matched start matched] at ran
      exact (Except.ok.inj ran).symm
    · obtain ⟨message, stopped⟩ : ∃ message, run (ltHashSeed xof) start updates = .error message :=
        run_mismatched start matched
      rw [stopped] at ran
      cases ran
  refine ⟨⟨fun matched => ⟨_, run_matched 0 matched⟩, ?_⟩, ?_, ?_, ?_, fromBytes_toBytes⟩
  · rintro ⟨hash, ran⟩
    by_contra mismatched
    obtain ⟨message, stopped⟩ : ∃ message, run (ltHashSeed xof) (0 : LtLattice lanes) updates = .error message :=
      run_mismatched 0 mismatched
    rw [stopped] at ran
    cases ran
  · intro matched start
    rw [run_matched start matched]
    congr 1
    funext lane
    rw [Pi.add_apply, digestOf_apply]
  · intro others same left right start leftRan rightRan
    rw [reached leftRan, reached rightRan, same]
  · intro state held hash ran
    rw [reached ran, zero_add, LtLattice.fromState]
    exact total_eq_weigh _ state held

end LtUpdate

end Rezzy.State
