import Rezzy.Hamt.Gc

namespace Rezzy.Hamt

open Except

section

open Basespec Spelling Outcome

section

theorem guard_eq_ok {γ : Type} {stops : Prop} [Decidable stops] {fault : DecodeFault}
    {next : Except DecodeFault γ} {value : γ} :
    (do
      if stops then error fault
      next) = .ok value ↔ ¬stops ∧ next = .ok value := by
  by_cases holds : stops <;> simp [holds, bind, Except.bind]

theorem readHeaderField_eq_ok {message : String} {buf : Bytes} {start stop : Nat} {value : BitVec 32} :
    readHeaderField message buf start = .ok (value, stop) ↔ Spelled buf start stop (encodeLe 4 value) := by
  rw [← decodeLe_eq_ok]
  unfold readHeaderField
  cases decodeLe 4 buf start <;> simp

def headerBytes (datamap nodemap leafCount childCount : BitVec 32) : Bytes :=
  encodeLe 4 datamap ++ (encodeLe 4 nodemap ++ (encodeLe 4 leafCount ++ encodeLe 4 childCount))

theorem decodeNodeHeader_eq_ok {buf : Bytes} {start : Nat} {datamap nodemap : BitVec 32} {leafCount childCount : Nat} :
    decodeNodeHeader buf start = .ok (datamap, nodemap, leafCount, childCount) ↔
      datamap &&& nodemap = 0 ∧ leafCount = countOnes datamap ∧ childCount = countOnes nodemap ∧
        ∃ leaves children : BitVec 32, leaves.toNat = leafCount ∧ children.toNat = childCount ∧
          ∃ stop, Spelled buf start stop (headerBytes datamap nodemap leaves children) := by
  unfold decodeNodeHeader headerBytes
  simp only [bind_eq_ok, guard_eq_ok, Prod.exists, readHeaderField_eq_ok, not_not, Spelled.append, pure,
    Except.pure, ok.injEq, Prod.mk.injEq]
  constructor
  · rintro ⟨data, first, one, node, second, two, disjoint, leaves, third, three, children, fourth, four,
      leafCounts, childCounts, rfl, rfl, rfl, rfl⟩
    exact ⟨disjoint, leafCounts, childCounts, leaves, children, rfl, rfl, fourth, first, one, second, two,
      third, three, four⟩
  · rintro ⟨disjoint, leafCounts, childCounts, leaves, children, rfl, rfl, fourth, first, one, second, two,
      third, three, four⟩
    exact ⟨datamap, first, one, nodemap, second, two, disjoint, leaves, third, three, children, fourth, four,
      leafCounts, childCounts, rfl, rfl, rfl, rfl⟩

theorem readHash_eq_ok {hash : StructuralHash} :
    readHash buf start = .ok hash ↔ Spelled buf start (start + 32) hash.toList := by
  unfold readHash
  rw [← slice_eq_some]
  constructor
  · intro read
    split at read
    · cases read
    · rename_i bytes sliced
      split at read
      · rw [sliced, ← ok.inj read]
        simp [Vector.toList]
      · cases read
  · intro sliced
    rw [sliced]
    dsimp only
    rw [dif_pos (by simp)]
    congr 1

open List

theorem readHashes_eq_ok {buf : Bytes} {count start : Nat} {hashes : List StructuralHash}
    (inside : start ≤ buf.length) :
    (range count).mapM (fun i => readHash buf (start + i * 32)) = .ok hashes ↔
      hashes.length = count ∧ ∃ stop, Spelled buf start stop (hashes.flatMap Vector.toList) := by
  induction count generalizing start hashes with
  | zero =>
    rw [range_zero, mapM_nil, length_eq_zero_iff]
    constructor
    · intro none
      obtain rfl := ok.inj none
      exact ⟨rfl, start, Spelled.nil.mpr ⟨rfl, inside⟩⟩
    · rintro ⟨rfl, -⟩
      rfl
  | succ count ih =>
    have shift : (fun i => readHash buf (start + i * 32)) ∘ Nat.succ = fun i => readHash buf (start + 32 + i * 32) := by
      funext i
      exact congrArg (readHash buf) (by rw [Nat.succ_mul]; omega)
    rw [range_succ_eq_map, mapM_cons, mapM_map]
    simp only [bind_eq_ok, Nat.zero_mul, Nat.add_zero, readHash_eq_ok, pure, Except.pure, ok.injEq]
    rw [shift]
    constructor
    · rintro ⟨hash, spelled, rest, more, rfl⟩
      obtain ⟨length, stop, spelledRest⟩ := (ih spelled.stop_le).mp more
      exact ⟨by simp [length], stop, Spelled.append.mpr ⟨start + 32, spelled, spelledRest⟩⟩
    · rintro ⟨length, stop, spelled⟩
      cases hashes with
      | nil => simp at length
      | cons hash rest =>
        obtain ⟨middle, first, second⟩ := Spelled.append.mp spelled
        obtain ⟨_, _, _, _, rfl⟩ := id first
        rw [Vector.length_toList] at first second
        exact ⟨hash, first, rest, (ih first.stop_le).mpr ⟨by simpa using length, stop, second⟩, rfl⟩

end

variable {K V : Type} [HamtCodec K] [HamtCodec V]

theorem countOnes_le (bitmap : BitVec 32) : countOnes bitmap ≤ 32 := List.countP_le_length

theorem toLeBytes_count (same : value.toNat = count) : toLeBytes 4 count = encodeLe 4 value := by rw [encodeLe, same]

theorem encodeV1_eq_some {node : PersistedInternalNode K V} {buf : Bytes} : node.encodeV1 = some buf ↔
    node.datamap &&& node.nodemap = 0 ∧ ∃ (leaves children : BitVec 32) (body : Bytes),
      leaves.toNat = node.leaves.length ∧ children.toNat = node.childHashes.length ∧
      node.leaves.length = countOnes node.datamap ∧ node.childHashes.length = countOnes node.nodemap ∧
      writeMany encodeHamt node.leaves = some body ∧
      buf = hamtNodeMagic ++ ([hamtWireVersion] ++ (headerBytes node.datamap node.nodemap leaves children ++
        (body ++ node.childHashes.flatMap Vector.toList))) := by
  unfold PersistedInternalNode.encodeV1 encodeV1Parts
  constructor
  · intro encoded
    split at encoded
    · rename_i fits
      obtain ⟨leafCount, childCount, disjoint⟩ := fits
      have leafBound := countOnes_le node.datamap
      have childBound := countOnes_le node.nodemap
      have leaves : (BitVec.ofNat 32 node.leaves.length).toNat = node.leaves.length := by
        rw [BitVec.toNat_ofNat, Nat.mod_eq_of_lt (by omega)]
      have children : (BitVec.ofNat 32 node.childHashes.length).toNat = node.childHashes.length := by
        rw [BitVec.toNat_ofNat, Nat.mod_eq_of_lt (by omega)]
      cases written : writeMany encodeHamt node.leaves with
      | none => simp [written, bind, Option.bind] at encoded
      | some body =>
        refine ⟨disjoint, _, _, body, leaves, children, leafCount, childCount, rfl, ?_⟩
        rw [written] at encoded
        rw [← Option.some.inj encoded, toLeBytes_count leaves, toLeBytes_count children, headerBytes]
        simp only [List.append_assoc]
    · cases encoded
  · rintro ⟨disjoint, leaves, children, body, leafLength, childLength, leafCount, childCount, written, rfl⟩
    rw [if_pos ⟨leafCount, childCount, disjoint⟩, written, toLeBytes_count leafLength,
      toLeBytes_count childLength, headerBytes]
    simp only [bind, Option.bind, pure, List.append_assoc]

theorem length_headerBytes (datamap nodemap leaves children : BitVec 32) :
    (headerBytes datamap nodemap leaves children).length = 16 := by
  simp [headerBytes, encodeLe, length_toLeBytes]

theorem length_flatMap_hashes (hashes : List StructuralHash) :
    (hashes.flatMap Vector.toList).length = hashes.length * 32 := by
  induction hashes with
  | nil => rfl
  | cons hash hashes ih =>
    rw [List.flatMap_cons, List.length_append, ih, Vector.length_toList, List.length_cons]
    omega

/-- A node that the encoder does not panic on. -/
structure PersistedInternalNode.Encodable (node : PersistedInternalNode K V) : Prop where
  leaves : node.leaves.length = countOnes node.datamap
  children : node.childHashes.length = countOnes node.nodemap
  disjoint : node.datamap &&& node.nodemap = 0
  payloads : ∀ leaf ∈ node.leaves, (encodeHamt leaf).isSome

theorem writeMany_isSome {α : Type} {write : α → Option Bytes} {values : List α} :
    (writeMany write values).isSome ↔ ∀ value ∈ values, (write value).isSome := by
  induction values with
  | nil => simp [writeMany]
  | cons value values ih =>
    rw [writeMany, List.forall_mem_cons, ← ih]
    cases write value <;> cases writeMany write values <;> simp [bind, Option.bind]

theorem PersistedInternalNode.encodeV1_isSome {node : PersistedInternalNode K V} :
    node.encodeV1.isSome ↔ node.Encodable := by
  unfold encodeV1 encodeV1Parts
  split
  · rename_i fits
    have written : (writeMany encodeHamt node.leaves).isSome ↔ node.Encodable := by
      rw [writeMany_isSome]
      exact ⟨fun payloads => ⟨fits.1, fits.2.1, fits.2.2, payloads⟩, Encodable.payloads⟩
    rw [← written]
    cases writeMany encodeHamt node.leaves <;> simp [bind, Option.bind]
  · rename_i misfit
    simp only [Option.isSome_none, Bool.false_eq_true, false_iff]
    exact fun fits => misfit ⟨fits.leaves, fits.children, fits.disjoint⟩

variable [LawfulHamtCodec K] [LawfulHamtCodec V]

theorem checkChildPayload_eq_ok {buf : Bytes} {cursor count width : Nat} {done : Unit} :
    checkChildPayload buf cursor count width = .ok done ↔ buf.length = cursor + count * width := by
  unfold checkChildPayload
  by_cases short : buf.length < cursor + count * width
  · simp [short, bind, Except.bind]
    omega
  · by_cases long : buf.length > cursor + count * width
    · simp [short, long]
      omega
    · simp [short, long, pure, Except.pure]
      omega

theorem decodeV1Unverified_eq_ok {buf : Bytes} {node : PersistedInternalNode K V} :
    decodeV1Unverified buf = .ok node ↔ node.encodeV1 = some buf := by
  obtain ⟨datamap, nodemap, leaves, childHashes⟩ := node
  rw [encodeV1_eq_some]
  unfold decodeV1Unverified
  simp only [bind_eq_ok, guard_eq_ok, Prod.exists, not_not, decodeNodeHeader_eq_ok, checkChildPayload_eq_ok,
    exists_const, pure, Except.pure, ok.injEq, PersistedInternalNode.mk.injEq, slice_eq_some]
  constructor
  · rintro ⟨magic, version, long, data, nodes, leafCount, childCount, ⟨disjoint, leafOnes, childOnes, leafLen,
      childLen, leafSame, childSame, stop, header⟩, read, cursor, decoded, exactly, hashes, fetched, rfl, rfl,
      rfl, rfl⟩
    have headed : stop = 21 := by
      obtain ⟨_, _, _, _, stops⟩ := header
      rw [stops, length_headerBytes]
    subst headed
    obtain ⟨leafLength, body, written, spelledBody⟩ := (LawfulHamtCodec.exact.many (by omega)).mp decoded
    obtain ⟨childLength, last, spelledHashes⟩ := (readHashes_eq_ok spelledBody.stop_le).mp fetched
    have ends : last = buf.length := by
      obtain ⟨_, _, _, _, stops⟩ := spelledHashes
      rw [stops, length_flatMap_hashes, childLength, exactly]
    refine ⟨disjoint, leafLen, childLen, body, leafSame.trans leafLength.symm, childSame.trans childLength.symm,
      leafLength.trans leafOnes, childLength.trans childOnes, written, ?_⟩
    have all := Spelled.append.mpr ⟨4, magic, Spelled.append.mpr ⟨5, spelled_singleton.mpr ⟨version, rfl⟩,
      Spelled.append.mpr ⟨21, header, Spelled.append.mpr ⟨cursor, spelledBody, spelledHashes⟩⟩⟩⟩
    exact (Spelled.whole.mp ⟨all, ends⟩).1
  · rintro ⟨disjoint, leafLen, childLen, body, leafSame, childSame, leafOnes, childOnes, written, whole⟩
    obtain ⟨all, ends⟩ := Spelled.whole.mpr ⟨whole, rfl⟩
    obtain ⟨first, magic, all⟩ := Spelled.append.mp all
    obtain ⟨second, version, all⟩ := Spelled.append.mp all
    obtain ⟨third, header, all⟩ := Spelled.append.mp all
    obtain ⟨cursor, spelledBody, spelledHashes⟩ := Spelled.append.mp all
    obtain rfl : first = 4 := by
      obtain ⟨_, _, _, _, stops⟩ := magic
      exact stops
    obtain ⟨found, rfl⟩ := spelled_singleton.mp version
    obtain rfl : third = 21 := by
      obtain ⟨_, _, _, _, stops⟩ := header
      rw [stops, length_headerBytes]
    have long := header.stop_le
    have exactly : buf.length = cursor + childHashes.length * 32 := by
      obtain ⟨_, _, _, _, stops⟩ := id spelledHashes
      rw [← ends, stops, length_flatMap_hashes]
    exact ⟨magic, found, by omega, datamap, nodemap, leaves.length, childHashes.length,
      ⟨disjoint, leafOnes, childOnes, leafLen, childLen, leafSame, childSame, 21, header⟩, leaves, cursor,
      (LawfulHamtCodec.exact.many (by omega)).mpr ⟨rfl, body, written, spelledBody⟩, exactly, childHashes,
      (readHashes_eq_ok spelledBody.stop_le).mpr ⟨rfl, _, spelledHashes⟩, rfl, rfl, rfl, rfl⟩

section

theorem guard_bounded {γ : Type} {stops : Prop} [Decidable stops] {message : String}
    {next : Except DecodeFault γ} (bounded : ¬stops → next ≠ .error .outOfBounds) :
    (do
      if stops then error (DecodeFault.err message)
      next) ≠ .error .outOfBounds := by
  by_cases holds : stops
  · simp [holds, bind, Except.bind]
  · simpa [holds, bind, Except.bind] using bounded holds

theorem readHeaderField_bounded (message : String) (buf : Bytes) (start : Nat) :
    readHeaderField message buf start ≠ .error .outOfBounds := by
  unfold readHeaderField
  split <;> simp

theorem decodeNodeHeader_bounded (buf : Bytes) (start : Nat) : decodeNodeHeader buf start ≠ .error .outOfBounds := by
  refine bind_ne_error (readHeaderField_bounded _ _ _) fun _ _ => ?_
  refine bind_ne_error (readHeaderField_bounded _ _ _) fun _ _ => guard_bounded fun _ => ?_
  refine bind_ne_error (readHeaderField_bounded _ _ _) fun _ _ => ?_
  refine bind_ne_error (readHeaderField_bounded _ _ _) fun _ _ => ?_
  refine guard_bounded fun _ => guard_bounded fun _ => ?_
  simp [pure, Except.pure]

theorem readMany_bounded {α : Type} {read : Decoder α} (bounded : Bounded read) (count : Nat) :
    Bounded (readMany read count) := by
  induction count with
  | zero =>
    intro buf start
    simp [readMany]
  | succ count ih =>
    intro buf start
    refine bind_ne_error (bounded buf start) fun _ _ => bind_ne_error (ih buf _) fun _ _ => ?_
    simp [pure, Except.pure]

theorem readHash_bounded {buf : Bytes} {start : Nat} (inside : start + 32 ≤ buf.length) :
    readHash buf start ≠ .error .outOfBounds := by
  unfold readHash slice
  rw [if_pos ⟨Nat.le_add_right _ _, inside⟩]
  dsimp only
  rw [dif_pos (by rw [List.length_take, List.length_drop]; omega)]
  simp

theorem checkChildPayload_bounded (buf : Bytes) (cursor count width : Nat) :
    checkChildPayload buf cursor count width ≠ .error .outOfBounds := by
  refine guard_bounded fun _ => ?_
  split <;> simp [pure, Except.pure]

theorem decodeV1Unverified_bounded (buf : Bytes) :
    (decodeV1Unverified buf : Except DecodeFault (PersistedInternalNode K V)) ≠ .error .outOfBounds := by
  refine guard_bounded fun _ => guard_bounded fun _ => guard_bounded fun _ => ?_
  refine bind_ne_error (decodeNodeHeader_bounded buf 5) fun header _ => ?_
  refine bind_ne_error (readMany_bounded LawfulHamtCodec.bounded header.2.2.1 buf 21) fun read _ => ?_
  refine bind_ne_error (checkChildPayload_bounded buf read.2 header.2.2.2 32) fun _ payload => ?_
  have exactly := checkChildPayload_eq_ok.mp payload
  refine bind_ne_error (mapM_ne_error fun i mem => readHash_bounded ?_) fun _ _ => by
    simp [pure, Except.pure]
  have below := List.mem_range.mp mem
  omega

end

inductive Wire where
  | int (n : Nat)
  | usize (width : Nat) (fits : width ≤ 64)
  | isize (width : Nat) (positive : 0 < width) (fits : width ≤ 64)
  | bool
  | string
  | bytes
  | eventType
  | pair (left right : Wire)

namespace Wire

def Payload : Wire → Type
  | int n => LeInt n
  | usize width _ => Usize width
  | isize width _ _ => Isize width
  | bool => Bool
  | string => String
  | bytes => Bytes
  | eventType => EventType
  | pair left right => left.Payload × right.Payload

instance codec : (wire : Wire) → HamtCodec wire.Payload
  | int n => leHamtCodec n
  | usize width _ => usizeHamtCodec width
  | isize width _ _ => isizeHamtCodec width
  | bool => boolHamtCodec
  | string => stringHamtCodec
  | bytes => bytesHamtCodec
  | eventType => eventTypeHamtCodec
  | pair left right => @pairHamtCodec left.Payload right.Payload left.codec right.codec

theorem lawful : (wire : Wire) → LawfulHamtCodec wire.Payload
  | int n => lawful_le n
  | usize _ fits => lawful_usize fits
  | isize _ positive fits => lawful_isize positive fits
  | bool => lawful_bool
  | string => lawful_string
  | bytes => lawful_bytes
  | eventType => lawful_eventType
  | pair left right => @lawful_pair left.Payload right.Payload left.codec right.codec left.lawful right.lawful

end Wire

/-- Encoding and decoding are inverse on all nodes and all buffers, whatever the payload types. -/
theorem decodeV1Unverified_inverse (key value : Wire) (node : PersistedInternalNode key.Payload value.Payload)
    (buf : Bytes) :
    (decodeV1Unverified buf = .ok node ↔ node.encodeV1 = some buf) ∧
      (node.encodeV1.isSome ↔ node.Encodable) ∧
      (decodeV1Unverified buf : Except DecodeFault (PersistedInternalNode key.Payload value.Payload)) ≠
        .error .outOfBounds := by
  have keys := key.lawful
  have values := value.lawful
  exact ⟨decodeV1Unverified_eq_ok, PersistedInternalNode.encodeV1_isSome, decodeV1Unverified_bounded buf⟩

end

open Packed

variable {K V E : Type} {hasher : Hasher K V StructuralHash} {keyHash : K → KeyPathHash}
  {resolver : Resolver K V StructuralHash E}

section

def HamtNode.persisted (node : HamtNode K V StructuralHash) : PersistedInternalNode K V :=
  ⟨node.datamap, node.nodemap, node.leaves, node.children.map NodeRef.structuralHash⟩

def PersistedInternalNode.intoHamtNodeVerified (node : PersistedInternalNode K V)
    (hasher : Hasher K V StructuralHash) (expectedHash : StructuralHash) :
    Except DecodeFault (HamtNode K V StructuralHash) := do
  if node.datamap &&& node.nodemap ≠ 0 then
    .error (.err "PersistedInternalNode datamap and nodemap overlap")
  if node.leaves.length ≠ countOnes node.datamap then
    .error (.err "PersistedInternalNode leaf count does not match datamap")
  if node.childHashes.length ≠ countOnes node.nodemap then
    .error (.err "PersistedInternalNode child count does not match nodemap")
  let children := node.childHashes.map NodeRef.lazy
  if computeStructuralHash hasher node.datamap node.nodemap node.leaves children ≠ expectedHash then
    .error (.err "persisted node contents do not match expected structural hash")
  return ⟨node.datamap, node.nodemap, node.leaves, children, expectedHash⟩

variable [HamtCodec K] [HamtCodec V]

def decodeV1Verified (buf : Bytes) (hasher : Hasher K V StructuralHash) (expectedHash : StructuralHash) :
    Except DecodeFault (HamtNode K V StructuralHash) := do
  let node ← decodeV1Unverified buf
  node.intoHamtNodeVerified hasher expectedHash

inductive LoadFault where
  | missing (hash : StructuralHash)
  | decode (fault : DecodeFault)

abbrev NodeStore := StructuralHash → Option Bytes

def loadNode (hasher : Hasher K V StructuralHash) (store : NodeStore) : Resolver K V StructuralHash LoadFault :=
  fun hash =>
    match store hash with
    | none => .error (.missing hash)
    | some bytes =>
      match decodeV1Verified bytes hasher hash with
      | .ok node => .ok node
      | .error fault => .error (.decode fault)

def StoredNode (store : NodeStore) (node : HamtNode K V StructuralHash) : Prop :=
  ∃ bytes, node.persisted.encodeV1 = some bytes ∧ store node.structuralHash = some bytes

end

def HamtNode.unloaded (node : HamtNode K V StructuralHash) : HamtNode K V StructuralHash :=
  ⟨node.datamap, node.nodemap, node.leaves, (node.children.map NodeRef.structuralHash).map .lazy,
    node.structuralHash⟩

section

variable {node : HamtNode K V StructuralHash} {leafSlots : Nat → Option (K × V)}
  {childSlots : Nat → Option (NodeRef K V StructuralHash)}

theorem unloaded_hash (node : HamtNode K V StructuralHash) :
    computeStructuralHash hasher node.datamap node.nodemap node.leaves
        ((node.children.map NodeRef.structuralHash).map .lazy) =
      computeStructuralHash hasher node.datamap node.nodemap node.leaves node.children := by
  unfold computeStructuralHash
  rw [List.map_map, List.map_map]
  rfl

theorem HamtNode.Packed.unloaded (packed : node.Packed hasher leafSlots childSlots) :
    node.unloaded.Packed hasher leafSlots fun slot => (childSlots slot).map fun ref => .lazy ref.structuralHash where
  leaves := packed.leaves
  children := by
    unfold HamtNode.unloaded HamtNode.children
    rw [List.map_map]
    exact packed.children.map _
  hash := packed.hash.trans (unloaded_hash node).symm

theorem Holds.disjoint {levels : Nat} {entries : List (K × V)}
    (holds : Holds hasher keyHash resolver (levels + 1) node entries) : node.datamap &&& node.nodemap = 0 := by
  obtain ⟨leafSlots, childSlots, packed, slots⟩ := holds
  apply BitVec.eq_of_getLsbD_eq
  intro slot inside
  rw [BitVec.getLsbD_and, packed.leaves.bits slot inside, packed.children.bits slot inside]
  rcases (slots slot inside).inv with ⟨-, leaf, -⟩ | ⟨-, -, -, child⟩ | ⟨-, -, -, leaf, -⟩
  · simp [leaf]
  · simp [child]
  · simp [leaf]

theorem Holds.intoHamtNodeVerified (holds : Holds hasher keyHash resolver (levels + 1) node entries) :
    node.persisted.intoHamtNodeVerified hasher node.structuralHash = .ok node.unloaded := by
  have apart := holds.disjoint
  obtain ⟨leafSlots, childSlots, packed, -⟩ := holds
  have leaves : node.leaves.length = countOnes node.datamap := packed.leaves.length
  have children : (node.children.map NodeRef.structuralHash).length = countOnes node.nodemap := by
    rw [List.length_map]
    exact packed.children.length
  have hash := (unloaded_hash node).trans packed.hash.symm
  unfold PersistedInternalNode.intoHamtNodeVerified HamtNode.persisted
  dsimp only
  rw [if_neg (not_not.mpr apart), if_neg (not_not.mpr leaves), if_neg (not_not.mpr children), if_neg (not_not.mpr hash)]
  rfl

end

variable [HamtCodec K] [HamtCodec V] [LawfulHamtCodec K] [LawfulHamtCodec V]

theorem loadNode_stored (holds : Holds hasher keyHash resolver (levels + 1) node entries)
    (stored : StoredNode store node) : loadNode hasher store node.structuralHash = .ok node.unloaded := by
  obtain ⟨bytes, encodes, found⟩ := stored
  rw [loadNode, found]
  dsimp only
  have decoded : decodeV1Unverified bytes = .ok node.persisted := decodeV1Unverified_eq_ok.mpr encodes
  rw [decodeV1Verified, decoded]
  show (match node.persisted.intoHamtNodeVerified hasher node.structuralHash with | .ok _ => _ | .error _ => _) = _
  rw [holds.intoHamtNodeVerified]

theorem Holds.unloaded (holds : Holds hasher keyHash resolver levels node entries)
    (stored : ∀ target, Reaches resolver node target → StoredNode store target) :
    Holds hasher keyHash (loadNode hasher store) levels node.unloaded entries := by
  induction levels generalizing node entries with
  | zero => exact holds
  | succ levels ih =>
    have children := fun slot (inside : slot < 32) ref (taken : node.childAt slot = some ref) =>
      holds.childAt inside taken
    obtain ⟨leafSlots, childSlots, packed, slots⟩ := holds
    refine ⟨leafSlots, _, packed.unloaded, fun slot inside => ?_⟩
    rcases (slots slot inside).inv with ⟨shared, leaf, child⟩ | ⟨entry, shared, leaf, child⟩ |
      ⟨ref, child, several, leaf, taken, resolves, named, inner⟩
    · rw [shared, leaf, child]
      exact .empty
    · rw [shared, leaf, child]
      exact .leaf entry
    · obtain ⟨own, found, -, mem, -⟩ := children slot inside ref ((packed.childAt inside).trans taken)
      obtain rfl := ok.inj (found.symm.trans resolves)
      rw [leaf, taken]
      have below := fun target reaches => stored target (.child mem found reaches)
      cases levels with
      | zero => exact inner.elim
      | succ levels =>
        have loads : loadNode hasher store ref.structuralHash = .ok own.unloaded :=
          named ▸ loadNode_stored inner (below own (.self own))
        exact .child several loads named (ih inner below)

end Rezzy.Hamt
