import Rezzy.Json.Decimal
import Rezzy.Merkle.Digest

namespace Rezzy.Merkle

open Json

def maxCanonicalInt : Int := 2 ^ 53 - 1
def minCanonicalInt : Int := -maxCanonicalInt

def leafDst : Bytes := asBytes "msc4511:leaf:sha256:v1"
def nodeDst : Bytes := asBytes "msc4511:node:sha256:v1"
def hexLower : List UInt8 := asBytes "0123456789abcdef"

inductive MerkleError where
  | emptyFieldName
  | invalidFieldName
  | duplicateField (name : String)
  | fieldNotFound (name : String)
  | noLeaves
  | integerRange
  | unsupportedNumber
deriving DecidableEq

structure Field where
  name : String
  value : Value

structure Leaf where
  name : String
  hash : Hash

section

def appendNumber (number : Number) : Except MerkleError Bytes :=
  match number.asI64 with
  | some n =>
    if minCanonicalInt ≤ n ∧ n ≤ maxCanonicalInt then .ok (asBytes (toString n)) else .error .integerRange
  | none => if number.asU64.isSome then .error .integerRange else .error .unsupportedNumber

def escapeChar (ch : Char) : Bytes :=
  if ch = '"' then asBytes "\\\""
  else if ch = '\\' then asBytes "\\\\"
  else if ch.toNat = 0x08 then asBytes "\\b"
  else if ch.toNat = 0x0c then asBytes "\\f"
  else if ch = '\n' then asBytes "\\n"
  else if ch = '\r' then asBytes "\\r"
  else if ch = '\t' then asBytes "\\t"
  else if ch.toNat ≤ 0x1f then
    asBytes "\\u00" ++ [hexLower.getD (ch.toNat / 16 % 16) 0, hexLower.getD (ch.toNat % 16) 0]
  else String.utf8EncodeChar ch

def appendString (text : String) : Bytes := quote :: (text.toList.flatMap escapeChar ++ [quote])

mutual

def appendCanonicalValue : Value → Except MerkleError Bytes
  | .null => .ok (asBytes "null")
  | .bool true => .ok (asBytes "true")
  | .bool false => .ok (asBytes "false")
  | .number number => appendNumber number
  | .string text => .ok (appendString text)
  | .array items => do
    let out ← appendItems true items
    .ok (openBracket :: (out ++ [closeBracket]))
  | .object members => do
    let out ← appendMembers true members
    .ok (openBrace :: (out ++ [closeBrace]))

def appendItems : Bool → List Value → Except MerkleError Bytes
  | _, [] => .ok []
  | first, item :: items => do
    let out ← appendCanonicalValue item
    let rest ← appendItems false items
    .ok ((if first then [] else [comma]) ++ out ++ rest)

def appendMembers : Bool → List (String × Value) → Except MerkleError Bytes
  | _, [] => .ok []
  | first, (key, value) :: members => do
    let out ← appendCanonicalValue value
    let rest ← appendMembers false members
    .ok ((if first then [] else [comma]) ++ appendString key ++ colon :: out ++ rest)

end

def canonicalJson (value : Value) : Except MerkleError Bytes := appendCanonicalValue value

end

def validateFieldName (fieldName : String) : Except MerkleError Unit :=
  if asBytes fieldName = [] then .error .emptyFieldName
  else if 0 ∈ asBytes fieldName then .error .invalidFieldName
  else .ok ()

variable (sha256 : Sha256)

def innerHash (left right : Hash) : Hash := hashParts sha256 [nodeDst, left.toList, right.toList]

def leafHashUnchecked (fieldName canonicalValue : Bytes) : Hash := hashParts sha256 [leafDst, fieldName, [0], canonicalValue]

def leafHash (fieldName : String) (canonicalValue : Bytes) : Except MerkleError Hash := do
  validateFieldName fieldName
  .ok (leafHashUnchecked sha256 (asBytes fieldName) canonicalValue)

def fieldLeaf (field : Field) : Except MerkleError Leaf := do
  validateFieldName field.name
  let canonical ← canonicalJson field.value
  let hash ← leafHash sha256 field.name canonical
  .ok ⟨field.name, hash⟩

def duplicateName : List Leaf → Option String
  | first :: second :: rest => if first.name = second.name then some first.name else duplicateName (second :: rest)
  | _ => none

def leafLe (a b : Leaf) : Bool := asBytes a.name ≤ asBytes b.name

def leaves (fields : List Field) : Except MerkleError (List Leaf) := do
  let collected ← fields.mapM (fieldLeaf sha256)
  let sorted := collected.mergeSort leafLe
  match duplicateName sorted with
  | some name => .error (.duplicateField name)
  | none => .ok sorted

def doubleBelow (n : Nat) : Nat → Nat → Nat
  | 0, k => k
  | left + 1, k => if k * 2 < n then doubleBelow n left (k * 2) else k

def largestPowerOfTwoLessThan (n : Nat) : Nat := doubleBelow n n 1

theorem doubleBelow_bounds (positive : 0 < k) (below : k < n) :
    0 < doubleBelow n left k ∧ doubleBelow n left k < n := by
  induction left generalizing k with
  | zero => exact ⟨positive, below⟩
  | succ left ih =>
    rw [doubleBelow]
    split
    · rename_i double
      exact ih (by omega) double
    · exact ⟨positive, below⟩

theorem largestPowerOfTwoLessThan_bounds {n : Nat} (two : 2 ≤ n) :
    0 < largestPowerOfTwoLessThan n ∧ largestPowerOfTwoLessThan n < n := doubleBelow_bounds Nat.one_pos two

def merkleRoot : List Hash → Option Hash
  | [] => none
  | [only] => some only
  | [first, second] => some (innerHash sha256 first second)
  | first :: second :: third :: rest =>
    let hashes := first :: second :: third :: rest
    let k := largestPowerOfTwoLessThan hashes.length
    do
      let left ← merkleRoot (hashes.take k)
      let right ← merkleRoot (hashes.drop k)
      some (innerHash sha256 left right)
termination_by hashes => hashes.length
decreasing_by
  · have bounds := @largestPowerOfTwoLessThan_bounds (first :: second :: third :: rest).length (by simp)
    rw [List.length_take]
    simp only [List.length_cons] at bounds ⊢
    omega
  · have bounds := @largestPowerOfTwoLessThan_bounds (first :: second :: third :: rest).length (by simp)
    rw [List.length_drop]
    simp only [List.length_cons] at bounds ⊢
    omega

def rootFromLeaves (leaves : List Leaf) : Except MerkleError Hash :=
  match merkleRoot sha256 (leaves.map Leaf.hash) with
  | some root => .ok root
  | none => .error .noLeaves

def root (fields : List Field) : Except MerkleError Hash := do
  let leaves ← leaves sha256 fields
  rootFromLeaves sha256 leaves

inductive Side where
  | left
  | right
deriving DecidableEq

structure ProofStep where
  side : Side
  hash : Hash
deriving DecidableEq

def merkleRootAndPath : List Hash → Nat → Option (Hash × List ProofStep)
  | [], _ => none
  | [only], _ => some (only, [])
  | [first, second], target =>
    if target = 0 then some (innerHash sha256 first second, [⟨.right, second⟩])
    else some (innerHash sha256 first second, [⟨.left, first⟩])
  | first :: second :: third :: rest, target =>
    let hashes := first :: second :: third :: rest
    let k := largestPowerOfTwoLessThan hashes.length
    if target < k then do
      let (leftRoot, path) ← merkleRootAndPath (hashes.take k) target
      let rightRoot ← merkleRoot sha256 (hashes.drop k)
      some (innerHash sha256 leftRoot rightRoot, path ++ [⟨.right, rightRoot⟩])
    else do
      let (rightRoot, path) ← merkleRootAndPath (hashes.drop k) (target - k)
      let leftRoot ← merkleRoot sha256 (hashes.take k)
      some (innerHash sha256 leftRoot rightRoot, path ++ [⟨.left, leftRoot⟩])
termination_by hashes => hashes.length
decreasing_by
  · have bounds := @largestPowerOfTwoLessThan_bounds (first :: second :: third :: rest).length (by simp)
    rw [List.length_take]
    simp only [List.length_cons] at bounds ⊢
    omega
  · have bounds := @largestPowerOfTwoLessThan_bounds (first :: second :: third :: rest).length (by simp)
    rw [List.length_drop]
    simp only [List.length_cons] at bounds ⊢
    omega

def leafPath (fields : List Field) (fieldName : String) : Except MerkleError (List ProofStep × Hash) := do
  let ls ← leaves sha256 fields
  match ls.findIdx? fun leaf => leaf.name = fieldName with
  | none => .error (.fieldNotFound fieldName)
  | some idx =>
    match merkleRootAndPath sha256 (ls.map Leaf.hash) idx with
    | none => .error .noLeaves
    | some (root, path) => .ok (path, root)

def climbLeafPath : Hash → List ProofStep → Hash
  | cur, [] => cur
  | cur, step :: path =>
    climbLeafPath (if step.side = .left then innerHash sha256 step.hash cur else innerHash sha256 cur step.hash) path

def verifyLeafPath (leafHash : Hash) (path : List ProofStep) (root : Hash) : Bool := climbLeafPath sha256 leafHash path = root

end Rezzy.Merkle
