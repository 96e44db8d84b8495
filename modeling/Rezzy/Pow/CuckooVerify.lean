import Rezzy.Lib.Fallible

namespace Rezzy.Pow

open Fallible

abbrev U64 := BitVec 64

def edgeBits : Nat := 29

def proofSize : Nat := 42

def nedges : U64 := 1 <<< edgeBits

def edgeMask : U64 := nedges - 1

def nodeBits : Nat := 29

def nodeMask : U64 := (1 <<< nodeBits) - 1

inductive VerifyError where
  | wrongProofSize (len : Nat)
  | edgeTooBig
  | edgesNotAscending
  | nonMatchingEndpoints
  | branch
  | deadEnd
  | shortCycle
deriving DecidableEq, Repr

section

structure SipHashKeys where
  k0 : U64
  k1 : U64
  k2 : U64
  k3 : U64

structure SipHashState where
  v0 : U64
  v1 : U64
  v2 : U64
  v3 : U64

namespace SipHashState

def fromKeys (keys : SipHashKeys) : SipHashState := ⟨keys.k0, keys.k1, keys.k2, keys.k3⟩

def xorLanes (state : SipHashState) : U64 := (state.v0 ^^^ state.v1) ^^^ (state.v2 ^^^ state.v3)

def sipRound (state : SipHashState) : SipHashState :=
  let v0 := state.v0 + state.v1
  let v2 := state.v2 + state.v3
  let v1 := state.v1.rotateLeft 13
  let v3 := state.v3.rotateLeft 16
  let v1 := v1 ^^^ v0
  let v3 := v3 ^^^ v2
  let v0 := v0.rotateLeft 32
  let v2 := v2 + v1
  let v0 := v0 + v3
  let v1 := v1.rotateLeft 17
  let v3 := v3.rotateLeft 21
  let v1 := v1 ^^^ v2
  let v3 := v3 ^^^ v0
  let v2 := v2.rotateLeft 32
  ⟨v0, v1, v2, v3⟩

def hash24 (state : SipHashState) (nonce : U64) : SipHashState :=
  let state := { state with v3 := state.v3 ^^^ nonce }
  let state := state.sipRound.sipRound
  let state := { state with v0 := state.v0 ^^^ nonce, v2 := state.v2 ^^^ 0xff }
  state.sipRound.sipRound.sipRound.sipRound

end SipHashState

def SipHashKeys.siphash24 (keys : SipHashKeys) (nonce : U64) : U64 :=
  ((SipHashState.fromKeys keys).hash24 nonce).xorLanes

def sipnode (keys : SipHashKeys) (edge uorv : U64) : U64 := keys.siphash24 (edge * 2 + uorv) &&& nodeMask

abbrev NodeOf := U64 → U64 → U64

def validateEdges : Option U64 → List U64 → Except VerifyError Unit
  | _, [] => .ok ()
  | previous, edge :: rest =>
    if edgeMask < edge then .error .edgeTooBig
    else if previous.any fun previous => edge ≤ previous then .error .edgesNotAscending
    else validateEdges (some edge) rest

def validateSolutionShape (edges : List U64) : Except VerifyError Unit :=
  if edges.length ≠ proofSize then .error (.wrongProofSize edges.length) else validateEdges none edges

def nextSamePartitionIndex (index len : Nat) : Nat := if index + 2 < len then index + 2 else index &&& 1

def scanSide (uvs : List U64) (i : Nat) : Nat → Nat → Nat → Run VerifyError Nat
  | 0, _, _ => unfinished
  | fuel + 1, j, k =>
    let k := nextSamePartitionIndex k uvs.length
    if k = i then returned (.ok j)
    else if uvs[k]? = uvs[i]? then
      if j ≠ i then returned (.error .branch) else scanSide uvs i fuel k k
    else scanSide uvs i fuel j k

def walkCycle (uvs : List U64) (scans : Nat) : Nat → Nat → Nat → Run VerifyError Nat
  | 0, _, _ => unfinished
  | fuel + 1, n, i => do
    let j ← scanSide uvs i scans i i
    if j = i then returned (.error .deadEnd)
    else if proofSize < n + 1 ∨ j ^^^ 1 = 0 then returned (.ok (n + 1))
    else walkCycle uvs scans fuel (n + 1) (j ^^^ 1)

def verifyCycleUvs (fuel : Nat) (uvs : List U64) : Run VerifyError Unit := do
  let n ← walkCycle uvs fuel fuel 0 0
  if n = proofSize then returned (.ok ()) else returned (.error .shortCycle)

def endpoints (nodeOf : NodeOf) (edges : List U64) : List U64 :=
  edges.flatMap fun edge => [nodeOf edge 0, nodeOf edge 1]

def verifyEdges (fuel : Nat) (nodeOf : NodeOf) (edges : List U64) : Run VerifyError Unit := do
  returned (validateSolutionShape edges)
  let xors := edges.foldl (fun (xors : U64 × U64) edge => (xors.1 ^^^ nodeOf edge 0, xors.2 ^^^ nodeOf edge 1)) (0, 0)
  if xors.1 ||| xors.2 ≠ 0 then returned (.error .nonMatchingEndpoints)
  else verifyCycleUvs fuel (endpoints nodeOf edges)

structure CuckooVerifier where
  keys : SipHashKeys

def CuckooVerifier.verify (verifier : CuckooVerifier) (fuel : Nat) (edges : List U64) : Run VerifyError Unit :=
  verifyEdges fuel (sipnode verifier.keys) edges

variable {uvs : List U64} {i : Nat}

def scanned (i t : Nat) : Nat := i % 2 + 2 * ((i / 2 + t) % 42)

theorem scanned_lt (i t : Nat) : scanned i t < 84 := by
  unfold scanned
  omega

theorem scanned_zero (inside : i < 84) : scanned i 0 = i := by
  unfold scanned
  omega

theorem next_scanned (t : Nat) : nextSamePartitionIndex (scanned i t) 84 = scanned i (t + 1) := by
  unfold nextSamePartitionIndex scanned
  rw [Nat.and_one_is_mod]
  split <;> omega

theorem scanned_eq (inside : i < 84) (small : t ≤ 42) : scanned i t = i ↔ t = 0 ∨ t = 42 := by
  unfold scanned
  omega

theorem exists_scanned (inside : i < 84) (within : k < 84) (side : k % 2 = i % 2) (other : k ≠ i) :
    ∃ t, 0 < t ∧ t < 42 ∧ scanned i t = k := by
  refine ⟨(k / 2 + 42 - i / 2) % 42, ?_, Nat.mod_lt _ (by decide), ?_⟩
  · omega
  · unfold scanned
    omega

theorem scanned_side (i t : Nat) : scanned i t % 2 = i % 2 := by
  unfold scanned
  omega

structure Meets (uvs : List U64) (i k : Nat) : Prop where
  within : k < 84
  side : k % 2 = i % 2
  other : k ≠ i
  node : uvs[k]? = uvs[i]?

def Seen (uvs : List U64) (i t k : Nat) : Prop := Meets uvs i k ∧ ∃ s, 0 < s ∧ s ≤ t ∧ scanned i s = k

def Found (uvs : List U64) (i t j : Nat) : Prop :=
  (j = i ∧ ∀ k, ¬Seen uvs i t k) ∨ Seen uvs i t j ∧ ∀ k, Seen uvs i t k → k = j

inductive Scanned (uvs : List U64) (i : Nat) : Except VerifyError Nat → Prop where
  | none (alone : ∀ k, ¬Meets uvs i k) : Scanned uvs i (.ok i)
  | one {j : Nat} (meets : Meets uvs i j) (unique : ∀ k, Meets uvs i k → k = j) : Scanned uvs i (.ok j)
  | many {j k : Nat} (first : Meets uvs i j) (second : Meets uvs i k) (apart : j ≠ k) :
      Scanned uvs i (.error .branch)

theorem seen_succ : Seen uvs i (t + 1) k ↔ Seen uvs i t k ∨ Meets uvs i k ∧ scanned i (t + 1) = k := by
  constructor
  · rintro ⟨meets, s, positive, within, here⟩
    rcases Nat.le_succ_iff.mp within with before | rfl
    · exact .inl ⟨meets, s, positive, before, here⟩
    · exact .inr ⟨meets, here⟩
  · rintro (⟨meets, s, positive, within, here⟩ | ⟨meets, here⟩)
    · exact ⟨meets, s, positive, Nat.le_succ_of_le within, here⟩
    · exact ⟨meets, t + 1, Nat.succ_pos t, Nat.le_refl _, here⟩

theorem seen_all (inside : i < 84) : Seen uvs i 41 k ↔ Meets uvs i k := by
  constructor
  · exact fun seen => seen.1
  · intro meets
    obtain ⟨t, positive, small, here⟩ := exists_scanned inside meets.within meets.side meets.other
    exact ⟨meets, t, positive, by omega, here⟩

theorem scanSide_spec (inside : i < 84) (length : uvs.length = 84) (started : t ≤ 41) (enough : 42 ≤ fuel + t)
    (found : Found uvs i t j) :
    ∃ result, scanSide uvs i fuel j (scanned i t) = returned result ∧ Scanned uvs i result := by
  induction fuel generalizing t j with
  | zero => omega
  | succ fuel ih =>
    unfold scanSide
    rw [length, next_scanned]
    by_cases round : scanned i (t + 1) = i
    · rw [if_pos round]
      obtain rfl : t = 41 := by
        rcases (scanned_eq inside (by omega)).mp round with zero | full
        · cases zero
        · omega
      refine ⟨_, rfl, ?_⟩
      rcases found with ⟨rfl, nothing⟩ | ⟨seen, unique⟩
      · exact .none fun k meets => nothing k ((seen_all inside).mpr meets)
      · exact .one seen.1 fun k meets => unique k ((seen_all inside).mpr meets)
    · rw [if_neg round]
      have going : t + 1 ≤ 41 := by
        by_contra last
        exact round ((scanned_eq inside (by omega)).mpr (.inr (by omega)))
      by_cases same : uvs[scanned i (t + 1)]? = uvs[i]?
      · rw [if_pos same]
        have meets : Meets uvs i (scanned i (t + 1)) := ⟨scanned_lt i (t + 1), scanned_side i (t + 1), round, same⟩
        rcases found with ⟨rfl, nothing⟩ | ⟨seen, unique⟩
        · rw [if_neg (not_not_intro rfl)]
          apply ih going (by omega)
          refine .inr ⟨seen_succ.mpr (.inr ⟨meets, rfl⟩), fun k now => ?_⟩
          rcases seen_succ.mp now with before | ⟨-, here⟩
          · exact absurd before (nothing k)
          · exact here.symm
        · rw [if_pos seen.1.other]
          refine ⟨_, rfl, .many seen.1 meets ?_⟩
          obtain ⟨-, s, positive, before, here⟩ := seen
          rw [← here]
          unfold scanned
          omega
      · rw [if_neg same]
        apply ih going (by omega)
        have kept : ∀ k, Seen uvs i (t + 1) k ↔ Seen uvs i t k := by
          intro k
          rw [seen_succ]
          refine or_iff_left ?_
          rintro ⟨meets, rfl⟩
          exact same meets.node
        unfold Found
        simp only [kept]
        exact found

end

variable {uvs : List U64}

def Partner (uvs : List U64) (i j : Nat) : Prop := Meets uvs i j ∧ ∀ k, Meets uvs i k → k = j

def Closes (uvs : List U64) : Nat → Nat → Prop
  | 0, _ => False
  | steps + 1, i => ∃ j, Partner uvs i j ∧ (if j ^^^ 1 = 0 then steps = 0 else Closes uvs steps (j ^^^ 1))

theorem scan_spec (inside : i < 84) (length : uvs.length = 84) (enough : 42 ≤ fuel) :
    ∃ result, scanSide uvs i fuel i i = returned result ∧ Scanned uvs i result := by
  have start : Found uvs i 0 i := by
    refine .inl ⟨rfl, ?_⟩
    rintro k ⟨-, s, positive, none, -⟩
    omega
  have scan := scanSide_spec inside length (by decide) (by omega : 42 ≤ fuel + 0) start
  rw [scanned_zero inside] at scan
  exact scan

theorem flip_lt : ∀ j < 84, j ^^^ 1 < 84 := by decide

theorem walkCycle_spec (length : uvs.length = 84) {scans fuel n i : Nat} (inside : i < 84) (enough : 42 ≤ scans)
    (going : n ≤ 42) (steps : 43 ≤ fuel + n) :
    ∃ result, walkCycle uvs scans fuel n i = returned result ∧ (result = .ok 42 ↔ Closes uvs (42 - n) i) := by
  induction fuel generalizing n i with
  | zero => omega
  | succ fuel ih =>
    obtain ⟨found, scan, given⟩ := scan_spec inside length enough
    unfold walkCycle
    rw [scan]
    cases given with
    | none alone =>
      rw [ok_bind, if_pos rfl]
      refine ⟨_, rfl, iff_of_false nofun ?_⟩
      cases left : 42 - n with
      | zero => exact id
      | succ left =>
        rintro ⟨j, partner, -⟩
        exact alone j partner.1
    | many first second apart =>
      rw [failed_bind]
      refine ⟨_, rfl, iff_of_false nofun ?_⟩
      cases left : 42 - n with
      | zero => exact id
      | succ left =>
        rintro ⟨j, partner, -⟩
        exact apart ((partner.2 _ first).trans (partner.2 _ second).symm)
    | @one j meets unique =>
      rw [ok_bind, if_neg meets.other]
      have closes : ∀ left, Closes uvs (left + 1) i ↔ if j ^^^ 1 = 0 then left = 0 else Closes uvs left (j ^^^ 1) := by
        intro left
        constructor
        · rintro ⟨k, partner, further⟩
          rw [← unique k partner.1]
          exact further
        · exact fun further => ⟨j, ⟨meets, unique⟩, further⟩
      rcases Nat.lt_or_eq_of_le going with less | rfl
      · obtain ⟨left, split⟩ : ∃ left, 42 - n = left + 1 := ⟨41 - n, by omega⟩
        rw [split, closes]
        by_cases back : j ^^^ 1 = 0
        · rw [if_pos (.inr back), if_pos back]
          refine ⟨_, rfl, ?_⟩
          rw [Except.ok.injEq]
          omega
        · have further : ¬(proofSize < n + 1 ∨ j ^^^ 1 = 0) := by
            unfold proofSize
            omega
          obtain rfl : left = 42 - (n + 1) := by omega
          rw [if_neg further, if_neg back]
          exact ih (flip_lt j meets.within) (by omega) (by omega)
      · rw [if_pos (.inl (by decide))]
        exact ⟨_, rfl, iff_of_false (by simp) id⟩

theorem verifyCycleUvs_spec (length : uvs.length = 84) :
    ∃ result, verifyCycleUvs 43 uvs = returned result ∧ (result = .ok () ↔ Closes uvs 42 0) := by
  obtain ⟨result, walked, closes⟩ :=
    walkCycle_spec (n := 0) (i := 0) length (by decide) (by decide : 42 ≤ 43) (by decide) (by decide : 43 ≤ 43 + 0)
  unfold verifyCycleUvs
  rw [walked]
  cases result with
  | error fault =>
    refine ⟨_, rfl, iff_of_false nofun fun closed => ?_⟩
    cases closes.mpr closed
  | ok n =>
    rw [ok_bind]
    by_cases all : n = proofSize
    · rw [if_pos all]
      exact ⟨_, rfl, iff_of_true rfl (closes.mp (congrArg Except.ok all))⟩
    · rw [if_neg all]
      refine ⟨_, rfl, iff_of_false nofun fun closed => ?_⟩
      exact all (Except.ok.inj (closes.mpr closed))

theorem scanSide_within (i : Nat) (less : fuel ≤ more) (j k : Nat) :
    (scanSide uvs i fuel j k).Within (scanSide uvs i more j k) := by
  induction fuel generalizing more j k with
  | zero => exact .inl rfl
  | succ fuel ih =>
    obtain ⟨more, rfl⟩ := Nat.exists_eq_succ_of_ne_zero (Nat.ne_zero_of_lt less)
    have rest := fun j k => ih (Nat.le_of_succ_le_succ less) j k
    unfold scanSide
    dsimp only
    split
    · exact .refl _
    · split
      · split
        · exact .refl _
        · exact rest _ _
      · exact rest _ _

theorem walkCycle_within (scan : scans ≤ scans') (less : fuel ≤ more) (n i : Nat) :
    (walkCycle uvs scans fuel n i).Within (walkCycle uvs scans' more n i) := by
  induction fuel generalizing more n i with
  | zero => exact .inl rfl
  | succ fuel ih =>
    obtain ⟨more, rfl⟩ := Nat.exists_eq_succ_of_ne_zero (Nat.ne_zero_of_lt less)
    apply (scanSide_within i scan i i).bind
    intro j
    split
    · exact .refl _
    · split
      · exact .refl _
      · exact ih (Nat.le_of_succ_le_succ less) (n + 1) (j ^^^ 1)

theorem verifyCycleUvs_within (less : fuel ≤ more) : (verifyCycleUvs fuel uvs).Within (verifyCycleUvs more uvs) :=
  (walkCycle_within less less 0 0).bind fun _ => .refl _

end Rezzy.Pow
