import Rezzy.Merkle.CausalRuns

namespace Rezzy.Merkle

open SparseTrie CausalSet List CausalProofStep

variable {sha256 : Sha256} {set : CausalSet} {key : Hash} {keys : List Hash} {levels d bottom steps : Nat} {place : Hash}

def CausalProofStep.value (step : CausalProofStep) : Hash × UInt64 := (step.hash, step.count)

def asStep (value : Hash × UInt64) : CausalProofStep := ⟨value.1, value.2⟩

theorem map_value_asStep (values : List (Hash × UInt64)) : (values.map asStep).map value = values := by
  rw [map_map]
  exact map_id values

theorem map_asStep_value (path : List CausalProofStep) : (path.map value).map asStep = path := by
  rw [map_map]
  exact map_id path

def causalSiblings (sha256 : Sha256) (key : Hash) (bottom steps : Nat) (keys : List Hash) : List (Hash × UInt64) :=
  siblings (causalJoin sha256) (causalBlank sha256) causalTurn key bottom steps (causalEntries sha256 keys)

def causalAlong (key : Hash) (bottom steps : Nat) (keys : List Hash) : List Hash :=
  keys.filter fun other => (List.range steps).all fun level => causalTurn other (bottom + level) = causalTurn key (bottom + level)

def keySide (key : Hash) (levels : Nat) (own : Bool) (keys : List Hash) : List Hash :=
  keys.filter fun other => causalTurn other levels == (if own then causalTurn key levels else !causalTurn key levels)

theorem side_own : side causalTurn levels (causalTurn key levels) (causalEntries sha256 keys) =
    causalEntries sha256 (keySide key levels true keys) := side_causalEntries _

theorem side_other : side causalTurn levels (!causalTurn key levels) (causalEntries sha256 keys) =
    causalEntries sha256 (keySide key levels false keys) := side_causalEntries _

theorem mem_causalAlong : other ∈ causalAlong key bottom steps keys ↔
    other ∈ keys ∧ ∀ level < steps, causalTurn other (bottom + level) = causalTurn key (bottom + level) := by
  simp [causalAlong]

theorem causalAlong_succ : causalAlong key bottom (steps + 1) keys =
    causalAlong key bottom steps (keySide key (bottom + steps) true keys) := by
  unfold causalAlong keySide
  rw [filter_filter]
  apply filter_congr
  intro _ _
  rw [range_succ, all_append, Bool.eq_iff_iff]
  simp

theorem along_causalEntries : along causalTurn key bottom steps (causalEntries sha256 keys) =
    causalEntries sha256 (causalAlong key bottom steps keys) := by
  induction steps generalizing keys with
  | zero =>
    have all : causalAlong key bottom 0 keys = keys := filter_eq_self.mpr fun _ _ => rfl
    rw [all]
    rfl
  | succ steps ih => rw [along_succ, side_own, ih, causalAlong_succ]

theorem causalEntries_eq_nil : causalEntries sha256 keys = [] ↔ keys = [] := map_eq_nil_iff

theorem causalSiblings_succ : causalSiblings sha256 key bottom (steps + 1) keys =
    causalSiblings sha256 key bottom steps (keySide key (bottom + steps) true keys) ++
      [causalSubtree sha256 (bottom + steps) (keySide key (bottom + steps) false keys)] := by
  unfold causalSiblings
  rw [siblings_succ, side_own, side_other]
  rfl

theorem Distinct.keySide (distinct : Distinct (levels + 1) keys) (own : Bool) : Distinct levels (keySide key levels own keys) :=
  distinct.side _

theorem keySide_length (key : Hash) (levels : Nat) (keys : List Hash) :
    (keySide key levels true keys).length + (keySide key levels false keys).length = keys.length := by
  have halves := filter_sides keys levels
  unfold keySide
  cases causalTurn key levels with
  | false => exact halves
  | true => exact (Nat.add_comm _ _).trans halves

theorem causalSubtree_join (key : Hash) : causalSubtree sha256 (levels + 1) keys = join (causalJoin sha256) causalTurn key levels
    (causalSubtree sha256 levels (keySide key levels true keys)) (causalSubtree sha256 levels (keySide key levels false keys)) := by
  unfold causalSubtree
  rw [subtree_succ key, side_own, side_other]

namespace CausalSet

theorem stepPrefixes_eq (small : d < causalDepth) : stepPrefixes place key d =
    (child place d (!causalTurn key (255 - d)), child place d (causalTurn key (255 - d))) := by
  unfold stepPrefixes causalTurn
  rw [show 255 - (255 - d) = d from by unfold causalDepth at small; omega]
  split
  · rename_i zero
    simp [zero, child]
  · rename_i one
    simp [one, child]

theorem keySide_child (small : d < causalDepth) (own : Bool) : keySide key (255 - d) own (keys.filter (hasPrefix d place)) =
    keys.filter (hasPrefix (d + 1) (child place d (if own then causalTurn key (255 - d) else !causalTurn key (255 - d)))) :=
  filter_child small _

theorem siblingStep_eq (key : Hash) (cached : Cached sha256 set) (small : d < causalDepth) (padded : Padded d place) :
    set.siblingStep sha256 (child place d (!causalTurn key (255 - d))) d =
      asStep (causalSubtree sha256 (255 - d) (keySide key (255 - d) false (set.keys.toList.filter (hasPrefix d place)))) := by
  unfold siblingStep
  rw [cached (d + 1) small _ (padded.child), keySide_child small]
  unfold prefixValue
  rw [show causalDepth - (d + 1) = 255 - d from by unfold causalDepth; omega]
  rfl

theorem depth_facts (shallow : levels + 1 ≤ causalDepth) : causalDepth - (levels + 1) < causalDepth ∧
    causalDepth - (levels + 1) + 1 = causalDepth - levels ∧ 255 - (causalDepth - (levels + 1)) = levels := by
  unfold causalDepth at shallow ⊢
  omega

def keysAt (set : CausalSet) (levels : Nat) (place : Hash) : List Hash :=
  set.keys.toList.filter (hasPrefix (causalDepth - levels) place)

def ownPlace (key : Hash) (levels : Nat) (place : Hash) : Hash :=
  child place (causalDepth - (levels + 1)) (causalTurn key levels)

theorem ownPlace_padded (key : Hash) (shallow : levels + 1 ≤ causalDepth) (padded : Padded (causalDepth - (levels + 1)) place) :
    Padded (causalDepth - levels) (ownPlace key levels place) := by
  obtain ⟨-, next, -⟩ := depth_facts shallow
  rw [← next]
  exact padded.child

theorem keysAt_own (shallow : levels + 1 ≤ causalDepth) :
    keySide key levels true (keysAt set (levels + 1) place) = keysAt set levels (ownPlace key levels place) := by
  obtain ⟨small, next, here⟩ := depth_facts shallow
  have sided := @keySide_child key set.keys.toList _ place small true
  rwa [here, next] at sided

theorem stepPrefixes_level (key : Hash) (cached : Cached sha256 set) (shallow : levels + 1 ≤ causalDepth)
    (padded : Padded (causalDepth - (levels + 1)) place) :
    set.siblingStep sha256 (stepPrefixes place key (causalDepth - (levels + 1))).1 (causalDepth - (levels + 1)) =
        asStep (causalSubtree sha256 levels (keySide key levels false (keysAt set (levels + 1) place))) ∧
      (stepPrefixes place key (causalDepth - (levels + 1))).2 = ownPlace key levels place := by
  obtain ⟨small, -, here⟩ := depth_facts shallow
  rw [stepPrefixes_eq small]
  have step := siblingStep_eq key cached small padded
  rw [here] at step ⊢
  exact ⟨step, rfl⟩

variable (cached : Cached sha256 set)
include cached

theorem pathFrom_eq (shallow : levels ≤ causalDepth) (padded : Padded (causalDepth - levels) place) :
    set.pathFrom sha256 key levels place = (causalSiblings sha256 key 0 levels (keysAt set levels place)).map asStep := by
  induction levels generalizing place with
  | zero => rfl
  | succ levels ih =>
    obtain ⟨step, own⟩ := stepPrefixes_level key cached shallow padded
    rw [pathFrom]
    dsimp only
    rw [step, own, ih (by omega) (ownPlace_padded key shallow padded), causalSiblings_succ, map_append, Nat.zero_add,
      keysAt_own shallow]
    rfl

theorem childEmpty_iff (shallow : levels + 1 ≤ causalDepth) (padded : Padded (causalDepth - levels) place) :
    (set.nodes[(depthU16 (causalDepth - (levels + 1) + 1), place)]?.all fun child => child.2 = 0) = true ↔
      keysAt set levels place = [] := by
  obtain ⟨-, next, -⟩ := depth_facts shallow
  have node := cached (causalDepth - levels) (Nat.sub_le _ _) place padded
  have distinct : Distinct levels (keysAt set levels place) := by
    refine ⟨(keys_nodup set.keys).filter _, ?_⟩
    intro _ oneIn _ otherIn agree
    apply key_of_prefix (mem_filter.mp oneIn).2 (mem_filter.mp otherIn).2
    intro level _
    exact agree level (by omega)
  have count := causalSubtree_count sha256 distinct
  have node' : nodeAt sha256 set.nodes (causalDepth - levels) place = causalSubtree sha256 levels (keysAt set levels place) := by
    rw [node]
    unfold prefixValue
    rw [Nat.sub_sub_self (by omega)]
    rfl
  have zero : (nodeAt sha256 set.nodes (causalDepth - levels) place).2 = 0 ↔ keysAt set levels place = [] := by
    rw [node', ← UInt64.toNat_inj, count, ← length_eq_zero_iff]
    show min _ _ = 0 ↔ _
    omega
  rw [next, ← zero]
  unfold nodeAt
  cases set.nodes[(depthU16 (causalDepth - levels), place)]? with
  | none => simp
  | some child => simp

theorem missingFrom_member (shallow : levels ≤ causalDepth)
    (padded : Padded (causalDepth - levels) place) (arrived : causalAlong key 0 levels (keysAt set levels place) ≠ []) :
    set.missingFrom sha256 key levels place = none := by
  induction levels generalizing place with
  | zero => rfl
  | succ levels ih =>
    obtain ⟨-, own⟩ := stepPrefixes_level key cached shallow padded
    have nextPadded := ownPlace_padded key shallow padded
    rw [causalAlong_succ, Nat.zero_add, keysAt_own shallow] at arrived
    rw [missingFrom]
    dsimp only
    rw [own, if_neg, ih (by omega) nextPadded arrived]
    · rfl
    · rw [childEmpty_iff cached shallow nextPadded]
      intro none
      rw [none] at arrived
      exact arrived rfl

theorem missingFrom_leaves (shallow : bottom + steps ≤ causalDepth)
    (padded : Padded (causalDepth - (bottom + steps)) place) (some : keysAt set (bottom + steps) place ≠ [])
    (gone : causalAlong key bottom steps (keysAt set (bottom + steps) place) = [])
    (last : ∀ above, steps = above + 1 → causalAlong key (bottom + 1) above (keysAt set (bottom + steps) place) ≠ []) :
    set.missingFrom sha256 key (bottom + steps) place =
      Option.some ((causalSiblings sha256 key bottom steps (keysAt set (bottom + steps) place)).map asStep,
        causalDepth - bottom) := by
  induction steps generalizing place with
  | zero =>
    have all : causalAlong key bottom 0 (keysAt set (bottom + 0) place) = keysAt set (bottom + 0) place :=
      filter_eq_self.mpr fun _ _ => rfl
    rw [all] at gone
    exact absurd gone some
  | succ steps ih =>
    have shallow' : bottom + steps + 1 ≤ causalDepth := shallow
    obtain ⟨step, own⟩ := stepPrefixes_level key cached shallow' padded
    have nextPadded := ownPlace_padded key shallow' padded
    have side : keySide key (bottom + steps) true (keysAt set (bottom + (steps + 1)) place) =
        keysAt set (bottom + steps) (ownPlace key (bottom + steps) place) := keysAt_own shallow'
    rw [causalAlong_succ, side] at gone
    rw [causalSiblings_succ, side]
    show set.missingFrom sha256 key (bottom + steps + 1) place = _
    rw [missingFrom]
    dsimp only
    rw [own, step]
    by_cases none : keysAt set (bottom + steps) (ownPlace key (bottom + steps) place) = []
    · rw [if_pos ((childEmpty_iff cached shallow' nextPadded).mpr none), none]
      cases steps with
      | zero =>
        rw [(depth_facts shallow').2.1]
        rfl
      | succ steps =>
        apply absurd _ (last (steps + 1) rfl)
        rw [causalAlong_succ, Nat.add_right_comm bottom 1 steps]
        show causalAlong key (bottom + 1) steps (keySide key (bottom + (steps + 1)) true _) = []
        rw [side, none]
        rfl
    · rw [if_neg (mt (childEmpty_iff cached shallow' nextPadded).mp none), ih (by omega) nextPadded none gone]
      · rw [map_append]
        rfl
      · rintro above rfl
        have held := last (above + 1) rfl
        rw [causalAlong_succ, Nat.add_right_comm bottom 1 above] at held
        exact side ▸ held

end CausalSet

theorem countSum_of_lt (small : a.toNat + b.toNat < 2 ^ 64) : countSum a b = a + b ∧ countSum b a = a + b := by
  have sum : min (a.toNat + b.toNat) (2 ^ 64 - 1) = a.toNat + b.toNat := by omega
  unfold countSum
  rw [Nat.add_comm b.toNat, sum, UInt64.ofNat_add, UInt64.ofNat_toNat, UInt64.ofNat_toNat]
  exact ⟨rfl, rfl⟩

theorem causalTurn_depth (positive : 0 < depth) (shallow : depth ≤ causalDepth) :
    causalTurn key (causalDepth - depth) = (causalBit key (depth - 1) != 0) := by
  unfold causalTurn
  rw [show 255 - (causalDepth - depth) = depth - 1 from by unfold causalDepth at shallow ⊢; omega]

theorem climbCausalPath_step (step : CausalProofStep) (positive : 0 < depth) (shallow : depth ≤ causalDepth)
    (small : curCount.toNat + step.count.toNat < 2 ^ 64) :
    climbCausalPath sha256 key depth curHash curCount (step :: path) = climbCausalPath sha256 key (depth - 1)
        (join (causalJoin sha256) causalTurn key (causalDepth - depth) (curHash, curCount) step.value).1
        (join (causalJoin sha256) causalTurn key (causalDepth - depth) (curHash, curCount) step.value).2 path := by
  have above : 255 - (causalDepth - depth) = depth - 1 := by
    unfold causalDepth at shallow ⊢
    omega
  obtain ⟨one, other⟩ := countSum_of_lt small
  rw [climbCausalPath, if_pos small]
  unfold join ordered
  rw [causalTurn_depth positive shallow]
  by_cases zero : causalBit key (depth - 1) = 0
  · rw [if_pos zero, if_neg (by simp [zero])]
    unfold causalJoin
    rw [above]
    show _ = climbCausalPath sha256 key (depth - 1) _ (countSum curCount step.count) path
    rw [one]
    rfl
  · rw [if_neg zero, if_pos (by simp [zero])]
    unfold causalJoin
    rw [above]
    show _ = climbCausalPath sha256 key (depth - 1) _ (countSum step.count curCount) path
    rw [other]
    rfl

theorem climbCausalPath_some (short : path.length ≤ depth) (shallow : depth ≤ causalDepth)
    (climbed : climbCausalPath sha256 key depth curHash curCount path = some top) :
    top = climb (causalJoin sha256) causalTurn key (causalDepth - depth) (curHash, curCount) (path.map value) := by
  induction path generalizing depth curHash curCount with
  | nil => exact (Option.some.inj climbed).symm
  | cons step path ih =>
    rw [length_cons] at short
    have small : curCount.toNat + step.count.toNat < 2 ^ 64 := by
      rw [climbCausalPath] at climbed
      split at climbed
      · assumption
      · cases climbed
    rw [climbCausalPath_step step (by omega) shallow small] at climbed
    rw [ih (by omega) (by omega) climbed, map_cons, climb]
    rw [show causalDepth - (depth - 1) = causalDepth - depth + 1 from by unfold causalDepth at shallow ⊢; omega]

theorem climbCausalPath_concat (step : CausalProofStep) : climbCausalPath sha256 key depth curHash curCount (path ++ [step]) =
    (climbCausalPath sha256 key depth curHash curCount path).bind fun top =>
      climbCausalPath sha256 key (depth - path.length) top.1 top.2 [step] := by
  induction path generalizing depth curHash curCount with
  | nil => rfl
  | cons first path ih =>
    rw [cons_append, climbCausalPath, climbCausalPath]
    split
    · rw [ih, length_cons, Nat.sub_sub, Nat.add_comm 1]
    · rfl

theorem climbCausalPath_honest (sha256 : Sha256) (key : Hash) (shallow : bottom + steps ≤ causalDepth) (distinct : Distinct (bottom + steps) keys)
    (fits : keys.length ≤ usizeMax) :
    climbCausalPath sha256 key (causalDepth - bottom) (causalSubtree sha256 bottom (causalAlong key bottom steps keys)).1
        (causalSubtree sha256 bottom (causalAlong key bottom steps keys)).2
        ((causalSiblings sha256 key bottom steps keys).map asStep) =
      some (causalSubtree sha256 (bottom + steps) keys) := by
  induction steps generalizing keys with
  | zero =>
    have all : causalAlong key bottom 0 keys = keys := filter_eq_self.mpr fun _ _ => rfl
    rw [all]
    rfl
  | succ steps ih =>
    have sides := keySide_length key (bottom + steps) keys
    have ownDistinct : Distinct (bottom + steps) (keySide key (bottom + steps) true keys) := Distinct.keySide distinct true
    have otherDistinct : Distinct (bottom + steps) (keySide key (bottom + steps) false keys) :=
      Distinct.keySide distinct false
    have long : ((causalSiblings sha256 key bottom steps (keySide key (bottom + steps) true keys)).map asStep).length =
        steps := by
      rw [length_map]
      exact siblings_length
    have counts : (causalSubtree sha256 (bottom + steps) (keySide key (bottom + steps) true keys)).2.toNat +
        (asStep (causalSubtree sha256 (bottom + steps) (keySide key (bottom + steps) false keys))).count.toNat < 2 ^ 64 := by
      show _ + (causalSubtree sha256 (bottom + steps) (keySide key (bottom + steps) false keys)).2.toNat < 2 ^ 64
      rw [causalSubtree_count sha256 ownDistinct, causalSubtree_count sha256 otherDistinct]
      unfold usizeMax at fits
      omega
    have level : causalDepth - (causalDepth - bottom - steps) = bottom + steps := by
      omega
    rw [causalAlong_succ, causalSiblings_succ, map_append, map_singleton, climbCausalPath_concat,
      ih (by omega) ownDistinct (by omega), Option.bind_some, long,
      climbCausalPath_step _ (by unfold causalDepth at shallow ⊢; omega) (by omega) counts, level]
    exact congrArg some (causalSubtree_join key).symm

end Rezzy.Merkle
