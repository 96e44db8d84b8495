import Mathlib.Data.Set.Function
import Rezzy.Hamt.Remove

namespace Rezzy.Hamt

open Packed Outcome Except Function

variable {K V H E F : Type} {hasher : Hasher K V H} {keyHash : K → KeyPathHash} {resolver : Resolver K V H E}

section

theorem packed_empty : (rebuildNode hasher 0 0 [] []).Packed hasher (fun _ => none) (fun _ => none) where
  leaves := .empty
  children := .empty
  hash := rfl

theorem holds_nil (levels : Nat) :
    Holds hasher keyHash resolver (levels + 1) (rebuildNode hasher 0 0 [] []) ([] : List (K × V)) :=
  ⟨_, _, packed_empty, fun _ _ => .empty⟩

theorem holds_single (levels : Nat) (entry : K × V) : Holds hasher keyHash resolver (levels + 1)
      (rebuildNode hasher (slotBit (route keyHash (depthOf (levels + 1)) entry.1)) 0 [entry] []) [entry] := by
  have inside := route_lt keyHash (depthOf (levels + 1)) entry.1
  have packed := (@packed_empty K V H hasher).add_leaf inside rfl rfl entry
  have same : rebuildNode hasher (0 ||| slotBit (route keyHash (depthOf (levels + 1)) entry.1)) 0 [entry] [] =
      rebuildNode hasher (slotBit (route keyHash (depthOf (levels + 1)) entry.1)) 0 [entry] [] := by
    rw [show (0 : BitVec 32) = 0#32 from rfl, BitVec.zero_or]
  have index : mapIndex 0 (route keyHash (depthOf (levels + 1)) entry.1) = 0 :=
    (packs_mapIndex (Packs.empty : Packs (0 : BitVec 32) ([] : List (K × V)) _) inside).trans (by simp [rank, items])
  rw [show (rebuildNode hasher 0 0 [] []).datamap = (0 : BitVec 32) from rfl, index] at packed
  refine ⟨_, _, same ▸ packed, fun slot _ => ?_⟩
  by_cases own : slot = route keyHash (depthOf (levels + 1)) entry.1
  · rw [own, update_self, update_self, bucket, List.filter_cons_of_pos (by simp)]
    exact .leaf entry
  · rw [update_of_ne own, update_of_ne own, bucket, List.filter_cons_of_neg (by simpa using Ne.symm own)]
    exact .empty

variable [DecidableEq K]

def MutatesRoot (hasher : Hasher K V H) (keyHash : K → KeyPathHash) (resolver : Resolver K V H E)
    (root : HamtNode K V H) (entries : List (K × V)) (key : K) (value : Option V) : Prop :=
  ∃ result, mutate hasher keyHash resolver root key value = .ok result ∧
    Holds hasher keyHash resolver hamtMaxDepth result.node (assign entries key value) ∧
    result.displaced = entries.lookup key ∧ Grafts resolver root result.node result.emitted

theorem removeSpine_holds (holds : Holds hasher keyHash resolver hamtMaxDepth root entries) (key : K) :
    MutatesRoot hasher keyHash resolver root entries key none := by
  obtain ⟨removed, run, displaced, absent, present⟩ := removeNodeWithCtx_holds holds (Nat.le_refl _)
  refine ⟨finalizeRemoveRoot hasher (fun leafKey => bucketIndex (keyHash leafKey) 0) removed, ?_, ?_⟩
  · show removeSpine hasher keyHash resolver root key = _
    rw [removeSpine, run]
    rfl
  rw [assign_none]
  obtain ⟨outcome, old, emitted⟩ := removed
  by_cases gone : old = none
  · obtain ⟨rfl, rfl⟩ := absent gone
    have missing : without entries key = entries := without_absent (lookup_eq_none.mp (displaced.symm.trans gone))
    rw [missing]
    exact ⟨holds, displaced, .unchanged root⟩
  · obtain ⟨outcomeHolds, grafts⟩ := present gone
    cases outcome with
    | empty =>
      obtain rfl : emitted = [] := grafts
      rw [show without entries key = [] from outcomeHolds]
      exact ⟨holds_nil _, displaced, .own fun ref mem => by cases mem⟩
    | leaf last value =>
      obtain rfl : emitted = [] := grafts
      rw [show without entries key = [(last, value)] from outcomeHolds]
      exact ⟨holds_single _ (last, value), displaced, .own fun ref mem => by cases mem⟩
    | node newRoot => exact ⟨outcomeHolds.2, displaced, grafts⟩

theorem mutate_holds (holds : Holds hasher keyHash resolver hamtMaxDepth root entries)
    (spread : Spread keyHash hamtMaxDepth entries) (fits : Spread keyHash hamtMaxDepth (assign entries key value)) :
    MutatesRoot hasher keyHash resolver root entries key value := by
  cases value with
  | none => exact removeSpine_holds holds key
  | some value => exact insertNode_holds holds spread fits

end

theorem splitLeaf_within
    (run : (splitLeaf hasher keyHash levels node slot existing entry : Except (HamtMutateError E) _) = .ok result) :
    (splitLeaf hasher keyHash levels node slot existing entry : Except (HamtMutateError F) _) = .ok result := by
  unfold splitLeaf at run ⊢
  split at run
  · cases run
  · exact congrArg ok (ok.inj run)

variable {small : Resolver K V H E} {large : Resolver K V H F} (within : small.Within large)

include within

theorem resolveForMutation_within (run : resolveForMutation small ref = .ok child) :
    resolveForMutation large ref = .ok child := by
  unfold resolveForMutation at run ⊢
  cases found : resolveChildRef small ref with
  | error error =>
    rw [found] at run
    cases run
  | ok own =>
    rw [found] at run
    rw [within.resolveChildRef found]
    exact congrArg ok (ok.inj run)

variable [DecidableEq K]

theorem insertNode_within (run : insertNode hasher keyHash small key value levels node = .ok result) :
    insertNode hasher keyHash large key value levels node = .ok result := by
  induction levels generalizing node result with
  | zero => cases run
  | succ levels ih =>
    rw [insertNode] at run ⊢
    dsimp only at run ⊢
    split at run
    · rename_i taken
      rw [if_pos taken]
      split at run
      · cases run
      · split at run
        · rename_i same
          rw [if_pos same]
          exact congrArg ok (ok.inj run)
        · rename_i other
          rw [if_neg other]
          exact splitLeaf_within run
    · rename_i leaf
      rw [if_neg leaf]
      split at run
      · rename_i taken
        rw [if_pos taken]
        split at run
        · cases run
        · obtain ⟨child, resolves, rest⟩ := bind_eq_ok.mp run
          obtain ⟨inner, step, last⟩ := bind_eq_ok.mp rest
          rw [resolveForMutation_within within resolves]
          show (insertNode hasher keyHash large key value levels child >>= _) = _
          rw [ih step]
          exact congrArg ok (ok.inj last)
      · rename_i free
        rw [if_neg free]
        exact congrArg ok (ok.inj run)

theorem removeNodeWithCtx_within (run : removeNodeWithCtx hasher small key pathHash levels node = .ok result) :
    removeNodeWithCtx hasher large key pathHash levels node = .ok result := by
  induction levels generalizing node result with
  | zero => cases run
  | succ levels ih =>
    rw [removeNodeWithCtx] at run ⊢
    dsimp only at run ⊢
    split at run
    · rename_i taken
      rw [if_pos taken]
      split at run
      · cases run
      · split at run
        · rename_i other
          rw [if_pos other]
          exact congrArg ok (ok.inj run)
        · rename_i same
          rw [if_neg same]
          exact congrArg ok (ok.inj run)
    · rename_i leaf
      rw [if_neg leaf]
      split at run
      · rename_i free
        rw [if_pos free]
        exact congrArg ok (ok.inj run)
      · rename_i taken
        rw [if_neg taken]
        split at run
        · cases run
        · obtain ⟨child, resolves, rest⟩ := bind_eq_ok.mp run
          rw [resolveForMutation_within within resolves]
          split at rest
          · cases rest
          · rename_i room
            show (if _ then _ else _) = _
            rw [if_neg room]
            obtain ⟨inner, step, last⟩ := bind_eq_ok.mp rest
            rw [ih step]
            split at last
            · rename_i gone
              exact (if_pos gone).trans (congrArg ok (ok.inj last))
            · rename_i kept
              exact (if_neg kept).trans (congrArg ok (ok.inj last))

theorem mutate_within (run : mutate hasher keyHash small root key value = .ok result) :
    mutate hasher keyHash large root key value = .ok result := by
  cases value with
  | some value => exact insertNode_within within run
  | none =>
    obtain ⟨removed, step, last⟩ := bind_eq_ok.mp run
    show (removeNodeWithCtx hasher large key (keyHash key) hamtMaxDepth root >>= _) = _
    rw [removeNodeWithCtx_within within step]
    exact congrArg ok (ok.inj last)

end Rezzy.Hamt
