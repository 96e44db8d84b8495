import Rezzy.Merkle.Causal

namespace Rezzy.Merkle

open List (append_assoc append_nil foldl_cons length_append range zipIdx_cons)

inductive CompressedCausalStep where
  | step (step : CausalProofStep)
  | emptyRun (startDepth length : Nat)
deriving DecidableEq

inductive CausalProofError where
  | invalidDepth (depth : Nat)
  | pathLengthMismatch (decompressed expected : Nat)
  | truncated
  | excessData
  | runBelowRoot
  | nonContiguousRun (expectedSiblingDepth actualStart : Nat)
  | nonMaximalRun
  | nonCanonicalStep
deriving DecidableEq

variable (sha256 : Sha256)

def isEmptyStep (siblingDepth : Nat) (step : CausalProofStep) : Bool :=
  step.count = 0 ∧ siblingDepth < causalDepth + 1 ∧ step.hash = emptyTable sha256 siblingDepth

structure Compressing where
  out : List CompressedCausalStep
  runStart : Option Nat
  runLen : Nat

namespace Compressing

def flush (state : Compressing) : List CompressedCausalStep :=
  match state.runStart with
  | some start => state.out ++ [.emptyRun (depthU16 start) state.runLen]
  | none => state.out

def next (terminalDepth : Nat) (state : Compressing) (entry : CausalProofStep × Nat) : Compressing :=
  let siblingDepth := terminalDepth - entry.2
  if isEmptyStep sha256 siblingDepth entry.1 then
    match state.runStart with
    | none => { state with runStart := some siblingDepth, runLen := 1 }
    | some _ => { state with runLen := min (state.runLen + 1) (2 ^ 16 - 1) }
  else
    ⟨state.flush ++ [.step entry.1], none, if state.runStart.isSome then 0 else state.runLen⟩

end Compressing

def compressCausalPath (terminalDepth : Nat) (path : List CausalProofStep) : List CompressedCausalStep :=
  (path.zipIdx.foldl (Compressing.next sha256 terminalDepth) ⟨[], none, 0⟩).flush

def decompressStep (terminalDepth : Nat) (out : List CausalProofStep) (prevWasEmptyRun : Bool) :
    CompressedCausalStep → Except CausalProofError (List CausalProofStep × Bool)
  | .step step =>
    if terminalDepth ≤ out.length then .error .excessData
    else if isEmptyStep sha256 (terminalDepth - out.length) step then .error .nonCanonicalStep
    else .ok (out ++ [step], false)
  | .emptyRun startDepth length =>
    if prevWasEmptyRun then .error .nonMaximalRun
    else if length = 0 then .error .truncated
    else if startDepth = 0 ∨ causalDepth < startDepth then .error (.invalidDepth startDepth)
    else if startDepth < length then .error .runBelowRoot
    else if startDepth ≠ terminalDepth - out.length then
      .error (.nonContiguousRun (terminalDepth - out.length) startDepth)
    else .ok (out ++ (range length).map fun j => ⟨emptyTable sha256 (startDepth - j), 0⟩, true)

def decompressCausalPath (terminalDepth : Nat) (compressed : List CompressedCausalStep) :
    Except CausalProofError (List CausalProofStep) :=
  if causalDepth < terminalDepth then .error (.invalidDepth (depthU16 terminalDepth))
  else do
    let (out, _) ← compressed.foldlM (fun state step => decompressStep sha256 terminalDepth state.1 state.2 step) ([], false)
    if out.length ≠ terminalDepth then .error (.pathLengthMismatch out.length terminalDepth) else .ok out

def emptySteps (startDepth length : Nat) : List CausalProofStep :=
  (range length).map fun j => ⟨emptyTable sha256 (startDepth - j), 0⟩

inductive Spells : Nat → Bool → List CompressedCausalStep → List CausalProofStep → Prop where
  | nil (afterRun : Bool) : Spells 0 afterRun [] []
  | step {depth : Nat} {afterRun : Bool} {step : CausalProofStep} {compressed : List CompressedCausalStep}
      {path : List CausalProofStep} (full : isEmptyStep sha256 (depth + 1) step = false)
      (rest : Spells depth false compressed path) : Spells (depth + 1) afterRun (.step step :: compressed) (step :: path)
  | run {depth length : Nat} {compressed : List CompressedCausalStep} {path : List CausalProofStep} (some : length ≠ 0)
      (rest : Spells depth true compressed path) :
      Spells (depth + length) false (.emptyRun (depth + length) length :: compressed)
        (emptySteps sha256 (depth + length) length ++ path)

variable {sha256} {terminalDepth depth length : Nat} {path out : List CausalProofStep}
  {compressed : List CompressedCausalStep}

theorem emptySteps_length : (emptySteps sha256 depth length).length = length := by
  unfold emptySteps
  rw [List.length_map, List.length_range]

theorem emptySteps_succ : emptySteps sha256 (depth + 1) (length + 1) =
    ⟨emptyTable sha256 (depth + 1), 0⟩ :: emptySteps sha256 depth length := by
  unfold emptySteps
  rw [List.range_succ_eq_map, List.map_cons, List.map_map]
  congr 1
  apply List.map_congr_left
  intro j _
  show (⟨emptyTable sha256 (depth + 1 - (j + 1)), 0⟩ : CausalProofStep) = _
  rw [Nat.add_sub_add_right]

theorem isEmptyStep_iff (shallow : depth ≤ causalDepth) :
    isEmptyStep sha256 depth step = true ↔ step = ⟨emptyTable sha256 depth, 0⟩ := by
  obtain ⟨-, -⟩ := step
  unfold isEmptyStep
  rw [decide_eq_true_iff, CausalProofStep.mk.injEq]
  constructor
  · rintro ⟨zero, -, same⟩
    exact ⟨same, zero⟩
  · rintro ⟨same, zero⟩
    exact ⟨zero, Nat.lt_succ_of_le shallow, same⟩

theorem Spells.path_length (spells : Spells sha256 depth afterRun compressed path) : path.length = depth := by
  induction spells with
  | nil => rfl
  | step _ _ ih => rw [List.length_cons, ih]
  | run _ _ ih => rw [length_append, emptySteps_length, ih, Nat.add_comm]

section

open Compressing

theorem next_run (inside : depth ≤ terminalDepth) (shallow : depth ≤ causalDepth) (short : length ≤ depth)
    (small : count + length < 2 ^ 16) :
    ((emptySteps sha256 depth length).zipIdx (terminalDepth - depth)).foldl (next sha256 terminalDepth)
      ⟨written, some start, count⟩ = ⟨written, some start, count + length⟩ := by
  induction length generalizing depth count with
  | zero => rfl
  | succ length ih =>
    obtain ⟨below, rfl⟩ : ∃ below, depth = below + 1 := ⟨depth - 1, by omega⟩
    rw [emptySteps_succ, zipIdx_cons, foldl_cons]
    have empty : isEmptyStep sha256 (terminalDepth - (terminalDepth - (below + 1)))
        ⟨emptyTable sha256 (below + 1), 0⟩ = true := by
      rw [Nat.sub_sub_self inside]
      exact (isEmptyStep_iff shallow).mpr rfl
    have longer : next sha256 terminalDepth ⟨written, some start, count⟩
        (⟨emptyTable sha256 (below + 1), 0⟩, terminalDepth - (below + 1)) = ⟨written, some start, count + 1⟩ := by
      unfold next
      rw [if_pos empty]
      show (⟨written, some start, min (count + 1) (2 ^ 16 - 1)⟩ : Compressing) = _
      rw [Nat.min_eq_left (by omega)]
    rw [longer, show terminalDepth - (below + 1) + 1 = terminalDepth - below from by omega,
      ih (by omega) (by omega) (by omega) (by omega), Nat.add_assoc, Nat.add_comm 1]

theorem compress_spells (spells : Spells sha256 depth afterRun compressed path) (inside : depth ≤ terminalDepth)
    (shallow : terminalDepth ≤ causalDepth) :
    (∀ written count, afterRun = false →
      ((path.zipIdx (terminalDepth - depth)).foldl (next sha256 terminalDepth) ⟨written, none, count⟩).flush =
        written ++ compressed) ∧
    (∀ written start count, afterRun = true →
      ((path.zipIdx (terminalDepth - depth)).foldl (next sha256 terminalDepth) ⟨written, some start, count⟩).flush =
        written ++ .emptyRun (depthU16 start) count :: compressed) := by
  induction spells with
  | nil afterRun =>
    refine ⟨?_, ?_⟩
    · intro written count _
      exact (append_nil written).symm
    · intro written start count _
      rfl
  | @step depth afterRun step compressed path full rest ih =>
    obtain ⟨alone, -⟩ := ih (by omega)
    have index : terminalDepth - (depth + 1) + 1 = terminalDepth - depth := by omega
    have stepped (state : Compressing) : (next sha256 terminalDepth state (step, terminalDepth - (depth + 1))).out =
        state.flush ++ [.step step] ∧ (next sha256 terminalDepth state (step, terminalDepth - (depth + 1))).runStart = none := by
      unfold next
      dsimp only
      rw [Nat.sub_sub_self inside, full]
      exact ⟨rfl, rfl⟩
    have both (state : Compressing) :
        (((step :: path).zipIdx (terminalDepth - (depth + 1))).foldl (next sha256 terminalDepth) state).flush =
          state.flush ++ .step step :: compressed := by
      obtain ⟨outs, runs⟩ := stepped state
      rw [zipIdx_cons, foldl_cons, index]
      have next' : next sha256 terminalDepth state (step, terminalDepth - (depth + 1)) =
          ⟨state.flush ++ [.step step], none, (next sha256 terminalDepth state (step, terminalDepth - (depth + 1))).runLen⟩ := by
        rw [← outs, ← runs]
      rw [next', alone _ _ rfl, append_assoc]
      rfl
    refine ⟨?_, ?_⟩
    · intro written count _
      exact both _
    · intro written start count _
      rw [both]
      exact append_assoc _ _ _
  | @run depth length compressed path some rest ih =>
    obtain ⟨-, after⟩ := ih (by omega)
    refine ⟨?_, fun _ _ _ impossible => nomatch impossible⟩
    intro written count _
    obtain ⟨more, rfl⟩ : ∃ more, length = more + 1 := ⟨length - 1, by omega⟩
    have empty : isEmptyStep sha256 (terminalDepth - (terminalDepth - (depth + (more + 1))))
        ⟨emptyTable sha256 (depth + (more + 1)), 0⟩ = true := by
      rw [Nat.sub_sub_self inside]
      exact (isEmptyStep_iff (by omega)).mpr rfl
    have begun : next sha256 terminalDepth ⟨written, none, count⟩
        (⟨emptyTable sha256 (depth + (more + 1)), 0⟩, terminalDepth - (depth + (more + 1))) =
          ⟨written, Option.some (depth + (more + 1)), 1⟩ := by
      unfold next
      rw [if_pos empty, Nat.sub_sub_self inside]
    have first : emptySteps sha256 (depth + (more + 1)) (more + 1) =
        ⟨emptyTable sha256 (depth + (more + 1)), 0⟩ :: emptySteps sha256 (depth + more) more := emptySteps_succ
    unfold causalDepth at shallow
    rw [first, List.cons_append, zipIdx_cons, foldl_cons, begun, List.zipIdx_append, List.foldl_append,
      show terminalDepth - (depth + (more + 1)) + 1 = terminalDepth - (depth + more) from by omega,
      next_run (by omega) (by unfold causalDepth; omega) (by omega) (by omega), emptySteps_length,
      show terminalDepth - (depth + more) + more = terminalDepth - depth from by omega, after _ _ _ rfl, Nat.add_comm 1 more]
    unfold depthU16
    rw [if_pos (by omega)]

theorem compressCausalPath_spells (shallow : terminalDepth ≤ causalDepth)
    (spells : Spells sha256 terminalDepth false compressed path) :
    compressCausalPath sha256 terminalDepth path = compressed := by
  have written := (compress_spells spells (le_refl _) shallow).1 [] 0 rfl
  rw [Nat.sub_self] at written
  exact written

end

theorem exists_spells (sha256 : Sha256) (shallow : path.length ≤ causalDepth) : ∃ compressed, Spells sha256 path.length false compressed path := by
  induction path with
  | nil => exact ⟨[], .nil false⟩
  | cons step path ih =>
    rw [List.length_cons] at shallow ⊢
    obtain ⟨compressed, spells⟩ := ih (by omega)
    by_cases empty : isEmptyStep sha256 (path.length + 1) step = true
    · obtain rfl := (isEmptyStep_iff shallow).mp empty
      generalize path.length = depth at spells
      have lone (rest : Spells sha256 depth true compressed path) :
          Spells sha256 (depth + 1) false (.emptyRun (depth + 1) 1 :: compressed)
            (⟨emptyTable sha256 (depth + 1), 0⟩ :: path) := .run Nat.one_ne_zero rest
      cases spells with
      | nil => exact ⟨_, lone (.nil true)⟩
      | step full rest => exact ⟨_, lone (.step full rest)⟩
      | @run depth length compressed path some rest =>
        have merged := Spells.run (Nat.succ_ne_zero length) rest
        rw [show depth + (length + 1) = depth + length + 1 from rfl, emptySteps_succ] at merged
        exact ⟨_, merged⟩
    · exact ⟨_, .step (Bool.not_eq_true _ ▸ empty) spells⟩

section

open Outcome

def decompressAll (sha256 : Sha256) (terminalDepth : Nat) (state : List CausalProofStep × Bool)
    (compressed : List CompressedCausalStep) : Except CausalProofError (List CausalProofStep × Bool) :=
  compressed.foldlM (fun state step => decompressStep sha256 terminalDepth state.1 state.2 step) state

theorem decompressAll_cons : decompressAll sha256 terminalDepth (out, afterRun) (first :: compressed) = .ok final ↔
      ∃ next, decompressStep sha256 terminalDepth out afterRun first = .ok next ∧
        decompressAll sha256 terminalDepth next compressed = .ok final := by
  unfold decompressAll
  rw [List.foldlM_cons]
  exact bind_eq_ok

theorem decompressStep_step : decompressStep sha256 terminalDepth out afterRun (.step step) = .ok next ↔
      out.length < terminalDepth ∧ isEmptyStep sha256 (terminalDepth - out.length) step = false ∧
        next = (out ++ [step], false) := by
  rw [decompressStep]
  split
  · rename_i full
    constructor
    · exact fun impossible => nomatch impossible
    · exact fun ⟨room, _⟩ => absurd full (by omega)
  · rename_i room
    split
    · rename_i empty
      constructor
      · exact fun impossible => nomatch impossible
      · exact fun ⟨_, full, _⟩ => absurd (empty.symm.trans full) Bool.noConfusion
    · rename_i full
      rw [Except.ok.injEq, eq_comm]
      constructor
      · exact fun same => ⟨Nat.lt_of_not_le room, Bool.not_eq_true _ ▸ full, same⟩
      · exact fun ⟨_, _, same⟩ => same

theorem decompressStep_run : decompressStep sha256 terminalDepth out afterRun (.emptyRun start length) = .ok next ↔
      afterRun = false ∧ length ≠ 0 ∧ start ≤ causalDepth ∧ length ≤ start ∧ start = terminalDepth - out.length ∧
        next = (out ++ emptySteps sha256 start length, true) := by
  rw [decompressStep]
  constructor
  · intro accepted
    split at accepted
    · cases accepted
    rename_i first
    split at accepted
    · cases accepted
    rename_i some
    split at accepted
    · cases accepted
    rename_i deep
    split at accepted
    · cases accepted
    rename_i fits
    split at accepted
    · cases accepted
    rename_i here
    rw [not_not] at here
    exact ⟨Bool.not_eq_true _ ▸ first, some, by omega, by omega, here, (Except.ok.inj accepted).symm⟩
  · rintro ⟨rfl, some, shallow, fits, here, rfl⟩
    rw [if_neg Bool.false_ne_true, if_neg some, if_neg (by omega), if_neg (by omega), if_neg (not_not.mpr here)]
    rfl

theorem spells_of_decompress (room : out.length ≤ terminalDepth)
    (accepted : decompressAll sha256 terminalDepth (out, afterRun) compressed = .ok final)
    (whole : final.1.length = terminalDepth) :
    ∃ path, final.1 = out ++ path ∧ Spells sha256 (terminalDepth - out.length) afterRun compressed path := by
  induction compressed generalizing out afterRun with
  | nil =>
    obtain rfl := Except.ok.inj accepted
    have depth : terminalDepth - out.length = 0 := by
      rw [show out.length = terminalDepth from whole, Nat.sub_self]
    exact ⟨[], (append_nil out).symm, depth ▸ .nil afterRun⟩
  | cons first compressed ih =>
    obtain ⟨next, made, rest⟩ := decompressAll_cons.mp accepted
    cases first with
    | step step =>
      obtain ⟨below, full, rfl⟩ := decompressStep_step.mp made
      have long : (out ++ [step]).length = out.length + 1 := length_append
      obtain ⟨path, written, spells⟩ := ih (by omega) rest
      have depth : terminalDepth - out.length = terminalDepth - (out ++ [step]).length + 1 := by omega
      refine ⟨step :: path, ?_, ?_⟩
      · rw [written, append_assoc]
        rfl
      · rw [depth] at full ⊢
        exact .step full spells
    | emptyRun start length =>
      obtain ⟨rfl, some, -, fits, here, rfl⟩ := decompressStep_run.mp made
      have long : (out ++ emptySteps sha256 start length).length = out.length + length := by
        rw [length_append, emptySteps_length]
      obtain ⟨path, written, spells⟩ := ih (by omega) rest
      have depth : start = terminalDepth - (out ++ emptySteps sha256 start length).length + length := by omega
      refine ⟨emptySteps sha256 start length ++ path, ?_, ?_⟩
      · rw [written, append_assoc]
      · rw [← here]
        generalize terminalDepth - (out ++ emptySteps sha256 start length).length = left at spells depth
        subst depth
        exact .run some spells

theorem decompress_of_spells (shallow : terminalDepth ≤ causalDepth)
    (spells : Spells sha256 depth afterRun compressed path) (here : out.length + depth = terminalDepth) :
    ∃ ended, decompressAll sha256 terminalDepth (out, afterRun) compressed = .ok (out ++ path, ended) := by
  induction spells generalizing out with
  | nil afterRun => exact ⟨afterRun, congrArg Except.ok (Prod.ext (append_nil out).symm rfl)⟩
  | @step depth afterRun step compressed path full rest ih =>
    have long : (out ++ [step]).length + depth = terminalDepth := by
      rw [length_append, List.length_singleton]
      omega
    obtain ⟨ended, accepted⟩ := ih long
    refine ⟨ended, decompressAll_cons.mpr ⟨(out ++ [step], false), ?_, ?_⟩⟩
    · have place : terminalDepth - out.length = depth + 1 := by omega
      exact decompressStep_step.mpr ⟨by omega, place ▸ full, rfl⟩
    · rw [accepted, append_assoc]
      rfl
  | @run depth length compressed path some rest ih =>
    have long : (out ++ emptySteps sha256 (depth + length) length).length + depth = terminalDepth := by
      rw [length_append, emptySteps_length]
      omega
    obtain ⟨ended, accepted⟩ := ih long
    refine ⟨ended, decompressAll_cons.mpr ⟨(out ++ emptySteps sha256 (depth + length) length, true), ?_, ?_⟩⟩
    · exact decompressStep_run.mpr ⟨rfl, some, by omega, by omega, by omega, rfl⟩
    · rw [accepted, append_assoc]

theorem decompressCausalPath_iff : decompressCausalPath sha256 terminalDepth compressed = .ok path ↔
    terminalDepth ≤ causalDepth ∧ Spells sha256 terminalDepth false compressed path := by
  have unfolded : decompressCausalPath sha256 terminalDepth compressed =
      if causalDepth < terminalDepth then .error (.invalidDepth (depthU16 terminalDepth))
      else decompressAll sha256 terminalDepth ([], false) compressed >>= fun final =>
        if final.1.length ≠ terminalDepth then .error (.pathLengthMismatch final.1.length terminalDepth)
        else .ok final.1 := rfl
  rw [unfolded]
  split
  · rename_i deep
    constructor
    · exact fun impossible => nomatch impossible
    · exact fun ⟨shallow, _⟩ => absurd deep (by omega)
  · rename_i shallow
    rw [not_lt] at shallow
    constructor
    · intro accepted
      obtain ⟨final, ran, checked⟩ := bind_eq_ok.mp accepted
      split at checked
      · cases checked
      · rename_i whole
        rw [not_not] at whole
        obtain rfl := Except.ok.inj checked
        obtain ⟨path, written, spells⟩ := spells_of_decompress (Nat.zero_le _) ran whole
        rw [List.nil_append] at written
        exact ⟨shallow, written ▸ spells⟩
    · rintro ⟨_, spells⟩
      have start : ([] : List CausalProofStep).length + terminalDepth = terminalDepth := Nat.zero_add _
      obtain ⟨ended, ran⟩ := decompress_of_spells shallow spells start
      refine bind_eq_ok.mpr ⟨([] ++ path, ended), ran, ?_⟩
      exact if_neg (not_not.mpr spells.path_length)

end

/-- A path of each depth has one compressed form, from which it comes back and which is the only one accepted for it. -/
theorem compressed_canonical (sha256 : Sha256) (terminalDepth : Nat) :
    (∀ path : List CausalProofStep, terminalDepth ≤ causalDepth → path.length = terminalDepth →
      decompressCausalPath sha256 terminalDepth (compressCausalPath sha256 terminalDepth path) = .ok path) ∧
    (∀ compressed path, decompressCausalPath sha256 terminalDepth compressed = .ok path →
      path.length = terminalDepth ∧ compressCausalPath sha256 terminalDepth path = compressed) ∧
    (∀ one other path, decompressCausalPath sha256 terminalDepth one = .ok path →
      decompressCausalPath sha256 terminalDepth other = .ok path → one = other) := by
  refine ⟨?_, ?_, ?_⟩
  · rintro path shallow rfl
    obtain ⟨compressed, spells⟩ := exists_spells sha256 shallow
    rw [compressCausalPath_spells shallow spells]
    exact decompressCausalPath_iff.mpr ⟨shallow, spells⟩
  · intro compressed path accepted
    obtain ⟨shallow, spells⟩ := decompressCausalPath_iff.mp accepted
    exact ⟨spells.path_length, compressCausalPath_spells shallow spells⟩
  · intro one other path oneAccepted otherAccepted
    obtain ⟨shallow, oneSpells⟩ := decompressCausalPath_iff.mp oneAccepted
    obtain ⟨-, otherSpells⟩ := decompressCausalPath_iff.mp otherAccepted
    rw [← compressCausalPath_spells shallow oneSpells, compressCausalPath_spells shallow otherSpells]

theorem compressed_canonical_pair :
    decompressCausalPath (fun _ => zeroPrefix) 2 (compressCausalPath (fun _ => zeroPrefix) 2
      [⟨zeroPrefix, 0⟩, ⟨zeroPrefix, 1⟩]) = .ok [⟨zeroPrefix, 0⟩, ⟨zeroPrefix, 1⟩] ∧
    compressCausalPath (fun _ => zeroPrefix) 2 [⟨zeroPrefix, 0⟩, ⟨zeroPrefix, 1⟩] =
      [.emptyRun 2 1, .step ⟨zeroPrefix, 1⟩] := by
  obtain ⟨back, only, -⟩ := compressed_canonical (fun _ => zeroPrefix) 2
  have accepted : decompressCausalPath (fun _ => zeroPrefix) 2 [.emptyRun 2 1, .step ⟨zeroPrefix, 1⟩] =
      .ok [⟨zeroPrefix, 0⟩, ⟨zeroPrefix, 1⟩] := by
    decide
  exact ⟨back _ (by decide) rfl, (only _ _ accepted).2⟩

end Rezzy.Merkle
