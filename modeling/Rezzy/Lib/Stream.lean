import Mathlib.Data.List.Basic

namespace Stream

variable {α β ι κ κ' δ δ' σ ε E : Type}

inductive Both (related : α → β → Prop) : Except ε α → Except ε β → Prop where
  | ok {a : α} {b : β} (same : related a b) : Both related (.ok a) (.ok b)
  | error (reason : ε) : Both related (.error reason) (.error reason)

theorem Both.mono {related other : α → β → Prop} (both : Both related left right)
    (weaker : ∀ a b, related a b → other a b) : Both other left right := by
  cases both with
  | ok same => exact .ok (weaker _ _ same)
  | error reason => exact .error reason

theorem Both.elim {related : α → β → Prop} (both : Both related left right) :
    (∃ a b, left = .ok a ∧ right = .ok b ∧ related a b) ∨ ∃ reason, left = .error reason ∧ right = .error reason := by
  cases both with
  | ok same => exact .inl ⟨_, _, rfl, rfl, same⟩
  | error reason => exact .inr ⟨reason, rfl, rfl⟩

inductive Halt (ε E : Type) where
  | broke (reason : ε)
  | refused (reason : E)
deriving DecidableEq

def feed (step : κ → ι → Except ε (κ × δ)) (take : σ → δ → Except E σ) :
    κ → σ → List ι → Except (Halt ε E) σ
  | _, s, [] => .ok s
  | k, s, item :: items =>
    match step k item with
    | .error reason => .error (.broke reason)
    | .ok turned =>
      match take s turned.2 with
      | .error reason => .error (.refused reason)
      | .ok taken => feed step take turned.1 taken items

def stream (step : κ → ι → Except ε (κ × δ)) : κ → List ι → List δ × Option ε
  | _, [] => ([], none)
  | k, item :: items =>
    match step k item with
    | .error reason => ([], some reason)
    | .ok turned =>
      let rest := stream step turned.1 items
      (turned.2 :: rest.1, rest.2)

def replay (take : σ → δ → Except E σ) (ended : Option ε) : σ → List δ → Except (Halt ε E) σ
  | s, [] =>
    match ended with
    | none => .ok s
    | some reason => .error (.broke reason)
  | s, handed :: rest =>
    match take s handed with
    | .error reason => .error (.refused reason)
    | .ok taken => replay take ended taken rest

theorem feed_eq_replay (step : κ → ι → Except ε (κ × δ)) (take : σ → δ → Except E σ) (k : κ) (s : σ) (items : List ι) :
    feed step take k s items = replay take (stream step k items).2 s (stream step k items).1 := by
  induction items generalizing k s with
  | nil => rfl
  | cons item items ih =>
    unfold feed stream
    cases turn : step k item with
    | error reason => rfl
    | ok turned =>
      dsimp only
      unfold replay
      cases take s turned.2 with
      | error reason => rfl
      | ok taken => exact ih turned.1 taken

theorem replay_filterMap {γ : Type} {take : σ → δ → Except E σ} {takeKept : σ → γ → Except E σ} (select : δ → Option γ)
    (passes : ∀ s handed, take s handed = match select handed with
      | none => .ok s
      | some kept => takeKept s kept)
    (ended : Option ε) (s : σ) (handed : List δ) :
    replay take ended s handed = replay takeKept ended s (handed.filterMap select) := by
  induction handed generalizing s with
  | nil => rfl
  | cons value handed ih =>
    rw [replay, passes]
    cases chosen : select value with
    | none => rw [List.filterMap_cons_none chosen, ← ih]
    | some kept =>
      rw [List.filterMap_cons_some chosen, replay]
      dsimp only
      cases takeKept s kept with
      | error reason => rfl
      | ok taken => exact ih taken

theorem replay_ok (gather : σ → δ → σ) (ended : Option ε) (s : σ) (handed : List δ) :
    replay (fun s value => (.ok (gather s value) : Except E σ)) ended s handed = match ended with
      | none => .ok (handed.foldl gather s)
      | some reason => .error (.broke reason) := by
  induction handed generalizing s with
  | nil => rfl
  | cons value handed ih => exact ih (gather s value)

variable {step : κ → ι → Except ε (κ × δ)} {other : κ' → ι → Except ε (κ' × δ')}

section

variable (inv : List δ → List δ' → List ι → κ → κ' → Prop)
  (keeps : ∀ handed handed' item items k k', inv handed handed' (item :: items) k k' →
    Both (fun left right => inv (handed ++ [left.2]) (handed' ++ [right.2]) items left.1 right.1)
      (step k item) (other k' item)) (items : List ι)
include keeps

theorem stream_both_from (start : inv handed handed' items k k') : (stream step k items).2 = (stream other k' items).2 ∧
      ∃ left last last', inv (handed ++ (stream step k items).1) (handed' ++ (stream other k' items).1)
        left last last' ∧ ((stream step k items).2 = none → left = []) := by
  induction items generalizing handed handed' k k' with
  | nil => exact ⟨rfl, [], k, k', by simpa [stream] using start, fun _ => rfl⟩
  | cons item items ih =>
    unfold stream
    rcases (keeps handed handed' item items k k' start).elim with
      ⟨turned, turned', left, right, same⟩ | ⟨reason, left, right⟩
    · rw [left, right]
      obtain ⟨ended, rest, last, last', final, all⟩ := ih same
      exact ⟨ended, rest, last, last', by simpa using final, all⟩
    · rw [left, right]
      exact ⟨rfl, item :: items, k, k', by simpa using start, fun ended => (by cases ended)⟩

theorem stream_both (start : inv [] [] items k k') : (stream step k items).2 = (stream other k' items).2 ∧
      ∃ left last last', inv (stream step k items).1 (stream other k' items).1 left last last' ∧
        ((stream step k items).2 = none → left = []) := stream_both_from inv keeps items start

end

variable (inv : List δ → List ι → κ → Prop) (fails : ε → Prop)
  (keeps : ∀ handed item items k turned, inv handed (item :: items) k → step k item = .ok turned →
    inv (handed ++ [turned.2]) items turned.1)
  (broken : ∀ handed item items k reason, inv handed (item :: items) k → step k item = .error reason →
    fails reason) (items : List ι)
include keeps broken

theorem stream_invariant_from (start : inv handed items k) :
    ∃ left last, inv (handed ++ (stream step k items).1) left last ∧ ((stream step k items).2 = none → left = []) ∧
        ∀ reason, (stream step k items).2 = some reason → fails reason := by
  induction items generalizing handed k with
  | nil => exact ⟨[], k, by simpa [stream] using start, fun _ => rfl, fun reason ended => (by cases ended)⟩
  | cons item items ih =>
    unfold stream
    cases turn : step k item with
    | error reason =>
      refine ⟨item :: items, k, by simpa using start, fun ended => (by cases ended), fun other ended => ?_⟩
      rw [← Option.some.inj ended]
      exact broken handed item items k reason start turn
    | ok turned =>
      obtain ⟨left, last, final, ended⟩ := ih (keeps handed item items k turned start turn)
      exact ⟨left, last, by simpa using final, ended⟩

theorem stream_invariant (start : inv [] items k) :
    ∃ left last, inv (stream step k items).1 left last ∧ ((stream step k items).2 = none → left = []) ∧
      ∀ reason, (stream step k items).2 = some reason → fails reason :=
  stream_invariant_from inv fails keeps broken items start

end Stream
