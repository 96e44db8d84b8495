import Mathlib
import Rezzy.Lib.Loop

namespace Scan

open List Outcome

variable {σ ε κ α β : Type}

abbrev Scanner (ε κ σ : Type) := κ → List σ → Except ε (κ × List σ)

def Blank (blank : σ → Bool) (w : List σ) : Prop := ∀ x ∈ w, blank x = true

theorem Blank.nil : Blank blank [] := fun _ mem => nomatch mem

theorem Blank.append (left : Blank blank v) (right : Blank blank w) : Blank blank (v ++ w) := by
  intro x mem
  rcases mem_append.mp mem with mem | mem
  · exact left x mem
  · exact right x mem

theorem blank_takeWhile (blank : σ → Bool) (s : List σ) : Blank blank (s.takeWhile blank) :=
  fun _ mem => mem_takeWhile_imp mem

theorem dropWhile_split (blank : σ → Bool) (s : List σ) : ∃ w, s = w ++ s.dropWhile blank ∧ Blank blank w :=
  ⟨s.takeWhile blank, takeWhile_append_dropWhile.symm, blank_takeWhile blank s⟩

theorem Blank.dropWhile (skipped : Blank blank w) (s : List σ) : (w ++ s).dropWhile blank = s.dropWhile blank :=
  dropWhile_append_of_pos skipped

theorem Blank.dropWhile_cons (skipped : Blank blank w) (solid : blank x = false) (s : List σ) :
    (w ++ x :: s).dropWhile blank = x :: s := by
  rw [skipped.dropWhile, dropWhile_cons_of_neg (by simp [solid])]

theorem dropWhile_stops (plain : σ → Bool) (s : List σ) : ∀ x ∈ (s.dropWhile plain).head?, plain x = false := by
  intro _ first
  have := head?_dropWhile_not plain s
  rw [Option.mem_def.mp first] at this
  exact this

section

variable {plain : σ → Bool} {run rest : List σ} (all : Blank plain run) (stops : ∀ x ∈ rest.head?, plain x = false)
include all stops

theorem Blank.takeWhile : (run ++ rest).takeWhile plain = run := by
  rw [takeWhile_append_of_pos all]
  cases rest with
  | nil => exact append_nil run
  | cons x rest => rw [takeWhile_cons_of_neg (by simp [stops x rfl]), append_nil]

theorem Blank.dropWhile_run : (run ++ rest).dropWhile plain = rest := by
  rw [all.dropWhile]
  cases rest with
  | nil => rfl
  | cons x rest => exact dropWhile_cons_of_neg (by simp [stops x rfl])

end

theorem related_of_mem {R : α → β → Prop} (all : List.Forall₂ R as bs) (mem : a ∈ as) : ∃ b, R a b := by
  induction all with
  | nil => cases mem
  | cons first _ ih =>
    rcases mem_cons.mp mem with rfl | mem
    · exact ⟨_, first⟩
    · exact ih mem

theorem exists_related {R : α → β → Prop} (each : ∀ a ∈ as, ∃ b, R a b) : ∃ bs, List.Forall₂ R as bs := by
  induction as with
  | nil => exact ⟨[], .nil⟩
  | cons a as ih =>
    obtain ⟨b, first⟩ := each a mem_cons_self
    obtain ⟨bs, rest⟩ := ih fun x mem => each x (mem_cons_of_mem _ mem)
    exact ⟨b :: bs, .cons first rest⟩

inductive Separated (blank : σ → Bool) (sep : σ) (P : α → List σ → Prop) : List α → List σ → Prop
  | last {a : α} {b w : List σ} (item : P a b) (behind : Blank blank w) : Separated blank sep P [a] (b ++ w)
  | link {a : α} {as : List α} {b w rest : List σ} (item : P a b) (behind : Blank blank w)
    (more : Separated blank sep P as rest) : Separated blank sep P (a :: as) (b ++ (w ++ sep :: rest))

section

variable {P : α → List σ → Prop}

theorem Separated.lift {Q : β → List σ → Prop} {related : α → β → Prop} (spelled : Separated blank sep P as b)
    (lifts : ∀ a b, P a b → ∃ c, Q c b ∧ related a c) :
    ∃ cs, Separated blank sep Q cs b ∧ List.Forall₂ related as cs := by
  induction spelled with
  | last item behind =>
    obtain ⟨c, other, match_⟩ := lifts _ _ item
    exact ⟨[c], .last other behind, .cons match_ .nil⟩
  | link item behind _ ih =>
    obtain ⟨c, other, match_⟩ := lifts _ _ item
    obtain ⟨cs, more, matches_⟩ := ih
    exact ⟨c :: cs, .link other behind more, .cons match_ matches_⟩

theorem Separated.imp {Q : α → List σ → Prop} (spelled : Separated blank sep P as b)
    (weaker : ∀ a b, P a b → Q a b) : Separated blank sep Q as b := by
  induction spelled with
  | last item behind => exact .last (weaker _ _ item) behind
  | link item behind _ ih => exact .link (weaker _ _ item) behind ih

theorem Separated.reblank {Q : α → List σ → Prop} (spelled : Separated blank sep P as b)
    (weaker : ∀ a part, P a part → (∀ x ∈ part, x ∈ b) → Q a part) (agrees : ∀ x ∈ b, blank x = true → other x = true) :
    Separated other sep Q as b := by
  induction spelled with
  | last item behind =>
    refine .last (weaker _ _ item fun x mem => mem_append_left _ mem) ?_
    exact fun x mem => agrees x (mem_append_right _ mem) (behind x mem)
  | @link a as b w rest item behind _ ih =>
    have inside : ∀ x ∈ rest, x ∈ b ++ (w ++ sep :: rest) := by
      intro x mem
      simp [mem]
    refine .link (weaker _ _ item fun x mem => mem_append_left _ mem) ?_ ?_
    · intro x mem
      exact agrees x (by simp [mem]) (behind x mem)
    · exact ih (fun a part item within => weaker a part item fun x mem => inside x (within x mem))
        fun x mem => agrees x (inside x mem)

theorem Separated.all {good : σ → Prop} (spelled : Separated blank sep P as b)
    (items : ∀ a part, P a part → ∀ x ∈ part, good x) (blanks : ∀ x, blank x = true → good x) (mark : good sep) :
    ∀ x ∈ b, good x := by
  induction spelled with
  | last item behind =>
    intro x mem
    rcases mem_append.mp mem with mem | mem
    · exact items _ _ item x mem
    · exact blanks x (behind x mem)
  | link item behind _ ih =>
    intro x mem
    rcases mem_append.mp mem with mem | mem
    · exact items _ _ item x mem
    · rcases mem_append.mp mem with mem | mem
      · exact blanks x (behind x mem)
      · rcases mem_cons.mp mem with rfl | mem
        · exact mark
        · exact ih x mem

theorem Separated.before (spelled : Separated blank sep P as b) (absorbs : ∀ a part, P a part → P a (w ++ part)) :
    Separated blank sep P as (w ++ b) := by
  cases spelled with
  | last item behind =>
    rw [← append_assoc]
    exact .last (absorbs _ _ item) behind
  | link item behind more =>
    rw [← append_assoc]
    exact .link (absorbs _ _ item) behind more

theorem Separated.trim {good : σ → Prop} (spelled : Separated blank sep P as b)
    (leads : ∀ a part, P a part → ∃ w x rest, part = w ++ x :: rest ∧ Blank blank w ∧ good x ∧ P a (x :: rest)) :
    ∃ w x rest, b = w ++ x :: rest ∧ Blank blank w ∧ good x ∧ Separated blank sep P as (x :: rest) := by
  cases spelled with
  | last item behind =>
    obtain ⟨w, x, rest, rfl, blanks, first, item⟩ := leads _ _ item
    exact ⟨w, x, _, append_assoc _ _ _, blanks, first, .last item behind⟩
  | link item behind more =>
    obtain ⟨w, x, rest, rfl, blanks, first, item⟩ := leads _ _ item
    exact ⟨w, x, _, append_assoc _ _ _, blanks, first, .link item behind more⟩

theorem Separated.length_le (spelled : Separated blank sep P as b) (some_ : ∀ a part, P a part → part ≠ []) :
    as.length ≤ b.length := by
  induction spelled with
  | last item _ =>
    have := length_pos_iff.mpr (some_ _ _ item)
    simp only [length_singleton, length_append]
    omega
  | link item _ _ ih =>
    simp only [length_cons, length_append]
    omega

theorem Separated.part (spelled : Separated blank sep P as b) (mem : a ∈ as) :
    ∃ part, P a part ∧ part.length ≤ b.length := by
  induction spelled with
  | last item _ =>
    obtain rfl := mem_singleton.mp mem
    exact ⟨_, item, by simp⟩
  | link item _ _ ih =>
    rcases mem_cons.mp mem with rfl | mem
    · exact ⟨_, item, by simp⟩
    · obtain ⟨part, item, length⟩ := ih mem
      refine ⟨part, item, ?_⟩
      simp only [length_append, length_cons]
      omega

end

def separated (blank : σ → Bool) [DecidableEq σ] (sep close : σ) (fault : ε) (item : Scanner ε κ σ) :
    Nat → Scanner ε κ σ
  | 0, _, _ => .error fault
  | fuel + 1, k, s => do
    let (k, s) ← item k s
    match s.dropWhile blank with
    | [] => .error fault
    | x :: s =>
      if x = sep then separated blank sep close fault item fuel k s
      else if x = close then .ok (k, s) else .error fault

/-- A scanner of one item takes exactly the texts of a grammar, and the state moves along. `ends` says where a text
    may not be read on. -/
structure Reads (item : Scanner ε κ σ) (P : α → List σ → Prop) (step : κ → α → Except ε κ) (ends : List σ → Prop) :
    Prop where
  sound : ∀ {k k' : κ} {s r : List σ}, item k s = .ok (k', r) →
    ∃ a b, s = b ++ r ∧ P a b ∧ step k a = .ok k'
  complete : ∀ {k k' : κ} {a : α} {b r : List σ}, P a b → step k a = .ok k' → ends r →
    item k (b ++ r) = .ok (k', r)

theorem Reads.congr {item : Scanner ε κ σ} {P : α → List σ → Prop} {Q : β → List σ → Prop} {ends : List σ → Prop}
    (reads : Reads item P step ends) (there : ∀ a b k k', P a b → step k a = .ok k' → ∃ c, Q c b ∧ other k c = .ok k')
    (back : ∀ c b k k', Q c b → other k c = .ok k' → ∃ a, P a b ∧ step k a = .ok k') : Reads item Q other ends where
  sound read := by
    obtain ⟨a, b, shape, spelled, stepped⟩ := reads.sound read
    obtain ⟨c, named, moved⟩ := there _ _ _ _ spelled stepped
    exact ⟨c, b, shape, named, moved⟩
  complete named moved stops := by
    obtain ⟨a, spelled, stepped⟩ := back _ _ _ _ named moved
    exact reads.complete spelled stepped stops

structure Takes (scan : List σ → Except ε (α × List σ)) (P : α → List σ → Prop) (ends : List σ → Prop) : Prop where
  sound : ∀ {a : α} {s r : List σ}, scan s = .ok (a, r) → ∃ b, s = b ++ r ∧ P a b
  complete : ∀ {a : α} {b r : List σ}, P a b → ends r → scan (b ++ r) = .ok (a, r)

theorem Takes.congr {P Q : α → List σ → Prop} {ends : List σ → Prop} (takes : Takes scan P ends)
    (same : ∀ a b, P a b ↔ Q a b) : Takes scan Q ends where
  sound read := by
    obtain ⟨b, shape, spelled⟩ := takes.sound read
    exact ⟨b, shape, (same _ _).mp spelled⟩
  complete spelled := takes.complete ((same _ _).mpr spelled)

theorem Takes.never (fault : ε) (ends : List σ → Prop) :
    Takes (fun _ => .error fault : List σ → Except ε (α × List σ)) (fun _ _ => False) ends where
  sound read := nomatch read
  complete never := never.elim

theorem Takes.collect {P : α → List σ → Prop} {ends : List σ → Prop} (takes : Takes scan P ends) :
    Reads (fun (items : List α) s => do
      let (a, s) ← scan s
      .ok (items ++ [a], s)) P (fun items a => .ok (items ++ [a])) ends where
  sound read := by
    obtain ⟨⟨a, s₁⟩, first, last⟩ := bind_eq_ok.mp read
    cases last
    obtain ⟨b, shape, item⟩ := takes.sound first
    exact ⟨a, b, shape, item, rfl⟩
  complete item stepped stops := by
    cases stepped
    rw [takes.complete item stops]
    rfl

theorem foldlM_collect (as items : List α) :
    as.foldlM (fun items a => (.ok (items ++ [a]) : Except ε (List α))) items = .ok (items ++ as) := by
  induction as generalizing items with
  | nil => rw [append_nil]; rfl
  | cons a as ih =>
    rw [foldlM_cons]
    show foldlM _ (items ++ [a]) as = _
    rw [ih, append_assoc]
    rfl

variable [DecidableEq σ] {P : α → List σ → Prop} {ends : List σ → Prop}

theorem Reads.separated_sound (reads : Reads item P step ends)
    (read : separated blank sep close fault item fuel k s = .ok (k', r)) :
    ∃ as b, s = b ++ close :: r ∧ Separated blank sep P as b ∧ as.foldlM step k = .ok k' := by
  induction fuel generalizing k s with
  | zero => cases read
  | succ fuel ih =>
    obtain ⟨⟨k₁, s₁⟩, first, rest⟩ := bind_eq_ok.mp read
    obtain ⟨a, b, rfl, spelled, stepped⟩ := reads.sound first
    obtain ⟨w, parts, behind⟩ := dropWhile_split blank s₁
    dsimp only at rest
    split at rest
    · cases rest
    · rename_i x s₂ left
      rw [left] at parts
      subst parts
      split at rest
      · rename_i separates
        obtain ⟨as, b', rfl, more, folded⟩ := ih rest
        subst separates
        refine ⟨a :: as, b ++ (w ++ x :: b'), by simp, .link spelled behind more, ?_⟩
        rw [foldlM_cons, stepped]
        exact folded
      · split at rest
        · rename_i closes
          cases rest
          subst closes
          refine ⟨[a], b ++ w, by simp, .last spelled behind, ?_⟩
          rw [foldlM_cons, stepped]
          rfl
        · cases rest

theorem Reads.separated_complete (reads : Reads item P step ends) (fault : ε) (solidSep : blank sep = false)
    (solidClose : blank close = false) (apart : sep ≠ close)
    (stops : ∀ w x r, Blank blank w → x = sep ∨ x = close → ends (w ++ x :: r)) (spelled : Separated blank sep P as b)
    (folded : as.foldlM step k = .ok k') (allowance : as.length ≤ fuel) (r : List σ) :
    separated blank sep close fault item fuel k (b ++ close :: r) = .ok (k', r) := by
  induction spelled generalizing fuel k with
  | @last a b w spelled behind =>
    obtain ⟨fuel, rfl⟩ := Nat.exists_eq_add_of_lt allowance
    rw [foldlM_cons] at folded
    obtain ⟨k₁, stepped, done⟩ := bind_eq_ok.mp folded
    cases done
    have first := reads.complete spelled stepped (stops w close r behind (.inr rfl))
    rw [append_assoc, length_nil, Nat.zero_add, separated, first]
    simp only [bind, Except.bind, behind.dropWhile_cons solidClose]
    rw [if_neg apart.symm]
    rfl
  | @link a as b w rest spelled behind _ ih =>
    obtain ⟨fuel, rfl⟩ := Nat.exists_eq_add_of_lt allowance
    rw [foldlM_cons] at folded
    obtain ⟨k₁, stepped, onward⟩ := bind_eq_ok.mp folded
    have first := reads.complete spelled stepped (stops w sep (rest ++ close :: r) behind (.inl rfl))
    have shape : b ++ (w ++ sep :: rest) ++ close :: r = b ++ (w ++ sep :: (rest ++ close :: r)) := by simp
    rw [shape, separated, first]
    simp only [bind, Except.bind, behind.dropWhile_cons solidSep, if_pos]
    exact ih onward (by omega)

end Scan
