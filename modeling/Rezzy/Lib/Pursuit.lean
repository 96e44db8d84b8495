import Rezzy.Lib.Permuted
import Rezzy.Lib.Worklist

namespace Pursuit

open Permuted Worklist List

variable {α : Type} [DecidableEq α]

structure Ground (α : Type) where
  keep : α → Bool
  next : α → List α
  level : α → Nat
  first : α → α → Bool
  nodes : List α

structure Chase (α : Type) where
  lead : Frontier α
  trail : Frontier α
  found : List α

namespace Ground

variable (g : Ground α)

def popFrom (bound : Nat) (pending : List α) : Option (α × List α) :=
  (popFirst g.first pending).filter fun popped => bound ≤ g.level popped.1

def catchUp (bound : Nat) (lead : Frontier α) : Frontier α :=
  Loop.run (expand (g.popFrom bound) g.keep g.next) g.nodes.length lead

def offerClear (lead : List α) (s : Frontier α) (y : α) : Frontier α :=
  if y ∈ lead then s else offer g.keep s y

def start (leaders trailers : List α) : Chase α :=
  let lead := leaders.foldl (offer g.keep) ⟨[], []⟩
  ⟨lead, trailers.foldl (g.offerClear lead.marked) ⟨[], []⟩, []⟩

def turn (s : Chase α) : Option (Chase α) :=
  match popFirst g.first s.trail.pending with
  | none => none
  | some (x, rest) =>
    let lead := g.catchUp (g.level x) s.lead
    if x ∈ lead.marked then some ⟨lead, ⟨s.trail.marked, rest⟩, s.found⟩
    else some ⟨lead, (g.next x).foldl (g.offerClear lead.marked) ⟨s.trail.marked, rest⟩, s.found ++ [x]⟩

def run (leaders trailers : List α) : Chase α := Loop.run g.turn g.nodes.length (g.start leaders trailers)

structure Sound (g : Ground α) : Prop where
  decides : ∀ l, Decides g.first l
  highest : ∀ x y, g.level x < g.level y → g.first y x = true
  listed : ∀ x, g.keep x = true → x ∈ g.nodes

def nextFrom (bound : Nat) (x : α) : List α := if g.keep x = true ∧ bound ≤ g.level x then g.next x else []

def Leads (leaders : List α) (bound : Nat) : α → Prop := Reached (g.nextFrom bound) leaders

def Led (leaders : List α) : α → Prop := Reached (keptNext g.keep g.next) leaders

variable {g} {leaders : List α}

omit [DecidableEq α] in
theorem leads_zero : g.Leads leaders 0 x ↔ g.Led leaders x := by
  have same : g.nextFrom 0 = keptNext g.keep g.next := by
    funext x
    simp [nextFrom, keptNext]
  rw [Leads, Led, same]

omit [DecidableEq α] in
theorem Leads.lower {bound lower : Nat} (leads : g.Leads leaders bound x) (le : lower ≤ bound) :
    g.Leads leaders lower x := by
  apply leads.mono
  · intro _ _ edge
    unfold nextFrom at edge ⊢
    split at edge
    · rename_i both
      rwa [if_pos ⟨both.1, le.trans both.2⟩]
    · cases edge
  · exact fun _ => id

omit [DecidableEq α] in
theorem Leads.led {bound : Nat} {x : α} (leads : g.Leads leaders bound x) : g.Led leaders x :=
  leads_zero.mp (leads.lower (Nat.zero_le bound))

section

variable {lead : Frontier α}

omit [DecidableEq α] in
theorem popFrom_draws (bound : Nat) : Draws (g.popFrom bound) := by
  intro _ _ _ taken
  obtain ⟨popped, _⟩ := Option.filter_eq_some_iff.mp taken
  exact popFirst_perm popped

theorem catchUp_invariant (kept : FrontierInv g.keep g.next leaders lead ∧ Expanded g.keep g.next leaders lead) :
    FrontierInv g.keep g.next leaders (g.catchUp bound lead) ∧ Expanded g.keep g.next leaders (g.catchUp bound lead) :=
  Loop.run_invariant (expand_drawn (popFrom_draws bound) g.keep g.next leaders) _ kept

theorem mem_catchUp (member : x ∈ lead.marked) : x ∈ (g.catchUp bound lead).marked := by
  refine @Loop.run_invariant _ _ (fun s : Frontier α => x ∈ s.marked) ?_ _ _ ?_
  · intro s _ marked turn
    unfold expand at turn
    split at turn
    · cases turn
    · rw [← Option.some.inj turn]
      exact (offers_marked g.keep _ _ x).mpr (.inl marked)
  · exact member

theorem catchUp_leads (le : low ≤ bound) (before : ∀ x ∈ lead.marked, g.Leads leaders low x)
    (kept : FrontierInv g.keep g.next leaders lead ∧ Expanded g.keep g.next leaders lead) :
    ∀ x ∈ (g.catchUp bound lead).marked, g.Leads leaders low x := by
  have both : (∀ x ∈ (g.catchUp bound lead).marked, g.Leads leaders low x) ∧
      (FrontierInv g.keep g.next leaders (g.catchUp bound lead) ∧
        Expanded g.keep g.next leaders (g.catchUp bound lead)) := by
    refine @Loop.run_invariant _ _ (fun s : Frontier α => (∀ x ∈ s.marked, g.Leads leaders low x) ∧
      (FrontierInv g.keep g.next leaders s ∧ Expanded g.keep g.next leaders s)) ?_ _ _ ?_
    · intro s t inv turn
      refine ⟨?_, expand_drawn (popFrom_draws bound) g.keep g.next leaders s t inv.2 turn⟩
      unfold expand at turn
      split at turn
      · cases turn
      · rename_i y rest taken
        obtain ⟨popped, high⟩ := Option.filter_eq_some_iff.mp taken
        rw [decide_eq_true_eq] at high
        have waits := inv.2.1.waiting y ((popFirst_perm popped).mem_iff.mpr (mem_cons_self ..))
        rw [← Option.some.inj turn]
        intro x member
        rcases (offers_marked g.keep _ _ x).mp member with old | new
        · exact inv.1 x old
        · apply (inv.1 y waits.1).step
          rw [nextFrom, if_pos ⟨waits.2, le.trans high⟩]
          exact new
    · exact ⟨before, kept⟩
  exact both.1

variable (sound : g.Sound)
include sound

variable (fewer : outstanding g.nodes lead ≤ g.nodes.length)
include fewer

theorem catchUp_ends : expand (g.popFrom bound) g.keep g.next (g.catchUp bound lead) = none :=
  Loop.run_finished (fun _ => True) (outstanding g.nodes) (fun _ _ _ _ => trivial)
    (fun s t _ => expand_fewer (popFrom_draws bound) g.keep g.next g.nodes sound.listed s t) _ trivial fewer

theorem catchUp_outstanding : outstanding g.nodes (g.catchUp bound lead) ≤ g.nodes.length := by
  refine @Loop.run_invariant _ _ (fun s : Frontier α => outstanding g.nodes s ≤ g.nodes.length) ?_ _ _ ?_
  · intro s t fewer turn
    have less := expand_fewer (popFrom_draws bound) g.keep g.next g.nodes sound.listed s t turn
    omega
  · exact fewer

theorem catchUp_complete (kept : FrontierInv g.keep g.next leaders lead ∧ Expanded g.keep g.next leaders lead)
    (leads : g.Leads leaders bound x) : x ∈ (g.catchUp bound lead).marked := by
  have ends : expand (g.popFrom bound) g.keep g.next (g.catchUp bound lead) = none := catchUp_ends sound fewer
  obtain ⟨inv, expanded⟩ : FrontierInv g.keep g.next leaders (g.catchUp bound lead) ∧
      Expanded g.keep g.next leaders (g.catchUp bound lead) := catchUp_invariant kept
  have below : ∀ y ∈ (g.catchUp bound lead).pending, g.level y < bound := by
    intro y waits
    unfold expand popFrom at ends
    cases popped : popFirst g.first (g.catchUp bound lead).pending with
    | none =>
      rw [popFirst_none.mp popped] at waits
      cases waits
    | some pair =>
      obtain ⟨top, rest⟩ := pair
      rw [popped, Option.filter_some] at ends
      by_cases high : bound ≤ g.level top
      · simp [high] at ends
      · rcases mem_cons.mp ((popFirst_perm popped).mem_iff.mp waits) with rfl | member
        · omega
        · have last := popFirst_least (sound.decides _) popped y member
          have notAbove : ¬g.level top < g.level y := fun less => by
            rw [sound.highest top y less] at last
            cases last
          omega
  apply leads.subset_of_closed (· ∈ (g.catchUp bound lead).marked)
  · exact expanded.1
  · intro y z marked edge
    unfold nextFrom at edge
    split at edge
    · rename_i high
      rcases expanded.2 y marked high.1 with waits | done
      · have := below y waits
        omega
      · exact done z edge
    · cases edge

end

section

/-- A step of the second walk from a node of the given level or above, which the leaders do not reach. -/
def Passes (g : Ground α) (leaders : List α) (bound : Nat) (x y : α) : Prop :=
  g.keep x = true ∧ ¬g.Led leaders x ∧ bound ≤ g.level x ∧ y ∈ g.next x

def Trails (g : Ground α) (leaders trailers : List α) (bound : Nat) (x : α) : Prop :=
  ∃ root ∈ trailers, Relation.ReflTransGen (g.Passes leaders bound) root x

variable {trailers : List α}

omit [DecidableEq α] in
theorem Trails.lower {bound lower : Nat} (trails : g.Trails leaders trailers bound x) (le : lower ≤ bound) :
    g.Trails leaders trailers lower x := by
  obtain ⟨root, member, path⟩ := trails
  refine ⟨root, member, Relation.ReflTransGen.mono (fun _ _ passes => ?_) _ _ path⟩
  exact ⟨passes.1, passes.2.1, le.trans passes.2.2.1, passes.2.2.2⟩

omit [DecidableEq α] in
theorem Trails.step {bound : Nat} {x y : α} (trails : g.Trails leaders trailers bound x)
    (passes : g.Passes leaders bound x y) : g.Trails leaders trailers bound y := by
  obtain ⟨root, member, path⟩ := trails
  exact ⟨root, member, path.tail passes⟩

omit [DecidableEq α] in
theorem trails_of_led (led : g.Led trailers x) : g.Led leaders x ∨ g.Trails leaders trailers 0 x := by
  apply led.subset_of_closed fun x => g.Led leaders x ∨ g.Trails leaders trailers 0 x
  · exact fun x member => .inr ⟨x, member, .refl⟩
  · intro x _ reached edge
    by_cases covered : g.Led leaders x
    · exact .inl (covered.step edge)
    · have trails := reached.resolve_left covered
      unfold keptNext at edge
      split at edge
      · rename_i kept
        exact .inr (trails.step ⟨kept, covered, Nat.zero_le _, edge⟩)
      · cases edge

theorem offersClear (lead l : List α) (s : Frontier α) :
    l.foldl (g.offerClear lead) s = (l.filter (· ∉ lead)).foldl (offer g.keep) s := by
  rw [foldl_filter]
  congr 1
  funext s y
  simp [offerClear]

structure Turned (g : Ground α) (s t : Chase α) (x : α) (rest : List α) : Prop where
  popped : popFirst g.first s.trail.pending = some (x, rest)
  lead : t.lead = g.catchUp (g.level x) s.lead
  met : x ∈ t.lead.marked → t.trail = ⟨s.trail.marked, rest⟩ ∧ t.found = s.found
  clear : x ∉ t.lead.marked → t.trail =
    ((g.next x).filter (· ∉ t.lead.marked)).foldl (offer g.keep) ⟨s.trail.marked, rest⟩ ∧ t.found = s.found ++ [x]

theorem turn_turned (turn : g.turn s = some t) : ∃ x rest, g.Turned s t x rest := by
  unfold Ground.turn at turn
  cases popped : popFirst g.first s.trail.pending with
  | none =>
    rw [popped] at turn
    cases turn
  | some pair =>
    obtain ⟨x, rest⟩ := pair
    rw [popped] at turn
    dsimp only at turn
    refine ⟨x, rest, ?_⟩
    by_cases met : x ∈ (g.catchUp (g.level x) s.lead).marked
    · rw [if_pos met] at turn
      obtain rfl := Option.some.inj turn
      exact ⟨popped, rfl, fun _ => ⟨rfl, rfl⟩, fun out => absurd met out⟩
    · rw [if_neg met] at turn
      obtain rfl := Option.some.inj turn
      exact ⟨popped, rfl, fun inside => absurd inside met, fun _ => ⟨offersClear _ _ _, rfl⟩⟩

structure ChaseInv (g : Ground α) (leaders trailers : List α) (s : Chase α) : Prop where
  lead : FrontierInv g.keep g.next leaders s.lead ∧ Expanded g.keep g.next leaders s.lead
  fewer : outstanding g.nodes s.lead ≤ g.nodes.length
  trail : FrontierInv g.keep g.next trailers s.trail
  found : ∀ x ∈ s.found, g.keep x = true ∧ x ∈ s.trail.marked

theorem Turned.waits (turned : g.Turned s t x rest) (inv : ChaseInv g leaders trailers s) :
    x ∈ s.trail.marked ∧ g.keep x = true :=
  inv.trail.waiting x ((popFirst_perm turned.popped).mem_iff.mpr (mem_cons_self ..))

section

variable {s t : Chase α} {x y : α} {rest : List α} (turned : g.Turned s t x rest)
include turned

theorem Turned.mem_lead (member : y ∈ s.lead.marked) : y ∈ t.lead.marked := by
  rw [turned.lead]
  exact mem_catchUp member

theorem Turned.mem_trail :
    y ∈ t.trail.marked ↔ y ∈ s.trail.marked ∨ x ∉ t.lead.marked ∧ y ∈ g.next x ∧ y ∉ t.lead.marked := by
  by_cases met : x ∈ t.lead.marked
  · rw [(turned.met met).1]
    simp [met]
  · rw [(turned.clear met).1, offers_marked, mem_filter]
    simp [met]

theorem Turned.mem_found : y ∈ t.found ↔ y ∈ s.found ∨ x ∉ t.lead.marked ∧ y = x := by
  by_cases met : x ∈ t.lead.marked
  · rw [(turned.met met).2]
    simp [met]
  · rw [(turned.clear met).2, mem_append, mem_singleton]
    simp [met]

theorem Turned.still (waits : y ∈ s.trail.pending) : y = x ∨ y ∈ t.trail.pending := by
  rcases mem_cons.mp ((popFirst_perm turned.popped).mem_iff.mp waits) with same | member
  · exact .inl same
  · right
    by_cases met : x ∈ t.lead.marked
    · rw [(turned.met met).1]
      exact member
    · rw [(turned.clear met).1]
      exact offers_keep_pending g.keep _ _ y member

theorem Turned.fresh
    (new : y ∉ s.trail.marked) (marked : y ∈ t.trail.marked) (kept : g.keep y = true) : y ∈ t.trail.pending := by
  obtain ⟨clear, edge, outside⟩ := (turned.mem_trail.mp marked).resolve_left new
  rw [(turned.clear clear).1]
  exact offers_pending g.keep _ _ y new (by simp [edge, outside]) kept

end

variable (sound : g.Sound)
include sound

theorem start_inv (leaders trailers : List α) : ChaseInv g leaders trailers (g.start leaders trailers) where
  lead := offered_invariant g.keep g.next leaders
  fewer := (offers_outstanding g.keep g.nodes sound.listed leaders ⟨[], []⟩).trans (by simp [outstanding])
  trail := by
    unfold start
    dsimp only
    rw [offersClear]
    refine offers_invariant g.keep g.next trailers _ _ ⟨by simp, by simp, by simp, by simp⟩ fun y member => ?_
    exact .seed (mem_of_mem_filter member)
  found x member := by cases member

theorem turn_inv (inv : ChaseInv g leaders trailers s) (turn : g.turn s = some t) : ChaseInv g leaders trailers t := by
  obtain ⟨x, rest, turned⟩ := turn_turned turn
  have waits := turned.waits inv
  have popped := inv.trail.pop (popFirst_perm turned.popped)
  constructor
  · rw [turned.lead]
    exact catchUp_invariant inv.lead
  · rw [turned.lead]
    exact catchUp_outstanding sound inv.fewer
  · by_cases met : x ∈ t.lead.marked
    · rw [(turned.met met).1]
      exact popped
    · rw [(turned.clear met).1]
      refine offers_invariant g.keep g.next trailers _ _ popped fun y member => ?_
      apply (inv.trail.sound x waits.1).step
      rw [keptNext, if_pos waits.2]
      exact mem_of_mem_filter member
  · intro y member
    rw [turned.mem_trail]
    rcases turned.mem_found.mp member with old | ⟨_, rfl⟩
    · exact ⟨(inv.found y old).1, .inl (inv.found y old).2⟩
    · exact ⟨waits.2, .inl waits.1⟩

theorem run_inv (leaders trailers : List α) : ChaseInv g leaders trailers (g.run leaders trailers) :=
  Loop.run_invariant (fun _ _ => turn_inv sound) _ (start_inv sound leaders trailers)

theorem run_ends (leaders trailers : List α) : g.turn (g.run leaders trailers) = none := by
  refine Loop.run_finished (fun _ => True) (fun s => outstanding g.nodes s.trail) (fun _ _ _ _ => trivial) ?_ _
    trivial ?_
  · intro s t _ turn
    obtain ⟨x, rest, turned⟩ := turn_turned turn
    have length := (popFirst_perm turned.popped).length_eq
    have drawn : outstanding g.nodes ⟨s.trail.marked, rest⟩ < outstanding g.nodes s.trail := by
      rw [length_cons] at length
      unfold outstanding
      dsimp only
      omega
    by_cases met : x ∈ t.lead.marked
    · rw [(turned.met met).1]
      exact drawn
    · rw [(turned.clear met).1]
      exact (offers_outstanding g.keep g.nodes sound.listed _ _).trans_lt drawn
  · unfold start
    dsimp only
    rw [offersClear]
    exact (offers_outstanding g.keep g.nodes sound.listed _ ⟨[], []⟩).trans (by simp [outstanding])

end

variable {trailers : List α} {s t : Chase α} {bound : Nat}

/-- No turn has gone below the level yet: what the second walk is done with has been passed on or is led to. -/
structure Above (g : Ground α) (leaders trailers : List α) (bound : Nat) (s : Chase α) : Prop where
  lead : ∀ x ∈ s.lead.marked, g.Leads leaders bound x
  seeds : ∀ x ∈ trailers, x ∈ s.trail.marked ∨ g.Leads leaders bound x
  done : ∀ x ∈ s.trail.marked, g.keep x = true → x ∈ s.trail.pending ∨ g.Leads leaders bound x ∨
    x ∈ s.found ∧ ∀ y ∈ g.next x, y ∈ s.trail.marked ∨ g.Leads leaders bound y

def Settled (g : Ground α) (leaders trailers : List α) (bound : Nat) (s : Chase α) : Prop :=
  ∃ marked : α → Prop, (∀ x ∈ trailers, marked x ∨ g.Leads leaders bound x) ∧
    ∀ x, marked x → g.keep x = true → bound ≤ g.level x → g.Leads leaders bound x ∨
      x ∈ s.found ∧ ∀ y ∈ g.next x, marked y ∨ g.Leads leaders bound y

theorem start_above (leaders trailers : List α) (bound : Nat) :
    Above g leaders trailers bound (g.start leaders trailers) where
  lead x member := by
    have offered := (offers_marked g.keep leaders ⟨[], []⟩ x).mp member
    exact .seed (offered.resolve_left (by simp))
  seeds x member := by
    unfold start
    dsimp only
    rw [offersClear, offers_marked, mem_filter]
    by_cases leads : x ∈ (leaders.foldl (offer g.keep) ⟨[], []⟩).marked
    · exact .inr (.seed (((offers_marked g.keep leaders ⟨[], []⟩ x).mp leads).resolve_left (by simp)))
    · exact .inl (.inr ⟨member, by simpa using leads⟩)
  done x member kept := by
    left
    unfold start at member ⊢
    dsimp only at member ⊢
    rw [offersClear] at member ⊢
    exact offers_pending g.keep _ _ x (by simp) (((offers_marked g.keep _ _ x).mp member).resolve_left (by simp)) kept

omit [DecidableEq α] in
theorem Above.settled (above : Above g leaders trailers bound s)
    (below : ∀ x ∈ s.trail.pending, g.level x < bound) : Settled g leaders trailers bound s := by
  refine ⟨(· ∈ s.trail.marked), above.seeds, fun x member kept high => ?_⟩
  apply (above.done x member kept).resolve_left
  intro waits
  have := below x waits
  omega

omit [DecidableEq α] in
theorem Settled.turn (settled : Settled g leaders trailers bound s) (kept : ∀ x ∈ s.found, x ∈ t.found) :
    Settled g leaders trailers bound t := by
  obtain ⟨marked, seeds, done⟩ := settled
  refine ⟨marked, seeds, fun x member keep high => ?_⟩
  apply (done x member keep high).imp_right
  exact fun both => ⟨kept x both.1, both.2⟩

omit [DecidableEq α] in
theorem Settled.trails (settled : Settled g leaders trailers bound s) (trails : g.Trails leaders trailers bound x)
    (kept : g.keep x = true) (high : bound ≤ g.level x) : g.Leads leaders bound x ∨ x ∈ s.found := by
  obtain ⟨marked, seeds, done⟩ := settled
  obtain ⟨root, member, path⟩ := trails
  have covered : marked x ∨ g.Leads leaders bound x := by
    clear kept high
    induction path with
    | refl => exact seeds root member
    | @tail y z _ passes ih =>
      rcases ih with inside | leads
      · rcases done y inside passes.1 passes.2.2.1 with leads | expanded
        · exact absurd leads.led passes.2.1
        · exact expanded.2 z passes.2.2.2
      · exact absurd leads.led passes.2.1
  rcases covered with inside | leads
  · exact (done x inside kept high).imp_right And.left
  · exact .inl leads

theorem Turned.above (turned : g.Turned s t x rest) (high : bound ≤ g.level x) (inv : ChaseInv g leaders trailers s)
    (above : Above g leaders trailers bound s) : Above g leaders trailers bound t where
  lead := by
    rw [turned.lead]
    exact catchUp_leads high above.lead inv.lead
  seeds y member := (above.seeds y member).imp_left fun marked => turned.mem_trail.mpr (.inl marked)
  done y member kept := by
    have leads : ∀ z ∈ t.lead.marked, g.Leads leaders bound z := by
      rw [turned.lead]
      exact catchUp_leads high above.lead inv.lead
    by_cases old : y ∈ s.trail.marked
    · rcases above.done y old kept with waits | led | ⟨found, passed⟩
      · rcases turned.still waits with rfl | still
        · right
          by_cases met : y ∈ t.lead.marked
          · exact .inl (leads y met)
          · refine .inr ⟨turned.mem_found.mpr (.inr ⟨met, rfl⟩), fun z edge => ?_⟩
            by_cases led : z ∈ t.lead.marked
            · exact .inr (leads z led)
            · exact .inl (turned.mem_trail.mpr (.inr ⟨met, edge, led⟩))
        · exact .inl still
      · exact .inr (.inl led)
      · refine .inr (.inr ⟨turned.mem_found.mpr (.inl found), fun z edge => ?_⟩)
        exact (passed z edge).imp_left fun marked => turned.mem_trail.mpr (.inl marked)
    · exact .inl (turned.fresh old member kept)

theorem run_settled (sound : g.Sound) (leaders trailers : List α) (bound : Nat) :
    Settled g leaders trailers bound (g.run leaders trailers) := by
  have progress : ChaseInv g leaders trailers (g.run leaders trailers) ∧
      (Above g leaders trailers bound (g.run leaders trailers) ∨
        Settled g leaders trailers bound (g.run leaders trailers)) := by
    refine @Loop.run_invariant _ _ (fun s => ChaseInv g leaders trailers s ∧
      (Above g leaders trailers bound s ∨ Settled g leaders trailers bound s)) ?_ _ _ ?_
    · rintro s t ⟨inv, progress⟩ turn
      refine ⟨turn_inv sound inv turn, ?_⟩
      obtain ⟨x, rest, turned⟩ := turn_turned turn
      have grows : ∀ y ∈ s.found, y ∈ t.found := fun y found => turned.mem_found.mpr (.inl found)
      rcases progress with above | settled
      · by_cases high : bound ≤ g.level x
        · exact .inl (turned.above high inv above)
        · refine .inr (Settled.turn (above.settled fun y waits => ?_) grows)
          rcases mem_cons.mp ((popFirst_perm turned.popped).mem_iff.mp waits) with rfl | member
          · omega
          · have last := popFirst_least (sound.decides _) turned.popped y member
            have notAbove : ¬g.level x < g.level y := fun less => by
              rw [sound.highest x y less] at last
              cases last
            omega
      · exact .inr (settled.turn grows)
    · exact ⟨start_inv sound leaders trailers, .inl (start_above leaders trailers bound)⟩
  rcases progress.2 with above | settled
  · apply above.settled
    have ends := run_ends sound leaders trailers
    unfold Ground.turn at ends
    split at ends
    · rename_i empty
      rw [popFirst_none.mp empty]
      intro x waits
      cases waits
    · dsimp only at ends
      split at ends
      · cases ends
      · cases ends
  · exact settled

def Ahead (g : Ground α) (leaders trailers : List α) : Prop :=
  ∀ bound x, g.keep x = true → bound ≤ g.level x → g.Led leaders x → g.Trails leaders trailers bound x →
    g.Leads leaders bound x

structure Clean (g : Ground α) (leaders trailers : List α) (s : Chase α) : Prop where
  found : ∀ x ∈ s.found, ¬g.Led leaders x ∧ ∃ bound ≤ g.level x, g.Trails leaders trailers bound x ∧
    ∀ y, g.Leads leaders bound y → y ∈ s.lead.marked
  marked : ∀ x ∈ s.trail.marked, x ∈ trailers ∨ ∃ z ∈ s.found, x ∈ g.next z

theorem Turned.clean (sound : g.Sound) (ahead : g.Ahead leaders trailers) (turned : g.Turned s t x rest)
    (inv : ChaseInv g leaders trailers s) (clean : Clean g leaders trailers s) : Clean g leaders trailers t := by
  have waits := turned.waits inv
  have caught : ∀ y, g.Leads leaders (g.level x) y → y ∈ t.lead.marked := by
    rw [turned.lead]
    exact fun y => catchUp_complete sound inv.fewer inv.lead
  have own : ∃ bound ≤ g.level x, g.Trails leaders trailers bound x ∧
      ∀ y, g.Leads leaders bound y → y ∈ t.lead.marked := by
    rcases clean.marked x waits.1 with seed | ⟨z, found, edge⟩
    · exact ⟨g.level x, Nat.le_refl _, ⟨x, seed, .refl⟩, caught⟩
    · obtain ⟨clear, low, within, trails, marked⟩ := clean.found z found
      have kept := (inv.found z found).1
      rcases Nat.le_total low (g.level x) with le | le
      · exact ⟨low, le, trails.step ⟨kept, clear, within, edge⟩, fun y leads => turned.mem_lead (marked y leads)⟩
      · exact ⟨g.level x, Nat.le_refl _, (trails.lower le).step ⟨kept, clear, le.trans within, edge⟩, caught⟩
  constructor
  · intro y member
    rcases turned.mem_found.mp member with old | ⟨met, rfl⟩
    · obtain ⟨clear, low, within, trails, marked⟩ := clean.found y old
      exact ⟨clear, low, within, trails, fun z leads => turned.mem_lead (marked z leads)⟩
    · refine ⟨fun led => met ?_, own⟩
      obtain ⟨low, within, trails, marked⟩ := own
      exact marked y (ahead low y waits.2 within led trails)
  · intro y member
    rcases turned.mem_trail.mp member with old | ⟨met, edge, _⟩
    · apply (clean.marked y old).imp_right
      rintro ⟨z, found, edge⟩
      exact ⟨z, turned.mem_found.mpr (.inl found), edge⟩
    · exact .inr ⟨x, turned.mem_found.mpr (.inr ⟨met, rfl⟩), edge⟩

theorem run_clean (sound : g.Sound) (ahead : g.Ahead leaders trailers) :
    Clean g leaders trailers (g.run leaders trailers) := by
  have both : ChaseInv g leaders trailers (g.run leaders trailers) ∧
      Clean g leaders trailers (g.run leaders trailers) := by
    refine @Loop.run_invariant _ _ (fun s => ChaseInv g leaders trailers s ∧ Clean g leaders trailers s) ?_ _ _ ?_
    · rintro s t ⟨inv, clean⟩ turn
      obtain ⟨x, rest, turned⟩ := turn_turned turn
      exact ⟨turn_inv sound inv turn, turned.clean sound ahead inv clean⟩
    · refine ⟨start_inv sound leaders trailers, ⟨fun x member => (by cases member), fun x member => ?_⟩⟩
      unfold start at member
      dsimp only at member
      rw [offersClear, offers_marked, mem_filter] at member
      exact .inl (member.resolve_left (by simp)).1
  exact both.2

theorem run_exact_iff (sound : g.Sound) (leaders trailers : List α) :
    (∀ x, x ∈ (g.run leaders trailers).found ↔ g.keep x = true ∧ g.Led trailers x ∧ ¬g.Led leaders x) ↔
      g.Ahead leaders trailers := by
  constructor
  · intro exactly bound x kept high led trails
    apply ((run_settled sound leaders trailers bound).trails trails kept high).resolve_right
    exact fun found => ((exactly x).mp found).2.2 led
  · intro ahead x
    have inv := run_inv sound leaders trailers
    constructor
    · intro found
      obtain ⟨kept, marked⟩ := inv.found x found
      exact ⟨kept, inv.trail.sound x marked, ((run_clean sound ahead).found x found).1⟩
    · rintro ⟨kept, led, clear⟩
      have trails := (trails_of_led led).resolve_left clear
      apply ((run_settled sound leaders trailers 0).trails trails kept (Nat.zero_le _)).resolve_left
      exact fun leads => clear leads.led

end Ground

end Pursuit
