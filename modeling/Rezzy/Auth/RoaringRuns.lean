import Rezzy.Auth.Roaring

namespace Rezzy.Auth

open Basespec Permuted Ancestry List LeanEvent
open Peel (Cites ParentsFirst)
open DenseIndex (maxIndex)
open EventMap (empty)

variable {Id C : Type} [LinearOrder Id]

namespace AuthGraph

inductive Call (Id C : Type) where
  | build (order : HashOrder GraphSite) (sortContext : EventMap Id C)
  | tryBuild (order : HashOrder GraphSite) (sortContext : EventMap Id C)
  | insert (event : LeanEvent Id C)

structure Held (Id C : Type) where
  graph : AuthGraph Id
  taken : EventMap Id C

def Call.apply (held : Option (Held Id C)) : Call Id C → Option (Option (Held Id C))
  | build order sortContext => (AuthGraph.build order sortContext).map fun graph => some ⟨graph, sortContext⟩
  | tryBuild order sortContext =>
    match AuthGraph.tryBuild order sortContext with
    | none => none
    | some (.error _) => some held
    | some (.ok graph) => some (some ⟨graph, sortContext⟩)
  | insert event =>
    match held with
    | none => some none
    | some ⟨graph, taken⟩ =>
      match graph.insert event with
      | (.ok true, grown) => some (some ⟨grown, taken.insert event⟩)
      | (_, same) => some (some ⟨same, taken⟩)

def runCalls (calls : List (Call Id C)) : Option (Option (Held Id C)) := calls.foldlM Call.apply none

def Held.Sound (held : Held Id C) : Prop := held.graph.complete = true → Represents held.graph held.taken

section

variable {order : HashOrder GraphSite} {sortContext : EventMap Id C} {graph : AuthGraph Id}

theorem Held.Sound.of_build
    (built : AuthGraph.build order sortContext = some graph) : Held.Sound ⟨graph, sortContext⟩ := by
  intro complete
  obtain ⟨perm, rows⟩ := (build_spec built).2 complete
  exact ⟨perm, rows⟩

theorem tryBuild_ok (built : AuthGraph.tryBuild order sortContext = some (.ok graph)) :
    AuthGraph.build order sortContext = some graph ∧ graph.complete = true := by
  unfold AuthGraph.tryBuild at built
  dsimp only at built
  split at built
  · cases built
  · obtain ⟨other, found, same⟩ := Option.map_eq_some_iff.mp built
    split at same
    · rename_i complete
      obtain rfl := Except.ok.inj same
      exact ⟨found, complete⟩
    · cases same

end

theorem Call.apply_sound (call : Call Id C) {before after : Option (Held Id C)}
    (sound : ∀ held, before = some held → held.Sound) (applied : call.apply before = some after) :
    ∀ held, after = some held → held.Sound := by
  intro held found
  subst found
  cases call with
  | build order sortContext =>
    obtain ⟨graph, built, same⟩ := Option.map_eq_some_iff.mp applied
    obtain rfl := Option.some.inj same
    exact .of_build built
  | tryBuild order sortContext =>
    simp only [apply] at applied
    split at applied
    · cases applied
    · exact sound held (Option.some.inj applied)
    · rename_i graph built
      obtain rfl := Option.some.inj (Option.some.inj applied)
      exact .of_build (tryBuild_ok built).1
  | insert event =>
    cases before with
    | none => cases applied
    | some old =>
      obtain ⟨graph, taken⟩ := old
      simp only [apply] at applied
      rcases insert_cases graph event with ⟨_, known⟩ | ⟨fresh, ⟨_, failed, _⟩ | ⟨cited, index, items, grown⟩⟩
      · rw [known] at applied
        obtain rfl := Option.some.inj (Option.some.inj applied)
        exact sound _ rfl
      · rw [failed] at applied
        obtain rfl := Option.some.inj (Option.some.inj applied)
        exact sound _ rfl
      · rw [grown] at applied
        obtain rfl := Option.some.inj (Option.some.inj applied)
        intro complete
        exact (sound _ rfl complete).insert fresh cited items _

theorem runCalls_sound {held : Held Id C} (ran : runCalls calls = some (some held)) : held.Sound := by
  have upTo : ∀ (calls : List (Call Id C)) (before after : Option (Held Id C)),
      (∀ held, before = some held → held.Sound) → calls.foldlM Call.apply before = some after →
        ∀ held, after = some held → held.Sound := by
    intro calls
    induction calls with
    | nil =>
      intro before after sound ran
      exact Option.some.inj ran ▸ sound
    | cons call calls ih =>
      intro before after sound ran
      rw [foldlM_cons] at ran
      obtain ⟨between, applied, rest⟩ := Option.bind_eq_some_iff.mp ran
      exact ih between after (call.apply_sound sound applied) rest
  exact upTo calls none (some held) (by simp) ran held rfl

def insertAll (graph : AuthGraph Id) (events : List (LeanEvent Id C)) : Option (AuthGraph Id) :=
  events.foldlM (fun graph event =>
    match graph.insert event with
    | (.ok true, grown) => some grown
    | _ => none) graph

def AuthFirst (events : List (LeanEvent Id C)) : Prop :=
  ∀ before event after, events = before ++ event :: after →
    ∀ cited ∈ event.authEvents, cited ∈ before.map LeanEvent.eventId

theorem insertAll_represents {graph : AuthGraph Id} (represents : Represents graph taken)
    (fresh : (graph.index.items ++ events.map eventId).Nodup)
    (fits : (graph.index.items ++ events.map eventId).length ≤ maxIndex + 1)
    (first : ∀ before event after, events = before ++ event :: after →
      ∀ cited ∈ event.authEvents, cited ∈ graph.index.items ++ before.map eventId) :
    ∃ grown, insertAll graph events = some grown ∧ grown.complete = graph.complete ∧
      Represents grown (events.foldl EventMap.insert taken) := by
  induction events generalizing graph taken with
  | nil => exact ⟨graph, rfl, rfl, represents⟩
  | cons event events ih =>
    have new : event.eventId ∉ graph.index.items := by
      intro old
      rw [nodup_append] at fresh
      exact fresh.2.2 _ old _ (mem_cons_self ..) rfl
    have cited : ∀ cited ∈ event.authEvents, cited ∈ graph.index.items := by
      intro cited cites
      simpa using first [] event events rfl cited cites
    rcases insert_cases graph event with ⟨old, _⟩ | ⟨_, ⟨_, _, reason⟩ | ⟨_, index, items, grown⟩⟩
    · exact absurd old new
    · rcases reason with ⟨absent, cites, missing⟩ | full
      · exact absurd (cited absent cites) missing
      · simp only [length_append, map_cons, length_cons] at fits
        omega
    · have step := represents.insert new cited items graph.complete
      have regroup : index.items ++ events.map eventId = graph.index.items ++ (event :: events).map eventId := by
        rw [items, map_cons, append_assoc]
        rfl
      obtain ⟨last, inserted, complete, done⟩ := ih step (by rw [regroup]; exact fresh) (by rw [regroup]; exact fits) (by
        intro before other after split cited cites
        have earlier := first (event :: before) other after (by rw [split]; rfl) cited cites
        rw [items]
        simpa using earlier)
      refine ⟨last, ?_, complete, done⟩
      rw [insertAll, foldlM_cons, grown]
      exact inserted

theorem values_insertAll {taken : EventMap Id C} (fresh : ((taken.values ++ events).map eventId).Nodup) :
    (events.foldl EventMap.insert taken).values = taken.values ++ events := by
  induction events generalizing taken with
  | nil => simp
  | cons event events ih =>
    have absent : ∀ other ∈ taken.values, other.eventId ≠ event.eventId := by
      intro other mem same
      rw [map_append, nodup_append] at fresh
      exact fresh.2.2 _ (mem_map_of_mem mem) _ (mem_cons_self ..) same
    have inserted : (taken.insert event).values = taken.values ++ [event] := by
      show taken.values.filter (fun other => other.eventId ≠ event.eventId) ++ [event] = _
      rw [filter_eq_self.mpr fun other mem => by simpa using absent other mem]
    have regroup : (taken.insert event).values ++ events = taken.values ++ event :: events := by
      rw [inserted, append_assoc]
      rfl
    rw [foldl_cons, ih (by rw [regroup]; exact fresh), regroup]

section

variable {sortContext : EventMap Id C} {events : List (LeanEvent Id C)} (first : AuthFirst events)
  (listed : events.Perm sortContext.values)
include first listed

theorem AuthFirst.parentsFirst : ParentsFirst (contextAuth sortContext) (events.map eventId) := by
  intro before id after split cited cites
  obtain ⟨eventsBefore, rest, rfl, rfl, tail⟩ := map_eq_append_iff.mp split
  obtain ⟨event, eventsAfter, rfl, rfl, rfl⟩ := map_eq_cons_iff.mp tail
  have found : sortContext.get event.eventId = some event :=
    EventMap.get_of_mem (listed.mem_iff.mp (mem_append_right _ (mem_cons_self ..)))
  rw [contextAuth, found] at cites
  exact first eventsBefore event eventsAfter rfl cited cites

theorem AuthFirst.closed : AuthClosed sortContext ∧ Acyclic sortContext := by
  have keys : (events.map eventId).Perm sortContext.keys := listed.map _
  have order := first.parentsFirst listed
  constructor
  · intro id mem cited cites
    obtain ⟨before, after, split⟩ := append_of_mem (keys.mem_iff.mpr mem)
    rw [← keys.mem_iff, split]
    exact mem_append_left _ (order before id after split cited cites)
  · intro id mem
    exact order.acyclic (keys.nodup_iff.mpr sortContext.distinct) (keys.mem_iff.mpr mem)

end

theorem build_represents {sortContext : EventMap Id C} (closed : AuthClosed sortContext ∧ Acyclic sortContext)
    (fits : sortContext.keys.length ≤ maxIndex + 1) :
    ∃ built, build order sortContext = some built ∧ built.complete = true ∧ Represents built sortContext := by
  obtain ⟨built, ok⟩ := build_some order fits
  have complete := (build_spec ok).1.mpr closed
  obtain ⟨perm, rows⟩ := (build_spec ok).2 complete
  exact ⟨built, ok, complete, perm, rows⟩

theorem insertAll_agrees (orderEmpty order : HashOrder GraphSite) {sortContext : EventMap Id C}
    (listed : events.Perm sortContext.values) (first : AuthFirst events) (fits : events.length ≤ maxIndex + 1) :
    ∃ start grown built, build orderEmpty (EventMap.empty : EventMap Id C) = some start ∧
      insertAll start events = some grown ∧ build order sortContext = some built ∧
      grown.complete = true ∧ built.complete = true ∧
      ∀ ancestor descendant, grown.isInAuthChain ancestor descendant = built.isInAuthChain ancestor descendant := by
  have keys : (events.map eventId).Perm sortContext.keys := listed.map _
  have nodup : (events.map eventId).Nodup := keys.nodup_iff.mpr sortContext.distinct
  have none : AuthClosed (empty : EventMap Id C) ∧ Acyclic (empty : EventMap Id C) :=
    ⟨by simp [AuthClosed, EventMap.keys, empty], by simp [Acyclic, EventMap.keys, empty]⟩
  obtain ⟨start, started, startWhole, startSound⟩ :
      ∃ start, build orderEmpty (EventMap.empty : EventMap Id C) = some start ∧ start.complete = true ∧
        Represents start (empty : EventMap Id C) := build_represents none (Nat.zero_le _)
  have bare : start.index.items = [] := startSound.perm.eq_nil
  obtain ⟨grown, inserted, complete, grownSound⟩ : ∃ grown, insertAll start events = some grown ∧
      grown.complete = start.complete ∧ Represents grown (events.foldl EventMap.insert empty) := by
    apply insertAll_represents startSound
    · rwa [bare, nil_append]
    · rwa [bare, nil_append, length_map]
    · rw [bare]
      exact first
  obtain ⟨built, ok, whole, sound⟩ : ∃ built, build order sortContext = some built ∧ built.complete = true ∧
      Represents built sortContext := build_represents (first.closed listed) (by rwa [← keys.length_eq, length_map])
  have taken : (events.foldl EventMap.insert (empty : EventMap Id C)).values = events := by
    rw [values_insertAll (by simpa [empty] using nodup)]
    rfl
  have sameGet : ∀ id, (events.foldl EventMap.insert (empty : EventMap Id C)).get id = sortContext.get id :=
    EventMap.get_of_perm (by rwa [taken])
  have sameAuth : contextAuth (events.foldl EventMap.insert (empty : EventMap Id C)) =
      contextAuth sortContext := by
    funext id
    rw [contextAuth, sameGet, contextAuth]
  refine ⟨start, grown, built, started, inserted, ok, complete.trans startWhole, whole, ?_⟩
  intro _ _
  rw [Bool.eq_iff_iff, isInAuthChain_iff grownSound, isInAuthChain_iff sound, sameAuth, EventMap.keys, taken,
    keys.mem_iff]

/-- Bitmaps are exact in every run; a failed insertion changes nothing; growing a graph and building it agree. -/
theorem runCalls_exact :
    (∀ (calls : List (Call Id C)) (held : Held Id C), runCalls calls = some (some held) →
      held.graph.complete = true →
      held.graph.index.items.Perm held.taken.keys ∧
      ∀ k descendant, held.graph.index.itemAt k = some descendant →
        (∀ j ∈ rowAt held.graph.authBitmaps k, ∃ ancestor, held.graph.index.itemAt j = some ancestor) ∧
        ∀ ancestor, (∃ j ∈ rowAt held.graph.authBitmaps k, held.graph.index.itemAt j = some ancestor) ↔
          Relation.TransGen (Cites (contextAuth held.taken)) ancestor descendant) ∧
    (∀ (graph : AuthGraph Id) (event : LeanEvent Id C) (reason : InsertError Id),
      (graph.insert event).1 = .error reason → (graph.insert event).2 = graph) ∧
    ∀ (orderEmpty order : HashOrder GraphSite) (sortContext : EventMap Id C) (events : List (LeanEvent Id C)),
      events.Perm sortContext.values → AuthFirst events → events.length ≤ DenseIndex.maxIndex + 1 →
      ∃ start grown built, build orderEmpty (EventMap.empty : EventMap Id C) = some start ∧
        insertAll start events = some grown ∧ build order sortContext = some built ∧
        grown.complete = true ∧ built.complete = true ∧
        ∀ ancestor descendant,
          grown.isInAuthChain ancestor descendant = built.isInAuthChain ancestor descendant := by
  refine ⟨?_, ?_, ?_⟩
  · intro calls held ran complete
    obtain ⟨perm, exact'⟩ := runCalls_sound ran complete
    refine ⟨perm, fun k descendant found => ⟨fun j inRow => ?_, fun ancestor => ⟨?_, fun path => ?_⟩⟩⟩
    · obtain ⟨ancestor, placed, _⟩ := (exact'.ancestors k descendant found j).mp inRow
      exact ⟨ancestor, placed⟩
    · rintro ⟨j, inRow, placed⟩
      obtain ⟨other, found', path⟩ := (exact'.ancestors k descendant found j).mp inRow
      obtain rfl := Option.some.inj (found'.symm.trans placed)
      exact path
    · obtain ⟨j, inside, placed⟩ := getElem_of_mem
        (ancestor_mem exact'.closed (mem_of_getElem? found) path)
      have found' : held.graph.index.items[j]? = some ancestor := by rw [getElem?_eq_getElem inside, placed]
      exact ⟨j, (exact'.ancestors k descendant found j).mpr ⟨ancestor, found', path⟩, found'⟩
  · intro graph event reason failed
    rcases insert_cases graph event with ⟨_, known⟩ | ⟨_, ⟨_, same, _⟩ | ⟨_, _, _, grown⟩⟩
    · rw [known]
    · rw [same]
    · rw [grown] at failed
      cases failed
  · intro orderEmpty order sortContext events listed first fits
    exact insertAll_agrees orderEmpty order listed first fits

end AuthGraph

end Rezzy.Auth
