import Rezzy.Basespec.Event
import Rezzy.Lib.Ancestry
import Rezzy.Lib.Permuted

namespace Rezzy.Auth

open List Bool

section

open Basespec Permuted Ancestry

section

structure IndexTooLarge where
  distinctCount : Nat
  allocationFailed : Bool
deriving DecidableEq, Repr

structure DenseIndex (α : Type) where
  items : List α
  distinct : items.Nodup

namespace DenseIndex

variable {α : Type}

def maxIndex : Nat := 2 ^ 32 - 1

def empty : DenseIndex α := ⟨[], List.nodup_nil⟩

def itemAt (index : DenseIndex α) (at' : Nat) : Option α := index.items[at']?

theorem nodup_push (index : DenseIndex α) (fresh : item ∉ index.items) : (index.items ++ [item]).Nodup := by
  rw [List.nodup_append]
  refine ⟨index.distinct, List.nodup_singleton item, fun old mem new last => ?_⟩
  rw [List.mem_singleton.mp last]
  rintro rfl
  exact fresh mem

variable [DecidableEq α]

def indexOf (index : DenseIndex α) (item : α) : Option Nat := index.items.idxOf? item

def tryPush (index : DenseIndex α) (item : α) : Except IndexTooLarge (DenseIndex α) :=
  if known : item ∈ index.items then .ok index
  else if index.items.length ≤ maxIndex then
    .ok ⟨index.items ++ [item], index.nodup_push known⟩
  else .error ⟨index.items.length, false⟩

def tryBuild (items : List α) : Except IndexTooLarge (DenseIndex α) := items.foldlM tryPush empty

end DenseIndex

end

structure MissingEvents (Id : Type) where
  missing : List Id
deriving DecidableEq, Repr

inductive InsertError (Id : Type) where
  | missing (events : MissingEvents Id)
  | indexTooLarge (reason : IndexTooLarge)

inductive BuildError (Id : Type) where
  | missing (events : MissingEvents Id)
  | cyclic

inductive AuthDifferenceError (Id : Type) where
  | incompleteGraph
  | missing (events : MissingEvents Id)

inductive GraphSite where
  | sortContext
  | inDegree
  | walkedUnion

structure AuthGraph (Id : Type) where
  index : DenseIndex Id
  authBitmaps : List (Finset Nat)
  complete : Bool

variable {Id C : Type} [LinearOrder Id]

def MissingEvents.check (missing : List Id) : Except (MissingEvents Id) Unit :=
  if missing = [] then .ok () else .error ⟨(missing.insertionSort (· ≤ ·)).dedup⟩

def contextAuth (sortContext : EventMap Id C) (id : Id) : List Id :=
  ((sortContext.get id).map LeanEvent.authEvents).getD []

namespace AuthGraph

def presentAuth (sortContext : EventMap Id C) (id : Id) : List Id :=
  (contextAuth sortContext id).filter sortContext.containsKey

def topological (order : HashOrder GraphSite) (sortContext : EventMap Id C) : List Id :=
  let keys := order.iter .sortContext sortContext.keys
  let adjacency := Peel.citers keys (presentAuth sortContext)
  let inDegree := fun id => (presentAuth sortContext id).length
  (Peel.peel adjacency inDegree (order.iter .inDegree (keys.filter fun id => inDegree id = 0)) keys.length).done

def build (order : HashOrder GraphSite) (sortContext : EventMap Id C) : Option (AuthGraph Id) :=
  let sorted := topological order sortContext
  match DenseIndex.tryBuild sorted with
  | .error _ => none
  | .ok index =>
    let skippedAuth := sortContext.keys.any fun id => (contextAuth sortContext id).any (!sortContext.containsKey ·)
    some ⟨index, tabulate index.items (contextAuth sortContext),
      !skippedAuth && sorted.length = sortContext.keys.length⟩

/-- As `build`, for contexts that are closed and without cycles only. -/
def tryBuild (order : HashOrder GraphSite) (sortContext : EventMap Id C) :
    Option (Except (BuildError Id) (AuthGraph Id)) :=
  let cited := (order.iter .sortContext sortContext.values).flatMap LeanEvent.authEvents
  match MissingEvents.check (cited.filter (!sortContext.containsKey ·)) with
  | .error missing => some (.error (.missing missing))
  | .ok () => (build order sortContext).map fun graph => if graph.complete then .ok graph else .error .cyclic

def insert (graph : AuthGraph Id) (event : LeanEvent Id C) : Except (InsertError Id) Bool × AuthGraph Id :=
  if (graph.index.indexOf event.eventId).isSome then (.ok false, graph)
  else
    match MissingEvents.check (event.authEvents.filter fun id => (graph.index.indexOf id).isNone) with
    | .error missing => (.error (.missing missing), graph)
    | .ok () =>
      let bitmap := gather graph.index.items graph.authBitmaps event.authEvents
      match graph.index.tryPush event.eventId with
      | .error reason => (.error (.indexTooLarge reason), graph)
      | .ok index => (.ok true, ⟨index, graph.authBitmaps ++ [bitmap], graph.complete⟩)

def isInAuthChain (graph : AuthGraph Id) (ancestor descendant : Id) : Bool :=
  match graph.index.indexOf ancestor, graph.index.indexOf descendant with
  | some at', some row => at' ∈ rowAt graph.authBitmaps row
  | _, _ => false

end AuthGraph

end

open Basespec Permuted Ancestry
open Peel (Cites ParentsFirst)

section

variable {α : Type} [DecidableEq α]

namespace DenseIndex

theorem tryPush_fresh (index : DenseIndex α) (fresh : item ∉ index.items) :
    (index.items.length ≤ maxIndex → ∃ pushed, index.tryPush item = .ok pushed ∧ pushed.items = index.items ++ [item]) ∧
    ∀ pushed, index.tryPush item = .ok pushed → pushed.items = index.items ++ [item] := by
  unfold tryPush
  rw [dif_neg fresh]
  by_cases room : index.items.length ≤ maxIndex
  · rw [if_pos room]
    exact ⟨fun _ => ⟨_, rfl, rfl⟩, fun pushed same => by rw [← Except.ok.inj same]⟩
  · rw [if_neg room]
    refine ⟨fun fits => absurd fits room, fun pushed same => ?_⟩
    cases same

theorem tryBuild_nodup {items : List α} (nodup : items.Nodup) :
    (items.length ≤ maxIndex + 1 → ∃ index, tryBuild items = .ok index ∧ index.items = items) ∧
    ∀ index, tryBuild items = .ok index → index.items = items := by
  have upTo : ∀ (rest : List α) (index : DenseIndex α), (index.items ++ rest).Nodup →
      ((index.items ++ rest).length ≤ maxIndex + 1 →
        ∃ built, rest.foldlM tryPush index = .ok built ∧ built.items = index.items ++ rest) ∧
      ∀ built, rest.foldlM tryPush index = .ok built → built.items = index.items ++ rest := by
    intro rest
    induction rest with
    | nil =>
      intro index _
      rw [append_nil]
      exact ⟨fun _ => ⟨index, rfl, rfl⟩, fun built same => by rw [← Except.ok.inj same]⟩
    | cons item rest ih =>
      intro index nodup
      have fresh : item ∉ index.items := fun old =>
        (nodup_append.mp nodup).2.2 item old item (mem_cons_self ..) rfl
      obtain ⟨fits, grown⟩ := tryPush_fresh index fresh
      have regroup : index.items ++ item :: rest = (index.items ++ [item]) ++ rest := by simp
      rw [foldlM_cons]
      constructor
      · intro room
        obtain ⟨pushed, ok, items⟩ := fits (by rw [length_append, length_cons] at room; omega)
        rw [ok]
        rw [regroup, ← items] at nodup room ⊢
        exact (ih pushed nodup).1 room
      · intro built ok
        cases pushes : index.tryPush item with
        | error reason =>
          rw [pushes] at ok
          cases ok
        | ok pushed =>
          rw [pushes] at ok
          have items := grown pushed pushes
          rw [regroup, ← items] at nodup ⊢
          exact (ih pushed nodup).2 built ok
  exact upTo items empty nodup

end DenseIndex

end

variable {Id C : Type} [LinearOrder Id]

theorem check_ok {missing : List Id} : MissingEvents.check missing = .ok () ↔ missing = [] := by
  unfold MissingEvents.check
  split
  · simp_all
  · simp_all

namespace AuthGraph

def Acyclic (sortContext : EventMap Id C) : Prop :=
  ∀ id ∈ sortContext.keys, ¬Relation.TransGen (Cites (contextAuth sortContext)) id id

def AuthClosed (sortContext : EventMap Id C) : Prop :=
  ∀ id ∈ sortContext.keys, ∀ cited ∈ contextAuth sortContext id, cited ∈ sortContext.keys

theorem AuthClosed.presentAuth {sortContext : EventMap Id C} (closed : AuthClosed sortContext) :
    presentAuth sortContext = contextAuth sortContext := by
  funext id
  rw [AuthGraph.presentAuth, filter_eq_self]
  intro cited cites
  by_cases mem : id ∈ sortContext.keys
  · obtain ⟨event, found⟩ := EventMap.mem_keys.mp (closed id mem cited cites)
    rw [EventMap.containsKey, found]
    rfl
  · rw [contextAuth, EventMap.get_eq_none.mpr mem] at cites
    cases cites

theorem presentAuth_graph (order : HashOrder GraphSite) (sortContext : EventMap Id C) :
    Peel.Graph (order.iter .sortContext sortContext.keys) (presentAuth sortContext)
      (Peel.citers (order.iter .sortContext sortContext.keys) (presentAuth sortContext)) where
  nodup := (order.perm _ _).nodup_iff.mpr sortContext.distinct
  within := by
    intro _ _ _ cites
    rw [(order.perm _ _).mem_iff, EventMap.mem_keys, ← Option.isSome_iff_exists]
    exact (mem_filter.mp cites).2
  turned _ := .refl _

theorem topological_spec (order : HashOrder GraphSite) (sortContext : EventMap Id C) :
    (topological order sortContext).Nodup ∧ (∀ id ∈ topological order sortContext, id ∈ sortContext.keys) ∧
      ParentsFirst (presentAuth sortContext) (topological order sortContext) ∧
      ((topological order sortContext).length = sortContext.keys.length ↔
        ∀ id ∈ sortContext.keys, ¬Relation.TransGen (Cites (presentAuth sortContext)) id id) := by
  have listed := order.perm .inDegree ((order.iter .sortContext sortContext.keys).filter fun id =>
    (presentAuth sortContext id).length = 0)
  obtain ⟨nodup, inside, first, complete⟩ := Peel.peel_order (presentAuth_graph order sortContext) listed
  have keys := order.perm .sortContext sortContext.keys
  refine ⟨nodup, fun id mem => keys.mem_iff.mp (inside id mem), first, ?_⟩
  rw [← keys.length_eq]
  refine complete.trans (forall_congr' fun id => ?_)
  rw [keys.mem_iff]

theorem build_spec {graph : AuthGraph Id} (built : build order sortContext = some graph) :
    (graph.complete = true ↔ AuthClosed sortContext ∧ Acyclic sortContext) ∧
    (graph.complete = true → graph.index.items.Perm sortContext.keys ∧
      Exact (contextAuth sortContext) graph.index.items graph.authBitmaps) := by
  obtain ⟨nodup, inside, first, complete⟩ := topological_spec order sortContext
  unfold build at built
  cases indexed : DenseIndex.tryBuild (topological order sortContext) with
  | error reason => simp [indexed] at built
  | ok index =>
    have items := (DenseIndex.tryBuild_nodup nodup).2 index indexed
    simp only [indexed, Option.some.injEq] at built
    subst built
    have closed : (sortContext.keys.any fun id => (contextAuth sortContext id).any (!sortContext.containsKey ·)) =
        false ↔ AuthClosed sortContext := by
      rw [any_eq_false]
      refine forall₂_congr fun id _ => ?_
      rw [not_eq_true, any_eq_false]
      refine forall₂_congr fun cited _ => ?_
      rw [EventMap.mem_keys, ← Option.isSome_iff_exists, EventMap.containsKey, not_eq_true, not_eq_false']
    have whole : (!(sortContext.keys.any fun id => (contextAuth sortContext id).any (!sortContext.containsKey ·)) &&
        decide ((topological order sortContext).length = sortContext.keys.length)) = true ↔
          AuthClosed sortContext ∧ Acyclic sortContext := by
      rw [and_eq_true, not_eq_true', closed, decide_eq_true_eq, complete]
      refine and_congr_right fun closed => ?_
      rw [Acyclic, closed.presentAuth]
    refine ⟨whole, fun yes => ?_⟩
    obtain ⟨closed, -⟩ := whole.mp yes
    rw [and_eq_true, decide_eq_true_eq] at yes
    rw [closed.presentAuth] at first
    rw [items]
    refine ⟨?_, tabulate_exact nodup first⟩
    exact (subperm_of_subset nodup inside).perm_of_length_le (le_of_eq yes.2.symm)

theorem build_some (order : HashOrder GraphSite) {sortContext : EventMap Id C}
    (fits : sortContext.keys.length ≤ DenseIndex.maxIndex + 1) : ∃ graph, build order sortContext = some graph := by
  obtain ⟨nodup, inside, _⟩ := topological_spec order sortContext
  have room : (topological order sortContext).length ≤ DenseIndex.maxIndex + 1 :=
    Nat.le_trans (subperm_of_subset nodup inside).length_le fits
  obtain ⟨index, indexed, _⟩ := (DenseIndex.tryBuild_nodup nodup).1 room
  exact ⟨_, by rw [build, indexed]⟩

structure Represents (graph : AuthGraph Id) (events : EventMap Id C) : Prop where
  perm : graph.index.items.Perm events.keys
  exactRows : Exact (contextAuth events) graph.index.items graph.authBitmaps

theorem contextAuth_insert (events : EventMap Id C) (event : LeanEvent Id C) (id : Id) :
    contextAuth (events.insert event) id = if event.eventId = id then event.authEvents else contextAuth events id := by
  rw [contextAuth, EventMap.get_insert]
  split
  · rfl
  · rfl

theorem insert_cases (graph : AuthGraph Id) (event : LeanEvent Id C) :
    event.eventId ∈ graph.index.items ∧ graph.insert event = (.ok false, graph) ∨
    event.eventId ∉ graph.index.items ∧ ((∃ reason, graph.insert event = (.error reason, graph) ∧
          ((∃ cited ∈ event.authEvents, cited ∉ graph.index.items) ∨ DenseIndex.maxIndex < graph.index.items.length)) ∨
        (∀ cited ∈ event.authEvents, cited ∈ graph.index.items) ∧
          ∃ index : DenseIndex Id, index.items = graph.index.items ++ [event.eventId] ∧
            graph.insert event = (.ok true, ⟨index,
              graph.authBitmaps ++ [gather graph.index.items graph.authBitmaps event.authEvents],
              graph.complete⟩)) := by
  have known : (graph.index.indexOf event.eventId).isSome = true ↔ event.eventId ∈ graph.index.items := isSome_idxOf?
  unfold insert
  by_cases mem : event.eventId ∈ graph.index.items
  · exact .inl ⟨mem, if_pos (known.mpr mem)⟩
  · refine .inr ⟨mem, ?_⟩
    rw [if_neg fun old => mem (known.mp old)]
    have cited : (event.authEvents.filter fun id => (graph.index.indexOf id).isNone) = [] ↔
        ∀ cited ∈ event.authEvents, cited ∈ graph.index.items := by
      rw [filter_eq_nil_iff]
      refine forall₂_congr fun id _ => ?_
      rw [not_eq_true, Option.isNone_eq_false_iff, DenseIndex.indexOf, isSome_idxOf?]
    cases missing : MissingEvents.check (event.authEvents.filter fun id => (graph.index.indexOf id).isNone) with
    | error events =>
      refine .inl ⟨_, rfl, .inl ?_⟩
      by_contra none
      have all := cited.mpr fun id cites => by_contra fun absent => none ⟨id, cites, absent⟩
      rw [check_ok.mpr all] at missing
      cases missing
    | ok value =>
      obtain ⟨fits, grown⟩ := DenseIndex.tryPush_fresh graph.index mem
      cases pushed : graph.index.tryPush event.eventId with
      | error reason =>
        refine .inl ⟨.indexTooLarge reason, rfl, .inr ?_⟩
        by_contra room
        obtain ⟨index, ok, _⟩ := fits (Nat.not_lt.mp room)
        rw [pushed] at ok
        cases ok
      | ok index => exact .inr ⟨cited.mp (check_ok.mp missing), index, grown index pushed, rfl⟩

theorem Represents.insert {graph : AuthGraph Id} {events : EventMap Id C} (represents : Represents graph events)
    {event : LeanEvent Id C} (fresh : event.eventId ∉ graph.index.items)
    (known : ∀ cited ∈ event.authEvents, cited ∈ graph.index.items) {index : DenseIndex Id}
    (items : index.items = graph.index.items ++ [event.eventId]) (complete : Bool) :
    Represents ⟨index, graph.authBitmaps ++ [gather graph.index.items graph.authBitmaps event.authEvents],
      complete⟩ (events.insert event) := by
  have others : ∀ id ∈ graph.index.items, contextAuth events id = contextAuth (events.insert event) id := by
    intro id mem
    rw [contextAuth_insert, if_neg]
    rintro rfl
    exact fresh mem
  have own : contextAuth (events.insert event) event.eventId = event.authEvents := by
    rw [contextAuth_insert, if_pos rfl]
  constructor
  · rw [items]
    have absent : ∀ other ∈ events.values, other.eventId ≠ event.eventId := by
      intro other mem same
      exact fresh (represents.perm.mem_iff.mpr (same ▸ mem_map_of_mem mem))
    have kept : (events.insert event).keys = events.keys ++ [event.eventId] := by
      rw [EventMap.keys, EventMap.insert, map_append, EventMap.keys,
        filter_eq_self.mpr fun other mem => by simpa using absent other mem]
      rfl
    rw [kept]
    exact represents.perm.append_right _
  · have grown := (represents.exactRows.congr others).append fresh (own.symm ▸ known)
    rwa [own, ← items] at grown


theorem isInAuthChain_iff (represents : Represents graph events) (ancestor descendant : Id) :
    graph.isInAuthChain ancestor descendant = true ↔
      descendant ∈ events.keys ∧ Relation.TransGen (Cites (contextAuth events)) ancestor descendant := by
  obtain ⟨perm, exact'⟩ := represents
  rw [← perm.mem_iff, isInAuthChain]
  constructor
  · intro chained
    cases above : graph.index.indexOf ancestor with
    | none => simp [above] at chained
    | some at' =>
      cases below : graph.index.indexOf descendant with
      | none => simp [above, below] at chained
      | some row =>
        simp only [above, below, decide_eq_true_eq] at chained
        have found := (idxOf?_eq_some_iff exact'.nodup).mp below
        obtain ⟨other, placed, path⟩ := (exact'.ancestors row descendant found at').mp chained
        obtain rfl := Option.some.inj (placed.symm.trans ((idxOf?_eq_some_iff exact'.nodup).mp above))
        exact ⟨mem_of_getElem? found, path⟩
  · rintro ⟨mem, path⟩
    obtain ⟨row, inRow, found⟩ := getElem_of_mem mem
    obtain ⟨at', inside, placed⟩ := getElem_of_mem (ancestor_mem exact'.closed mem path)
    have below : graph.index.items[row]? = some descendant := by rw [getElem?_eq_getElem inRow, found]
    have above : graph.index.items[at']? = some ancestor := by rw [getElem?_eq_getElem inside, placed]
    rw [DenseIndex.indexOf, DenseIndex.indexOf, (idxOf?_eq_some_iff exact'.nodup).mpr below,
      (idxOf?_eq_some_iff exact'.nodup).mpr above]
    exact decide_eq_true ((exact'.ancestors row descendant below at').mpr ⟨ancestor, above, path⟩)

end AuthGraph

end Rezzy.Auth
