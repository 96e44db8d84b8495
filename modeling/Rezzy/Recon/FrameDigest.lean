import Rezzy.Lib.Worklist
import Rezzy.Recon.Client

namespace Rezzy.Recon

open List

inductive RoomEventIdKind where
  | senderChosen
  | referenceHash
deriving DecidableEq, Repr

def RoomEventIdKind.requireEventIdsFrame : RoomEventIdKind → Except AlgebraicError Unit
  | .senderChosen => .error .unsupportedRoomVersion
  | .referenceHash => .ok ()

/-- The causal graph of a server, which knows finitely many events. Of the hash of an event only `h128` is used. -/
structure ForwardGraph (Id : Type) where
  known : Finset Id
  children : Id → List Id
  eventHash : Id → Except AlgebraicError Nat

def RoomAccumulator.insert (accumulator : RoomAccumulator) (h128 : Nat) : Except AlgebraicError RoomAccumulator :=
  if u64Max ≤ accumulator.knownEventCount then .error .countOverflow
  else .ok ⟨accumulator.digest ^^^ h128, accumulator.knownEventCount + 1⟩

section

variable {Id : Type} [DecidableEq Id]

structure Traversal (Id : Type) where
  queue : List Id
  visited : List Id
  accumulator : RoomAccumulator

namespace ForwardGraph

variable (graph : ForwardGraph Id)

def isKnown (id : Id) : Bool := id ∈ graph.known

def visitChild (t : Traversal Id) (child : Id) : Except AlgebraicError (Traversal Id) :=
  if child ∈ t.visited then .ok t
  else if graph.isKnown child then do
    let hash ← graph.eventHash child
    let accumulator ← t.accumulator.insert hash
    .ok ⟨t.queue ++ [child], t.visited ++ [child], accumulator⟩
  else .ok { t with visited := t.visited ++ [child] }

def traverse : Nat → Traversal Id → Except AlgebraicError RoomAccumulator
  | 0, t => .ok t.accumulator
  | turns + 1, t =>
    match t.queue with
    | [] => .ok t.accumulator
    | current :: rest => do
      let t ← (graph.children current).foldlM graph.visitChild { t with queue := rest }
      traverse turns t

/-- The queue holds every known anchor, and after it every known event at most once. -/
def computeFrameDigest (kind : RoomEventIdKind) (frameAnchors : List Id) : Except AlgebraicError RoomAccumulator := do
  kind.requireEventIdsFrame
  let anchors := frameAnchors.filter graph.isKnown
  graph.traverse (anchors.length + graph.known.card) ⟨anchors, anchors, ⟨0, 0⟩⟩

end ForwardGraph

end

open Worklist

variable {Id : Type} [DecidableEq Id]

def Traversal.frontier (t : Traversal Id) : Frontier Id := ⟨t.visited, t.queue⟩

namespace ForwardGraph

def Frame (graph : ForwardGraph Id) (anchors : List Id) (id : Id) : Prop :=
  id ∈ graph.known ∧ id ∉ anchors ∧ Reached (keptNext graph.isKnown graph.children) (anchors.filter graph.isKnown) id

variable (graph : ForwardGraph Id)

def h128 (id : Id) : Nat := (graph.eventHash id).toOption.getD 0

def Hashed (id : Id) : Prop := ∃ hash, graph.eventHash id = .ok hash

def summary (events : Finset Id) : RoomAccumulator :=
  ⟨events.fold (· ^^^ ·) 0 graph.h128, events.card⟩

variable {graph}

theorem summary_insert {id : Id} {hash : Nat} (fresh : id ∉ events) (hashed : graph.eventHash id = .ok hash) :
    graph.summary (insert id events) =
      ⟨(graph.summary events).digest ^^^ hash, (graph.summary events).knownEventCount + 1⟩ := by
  have own : graph.h128 id = hash := by rw [h128, hashed]; rfl
  simp only [summary, Finset.fold_insert fresh, Finset.card_insert_of_notMem fresh, own]
  rw [Nat.xor_comm]

variable {anchors : List Id}

open Classical in
noncomputable def frameEvents (graph : ForwardGraph Id) (anchors : List Id) : Finset Id :=
  graph.known.filter (graph.Frame anchors)

theorem mem_frameEvents {id : Id} : id ∈ graph.frameEvents anchors ↔ graph.Frame anchors id := by
  classical
  exact Finset.mem_filter.trans ⟨fun both => both.2, fun frame => ⟨frame.1, frame⟩⟩

structure Digestible (graph : ForwardGraph Id) (anchors : List Id) : Prop where
  hashed : ∀ id ∈ graph.frameEvents anchors, graph.Hashed id
  counted : (graph.frameEvents anchors).card ≤ u64Max

def digested (graph : ForwardGraph Id) (anchors visited : List Id) : Finset Id :=
  graph.known.filter fun id => id ∈ visited ∧ id ∉ anchors

structure Accounted (graph : ForwardGraph Id) (anchors : List Id) (t : Traversal Id) : Prop where
  sound : ∀ id ∈ t.visited, Reached (keptNext graph.isKnown graph.children) (anchors.filter graph.isKnown) id
  seeds : ∀ id ∈ anchors, id ∈ graph.known → id ∈ t.visited
  hashed : ∀ id ∈ graph.digested anchors t.visited, graph.Hashed id
  counted : t.accumulator = graph.summary (graph.digested anchors t.visited)
  fits : t.accumulator.knownEventCount ≤ u64Max

section

theorem Accounted.digested_visit (accounted : Accounted graph anchors t) (fresh : child ∉ t.visited) :
    graph.digested anchors (t.visited ++ [child]) =
      if child ∈ graph.known then insert child (graph.digested anchors t.visited)
      else graph.digested anchors t.visited := by
  have other : child ∈ graph.known → child ∉ anchors := fun known anchor => fresh (accounted.seeds child anchor known)
  ext id
  by_cases same : id = child
  · subst same
    by_cases known : id ∈ graph.known
    · simp [digested, known, other known]
    · simp [digested, known]
  · split <;> simp [digested, same]

theorem Accounted.visit (accounted : Accounted graph anchors t)
    (reached : Reached (keptNext graph.isKnown graph.children) (anchors.filter graph.isKnown) child) :
    (∀ t', graph.visitChild t child = .ok t' →
      t'.frontier = offer graph.isKnown t.frontier child ∧ Accounted graph anchors t') ∧
    (Digestible graph anchors → ∃ t', graph.visitChild t child = .ok t') := by
  unfold visitChild offer Traversal.frontier
  by_cases seen : child ∈ t.visited
  · rw [if_pos seen, if_pos seen]
    refine ⟨fun t' step => ?_, fun _ => ⟨t, rfl⟩⟩
    cases step
    exact ⟨rfl, accounted⟩
  · rw [if_neg seen, if_neg seen]
    have fewer := accounted.digested_visit seen
    have sound : ∀ id ∈ t.visited ++ [child],
        Reached (keptNext graph.isKnown graph.children) (anchors.filter graph.isKnown) id := by
      intro id mem
      rcases mem_append.mp mem with old | single
      · exact accounted.sound id old
      · exact mem_singleton.mp single ▸ reached
    have seeds : ∀ id ∈ anchors, id ∈ graph.known → id ∈ t.visited ++ [child] :=
      fun id anchor known => mem_append_left _ (accounted.seeds id anchor known)
    by_cases known : child ∈ graph.known
    · have isKnown : graph.isKnown child = true := decide_eq_true known
      have new : child ∉ graph.digested anchors t.visited := fun old => seen (Finset.mem_filter.mp old).2.1
      rw [if_pos known] at fewer
      rw [if_pos isKnown, if_pos isKnown]
      constructor
      · intro t' step
        obtain ⟨hash, hashed, onward⟩ := Outcome.bind_eq_ok.mp step
        obtain ⟨accumulator, inserted, done⟩ := Outcome.bind_eq_ok.mp onward
        cases done
        unfold RoomAccumulator.insert at inserted
        split at inserted
        · cases inserted
        · rename_i room
          cases inserted
          refine ⟨rfl, sound, seeds, ?_, ?_, Nat.not_le.mp room⟩
          · rw [fewer]
            exact (Finset.forall_mem_insert _ _ _).mpr ⟨⟨hash, hashed⟩, accounted.hashed⟩
          · rw [fewer, summary_insert new hashed, ← accounted.counted]
      · intro digestible
        have inside : insert child (graph.digested anchors t.visited) ⊆ graph.frameEvents anchors := by
          intro id mem
          rw [← fewer] at mem
          obtain ⟨known, visited, other⟩ := Finset.mem_filter.mp mem
          exact mem_frameEvents.mpr ⟨known, other, sound id visited⟩
        obtain ⟨hash, hashed⟩ := digestible.hashed child (inside (Finset.mem_insert_self _ _))
        have room : ¬u64Max ≤ t.accumulator.knownEventCount := by
          have bound := Nat.le_trans (Finset.card_le_card inside) digestible.counted
          rw [Finset.card_insert_of_notMem new] at bound
          rw [accounted.counted]
          exact Nat.not_le.mpr bound
        rw [hashed]
        dsimp only [bind, Except.bind]
        rw [RoomAccumulator.insert, if_neg room]
        exact ⟨_, rfl⟩
    · have unknown : ¬graph.isKnown child = true := fun isKnown => known (of_decide_eq_true isKnown)
      rw [if_neg known] at fewer
      rw [if_neg unknown, if_neg unknown]
      refine ⟨fun t' step => ?_, fun _ => ⟨_, rfl⟩⟩
      cases step
      exact ⟨rfl, sound, seeds, fewer ▸ accounted.hashed, fewer ▸ accounted.counted, accounted.fits⟩

theorem Accounted.visits {children : List Id} (accounted : Accounted graph anchors t) (reached : ∀ child ∈ children,
      Reached (keptNext graph.isKnown graph.children) (anchors.filter graph.isKnown) child) :
    (∀ t', children.foldlM graph.visitChild t = .ok t' →
      t'.frontier = children.foldl (offer graph.isKnown) t.frontier ∧ Accounted graph anchors t') ∧
    (Digestible graph anchors → ∃ t', children.foldlM graph.visitChild t = .ok t') := by
  induction children generalizing t with
  | nil =>
    refine ⟨fun t' step => ?_, fun _ => ⟨t, rfl⟩⟩
    cases step
    exact ⟨rfl, accounted⟩
  | cons child children ih =>
    obtain ⟨reached, others⟩ := forall_mem_cons.mp reached
    obtain ⟨steps, goes⟩ := accounted.visit reached
    simp only [foldlM_cons, Outcome.bind_eq_ok]
    constructor
    · rintro t' ⟨t₁, first, rest⟩
      obtain ⟨frontier, accounted₁⟩ := steps t₁ first
      obtain ⟨frontier', accounted'⟩ := (ih accounted₁ others).1 t' rest
      exact ⟨by rw [frontier', frontier, foldl_cons], accounted'⟩
    · intro digestible
      obtain ⟨t₁, first⟩ := goes digestible
      obtain ⟨t', rest⟩ := (ih (steps t₁ first).2 others).2 digestible
      exact ⟨t', t₁, first, rest⟩

variable {t t' : Traversal Id}

/-- Between turns, what waits is visited and known, and a visited known event waits or has its children visited. -/
structure Invariant (graph : ForwardGraph Id) (anchors : List Id) (t : Traversal Id) : Prop where
  accounted : Accounted graph anchors t
  queued : ∀ id ∈ t.queue, id ∈ t.visited ∧ graph.isKnown id = true
  expanded : Expanded graph.isKnown graph.children (anchors.filter graph.isKnown) t.frontier

theorem Invariant.turn {current : Id} {rest : List Id} (inv : Invariant graph anchors t)
    (queue : t.queue = current :: rest) :
    (∀ t', (graph.children current).foldlM graph.visitChild { t with queue := rest } = .ok t' →
      Invariant graph anchors t' ∧ outstanding graph.known.toList t'.frontier <
        outstanding graph.known.toList t.frontier) ∧
    (Digestible graph anchors →
      ∃ t', (graph.children current).foldlM graph.visitChild { t with queue := rest } = .ok t') := by
  obtain ⟨visited, known⟩ := inv.queued current (queue ▸ mem_cons_self)
  have reached : ∀ child ∈ graph.children current,
      Reached (keptNext graph.isKnown graph.children) (anchors.filter graph.isKnown) child := by
    intro child _
    exact (inv.accounted.sound current visited).step (by rwa [keptNext, if_pos known])
  have popped : Accounted graph anchors { t with queue := rest } := ⟨inv.accounted.sound, inv.accounted.seeds,
    inv.accounted.hashed, inv.accounted.counted, inv.accounted.fits⟩
  obtain ⟨steps, goes⟩ := popped.visits reached
  refine ⟨fun t' step => ?_, goes⟩
  obtain ⟨frontier, accounted⟩ := steps t' step
  have turn : expand popFront graph.isKnown graph.children t.frontier = some t'.frontier := by
    rw [frontier, expand, Traversal.frontier, queue]
    rfl
  obtain ⟨queued, expanded⟩ := expand_expanded popFront_pops.perm inv.queued inv.expanded turn
  exact ⟨⟨accounted, queued, expanded⟩, expand_fewer popFront_pops.perm graph.isKnown graph.children _
    (fun id known => Finset.mem_toList.mpr (of_decide_eq_true known)) _ _ turn⟩

theorem Invariant.stopped (inv : Invariant graph anchors t) (empty : t.queue = []) :
    (Except.ok t.accumulator : Except AlgebraicError RoomAccumulator) = .ok accumulator ↔
      Digestible graph anchors ∧ accumulator = graph.summary (graph.frameEvents anchors) := by
  have all : graph.digested anchors t.visited = graph.frameEvents anchors := by
    ext id
    rw [mem_frameEvents, digested, Finset.mem_filter]
    refine and_congr_right fun known => ⟨fun both => ⟨both.2, inv.accounted.sound id both.1⟩, fun both => ⟨?_, both.1⟩⟩
    refine both.2.subset_of_closed (· ∈ t.visited) inv.expanded.1 fun x y visited edge => ?_
    unfold keptNext at edge
    split at edge
    · rename_i known
      have waits := (inv.expanded.2 x visited known).resolve_left (by simp [Traversal.frontier, empty])
      exact waits y edge
    · cases edge
  have digestible : Digestible graph anchors := by
    have fits := inv.accounted.fits
    rw [inv.accounted.counted, all] at fits
    exact ⟨all ▸ inv.accounted.hashed, fits⟩
  rw [Except.ok.injEq, inv.accounted.counted, all]
  exact ⟨fun same => ⟨digestible, same.symm⟩, fun both => both.2.symm⟩

theorem traverse_iff {n : Nat} (inv : Invariant graph anchors t)
    (enough : outstanding graph.known.toList t.frontier ≤ n) {accumulator : RoomAccumulator} :
    graph.traverse n t = .ok accumulator ↔
      Digestible graph anchors ∧ accumulator = graph.summary (graph.frameEvents anchors) := by
  induction n generalizing t with
  | zero =>
    have empty : t.queue = [] := length_eq_zero_iff.mp (Nat.le_zero.mp (Nat.le_trans (Nat.le_add_right _ _) enough))
    exact inv.stopped empty
  | succ n ih =>
    unfold traverse
    split
    · rename_i empty
      exact inv.stopped empty
    · rename_i current rest queue
      obtain ⟨steps, goes⟩ := inv.turn queue
      rw [Outcome.bind_eq_ok]
      constructor
      · rintro ⟨t', step, onward⟩
        obtain ⟨inv', fewer⟩ := steps t' step
        exact (ih inv' (by omega)).mp onward
      · intro both
        obtain ⟨t', step⟩ := goes both.1
        obtain ⟨inv', fewer⟩ := steps t' step
        exact ⟨t', step, (ih inv' (by omega)).mpr both⟩

end

theorem computeFrameDigest_iff : graph.computeFrameDigest .referenceHash anchors = .ok accumulator ↔
      Digestible graph anchors ∧ accumulator = graph.summary (graph.frameEvents anchors) := by
  have known : ∀ id ∈ anchors.filter graph.isKnown, id ∈ anchors ∧ graph.isKnown id = true :=
    fun id seed => mem_filter.mp seed
  have none : graph.digested anchors (anchors.filter graph.isKnown) = ∅ :=
    Finset.filter_eq_empty_iff.mpr fun id _ both => both.2 (known id both.1).1
  have start : Accounted graph anchors ⟨anchors.filter graph.isKnown, anchors.filter graph.isKnown, ⟨0, 0⟩⟩ := by
    refine ⟨fun id seed => .seed seed, fun id anchor known => mem_filter.mpr ⟨anchor, decide_eq_true known⟩,
      ?_, ?_, Nat.zero_le _⟩
    · rw [none]
      nofun
    · rw [none]
      rfl
  refine traverse_iff (t := ⟨_, _, _⟩) ⟨start, fun id seed => ⟨seed, (known id seed).2⟩, fun _ seed => seed,
    fun id seed _ => .inl seed⟩ (Nat.add_le_add_left ?_ _)
  exact Nat.le_trans (length_filter_le _ _) (Nat.le_of_eq (Finset.length_toList _))

section

variable {other : ForwardGraph Id} {others : List Id} (known : other.known = graph.known)
  (children : ∀ id child, child ∈ other.children id ↔ child ∈ graph.children id)
  (same : ∀ id, id ∈ others ↔ id ∈ anchors)
include known children same

theorem frameEvents_congr : other.frameEvents others = graph.frameEvents anchors := by
  have isKnown : other.isKnown = graph.isKnown := by
    funext id
    rw [isKnown, isKnown, known]
  have edges : ∀ x y, y ∈ keptNext other.isKnown other.children x ↔ y ∈ keptNext graph.isKnown graph.children x := by
    intro x y
    unfold keptNext
    rw [isKnown]
    split
    · exact children x y
    · exact Iff.rfl
  have seeds : ∀ x, x ∈ others.filter other.isKnown ↔ x ∈ anchors.filter graph.isKnown := by
    intro x
    rw [mem_filter, mem_filter, same, isKnown]
  ext id
  rw [mem_frameEvents, mem_frameEvents, Frame, Frame, known, same]
  refine and_congr_right fun _ => and_congr_right fun _ => ⟨fun reached => ?_, fun reached => ?_⟩
  · exact reached.mono (fun x y => (edges x y).mp) fun x => (seeds x).mp
  · exact reached.mono (fun x y => (edges x y).mpr) fun x => (seeds x).mpr

end

/-- The digest is that of the known events behind the known anchors, each once, whatever the order of the anchors and
    of the children. -/
theorem computeFrameDigest_exact (graph : ForwardGraph Id) (anchors : List Id) :
    graph.computeFrameDigest .senderChosen anchors = .error .unsupportedRoomVersion ∧
    (∀ accumulator, graph.computeFrameDigest .referenceHash anchors = .ok accumulator ↔
      Digestible graph anchors ∧ accumulator = graph.summary (graph.frameEvents anchors)) ∧
    ∀ (other : ForwardGraph Id) (others : List Id), other.known = graph.known → other.eventHash = graph.eventHash →
      (∀ id child, child ∈ other.children id ↔ child ∈ graph.children id) → (∀ id, id ∈ others ↔ id ∈ anchors) →
      ∀ accumulator, other.computeFrameDigest .referenceHash others = .ok accumulator ↔
        graph.computeFrameDigest .referenceHash anchors = .ok accumulator := by
  refine ⟨rfl, fun accumulator => computeFrameDigest_iff, fun other others known hashes children same accumulator => ?_⟩
  have events := frameEvents_congr known children same
  have summary : other.summary = graph.summary := by
    funext events
    unfold ForwardGraph.summary ForwardGraph.h128
    rw [hashes]
  have hashed : other.Hashed = graph.Hashed := by
    funext id
    unfold Hashed
    rw [hashes]
  rw [computeFrameDigest_iff, computeFrameDigest_iff, summary, events]
  refine and_congr_left fun _ => ⟨fun digestible => ?_, fun digestible => ?_⟩
  · exact ⟨by rw [← hashed, ← events]; exact digestible.hashed, by rw [← events]; exact digestible.counted⟩
  · exact ⟨by rw [hashed, events]; exact digestible.hashed, by rw [events]; exact digestible.counted⟩

end ForwardGraph

end Rezzy.Recon
