import Rezzy.Resolve.KahnOrder
import Rezzy.Resolve.MainlineOrder

namespace Rezzy.Resolve

open List

section

open Basespec Auth Permuted

variable {Id C : Type} [LinearOrder Id]

namespace KahnSortInputs

abbrev Cites (inputs : KahnSortInputs Id C) : Id → Id → Prop := Peel.Cites inputs.parentIds

def OnOrBehindCycle (inputs : KahnSortInputs Id C) (id : Id) : Prop :=
  ∃ origin, Relation.TransGen inputs.Cites origin origin ∧ Relation.ReflTransGen inputs.Cites origin id

def Acyclic (inputs : KahnSortInputs Id C) : Prop :=
  ∀ id ∈ inputs.events.keys, ¬Relation.TransGen inputs.Cites id id

variable {inputs : KahnSortInputs Id C}

structure Available (inputs : KahnSortInputs Id C) (out : List Id) (event : LeanEvent Id C) : Prop where
  member : event ∈ inputs.events.values
  waiting : event.eventId ∉ out
  parents : ∀ parent ∈ inputs.parents event, parent ∈ out

variable [EventContent C]

/-- Each event of the list was available in its turn, and the heap takes it before all others that were. -/
def Lexicographic (inputs : KahnSortInputs Id C) (out : List Id) : Prop :=
  ∀ before id after, out = before ++ id :: after → ∃ event, event.eventId = id ∧
    inputs.Available before event ∧ ∀ other, inputs.Available before other → other ≠ event →
      (inputs.priority event).popsBefore inputs.version (inputs.priority other) = true

theorem Lexicographic.snoc (lexicographic : inputs.Lexicographic out) (available : inputs.Available out event)
    (first : ∀ other, inputs.Available out other → other ≠ event →
      (inputs.priority event).popsBefore inputs.version (inputs.priority other) = true) :
    inputs.Lexicographic (out ++ [event.eventId]) := Peel.forall_split_snoc lexicographic ⟨event, rfl, available, first⟩

theorem Lexicographic.parentsFirst (lexicographic : inputs.Lexicographic out) :
    Peel.ParentsFirst inputs.parentIds out := by
  intro before id after split parent cited
  obtain ⟨event, rfl, available, _⟩ := lexicographic before id after split
  rw [parentIds_of_mem available.member] at cited
  exact available.parents parent cited

section

structure OrderInv (inputs : KahnSortInputs Id C) (progress : Progress Id C) : Prop where
  counted : ProgressInv inputs progress
  lexicographic : inputs.Lexicographic progress.result

theorem ProgressInv.waits_iff (inv : ProgressInv inputs progress) (mem : event ∈ inputs.events.values) :
    event.eventId ∈ progress.result ++ ids progress.queue ↔
      ∀ parent ∈ inputs.parents event, parent ∈ progress.result := by
  have known : event.eventId ∈ inputs.events.keys := mem_map_of_mem mem
  have degrees := inv.peels.degrees event.eventId known
  refine (inv.peels.cleared.free event.eventId known).trans ?_
  dsimp only
  rw [degrees, parentIds_of_mem mem, length_eq_zero_iff, filter_eq_nil_iff]
  constructor
  · exact fun free parent cited => by_contra fun outside => free parent cited (decide_eq_true outside)
  · exact fun all parent cited outside => of_decide_eq_true outside (all parent cited)

theorem OrderInv.mem_queue (inv : OrderInv inputs progress) (available : inputs.Available progress.result event) :
    inputs.priority event ∈ progress.queue := by
  have waits := (mem_append.mp ((inv.counted.waits_iff available.member).mpr available.parents)).resolve_left
    available.waiting
  obtain ⟨top, mem, same⟩ := mem_map.mp waits
  obtain ⟨other, inEvents, rfl⟩ := inv.counted.heaped top mem
  rwa [EventMap.mem_unique inEvents available.member same] at mem

theorem OrderInv.available (inv : OrderInv inputs progress) (mem : event ∈ inputs.events.values)
    (queued : inputs.priority event ∈ progress.queue) : inputs.Available progress.result event := by
  have waits : event.eventId ∈ ids progress.queue := mem_map.mpr ⟨_, queued, rfl⟩
  refine ⟨mem, fun out => ?_, (inv.counted.waits_iff mem).mp (mem_append_right _ waits)⟩
  exact (nodup_append.mp inv.counted.peels.cleared.nodup).2.2 _ out _ waits rfl

theorem turn_order (order : Order) (s t : Progress Id C) (inv : OrderInv inputs s)
    (step : inputs.turn order s = some t) : OrderInv inputs t := by
  have progress := (turn_progress order s t inv.counted step).1
  obtain ⟨result, degree, queue⟩ := s
  unfold turn at step
  cases popped : popFirst (SortPriority.popsBefore inputs.version) queue with
  | none => simp [popped] at step
  | some pair =>
    obtain ⟨top, rest⟩ := pair
    simp only [popped, Option.some.injEq] at step
    subst step
    have perm := popFirst_perm popped
    have queued : top ∈ queue := perm.mem_iff.mpr (by simp)
    obtain ⟨event, inEvents, rfl⟩ := inv.counted.heaped top queued
    have decides := inv.counted.heaped.decides
    refine ⟨progress, inv.lexicographic.snoc (inv.available inEvents queued) fun other available differ => ?_⟩
    have waits := inv.mem_queue available
    have apart : inputs.priority event ≠ inputs.priority other := fun same =>
      differ (congrArg SortPriority.event same).symm
    have later := (mem_cons.mp (perm.mem_iff.mp waits)).resolve_left apart.symm
    have least := popFirst_least decides popped _ later
    rcases decides.total _ queued _ waits apart with before | after
    · exact before
    · rw [least] at after
      cases after

end

theorem sorted_order (inputs : KahnSortInputs Id C) (order : Order) : inputs.Lexicographic (inputs.sorted order) ∧
      ∀ event ∈ inputs.events.values, event.eventId ∉ inputs.sorted order →
        ∃ parent ∈ inputs.parents event, parent ∉ inputs.sorted order := by
  have start : OrderInv inputs ⟨[], inputs.inDegree, inputs.roots order⟩ := by
    exact ⟨progressInv_initial inputs order, fun before id after split => by simp at split⟩
  have final := Loop.run_invariant (turn_order order) inputs.events.values.length start
  have stopped := sorted_finished inputs order
  unfold sorted
  revert final stopped
  generalize Loop.run (inputs.turn order) _ _ = progress
  intro final stopped
  refine ⟨final.lexicographic, fun event mem waiting => ?_⟩
  have empty : progress.queue = [] := by
    unfold turn at stopped
    cases popped : popFirst (SortPriority.popsBefore inputs.version) progress.queue with
    | none => exact popFirst_none.mp popped
    | some pair => simp [popped] at stopped
  by_contra closed
  have available : inputs.Available progress.result event :=
    ⟨mem, waiting, fun parent cited => by_contra fun outside => closed ⟨parent, cited, outside⟩⟩
  have queued := final.mem_queue available
  rw [empty] at queued
  cases queued

theorem mem_sorted (order : Order) (id : Id) :
    id ∈ inputs.sorted order ↔ id ∈ inputs.events.keys ∧ ¬inputs.OnOrBehindCycle id := by
  obtain ⟨nodup, inside⟩ := sorted_spec inputs order
  obtain ⟨lexicographic, stuck⟩ := sorted_order inputs order
  have waits : ∀ other ∈ inputs.events.keys, other ∉ inputs.sorted order →
      ∃ parent ∈ inputs.parentIds other, parent ∉ inputs.sorted order := by
    intro other known waiting
    obtain ⟨event, found⟩ := EventMap.mem_keys.mp known
    obtain ⟨inEvents, rfl⟩ := EventMap.get_eq_some.mp found
    rw [parentIds_of_mem inEvents]
    exact stuck event inEvents waiting
  have clear : id ∈ inputs.events.keys → (id ∈ inputs.sorted order ↔ ¬inputs.OnOrBehindCycle id) :=
    lexicographic.parentsFirst.mem_iff_clear nodup (fun _ _ _ cited => (parentIds_known cited).1) waits
  exact ⟨fun out => ⟨inside id out, (clear (inside id out)).mp out⟩, fun both => (clear both.1).mpr both.2⟩

/-- The sort takes events from the heap while it can and appends the others by timestamp and id. It depends on
    no iteration order. -/
theorem sort_exact (order : Order) (inputs : KahnSortInputs Id C) :
    (inputs.sort order).Perm inputs.events.keys ∧
    (inputs.Acyclic → inputs.Lexicographic (inputs.sort order)) ∧
    (∃ rest, inputs.sort order = inputs.sorted order ++ rest ∧ rest.Pairwise inputs.stuckBefore) ∧
    inputs.Lexicographic (inputs.sorted order) ∧
    (∀ id, id ∈ inputs.sorted order ↔ id ∈ inputs.events.keys ∧ ¬inputs.OnOrBehindCycle id) ∧
    (∀ id, ∀ next ∈ inputs.adjacency order id, inputs.events.containsKey next = true) ∧
    ∀ (other : Order) (events : EventMap Id C), events.values.Perm inputs.events.values →
      ({ inputs with events := events } : KahnSortInputs Id C).sort other = inputs.sort order := by
  have perm := sort_perm inputs order
  have lexicographic := (sorted_order inputs order).1
  have split : ∃ rest, inputs.sort order = inputs.sorted order ++ rest ∧ rest.Pairwise inputs.stuckBefore := by
    unfold sort withCycleDiagnostics
    dsimp only
    by_cases cyclic : (inputs.sorted order).length ≠ inputs.events.values.length
    · rw [if_pos cyclic]
      exact ⟨_, rfl, pairwise_insertionSort _ _⟩
    · rw [if_neg cyclic]
      exact ⟨[], (append_nil _).symm, .nil⟩
  refine ⟨perm, fun acyclic => ?_, split, lexicographic, mem_sorted order, fun id next cited => ?_,
    fun other events same => ?_⟩
  · obtain ⟨rest, appended, _⟩ := split
    have nothing : rest = [] := by
      rw [eq_nil_iff_forall_not_mem]
      intro id left
      have known : id ∈ inputs.events.keys := perm.mem_iff.mp (appended ▸ mem_append_right _ left)
      have nodup := perm.nodup_iff.mpr inputs.events.distinct
      rw [appended] at nodup
      have waiting : id ∉ inputs.sorted order := fun out => (nodup_append.mp nodup).2.2 id out id left rfl
      have caught : inputs.OnOrBehindCycle id := by
        by_contra clear
        exact waiting ((mem_sorted order id).mpr ⟨known, clear⟩)
      obtain ⟨origin, cycle, _⟩ := caught
      obtain ⟨_, _, cites⟩ := Relation.TransGen.tail'_iff.mp cycle
      exact acyclic origin (parentIds_known cites).2 cycle
    rw [appended, nothing, append_nil]
    exact lexicographic
  · obtain ⟨event, member, rfl⟩ := adjacency_keys order id next cited
    simp [EventMap.containsKey, EventMap.get_of_mem member]
  · have alike : Same { inputs with events := events } inputs := ⟨same, rfl, fun _ _ => rfl⟩
    exact alike.sort other order

end KahnSortInputs

namespace Sample

open Basespec.Sample

def pairOfTopics : KahnSortInputs Nat Content where
  events := ⟨[topic 4 "@a:x" [], topic 5 "@a:x" []], by decide⟩
  sortContext := fun _ => none
  createEv := none
  version := .v2

end Sample

open Sample Basespec.Sample

/-- What the heap gives out first is not the least of the available events but the greatest. -/
theorem emitted_not_least :
    (pairOfTopics.sort .asListed = [4, 5] ∧ ∀ id ∈ pairOfTopics.events.keys, pairOfTopics.parentIds id = []) ∧
    ¬∀ before id after, pairOfTopics.sort .asListed = before ++ id :: after →
      ∃ event, event.eventId = id ∧ pairOfTopics.Available before event ∧
        ∀ other, pairOfTopics.Available before other → other ≠ event →
          (pairOfTopics.priority event).cmp pairOfTopics.version (pairOfTopics.priority other) = .lt := by
  have sorted : pairOfTopics.sort .asListed = [4, 5] := by decide
  refine ⟨⟨sorted, by decide⟩, fun least => ?_⟩
  obtain ⟨event, here, available, first⟩ := least [] 4 [5] sorted
  have members : pairOfTopics.events.values = [topic 4 "@a:x" [], topic 5 "@a:x" []] := rfl
  have emitted : event = topic 4 "@a:x" [] := by
    have member := available.member
    rw [members] at member
    rcases mem_cons.mp member with same | same
    · exact same
    · rw [mem_singleton.mp same] at here
      cases here
  have other : pairOfTopics.Available [] (topic 5 "@a:x" []) :=
    ⟨by rw [members]; simp, by simp, fun parent cited => by cases cited⟩
  have differ : topic 5 "@a:x" [] ≠ event := by
    rw [emitted]
    exact fun same => absurd (congrArg LeanEvent.eventId same) (by decide)
  have less := first _ other differ
  rw [emitted] at less
  revert less
  decide

end

open Basespec Auth Permuted

variable {Id C : Type}

def plChain (provider : EventProvider Id C) (version : StateResVersion) (id : Id) : Nat → Option Id
  | 0 => some id
  | k + 1 => (plChain provider version id k).bind (plEdge provider version)

theorem plChain_head {provider : EventProvider Id C} {version : StateResVersion} {id next : Id}
    (edge : plEdge provider version id = some next) (k : Nat) :
    plChain provider version id (k + 1) = plChain provider version next k := by
  induction k with
  | zero => exact edge
  | succ k ih =>
    show (plChain provider version id (k + 1)).bind _ = (plChain provider version next k).bind _
    rw [ih]

theorem plChain_stop {provider : EventProvider Id C} {version : StateResVersion} {id : Id}
    (leaf : plEdge provider version id = none) (k : Nat) : plChain provider version id (k + 1) = none := by
  induction k with
  | zero => exact leaf
  | succ k ih =>
    show (plChain provider version id (k + 1)).bind _ = none
    rw [ih]
    rfl

def MainlineIndex (mainline : List Id) (id : Id) (position : Nat) : Prop :=
  mainline[position]? = some id ∧ ∀ later, position < later → mainline[later]? ≠ some id

/-- The index of the first mainline member on the way along the power levels edges, or the length of the mainline
    if there is none on the way. -/
def ClosestPosition (provider : EventProvider Id C) (version : StateResVersion) (mainline : List Id) (id : Id)
    (position : Nat) : Prop :=
  (∃ k member, plChain provider version id k = some member ∧ MainlineIndex mainline member position ∧
    ∀ j < k, ∀ other, plChain provider version id j = some other → other ∉ mainline) ∨
  (position = mainline.length ∧ ∀ k other, plChain provider version id k = some other → other ∉ mainline)

section

variable [DecidableEq Id]

theorem mainlinePositions_append (mainline : List Id) (last id : Id) : mainlinePositions (mainline ++ [last]) id =
      if id = last then some mainline.length else mainlinePositions mainline id := by
  unfold mainlinePositions
  rw [zipIdx_append, foldl_append]
  simp [Function.update_apply]

theorem mainlinePositions_iff {mainline : List Id} {id : Id} {position : Nat} :
    mainlinePositions mainline id = some position ↔ MainlineIndex mainline id position := by
  induction mainline using reverseRecOn with
  | nil => simp [mainlinePositions, MainlineIndex]
  | append_singleton mainline last ih =>
    rw [mainlinePositions_append]
    unfold MainlineIndex at ih ⊢
    by_cases same : id = last
    · subst same
      rw [if_pos rfl, Option.some.injEq]
      constructor
      · rintro rfl
        refine ⟨by simp, fun later past => ?_⟩
        rw [getElem?_eq_none (by simp; omega)]
        exact fun impossible => (by cases impossible)
      · rintro ⟨here, final⟩
        have bound := (List.getElem?_eq_some_iff.mp here).1
        rw [length_append, length_singleton] at bound
        by_contra earlier
        exact final mainline.length (by omega) (by simp)
    · rw [if_neg same, ih]
      have kept : ∀ place : Nat, (mainline ++ [last])[place]? = some id ↔ mainline[place]? = some id := by
        intro place
        rw [getElem?_append]
        split
        · rfl
        · rename_i past
          rw [getElem?_eq_none (Nat.le_of_not_lt past), getElem?_singleton]
          split <;> simp [Ne.symm same]
      simp only [ne_eq, kept]

theorem mainlinePositions_none {mainline : List Id} {id : Id} :
    mainlinePositions mainline id = none ↔ id ∉ mainline := by
  induction mainline using reverseRecOn with
  | nil => simp [mainlinePositions]
  | append_singleton mainline last ih =>
    rw [mainlinePositions_append, mem_append, mem_singleton, not_or, ← ih]
    by_cases same : id = last
    · simp [same]
    · simp [same]

theorem lands_iff {id : Id} {position : Nat} :
    Chase.Lands (plEdge provider version) (mainlinePositions mainline) id position ↔
      ∃ k member, plChain provider version id k = some member ∧ MainlineIndex mainline member position ∧
        ∀ j < k, ∀ other, plChain provider version id j = some other → other ∉ mainline := by
  constructor
  · intro lands
    induction lands with
    | here found => exact ⟨0, _, rfl, mainlinePositions_iff.mp found, fun j impossible => by omega⟩
    | @next x y p plain edge _ ih =>
      obtain ⟨k, member, chain, index, clear⟩ := ih
      refine ⟨k + 1, member, (plChain_head edge k).trans chain, index, fun j below other met => ?_⟩
      cases j with
      | zero =>
        obtain rfl : x = other := Option.some.inj met
        exact mainlinePositions_none.mp plain
      | succ j => exact clear j (by omega) other ((plChain_head edge j).symm.trans met)
  · intro ⟨k, member, chain, index, clear⟩
    induction k generalizing id with
    | zero =>
      obtain rfl : id = member := Option.some.inj chain
      exact .here (mainlinePositions_iff.mpr index)
    | succ k ih =>
      have plain := mainlinePositions_none.mpr (clear 0 (by omega) id rfl)
      cases edge : plEdge provider version id with
      | none =>
        rw [plChain_stop edge] at chain
        cases chain
      | some next =>
        refine .next plain edge (ih ((plChain_head edge k).symm.trans chain) fun j below other met => ?_)
        exact clear (j + 1) (by omega) other ((plChain_head edge j).trans met)

theorem settled_iff {id : Id} :
    Chase.Settled (plEdge provider version) (mainlinePositions mainline) mainline.length id position ↔
      ClosestPosition provider version mainline id position := by
  unfold Chase.Settled ClosestPosition
  rw [lands_iff]
  refine or_congr_right (and_congr_right fun _ => ?_)
  simp only [lands_iff]
  constructor
  · intro never
    -- The first mem met would be a place to land.
    have clear : ∀ k, ∀ j < k, ∀ other, plChain provider version id j = some other → other ∉ mainline := by
      intro k
      induction k with
      | zero => exact fun j below => by omega
      | succ k ih =>
        intro j below other met inside
        rcases Nat.lt_succ_iff_lt_or_eq.mp below with earlier | rfl
        · exact ih j earlier other met inside
        · cases found : mainlinePositions mainline other with
          | none => exact mainlinePositions_none.mp found inside
          | some q => exact never q ⟨j, other, met, mainlinePositions_iff.mp found, ih⟩
    exact fun k other met => clear (k + 1) k (Nat.lt_succ_self k) other met
  · rintro never q ⟨k, mem, met, index, _⟩
    exact never k mem met (mem_of_getElem? index.1)

theorem ClosestPosition.unique {id : Id} (first : ClosestPosition provider version mainline id left)
    (second : ClosestPosition provider version mainline id right) : left = right :=
  (settled_iff.mpr first).unique (settled_iff.mpr second)

end

section

variable [LinearOrder Id]

variable {provider : EventProvider Id C} {nodes : List Id} (lists : Lists nodes provider)
  (events : List (LeanEvent Id C)) (mainline : List Id) (version : StateResVersion)
include lists

theorem computeClosestMainlinePositions_settled (mem : event ∈ events) :
    ∃ position, computeClosestMainlinePositions events mainline provider nodes version event.eventId =
        some (.done position) ∧
      ClosestPosition provider version mainline event.eventId position := by
  obtain ⟨position, found, settled⟩ := closestPosition_found lists events mainline version mem
  exact ⟨position, found, settled_iff.mp settled⟩

/-- Every event gets the index of the first mainline member on its way, whatever else is in the list, and the mainline
    sort is the sort by these positions. -/
theorem mainline_positions_exact :
    (∀ event ∈ events, ∃ position,
      computeClosestMainlinePositions events mainline provider nodes version event.eventId =
        some (.done position) ∧
      ClosestPosition provider version mainline event.eventId position) ∧
    (∀ others : List (LeanEvent Id C), ∀ event ∈ events, event ∈ others →
      computeClosestMainlinePositions others mainline provider nodes version event.eventId =
        computeClosestMainlinePositions events mainline provider nodes version event.eventId) ∧
    ∀ position : Id → Nat,
      (∀ event ∈ events, ClosestPosition provider version mainline event.eventId (position event.eventId)) →
      mainlineSort events mainline provider nodes version = events.insertionSort (mainlineBefore position) := by
  refine ⟨fun event member => computeClosestMainlinePositions_settled lists events mainline version member,
    fun others event here there => ?_, fun position right => ?_⟩
  · obtain ⟨left, foundLeft, closestLeft⟩ :=
      computeClosestMainlinePositions_settled lists events mainline version here
    obtain ⟨right, foundRight, closestRight⟩ :=
      computeClosestMainlinePositions_settled lists others mainline version there
    rw [foundLeft, foundRight, closestLeft.unique closestRight]
  · have same : ∀ event ∈ events,
        positionOf (computeClosestMainlinePositions events mainline provider nodes version) mainline.length
          event.eventId = position event.eventId := by
      intro event member
      obtain ⟨found, known, closest⟩ :=
        computeClosestMainlinePositions_settled lists events mainline version member
      unfold positionOf
      rw [known]
      exact closest.unique (right event member)
    unfold mainlineSort
    have agree := map_insertionSort (mainlineBefore (positionOf (computeClosestMainlinePositions events mainline
      provider nodes version) mainline.length)) (mainlineBefore (C := C) position) id events fun a ha b hb =>
        ⟨mainlineBefore_congr (same a ha).symm (same b hb).symm, mainlineBefore_congr (same a ha) (same b hb)⟩
    simpa using agree

end

namespace Sample

open Basespec.Sample

def lonelyTopic : EventMap Nat Content := ⟨[create "12", joinA [], openLevels, topic 4 "@a:x" [3]], by decide⟩

theorem lonelyTopic_lists : Lists lonelyTopic.keys lonelyTopic.get :=
  fun _ event found => EventMap.mem_keys.mpr ⟨event, found⟩

end Sample

open Sample Basespec.Sample

theorem mainline_positions_exact_topic :
    ∃ position,
      computeClosestMainlinePositions [joinA [], topic 4 "@a:x" [3]] [3] lonelyTopic.get lonelyTopic.keys .v2_1 4 =
        some (.done position) ∧
      ClosestPosition lonelyTopic.get .v2_1 [3] 4 position :=
  (mainline_positions_exact lonelyTopic_lists [joinA [], topic 4 "@a:x" [3]] [3] .v2_1).1 (topic 4 "@a:x" [3])
    (mem_cons_of_mem _ (mem_singleton_self _))

end Rezzy.Resolve
