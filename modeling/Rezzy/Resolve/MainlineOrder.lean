import Mathlib.Data.List.Perm.Subperm
import Rezzy.Resolve.Sorting

namespace Rezzy.Resolve

open Basespec Auth Permuted List Loop Option

variable {Id C : Type}

structure AgreeOn (inside : Id → Prop) (left right : EventProvider Id C) : Prop where
  same : ∀ id, inside id → left id = right id
  closed : ∀ id event, inside id → left id = some event → ∀ aid ∈ event.authEvents, inside aid

theorem AgreeOn.everywhere (provider : EventProvider Id C) : AgreeOn (fun _ => True) provider provider :=
  ⟨fun _ _ => rfl, fun _ _ _ _ _ _ => trivial⟩

theorem AgreeOn.symm {inside : Id → Prop} (agree : AgreeOn inside left right) : AgreeOn inside right left where
  same id member := (agree.same id member).symm
  closed id event member found := agree.closed id event member ((agree.same id member).trans found)

def Lists (nodes : List Id) (provider : EventProvider Id C) : Prop :=
  ∀ id event, provider id = some event → id ∈ nodes

theorem isPowerLevels_known {provider : EventProvider Id C} {id : Id}
    (found : isPowerLevels provider id = true) : ∃ event, provider id = some event := by
  unfold isPowerLevels at found
  cases known : provider id with
  | none => simp [known] at found
  | some event => exact ⟨event, rfl⟩

theorem plSearchEdges_support (lists : Lists nodes provider) (version : StateResVersion) (id : Id)
    (edges : plSearchEdges provider version id ≠ []) : id ∈ nodes := by
  cases found : provider id with
  | none => simp [plSearchEdges, found] at edges
  | some event => exact lists id event found

theorem plSearchEdges_subset (provider : EventProvider Id C) (version : StateResVersion) (id aid : Id)
    (edge : aid ∈ plSearchEdges provider version id) :
    ∃ event, provider id = some event ∧ aid ∈ event.authEvents := by
  unfold plSearchEdges at edge
  split at edge
  · rename_i event found
    split at edge
    · simp at edge
    · exact ⟨event, found, by simpa using edge⟩
  · simp at edge

theorem plEdge_known {provider : EventProvider Id C} {version : StateResVersion} {id plId : Id}
    (edge : plEdge provider version id = some plId) :
    isPowerLevels provider plId = true ∧ ∃ event, provider id = some event ∧ plId ∈ event.authEvents := by
  unfold plEdge at edge
  cases found : provider id with
  | none => simp [found] at edge
  | some event =>
    simp only [found, bind_some, LeanEvent.dagEdges_eq] at edge
    exact ⟨find?_some edge, event, rfl, mem_of_find?_eq_some edge⟩

theorem plEdge_congr {inside : Id → Prop} {left right : EventProvider Id C}
    (agree : AgreeOn inside left right) (version : StateResVersion) (id : Id) (member : inside id) :
    plEdge left version id = plEdge right version id := by
  unfold plEdge
  rw [← agree.same id member]
  cases found : left id with
  | none => rfl
  | some event =>
    simp only [bind_some, LeanEvent.dagEdges_eq]
    rw [← head?_filter, ← head?_filter]
    congr 1
    apply filter_congr
    intro aid cited
    unfold isPowerLevels
    rw [agree.same aid (agree.closed id event member found aid cited)]

section

variable [DecidableEq Id]

theorem nearestPowerLevels_congr {inside : Id → Prop} (agree : AgreeOn inside left right)
    (listsLeft : Lists nodes left) (listsRight : Lists others right) (version : StateResVersion) (id : Id)
    (member : inside id) : nearestPowerLevels left nodes version id = nearestPowerLevels right others version id := by
  unfold nearestPowerLevels
  rw [← agree.same id member]
  cases found : left id with
  | none => rfl
  | some event =>
    have reaches : ∀ x, Worklist.Reached (plSearchEdges left version) (event.dagEdges version) x → inside x := by
      intro x reached
      refine reached.subset_of_closed inside ?_ ?_
      · intro y edge
        exact agree.closed id event member found y (by simpa using edge)
      · intro y z inside edge
        obtain ⟨other, known, cited⟩ := plSearchEdges_subset left version y z edge
        exact agree.closed y other inside known z cited
    refine Nearest.walk_congr (plSearchEdges_support listsLeft version)
      (plSearchEdges_support listsRight version) ?_ ?_ _
    · intro x reached
      simp only [plSearchEdges, agree.same x (reaches x reached)]
    · intro x reached found _
      have same : isPowerLevels left x = isPowerLevels right x := by
        unfold isPowerLevels
        rw [agree.same x (reaches x reached)]
      rw [same]

theorem foldl_or_mem {α : Type} (hit : α → Bool) (l : List (α × Nat)) (init : Option α) (x : α)
    (found : l.foldl (fun found entry => found.or (if hit entry.1 then some entry.1 else none)) init =
      some x) : init = some x ∨ hit x = true ∧ ∃ depth, (x, depth) ∈ l := by
  induction l generalizing init with
  | nil => exact .inl found
  | cons entry l ih =>
    rcases ih _ found with before | ⟨hits, depth, member⟩
    · cases init with
      | some y => exact .inl (by simpa using before)
      | none =>
        simp only [none_or] at before
        split at before
        · rename_i hits
          obtain rfl := Option.some.inj before
          exact .inr ⟨hits, entry.2, by simp⟩
        · simp at before
    · exact .inr ⟨hits, depth, mem_cons_of_mem _ member⟩

theorem nearestPowerLevels_spec {provider : EventProvider Id C} {nodes : List Id}
    (lists : Lists nodes provider) (version : StateResVersion) {id plId : Id}
    (found : nearestPowerLevels provider nodes version id = some plId) :
    isPowerLevels provider plId = true ∧ ∀ inside : Id → Prop,
      AgreeOn inside provider provider → inside id → inside plId := by
  unfold nearestPowerLevels at found
  cases known : provider id with
  | none => simp [known] at found
  | some event =>
    simp only [known, bind_some] at found
    rw [Nearest.walk_eq_foldl] at found
    rcases foldl_or_mem _ _ _ _ found with impossible | ⟨hits, depth, member⟩
    · simp at impossible
    · refine ⟨hits, fun inside agree member' => ?_⟩
      have reached := Nearest.order_reached (plSearchEdges_support lists version) member
      refine reached.subset_of_closed inside ?_ ?_
      · intro y edge
        exact agree.closed id event member' known y (by simpa using edge)
      · intro y z inside edge
        obtain ⟨other, knownY, cited⟩ := plSearchEdges_subset provider version y z edge
        exact agree.closed y other inside knownY z cited

def followTurn (parent : Id → Option Id) (s : List Id × Option Id) : Option (List Id × Option Id) :=
  match s.2 with
  | none => none
  | some eid => if eid ∈ s.1 then none else some (s.1 ++ [eid], parent eid)

structure ClosedParents (inside : Id → Prop) (nodes : List Id) (parent : Id → Option Id) : Prop where
  listed : ∀ id parentId, inside id → parent id = some parentId → parentId ∈ nodes
  closed : ∀ id parentId, inside id → parent id = some parentId → inside parentId

structure FollowInv (inside : Id → Prop) (nodes : List Id) (start : Option Id) (s : List Id × Option Id) :
    Prop where
  nodup : s.1.Nodup
  listed : ∀ id ∈ s.1, id ∈ start.toList ++ nodes
  current : ∀ id ∈ s.2, id ∈ start.toList ++ nodes
  inside : ∀ id ∈ s.2, inside id

variable {inside : Id → Prop} {nodes : List Id} {parent : Id → Option Id}

theorem followTurn_invariant (parents : ClosedParents inside nodes parent) (start : Option Id)
    (s t : List Id × Option Id) (inv : FollowInv inside nodes start s) (step : followTurn parent s = some t) :
    FollowInv inside nodes start t ∧ t.1.length = s.1.length + 1 := by
  obtain ⟨mainline, current⟩ := s
  unfold followTurn at step
  cases current with
  | none => simp at step
  | some eid =>
    by_cases seen : eid ∈ mainline
    · simp [seen] at step
    · simp only [seen, if_false, Option.some.injEq] at step
      subst step
      refine ⟨⟨inv.nodup.append (by simp) (by simpa using seen), ?_, ?_, ?_⟩, by simp⟩
      · intro id member
        rcases mem_append.mp member with member | member
        · exact inv.listed id member
        · rw [mem_singleton.mp member]
          exact inv.current eid rfl
      · intro id next
        exact mem_append_right _ (parents.listed eid id (inv.inside eid rfl) next)
      · intro id next
        exact parents.closed eid id (inv.inside eid rfl) next

theorem follow_finished (parents : ClosedParents inside nodes parent) (start : Option Id)
    (member : ∀ id ∈ start, inside id) (enough : 1 + nodes.length ≤ n) :
    followTurn parent (run (followTurn parent) n ([], start)) = none ∧
      FollowInv inside nodes start (run (followTurn parent) n ([], start)) := by
  have initial : FollowInv inside nodes start ([], start) :=
    ⟨by simp, by simp, fun id first => mem_append_left _ (by simpa using first), member⟩
  have keeps := fun s t inv step => (followTurn_invariant parents start s t inv step).1
  refine ⟨?_, run_invariant keeps n initial⟩
  refine run_finished (FollowInv inside nodes start) (fun s => 1 + nodes.length - s.1.length) keeps ?_ n initial enough
  intro s t inv step
  obtain ⟨inv', longer⟩ := followTurn_invariant parents start s t inv step
  have bound := (subperm_of_subset inv'.nodup inv'.listed).length_le
  have : start.toList.length ≤ 1 := by cases start <;> simp
  rw [length_append] at bound
  omega

theorem follow_allowance (parents : ClosedParents inside nodes parent) {start : Option Id}
    (member : ∀ id ∈ start, inside id) {n : Nat} (enough : 1 + nodes.length ≤ n) :
    run (followTurn parent) n ([], start) = run (followTurn parent) (1 + nodes.length) ([], start) :=
  run_eq_of_finished (follow_finished parents start member (Nat.le_refl _)).1 enough

def MainlineCache.Valid (cache : MainlineCache Id) (parent : Id → Option Id) : Prop :=
  ∀ id cached, cache.lookup id = some cached → cached = parent id

theorem MainlineCache.Valid.insert {cache : MainlineCache Id} (valid : cache.Valid parent) {id : Id}
    (known : found = parent id) : MainlineCache.Valid ((id, found) :: cache) parent := by
  intro other cached lookup
  rw [lookup_cons] at lookup
  split at lookup
  · rename_i same
    rw [← Option.some.inj lookup, known, eq_of_beq same]
  · exact valid other cached lookup

section

variable {authContext : EventProvider Id C} {version : StateResVersion}
  (nearest : ∀ id, inside id → nearestPowerLevels authContext nodes version id = parent id)
include nearest

structure MainlineRel (inside : Id → Prop) (parent : Id → Option Id) (s : MainlineWalk Id)
    (t : List Id × Option Id) : Prop where
  mainline : s.mainline = t.1
  current : s.current = t.2
  valid : s.plParentCache.Valid parent
  inside : ∀ id ∈ t.2, inside id

theorem mainlineTurn_follows (parents : ClosedParents inside nodes parent) (s : MainlineWalk Id)
    (t : List Id × Option Id) (related : MainlineRel inside parent s t) :
    Option.Rel (MainlineRel inside parent) (mainlineTurn authContext nodes version s) (followTurn parent t) := by
  obtain ⟨mainline, current, cache⟩ := s
  obtain ⟨mainline', current'⟩ := t
  obtain ⟨rfl, rfl, valid, member⟩ := related
  unfold mainlineTurn followTurn
  cases current with
  | none => exact .none
  | some eid =>
    have here := member eid rfl
    have next : ∀ id ∈ parent eid, inside id := fun id found => parents.closed eid id here found
    dsimp only
    by_cases seen : eid ∈ mainline
    · rw [if_pos seen, if_pos seen]
      exact .none
    · rw [if_neg seen, if_neg seen]
      cases found : lookup eid cache with
      | some cached => exact .some ⟨rfl, valid eid cached found, valid, next⟩
      | none => exact .some ⟨rfl, nearest eid here, valid.insert (nearest eid here), next⟩

theorem mainlineTurns_rel (parents : ClosedParents inside nodes parent) (valid : cache.Valid parent)
    (resolved : SharedState Id) (emptyKey : String)
    (start : ∀ id ∈ resolved[((⟨mRoomPowerLevels⟩, emptyKey) : Key)]?, inside id) (n : Nat) :
    MainlineRel inside parent
      (run (mainlineTurn authContext nodes version) n ⟨[], resolved[((⟨mRoomPowerLevels⟩, emptyKey) : Key)]?, cache⟩)
      (run (followTurn parent) n ([], resolved[((⟨mRoomPowerLevels⟩, emptyKey) : Key)]?)) :=
  run_simulation _ (mainlineTurn_follows nearest parents) n ⟨rfl, rfl, valid, start⟩

theorem buildMainlineWithCache_spec (parents : ClosedParents inside nodes parent) (resolved : SharedState Id)
    (emptyKey : String) (valid : cache.Valid parent)
    (start : ∀ id ∈ resolved[((⟨mRoomPowerLevels⟩, emptyKey) : Key)]?, inside id) :
    (buildMainlineWithCache resolved authContext nodes cache emptyKey version).1 =
        (run (followTurn parent) (1 + nodes.length) ([], resolved[((⟨mRoomPowerLevels⟩, emptyKey) : Key)]?)).1 ∧
      (buildMainlineWithCache resolved authContext nodes cache emptyKey version).2.Valid parent := by
  have related := mainlineTurns_rel nearest parents valid resolved emptyKey start (1 + nodes.length + cache.length)
  refine ⟨?_, related.valid⟩
  rw [← follow_allowance parents start (Nat.le_add_right _ cache.length)]
  exact related.mainline

end

theorem nearestPowerLevels_parents {provider : EventProvider Id C} (lists : Lists nodes provider)
    (version : StateResVersion)
    (closed : ∀ id event, inside id → provider id = some event → ∀ aid ∈ event.authEvents, inside aid) :
    ClosedParents inside nodes (nearestPowerLevels provider nodes version) where
  listed id parentId _ found := by
    obtain ⟨event, known⟩ := isPowerLevels_known (nearestPowerLevels_spec lists version found).1
    exact lists parentId event known
  closed id parentId member found :=
    (nearestPowerLevels_spec lists version found).2 inside ⟨fun _ _ => rfl, closed⟩ member

theorem follow_congr (same : ∀ id, inside id → left id = right id)
    (closed : ∀ id parentId, inside id → left id = some parentId → inside parentId) (start : Option Id)
    (member : ∀ id ∈ start, inside id) (n : Nat) :
    run (followTurn left) n ([], start) = run (followTurn right) n ([], start) := by
  apply run_congr (fun s => ∀ id ∈ s.2, inside id) _ _ n member
  · rintro ⟨mainline, current⟩ t inv step
    unfold followTurn at step
    cases current with
    | none => simp at step
    | some eid =>
      by_cases seen : eid ∈ mainline
      · simp [seen] at step
      · simp only [seen, if_false, Option.some.injEq] at step
        subst step
        exact fun id next => closed eid id (inv eid rfl) next
  · rintro ⟨mainline, current⟩ inv
    unfold followTurn
    cases current with
    | none => rfl
    | some eid =>
      dsimp only
      rw [same eid (inv eid rfl)]

theorem buildMainlineWithCache_congr (agree : AgreeOn inside left right) (listsLeft : Lists nodes left)
    (listsRight : Lists others right) (resolved : SharedState Id) (emptyKey : String) (version : StateResVersion)
    (validLeft : cacheLeft.Valid (nearestPowerLevels left nodes version))
    (validRight : cacheRight.Valid (nearestPowerLevels right others version))
    (start : ∀ id ∈ resolved[((⟨mRoomPowerLevels⟩, emptyKey) : Key)]?, inside id) :
    (buildMainlineWithCache resolved left nodes cacheLeft emptyKey version).1 =
      (buildMainlineWithCache resolved right others cacheRight emptyKey version).1 := by
  have parentsLeft := nearestPowerLevels_parents listsLeft version agree.closed
  have parentsRight := nearestPowerLevels_parents listsRight version agree.symm.closed
  rw [(buildMainlineWithCache_spec (fun _ _ => rfl) parentsLeft resolved emptyKey validLeft start).1,
    (buildMainlineWithCache_spec (fun _ _ => rfl) parentsRight resolved emptyKey validRight start).1,
    ← follow_allowance (n := 1 + nodes.length + others.length) parentsLeft start (Nat.le_add_right _ _),
    ← follow_allowance (n := 1 + nodes.length + others.length) parentsRight start (by omega),
    follow_congr (fun id member => nearestPowerLevels_congr agree listsLeft listsRight version id member)
      parentsLeft.closed _ start]

section

variable (authContext : EventProvider Id C) (nodes : List Id) (version : StateResVersion)

def walkedCache (walks : List (SharedState Id × String)) : MainlineCache Id :=
  walks.foldl (fun cache walk => (buildMainlineWithCache walk.1 authContext nodes cache walk.2 version).2) []

variable {authContext nodes}

theorem walkedCache_valid (lists : Lists nodes authContext) (walks : List (SharedState Id × String)) :
    (walkedCache authContext nodes version walks).Valid (nearestPowerLevels authContext nodes version) := by
  have parents : ClosedParents (fun _ => True) nodes (nearestPowerLevels authContext nodes version) :=
    nearestPowerLevels_parents lists version fun _ _ _ _ _ _ => trivial
  apply foldl_invariant (fun cache : MainlineCache Id => cache.Valid (nearestPowerLevels authContext nodes version))
  · intro _ _ found
    cases found
  · intro _ walk _ _ valid
    exact (buildMainlineWithCache_spec (fun _ _ => rfl) parents walk.1 walk.2 valid (fun _ _ => trivial)).2

/-- Both loops of a walk end, for any events and links between them. The mainline has no id twice, and what earlier
    walks have cached does not change it. -/
theorem buildMainlineWithCache_walked (lists : Lists nodes authContext) (walks : List (SharedState Id × String))
    (resolved : SharedState Id) (emptyKey : String) :
    mainlineTurn authContext nodes version (run (mainlineTurn authContext nodes version)
      (1 + nodes.length + (walkedCache authContext nodes version walks).length)
      ⟨[], resolved[((⟨mRoomPowerLevels⟩, emptyKey) : Key)]?, walkedCache authContext nodes version walks⟩) = none ∧
    (∀ (start : List Id) (note : Option Id → Id → Nat → Option Id) (init : Option Id), Nearest.turn (plSearchEdges authContext version) note
      (run (Nearest.turn (plSearchEdges authContext version) note)
        (start.length + Worklist.edgeCount (plSearchEdges authContext version) nodes)
        ⟨[], start.map (·, 1), init⟩) = none) ∧
    (buildMainlineWithCache resolved authContext nodes (walkedCache authContext nodes version walks) emptyKey
      version).1.Nodup ∧
    (buildMainlineWithCache resolved authContext nodes (walkedCache authContext nodes version walks) emptyKey version).1 =
      buildMainline resolved authContext nodes emptyKey version := by
  have parents : ClosedParents (fun _ => True) nodes (nearestPowerLevels authContext nodes version) :=
    nearestPowerLevels_parents lists version fun _ _ _ _ _ _ => trivial
  have valid := walkedCache_valid version lists walks
  have related := mainlineTurns_rel (fun _ _ => rfl) parents valid resolved emptyKey (fun _ _ => trivial)
    (1 + nodes.length + (walkedCache authContext nodes version walks).length)
  obtain ⟨ended, inv⟩ := follow_finished parents resolved[((⟨mRoomPowerLevels⟩, emptyKey) : Key)]?
    (fun _ _ => trivial) (Nat.le_add_right _ (walkedCache authContext nodes version walks).length)
  refine ⟨?_, fun start note init => Nearest.walk_finished note (plSearchEdges_support lists version) start init, ?_, ?_⟩
  · have turn := mainlineTurn_follows (fun _ _ => rfl) parents _ _ related
    rw [ended] at turn
    exact stopped_of_rel turn
  · have same : (buildMainlineWithCache resolved authContext nodes (walkedCache authContext nodes version walks) emptyKey
        version).1 = _ := related.mainline
    rw [same]
    exact inv.nodup
  · exact buildMainlineWithCache_congr (.everywhere authContext) lists lists resolved emptyKey version valid
      (fun _ _ found => nomatch found) (fun _ _ => trivial)

end

namespace Sample

open Basespec.Sample

def levelsLoop : EventMap Nat Content := ⟨[powerLevels 3 {} [4], powerLevels 4 {} [3]], by decide⟩

end Sample

open Sample Basespec.Sample in
theorem buildMainlineWithCache_walked_loop :
    (buildMainlineWithCache (stateOf [powerLevels 3 {} [4]]) levelsLoop.get levelsLoop.keys
      (walkedCache levelsLoop.get levelsLoop.keys .v2 [(stateOf [powerLevels 4 {} [3]], "")]) "" .v2).1 =
    buildMainline (stateOf [powerLevels 3 {} [4]]) levelsLoop.get levelsLoop.keys "" .v2 :=
  (buildMainlineWithCache_walked .v2 (fun _ event found => EventMap.mem_keys.mpr ⟨event, found⟩)
    [(stateOf [powerLevels 4 {} [3]], "")] (stateOf [powerLevels 3 {} [4]]) "").2.2.2

end

variable [LinearOrder Id]

section

variable {provider : EventProvider Id C} {nodes : List Id} (lists : Lists nodes provider)
  (events : List (LeanEvent Id C)) (mainline : List Id) (version : StateResVersion) {event : LeanEvent Id C}
  (member : event ∈ events)
include lists member

theorem closestPosition_found :
    ∃ position, computeClosestMainlinePositions events mainline provider nodes version event.eventId =
        some (.done position) ∧
      Chase.Settled (plEdge provider version) (mainlinePositions mainline) mainline.length event.eventId position := by
  have links : ∀ x y, plEdge provider version x = some y → y ∈ events.map LeanEvent.eventId ++ nodes := by
    intro x y edge
    obtain ⟨known, found⟩ := isPowerLevels_known (plEdge_known edge).1
    exact mem_append_right _ (lists y known found)
  have initial : Chase.TableInv (plEdge provider version) (mainlinePositions mainline) mainline.length
    fun id => (mainlinePositions mainline id).map .done := Chase.tableInv_initial
  obtain ⟨table, known⟩ := Chase.settleAll_spec links (events.map LeanEvent.eventId)
    (fun x listed => mem_append_left _ listed) initial
  obtain ⟨position, found⟩ := known event.eventId (.inl (List.mem_map_of_mem member))
  exact ⟨position, found, table.right event.eventId position found⟩

theorem closestPosition_settled :
    Chase.Settled (plEdge provider version) (mainlinePositions mainline) mainline.length event.eventId
      (positionOf (computeClosestMainlinePositions events mainline provider nodes version)
        mainline.length event.eventId) := by
  obtain ⟨position, found, settled⟩ := closestPosition_found lists events mainline version member
  rw [positionOf, found]
  exact settled

end

instance (position : Id → Nat) : Std.Total (mainlineBefore (C := C) position) where
  total a b := by
    unfold mainlineBefore
    grind

instance (position : Id → Nat) : IsTrans (LeanEvent Id C) (mainlineBefore position) where
  trans a b c := by
    unfold mainlineBefore
    grind

theorem mainlineBefore_tells (position : Id → Nat) {a b : LeanEvent Id C}
    (before : mainlineBefore position a b) (after : mainlineBefore position b a) :
    a.eventId = b.eventId := by
  unfold mainlineBefore at before after
  grind

theorem mainlineBefore_congr {left right : Id → Nat} {a b : LeanEvent Id C}
    (first : left a.eventId = right a.eventId) (second : left b.eventId = right b.eventId) :
    mainlineBefore right a b → mainlineBefore left a b := by
  unfold mainlineBefore
  rw [first, second]
  exact id

theorem mainlineSort_congr {inside : Id → Prop} {left right : EventProvider Id C}
    {nodes others : List Id} (agree : AgreeOn inside left right) (listsLeft : Lists nodes left)
    (listsRight : Lists others right) {events events' : List (LeanEvent Id C)}
    (same : events.Perm events') (distinct : ∀ a ∈ events, ∀ b ∈ events, a.eventId = b.eventId → a = b)
    (covered : ∀ event ∈ events, inside event.eventId) (mainline : List Id) (version : StateResVersion) :
    mainlineSort events mainline left nodes version = mainlineSort events' mainline right others version := by
  have positions : ∀ event ∈ events,
      positionOf (computeClosestMainlinePositions events mainline left nodes version) mainline.length event.eventId =
        positionOf (computeClosestMainlinePositions events' mainline right others version) mainline.length
          event.eventId := by
    intro event member
    have settled := closestPosition_settled listsLeft events mainline version member
    have closed : ∀ x y, inside x → plEdge left version x = some y → inside y := by
      intro x y member edge
      obtain ⟨_, node, known, cited⟩ := plEdge_known edge
      exact agree.closed x node member known y cited
    exact (settled.congr (plEdge_congr agree version) closed (covered event member)).unique
      (closestPosition_settled listsRight events' mainline version (same.mem_iff.mp member))
  refine sort_congr _ _ ?_ ?_ same
  · intro a ha b hb
    exact mainlineBefore_congr (positions a ha) (positions b hb)
  · intro a ha b hb before after
    exact distinct a ha b hb (mainlineBefore_tells _ before after)

theorem mainlineSort_filter (lists : Lists nodes provider)
    (distinct : ∀ a ∈ events, ∀ b ∈ events, a.eventId = b.eventId → a = b) (keep : LeanEvent Id C → Bool)
    (mainline : List Id) (version : StateResVersion) :
    mainlineSort (events.filter keep) mainline provider nodes version =
      (mainlineSort events mainline provider nodes version).filter keep := by
  have kept : ∀ {event}, event ∈ events.filter keep → event ∈ events := fun member =>
    mem_of_mem_filter member
  have positions : ∀ event ∈ events.filter keep, _ = _ := fun event member =>
    (closestPosition_settled lists (events.filter keep) mainline version member).unique
      (closestPosition_settled lists events mainline version (kept member))
  have tells : ∀ position, ∀ a ∈ events, ∀ b ∈ events, mainlineBefore position a b →
      mainlineBefore position b a → a = b := fun position a ha b hb before after =>
    distinct a ha b hb (mainlineBefore_tells position before after)
  unfold mainlineSort
  rw [← sort_filter _ (tells _)]
  refine sort_congr _ _ ?_ ?_ (.refl _)
  · intro a ha b hb
    exact mainlineBefore_congr (positions a ha) (positions b hb)
  · intro a ha b hb
    exact tells _ a (kept ha) b (kept hb)

end Rezzy.Resolve
