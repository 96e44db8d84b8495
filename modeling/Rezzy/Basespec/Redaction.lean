import Rezzy.Basespec.EventTypes
import Rezzy.Json.RoundTrip

namespace Rezzy.Json.Value

def get : Value → String → Option Value
  | .object members, key => Sorted.lookup members key
  | _, _ => none

def asStr : Value → Option String
  | .string text => some text
  | _ => none

end Rezzy.Json.Value

namespace Rezzy.Basespec

open Json

/-- Which members of the content are kept. A path with a point keeps a member of a member. -/
inductive RedactionRule where
  | none
  | all
  | keys (paths : List String)
deriving DecidableEq, Repr

def msc3389RedactionRule (eventType : String) : RedactionRule :=
  let relation := ["m.relates_to.rel_type", "m.relates_to.event_id"]
  if eventType = mRoomCreate then .keys (["creator"] ++ relation)
  else if eventType = mRoomMember then .keys (["membership", "join_authorised_via_users_server"] ++ relation)
  else if eventType = mRoomPowerLevels then
    .keys (["ban", "events", "events_default", "kick", "redact", "state_default", "users", "users_default"] ++ relation)
  else if eventType = mRoomJoinRules then .keys (["join_rule", "allow"] ++ relation)
  else if eventType = mRoomHistoryVisibility then .keys (["history_visibility"] ++ relation)
  else .keys relation

def redactionPreservedKeys (eventType roomVersion : String) : RedactionRule :=
  match RoomVersionFormat.parse roomVersion with
  | none => .none
  | some format =>
    if format = .msc3389 then msc3389RedactionRule eventType
    else
      let verNum := match format with
        | .numeric n => n
        | .msc3389 => 10
        | .msc4242 | .nutraCdo => 11
      if eventType = mRoomCreate then if 11 ≤ verNum then .all else .keys ["creator"]
      else if eventType = mRoomMember then
        if 11 ≤ verNum then .keys ["membership", "join_authorised_via_users_server", "third_party_invite.signed"]
        else if 9 ≤ verNum then .keys ["membership", "join_authorised_via_users_server"]
        else .keys ["membership"]
      else if eventType = mRoomPowerLevels then
        if 11 ≤ verNum then
          .keys ["ban", "events", "events_default", "invite", "kick", "redact", "state_default", "users", "users_default"]
        else .keys ["ban", "events", "events_default", "kick", "redact", "state_default", "users", "users_default"]
      else if eventType = mRoomJoinRules then
        if 9 ≤ verNum then .keys ["join_rule", "allow"] else .keys ["join_rule"]
      else if eventType = mRoomHistoryVisibility then .keys ["history_visibility"]
      else if eventType = mRoomAliases then if verNum ≤ 5 then .keys ["aliases"] else .none
      else if eventType = mRoomRedaction then if 11 ≤ verNum then .keys ["redacts"] else .none
      else .none

def rsplitOnce (separator : Char) (text : String) : Option (String × String) :=
  match text.toList.reverse.dropWhile (· ≠ separator) with
  | [] => none
  | _ :: before => some (String.ofList before.reverse,
      String.ofList (text.toList.reverse.takeWhile (· ≠ separator)).reverse)

def keepPath (content : Value) (out : Object.Members) (path : String) : Object.Members :=
  match rsplitOnce '.' path with
  | some (top, rest) =>
    match content.get top with
    | some (.object inner) =>
      match Sorted.lookup inner rest with
      | some v =>
        match Sorted.lookup out top with
        | some (.object parent) => Sorted.assign out top (.object (Sorted.assign parent rest v))
        | _ => Sorted.assign out top (.object (Sorted.assign [] rest v))
      | none => out
    | _ => out
  | none =>
    match content.get path with
    | some v => Sorted.assign out path v
    | none => out

def redactContent (content : Value) : RedactionRule → Value
  | .none => .object []
  | .all => content
  | .keys paths => .object (paths.foldl (keepPath content) [])

def topLevelKeys (isV12Create : Bool) (roomVersion : String) : List String :=
  [fieldEventId, fieldType] ++ (if isV12Create then [] else ["room_id"]) ++
  [fieldSender, fieldStateKey, fieldContent, fieldHashes, fieldSignatures, fieldDepth, fieldPrevEvents, fieldAuthEvents,
    fieldOriginServerTs] ++
  (if isMsc4242RoomVersion roomVersion then ["prev_state_events"] else []) ++
  (if roomVersionIsV11OrLater roomVersion then [] else ["origin", "membership", "prev_state"])

def take (obj out : Object.Members) (key : String) : Object.Members :=
  match Sorted.lookup obj key with
  | some v => Sorted.assign out key v
  | none => out

def redactTopLevel (value : Value) (roomVersion : String) : Object.Members :=
  match value with
  | .object obj =>
    let isV12Create := ((Sorted.lookup obj fieldType).bind Value.asStr = some mRoomCreate : Bool) &&
      roomVersionIsV12OrLater roomVersion
    (topLevelKeys isV12Create roomVersion).foldl (take obj) []
  | _ => []

def redactJson (value : Value) (roomVersion : String) : Value :=
  let eventType := ((value.get fieldType).bind Value.asStr).getD ""
  let rule := redactionPreservedKeys eventType roomVersion
  let out := redactTopLevel value roomVersion
  let content := match Sorted.lookup out fieldContent with
    | none => .object []
    | some c => redactContent c rule
  .object (Sorted.assign out fieldContent content)

end Rezzy.Basespec

namespace Rezzy.Basespec

open Json Sorted

section

theorem lookup_kept (keys : List String) (key : String) :
    lookup (obj.filter fun m => decide (m.1 ∈ keys)) key = if key ∈ keys then lookup obj key else none := by
  rw [lookup_filter obj fun k => decide (k ∈ keys)]
  simp only [decide_eq_true_iff]

theorem foldl_take (sorted : SortedKeys obj) (keys : List String) :
    keys.foldl (take obj) [] = obj.filter fun m => decide (m.1 ∈ keys) := by
  induction keys using List.reverseRecOn with
  | nil => simp
  | append_singleton keys key ih =>
    rw [List.foldl_append, ih, List.foldl_cons, List.foldl_nil, take]
    have kept : SortedKeys (obj.filter fun m => decide (m.1 ∈ keys)) := sorted.filter _
    have all : SortedKeys (obj.filter fun m => decide (m.1 ∈ keys ++ [key])) := sorted.filter _
    split
    · rename_i v found
      apply (kept.assign key v).ext_lookup all
      intro other
      rw [lookup_assign kept, lookup_kept, lookup_kept]
      by_cases same : other = key
      · rw [if_pos same, same, found, if_pos (by simp)]
      · simp [same]
    · rename_i absent
      apply kept.ext_lookup all
      intro other
      rw [lookup_kept, lookup_kept]
      by_cases same : other = key
      · rw [same, absent, ite_self, ite_self]
      · simp [same]

def Ordered (content : Value) : Prop := ∀ key inner, content.get key = some (.object inner) → SortedKeys inner

def directPaths (paths : List String) : List String := paths.filter fun path => (rsplitOnce '.' path).isNone

def nestedPaths (paths : List String) : List (String × String) := paths.filterMap (rsplitOnce '.')

def keptValue (paths : List String) (key : String) (v : Value) : Option Value :=
  if key ∈ directPaths paths then some v
  else
    match v with
    | .object inner =>
      let parts := inner.filter fun e => decide ((key, e.1) ∈ nestedPaths paths)
      if parts.isEmpty then none else some (.object parts)
    | _ => none

theorem keptValue_direct (direct : key ∈ directPaths paths) : keptValue paths key v = some v := if_pos direct

theorem keptValue_object {inner : Object.Members} (nested : key ∉ directPaths paths) :
    keptValue paths key (.object inner) =
      if (inner.filter fun e => decide ((key, e.1) ∈ nestedPaths paths)).isEmpty then none
      else some (.object (inner.filter fun e => decide ((key, e.1) ∈ nestedPaths paths))) := if_neg nested

theorem keptValue_leaf (nested : key ∉ directPaths paths) (leaf : ∀ inner, v ≠ .object inner) :
    keptValue paths key v = none := by
  unfold keptValue
  rw [if_neg nested]
  cases v with
  | object inner => exact absurd rfl (leaf inner)
  | _ => rfl

theorem directPaths_append (paths : List String) (path : String) : directPaths (paths ++ [path]) =
    directPaths paths ++ if (rsplitOnce '.' path).isNone then [path] else [] := by
  unfold directPaths
  rw [List.filter_append, List.filter_singleton, Bool.cond_eq_ite]

theorem nestedPaths_append (paths : List String) (path : String) :
    nestedPaths (paths ++ [path]) = nestedPaths paths ++ (rsplitOnce '.' path).toList := by
  unfold nestedPaths
  rw [List.filterMap_append]
  cases split : rsplitOnce '.' path <;> simp [split]

theorem keptValue_append_direct (whole : rsplitOnce '.' path = none) (key : String) (v : Value) :
    keptValue (paths ++ [path]) key v = if key = path then some v else keptValue paths key v := by
  have direct : directPaths (paths ++ [path]) = directPaths paths ++ [path] := by
    rw [directPaths_append, whole]
    rfl
  have nested : nestedPaths (paths ++ [path]) = nestedPaths paths := by
    rw [nestedPaths_append, whole]
    exact List.append_nil _
  unfold keptValue
  rw [direct, nested]
  by_cases same : key = path
  · rw [if_pos same, if_pos (by simp [same])]
  · simp [same]

section

variable {path top rest : String} (split : rsplitOnce '.' path = some (top, rest))
include split

theorem directPaths_nested : directPaths (paths ++ [path]) = directPaths paths := by
  rw [directPaths_append, split]
  exact List.append_nil _

theorem nestedPaths_nested : nestedPaths (paths ++ [path]) = nestedPaths paths ++ [(top, rest)] := by
  rw [nestedPaths_append, split]
  rfl

theorem keptValue_append_other (other : key ≠ top) (v : Value) :
    keptValue (paths ++ [path]) key v = keptValue paths key v := by
  by_cases direct : key ∈ directPaths paths
  · rw [keptValue_direct direct, keptValue_direct (by rwa [directPaths_nested split])]
  · have nested : key ∉ directPaths (paths ++ [path]) := by rwa [directPaths_nested split]
    cases v with
    | object inner =>
      have same : ∀ e : String × Value, (key, e.1) ∈ nestedPaths paths ++ [(top, rest)] ↔
          (key, e.1) ∈ nestedPaths paths := by
        intro e
        simp [other]
      rw [keptValue_object direct, keptValue_object nested, nestedPaths_nested split]
      simp only [same]
    | _ => rw [keptValue_leaf direct (by simp), keptValue_leaf nested (by simp)]

theorem keptValue_append_leaf (leaf : ∀ inner, v ≠ .object inner) :
    keptValue (paths ++ [path]) top v = keptValue paths top v := by
  by_cases direct : top ∈ directPaths paths
  · rw [keptValue_direct direct, keptValue_direct (by rwa [directPaths_nested split])]
  · rw [keptValue_leaf direct leaf, keptValue_leaf (by rwa [directPaths_nested split]) leaf]

theorem keptValue_append_absent {inner : Object.Members} (absent : lookup inner rest = none) :
    keptValue (paths ++ [path]) top (.object inner) = keptValue paths top (.object inner) := by
  have same : inner.filter (fun e => decide ((top, e.1) ∈ nestedPaths paths ++ [(top, rest)])) =
      inner.filter fun e => decide ((top, e.1) ∈ nestedPaths paths) := by
    apply List.filter_congr
    intro e mem
    have other : e.1 ≠ rest := lookup_eq_none.mp absent e mem
    simp [other]
  by_cases direct : top ∈ directPaths paths
  · rw [keptValue_direct direct, keptValue_direct (by rwa [directPaths_nested split])]
  · rw [keptValue_object direct, keptValue_object (by rwa [directPaths_nested split]), nestedPaths_nested split, same]

theorem keptValue_append_part {inner : Object.Members} (sorted : SortedKeys inner)
    (found : lookup inner rest = some x) (nested : top ∉ directPaths paths) :
    keptValue (paths ++ [path]) top (.object inner) =
      some (.object (assign (inner.filter fun e => decide ((top, e.1) ∈ nestedPaths paths)) rest x)) := by
  have parts : ∀ keys : List (String × String), SortedKeys (inner.filter fun e => decide ((top, e.1) ∈ keys)) :=
    fun keys => sorted.filter _
  have mem : ∀ (keys : List (String × String)) (key : String),
      lookup (inner.filter fun e => decide ((top, e.1) ∈ keys)) key =
        if (top, key) ∈ keys then lookup inner key else none := by
    intro keys key
    rw [lookup_filter inner fun k => decide ((top, k) ∈ keys)]
    simp only [decide_eq_true_iff]
  have whole : inner.filter (fun e => decide ((top, e.1) ∈ nestedPaths paths ++ [(top, rest)])) =
      assign (inner.filter fun e => decide ((top, e.1) ∈ nestedPaths paths)) rest x := by
    apply (parts _).ext_lookup ((parts _).assign rest x)
    intro key
    rw [lookup_assign (parts _), mem, mem]
    by_cases same : key = rest
    · rw [if_pos same, same, found, if_pos (by simp)]
    · simp [same]
  have some_ : (assign (inner.filter fun e => decide ((top, e.1) ∈ nestedPaths paths)) rest x).isEmpty = false := by
    rw [List.isEmpty_eq_false_iff]
    exact List.ne_nil_of_mem (mem_assign.mpr (.inl rfl))
  rw [keptValue_object (by rwa [directPaths_nested split]), nestedPaths_nested split, whole, some_]
  rfl

end

theorem keepPath_nested (split : rsplitOnce '.' path = some (top, rest)) (ordered : Ordered content)
    (kept : lookup out top = (content.get top).bind (keptValue paths top)) :
    (∃ w, keepPath content out path = assign out top w ∧
      (content.get top).bind (keptValue (paths ++ [path]) top) = some w) ∨
    keepPath content out path = out ∧
      (content.get top).bind (keptValue (paths ++ [path]) top) = (content.get top).bind (keptValue paths top) := by
  unfold keepPath
  rw [split]
  dsimp only
  cases found : content.get top with
  | none => exact .inr ⟨rfl, rfl⟩
  | some v =>
    rw [found, Option.bind_some] at kept
    cases v with
    | object inner =>
      dsimp only [Option.bind_some]
      have innerSorted := ordered top inner found
      cases part : lookup inner rest with
      | none => exact .inr ⟨rfl, keptValue_append_absent split part⟩
      | some x =>
        left
        by_cases direct : top ∈ directPaths paths
        · rw [keptValue_direct direct] at kept
          rw [kept, keptValue_direct (by rwa [directPaths_nested split])]
          dsimp only
          rw [assign_self innerSorted part]
          exact ⟨_, rfl, rfl⟩
        · rw [keptValue_append_part split innerSorted part direct]
          rw [keptValue_object direct] at kept
          refine ⟨_, ?_, rfl⟩
          cases empty : (inner.filter fun e => decide ((top, e.1) ∈ nestedPaths paths)).isEmpty with
          | true =>
            rw [empty, if_pos rfl] at kept
            rw [kept, List.isEmpty_iff.mp empty]
          | false =>
            rw [empty, if_neg (by simp)] at kept
            rw [kept]
    | _ => exact .inr ⟨rfl, keptValue_append_leaf split (by simp)⟩

theorem lookup_keepPath (ordered : Ordered content) (paths : List String) :
    SortedKeys (paths.foldl (keepPath content) []) ∧
      ∀ key, lookup (paths.foldl (keepPath content) []) key = (content.get key).bind (keptValue paths key) := by
  induction paths using List.reverseRecOn with
  | nil =>
    refine ⟨.nil, fun key => ?_⟩
    have none : ∀ v, keptValue [] key v = none := by
      intro v
      cases v <;> simp [keptValue, directPaths, nestedPaths]
    rw [funext none]
    exact (Option.bind_fun_none _).symm
  | append_singleton paths path ih =>
    obtain ⟨sorted, kept⟩ := ih
    rw [List.foldl_append, List.foldl_cons, List.foldl_nil]
    generalize paths.foldl (keepPath content) [] = out at sorted kept
    cases split : rsplitOnce '.' path with
    | none =>
      unfold keepPath
      rw [split]
      cases found : content.get path with
      | none =>
        refine ⟨sorted, fun key => ?_⟩
        rw [kept]
        by_cases same : key = path
        · rw [same, found]
          rfl
        · simp only [keptValue_append_direct split, if_neg same]
      | some v =>
        refine ⟨sorted.assign path v, fun key => ?_⟩
        rw [lookup_assign sorted, kept]
        by_cases same : key = path
        · rw [if_pos same, same, found, Option.bind_some, keptValue_append_direct split, if_pos rfl]
        · simp only [keptValue_append_direct split, if_neg same]
    | some pair =>
      obtain ⟨top, rest⟩ := pair
      rcases keepPath_nested split ordered (kept top) with ⟨w, placed, now⟩ | ⟨unchanged, now⟩
      · rw [placed]
        refine ⟨sorted.assign top w, fun key => ?_⟩
        rw [lookup_assign sorted, kept]
        by_cases same : key = top
        · rw [if_pos same, same, now]
        · rw [if_neg same, funext (keptValue_append_other split same)]
      · rw [unchanged]
        refine ⟨sorted, fun key => ?_⟩
        rw [kept]
        by_cases same : key = top
        · rw [same, now]
        · rw [funext (keptValue_append_other split same)]

theorem keptValue_again (kept : keptValue paths key v = some w) : keptValue paths key w = some w := by
  by_cases direct : key ∈ directPaths paths
  · exact keptValue_direct direct
  · cases v with
    | object inner =>
      rw [keptValue_object direct] at kept
      split at kept
      · cases kept
      · rename_i some_
        cases kept
        rw [keptValue_object direct, List.filter_filter]
        simp only [Bool.and_self]
        exact if_neg some_
    | _ =>
      rw [keptValue_leaf direct (by simp)] at kept
      cases kept

theorem keptValue_ordered {inner : Object.Members} (ordered : ∀ inner, v = .object inner → SortedKeys inner)
    (kept : keptValue paths key v = some (.object inner)) : SortedKeys inner := by
  by_cases direct : key ∈ directPaths paths
  · rw [keptValue_direct direct] at kept
    exact ordered inner (Option.some.inj kept)
  · cases v with
    | object whole =>
      rw [keptValue_object direct] at kept
      split at kept
      · cases kept
      · cases kept
        exact (ordered whole rfl).filter _
    | _ =>
      rw [keptValue_leaf direct (by simp)] at kept
      cases kept

theorem redactContent_ordered (ordered : Ordered content) (rule : RedactionRule) :
    Ordered (redactContent content rule) := by
  cases rule with
  | none =>
    intro key inner found
    cases found
  | all => exact ordered
  | keys paths =>
    intro key inner found
    have kept : lookup (paths.foldl (keepPath content) []) key = some (.object inner) := found
    rw [(lookup_keepPath ordered paths).2] at kept
    obtain ⟨v, given, kept⟩ := Option.bind_eq_some_iff.mp kept
    exact keptValue_ordered (fun whole same => ordered key whole (same ▸ given)) kept

theorem redactContent_again (ordered : Ordered content) (rule : RedactionRule) :
    redactContent (redactContent content rule) rule = redactContent content rule := by
  cases rule with
  | none => rfl
  | all => rfl
  | keys paths =>
    obtain ⟨sorted, kept⟩ := lookup_keepPath ordered paths
    obtain ⟨sorted', kept'⟩ := lookup_keepPath (redactContent_ordered ordered (.keys paths)) paths
    apply congrArg Value.object
    apply sorted'.ext_lookup sorted
    intro key
    rw [kept', redactContent, Value.get, kept]
    cases content.get key with
    | none => rfl
    | some v =>
      rw [Option.bind_some]
      cases once : keptValue paths key v with
      | none => rfl
      | some w => exact keptValue_again once

theorem redactContent_empty (rule : RedactionRule) : redactContent (.object []) rule = .object [] := by
  cases rule with
  | none => rfl
  | all => rfl
  | keys paths =>
    have ordered : Ordered (.object []) := fun key inner found => by cases found
    obtain ⟨sorted, kept⟩ := lookup_keepPath ordered paths
    apply congrArg Value.object
    exact sorted.ext_lookup .nil kept

end

def eventTypeOf (obj : Object.Members) : String := ((lookup obj fieldType).bind Value.asStr).getD ""

def isV12CreateOf (obj : Object.Members) (roomVersion : String) : Bool :=
  ((lookup obj fieldType).bind Value.asStr = some mRoomCreate : Bool) && roomVersionIsV12OrLater roomVersion

def keptKeys (obj : Object.Members) (roomVersion : String) : List String :=
  topLevelKeys (isV12CreateOf obj roomVersion) roomVersion

def redactedContent (obj : Object.Members) (roomVersion : String) : Value :=
  match lookup obj fieldContent with
  | none => .object []
  | some c => redactContent c (redactionPreservedKeys (eventTypeOf obj) roomVersion)

theorem content_kept : fieldContent ∈ keptKeys obj roomVersion := by
  simp [keptKeys, topLevelKeys]

theorem type_kept : fieldType ∈ keptKeys obj roomVersion := by
  simp [keptKeys, topLevelKeys]

theorem redactJson_object (sorted : SortedKeys obj) : redactJson (.object obj) roomVersion =
    .object (assign (obj.filter fun m => decide (m.1 ∈ keptKeys obj roomVersion)) fieldContent
      (redactedContent obj roomVersion)) := by
  have top : redactTopLevel (.object obj) roomVersion = obj.filter fun m => decide (m.1 ∈ keptKeys obj roomVersion) :=
    foldl_take sorted _
  unfold redactJson
  dsimp only
  rw [top, lookup_kept, if_pos content_kept]
  rfl

theorem lookup_redacted (sorted : SortedKeys obj) (key : String) :
    lookup (assign (obj.filter fun m => decide (m.1 ∈ keptKeys obj roomVersion)) fieldContent
      (redactedContent obj roomVersion)) key =
    if key = fieldContent then some (redactedContent obj roomVersion)
    else if key ∈ keptKeys obj roomVersion then lookup obj key else none := by
  rw [lookup_assign (sorted.filter _), lookup_kept]

theorem redactJson_again (sorted : SortedKeys obj) (ordered : ∀ c, lookup obj fieldContent = some c → Ordered c) :
    redactJson (redactJson (.object obj) roomVersion) roomVersion = redactJson (.object obj) roomVersion := by
  rw [redactJson_object sorted]
  generalize shape : assign (obj.filter fun m => decide (m.1 ∈ keptKeys obj roomVersion)) fieldContent
      (redactedContent obj roomVersion) = redacted
  have sorted' : SortedKeys redacted := shape ▸ SortedKeys.assign (sorted.filter _) _ _
  have mem : ∀ key, lookup redacted key = if key = fieldContent then some (redactedContent obj roomVersion)
      else if key ∈ keptKeys obj roomVersion then lookup obj key else none := by
    intro key
    rw [← shape, lookup_redacted sorted]
  have type : lookup redacted fieldType = lookup obj fieldType := by
    rw [mem, if_neg (by decide), if_pos type_kept]
  have keys : keptKeys redacted roomVersion = keptKeys obj roomVersion := by
    unfold keptKeys isV12CreateOf
    rw [type]
  have content : redactedContent redacted roomVersion = redactedContent obj roomVersion := by
    have once : lookup redacted fieldContent = some (redactedContent obj roomVersion) := by
      rw [mem, if_pos rfl]
    have sameType : eventTypeOf redacted = eventTypeOf obj := by
      unfold eventTypeOf
      rw [type]
    have twice : redactedContent redacted roomVersion =
        redactContent (redactedContent obj roomVersion) (redactionPreservedKeys (eventTypeOf obj) roomVersion) := by
      unfold redactedContent at once ⊢
      rw [once, sameType]
    rw [twice]
    unfold redactedContent
    cases found : lookup obj fieldContent with
    | none => exact redactContent_empty _
    | some c => exact redactContent_again (ordered c found) _
  rw [redactJson_object sorted']
  apply congrArg Value.object
  apply (SortedKeys.assign (sorted'.filter _) _ _).ext_lookup sorted'
  intro key
  rw [lookup_redacted sorted', content, keys, mem]
  by_cases same : key = fieldContent
  · rw [if_pos same, if_pos same]
  · rw [if_neg same, if_neg same]
    split <;> rfl

end Rezzy.Basespec
