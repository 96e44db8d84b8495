import Rezzy.Cli.JsonlMerge
import Rezzy.Lib.Fallible

namespace Rezzy.Cli

open Basespec Firsts Json Linked Relation List Prod Fallible
open Value (asArray asStr)

section

def RefersTo (entry : Value) (id : String) : Prop := entry = .string id ∨ ∃ rest, entry = .array (.string id :: rest)

def HasId (val : Value) (id : String) : Prop := val.get fieldEventId = some (.string id) ∧ id ≠ ""

inductive Mentions (val : Value) (id : String) : Prop where
  | event {field : String} {entries : List Value} {entry : Value} (listed : field = fieldAuthEvents ∨ field = fieldPrevEvents)
    (given : val.get field = some (.array entries)) (member : entry ∈ entries) (refers : RefersTo entry id)
  | relation {content rel : Value} (given : val.get fieldContent = some content)
    (related : content.get "m.relates_to" = some rel)
    (named : rel.get "event_id" = some (.string id) ∨ rel.get "relates_to" = some (.string id))
  | redaction (type : val.get fieldType = some (.string mRoomRedaction))
    (named : val.get "redacts" = some (.string id) ∨
      ∃ content, val.get fieldContent = some content ∧ content.get "redacts" = some (.string id))

def Owns (events : List Value) (id : String) : Prop := ∃ val ∈ events, HasId val id

def KnowsOf (events : List Value) (id : String) : Prop :=
  Owns events id ∨ ∃ val ∈ events, (∃ own, HasId val own) ∧ Mentions val id

def ShareHistory (a b : List Value) : Prop := ∃ id, Owns a id ∧ KnowsOf b id ∨ Owns b id ∧ KnowsOf a id

structure Mergeable (files : List (List Value)) (roomVersion : Option String) : Prop where
  keys : ∀ val ∈ files.flatten, ∀ id, HasId val id → ∃ key, comparisonKey val roomVersion = .ok key
  agree : ∀ val ∈ files.flatten, ∀ other ∈ files.flatten, ∀ id, HasId val id → HasId other id →
    comparisonKey val roomVersion = comparisonKey other roomVersion
  connected : 2 ≤ files.length → Connected ShareHistory files

def named (events : List Value) : List Value := events.filter fun val => eventIdOf val ≠ ""

structure Merged (files : List (List Value)) (result : MergeResult) : Prop where
  firsts : FirstOccurrences eventIdOf (named files.flatten) result.events
  copies : result.duplicateCopies = min ((named files.flatten).length - result.events.length) usizeMax

def Shuffled (fileSets others : List (String × List Value)) : Prop :=
  ∃ between : List (String × List Value), fileSets.Perm between ∧ List.Forall₂ (fun a b => a.2.Perm b.2) between others

def keyed (roomVersion : Option String) (result : MergeResult) : Set (String × Bytes) :=
  {pair | ∃ val ∈ result.events, HasId val pair.1 ∧ comparisonKey val roomVersion = .ok pair.2}

theorem asStr_bind : found.bind asStr = some text ↔ found = some (.string text) := by
  constructor
  · intro given
    obtain ⟨v, rfl, string⟩ := Option.bind_eq_some_iff.mp given
    cases v with
    | string s => rw [Option.some.inj string]
    | _ => cases string
  · rintro rfl
    rfl

theorem asArray_bind : found.bind asArray = some items ↔ found = some (.array items) := by
  constructor
  · intro given
    obtain ⟨v, rfl, array⟩ := Option.bind_eq_some_iff.mp given
    cases v with
    | array l => rw [Option.some.inj array]
    | _ => cases array
  · rintro rfl
    rfl

theorem hasId_iff {id : String} : HasId val id ↔ eventIdOf val = id ∧ id ≠ "" := by
  unfold HasId eventIdOf
  rw [← asStr_bind]
  cases (val.get fieldEventId).bind asStr with
  | none =>
    refine iff_of_false nofun ?_
    rintro ⟨rfl, filled⟩
    exact filled rfl
  | some text => rw [Option.some.injEq, Option.getD_some]

theorem mem_named : val ∈ named events ↔ val ∈ events ∧ HasId val (eventIdOf val) := by
  unfold named
  rw [mem_filter, decide_eq_true_iff, hasId_iff]
  simp

theorem refEventId_iff {id : String} : refEventId entry = some id ↔ RefersTo entry id := by
  unfold refEventId RefersTo
  cases entry with
  | string text => simp [asStr]
  | array items =>
    cases items with
    | nil => simp [asStr, asArray]
    | cons first rest => cases first <;> simp [asStr, asArray]
  | _ => simp [asStr, asArray]

theorem mem_insertId {id : String} : id ∈ insertId ids given ↔ id ∈ ids ∨ given = some id := by
  cases given with
  | none => simp [insertId]
  | some other => simp [insertId, or_comm, eq_comm]

theorem mem_insertRefs {id : String} :
    id ∈ insertRefs ids given ↔ id ∈ ids ∨ ∃ entries, given = some entries ∧ ∃ entry ∈ entries, RefersTo entry id := by
  cases given with
  | none => simp [insertRefs]
  | some entries =>
    unfold insertRefs
    simp only [Option.some.injEq, exists_eq_left']
    induction entries generalizing ids with
    | nil => simp
    | cons entry rest ih =>
      rw [foldl_cons, ih, mem_insertId, refEventId_iff, exists_mem_cons_iff, or_assoc]

def Lists (val : Value) (field id : String) : Prop :=
  ∃ entries, val.get field = some (.array entries) ∧ ∃ entry ∈ entries, RefersTo entry id

def Relates (val : Value) (id : String) : Prop :=
  ∃ content rel, val.get fieldContent = some content ∧ content.get "m.relates_to" = some rel ∧
    (rel.get "event_id" = some (.string id) ∨ rel.get "relates_to" = some (.string id))

def Redacts (val : Value) (id : String) : Prop :=
  val.get fieldType = some (.string mRoomRedaction) ∧ (val.get "redacts" = some (.string id) ∨
    ∃ content, val.get fieldContent = some content ∧ content.get "redacts" = some (.string id))

theorem mentions_iff {id : String} : Mentions val id ↔
    Lists val fieldAuthEvents id ∨ Lists val fieldPrevEvents id ∨ Relates val id ∨ Redacts val id := by
  constructor
  · rintro (⟨rfl | rfl, given, mem, refers⟩ | ⟨given, related, named⟩ | ⟨type, named⟩)
    · exact .inl ⟨_, given, _, mem, refers⟩
    · exact .inr (.inl ⟨_, given, _, mem, refers⟩)
    · exact .inr (.inr (.inl ⟨_, _, given, related, named⟩))
    · exact .inr (.inr (.inr ⟨type, named⟩))
  · rintro (⟨_, given, _, mem, refers⟩ | ⟨_, given, _, mem, refers⟩ | ⟨_, _, given, related, named⟩ | ⟨type, named⟩)
    · exact .event (.inl rfl) given mem refers
    · exact .event (.inr rfl) given mem refers
    · exact .relation given related named
    · exact .redaction type named

section

variable {val : Value} {refs : FileRefs} {own id : String}

theorem mem_eventIds : id ∈ (collectRefs val refs own).eventIds ↔ id ∈ refs.eventIds ∨ id = own := by
  unfold collectRefs
  rw [Finset.mem_insert, or_comm]

theorem mem_authRefs : id ∈ (collectRefs val refs own).authRefs ↔ id ∈ refs.authRefs ∨ Lists val fieldAuthEvents id := by
  unfold collectRefs Lists
  simp only [mem_insertRefs, asArray_bind]

theorem mem_prevRefs : id ∈ (collectRefs val refs own).prevRefs ↔ id ∈ refs.prevRefs ∨ Lists val fieldPrevEvents id := by
  unfold collectRefs Lists
  simp only [mem_insertRefs, asArray_bind]

theorem mem_relatesTo : id ∈ (collectRefs val refs own).relatesTo ↔ id ∈ refs.relatesTo ∨ Relates val id := by
  unfold collectRefs Relates
  rw [mem_insertId, mem_insertId, asStr_bind, asStr_bind]
  simp only [Option.bind_eq_some_iff]
  constructor
  · rintro ((before | ⟨rel, ⟨content, given, related⟩, named⟩) | ⟨rel, ⟨content, given, related⟩, named⟩)
    · exact .inl before
    · exact .inr ⟨content, rel, given, related, .inl named⟩
    · exact .inr ⟨content, rel, given, related, .inr named⟩
  · rintro (before | ⟨content, rel, given, related, named | named⟩)
    · exact .inl (.inl before)
    · exact .inl (.inr ⟨rel, ⟨content, given, related⟩, named⟩)
    · exact .inr ⟨rel, ⟨content, given, related⟩, named⟩

theorem mem_redacts : id ∈ (collectRefs val refs own).redacts ↔ id ∈ refs.redacts ∨ Redacts val id := by
  unfold collectRefs Redacts
  dsimp only
  by_cases redaction : (val.get fieldType).bind asStr = some mRoomRedaction
  · rw [decide_eq_true redaction, if_pos rfl, mem_insertId, mem_insertId, asStr_bind, asStr_bind, or_assoc,
      Option.bind_eq_some_iff]
    simp only [asStr_bind.mp redaction, true_and]
  · rw [decide_eq_false redaction, if_neg (by simp)]
    rw [asStr_bind] at redaction
    simp only [redaction, false_and, or_false]

theorem mem_allIds : id ∈ refs.allIds ↔ id ∈ refs.eventIds ∨ id ∈ refs.authRefs ∨ id ∈ refs.prevRefs ∨
    id ∈ refs.relatesTo ∨ id ∈ refs.redacts := by
  unfold FileRefs.allIds
  simp only [Finset.mem_union, or_assoc]

theorem mem_collectRefs : id ∈ (collectRefs val refs own).allIds ↔ id ∈ refs.allIds ∨ id = own ∨ Mentions val id := by
  rw [mem_allIds, mem_allIds, mentions_iff, mem_eventIds, mem_authRefs, mem_prevRefs, mem_relatesTo, mem_redacts]
  tauto

end

def fileRefs (events : List Value) : FileRefs :=
  (named events).foldl (fun refs val => collectRefs val refs (eventIdOf val)) .empty

theorem mem_foldl_collectRefs (vals : List Value) (refs : FileRefs) (id : String) :
    (id ∈ (vals.foldl (fun refs val => collectRefs val refs (eventIdOf val)) refs).eventIds ↔
      id ∈ refs.eventIds ∨ ∃ val ∈ vals, eventIdOf val = id) ∧
    (id ∈ (vals.foldl (fun refs val => collectRefs val refs (eventIdOf val)) refs).allIds ↔
      id ∈ refs.allIds ∨ (∃ val ∈ vals, eventIdOf val = id) ∨ ∃ val ∈ vals, Mentions val id) := by
  induction vals generalizing refs with
  | nil => simp
  | cons val rest ih =>
    obtain ⟨owned, known⟩ := ih (collectRefs val refs (eventIdOf val))
    simp only [foldl_cons, owned, known, exists_mem_cons_iff, mem_collectRefs, mem_eventIds, eq_comm (a := id)]
    constructor
    · rw [or_assoc]
    · rw [or_assoc, or_or_or_comm]

theorem mem_fileRefs (events : List Value) (id : String) :
    (id ∈ (fileRefs events).eventIds ↔ Owns events id) ∧ (id ∈ (fileRefs events).allIds ↔ KnowsOf events id) := by
  have owned : (∃ val ∈ named events, eventIdOf val = id) ↔ Owns events id := by
    constructor
    · rintro ⟨val, mem, rfl⟩
      obtain ⟨inside, own⟩ := mem_named.mp mem
      exact ⟨val, inside, own⟩
    · rintro ⟨val, inside, own⟩
      obtain ⟨same, -⟩ := hasId_iff.mp own
      refine ⟨val, mem_named.mpr ⟨inside, ?_⟩, same⟩
      rwa [same]
  have mentioned : (∃ val ∈ named events, Mentions val id) ↔ ∃ val ∈ events, (∃ own, HasId val own) ∧ Mentions val id := by
    constructor
    · rintro ⟨val, mem, mentions⟩
      obtain ⟨inside, own⟩ := mem_named.mp mem
      exact ⟨val, inside, ⟨_, own⟩, mentions⟩
    · rintro ⟨val, inside, ⟨own, has⟩, mentions⟩
      refine ⟨val, mem_named.mpr ⟨inside, ?_⟩, mentions⟩
      rwa [(hasId_iff.mp has).1]
  obtain ⟨owns, knows⟩ := mem_foldl_collectRefs (named events) .empty id
  unfold fileRefs KnowsOf
  rw [owns, knows, owned, mentioned]
  simp [FileRefs.empty, FileRefs.allIds]

theorem sharesHistory_iff (a b : List Value) : sharesHistory (fileRefs a) (fileRefs b) = true ↔ ShareHistory a b := by
  unfold sharesHistory ShareHistory
  rw [decide_eq_true_iff]
  unfold Finset.Nonempty
  simp only [Finset.mem_inter, (mem_fileRefs a _).1, (mem_fileRefs a _).2, (mem_fileRefs b _).1, (mem_fileRefs b _).2,
    exists_or]

open Worklist

theorem popBack_pops : Pops popBack where
  none_iff queue := by simp [popBack]
  perm queue current rest taken := by
    obtain ⟨last, found, same⟩ := Option.map_eq_some_iff.mp taken
    obtain ⟨rfl, rfl⟩ := mk.inj same
    rw [getLast?_eq_some_iff] at found
    obtain ⟨before, rfl⟩ := found
    rw [dropLast_concat]
    exact perm_append_singleton last before

def Shares (a b : FileRefs) : Prop := sharesHistory a b = true

theorem edge_iff : Edge (keptNext (fun i => decide (i < perFileRefs.length)) (linkedFiles perFileRefs)) i j ↔
    Link Shares perFileRefs i j := by
  unfold Edge keptNext linkedFiles Link Shares
  by_cases inside : i < perFileRefs.length
  · rw [if_pos (decide_eq_true inside), mem_filter, mem_range]
    by_cases within : j < perFileRefs.length
    · simp [inside, within, getD_eq_getElem?_getD]
    · refine iff_of_false (fun linked => within linked.1) ?_
      rintro ⟨_, _, _, there, _⟩
      exact within (List.getElem?_eq_some_iff.mp there).1
  · rw [if_neg (by simpa using inside)]
    refine iff_of_false not_mem_nil ?_
    rintro ⟨_, _, here, _⟩
    exact inside (List.getElem?_eq_some_iff.mp here).1

theorem performConnectivityCheck_ok (perFileRefs : List FileRefs) :
    performConnectivityCheck perFileRefs = .ok () ↔ (2 ≤ perFileRefs.length → Connected Shares perFileRefs) := by
  have symm : ∀ a b : FileRefs, Shares a b → Shares b a := by
    intro a b shares
    unfold Shares sharesHistory at shares ⊢
    rw [decide_eq_true_iff] at shares ⊢
    exact shares.symm
  unfold performConnectivityCheck
  dsimp only
  by_cases few : perFileRefs.length < 2
  · rw [if_pos few]
    exact iff_of_true rfl fun more => absurd few (Nat.not_lt.mpr more)
  · rw [if_neg few]
    have visited : ∀ j, j ∈ flood popBack (fun i => decide (i < perFileRefs.length)) (linkedFiles perFileRefs)
        (range perFileRefs.length) [0] ↔ ReflTransGen (Link Shares perFileRefs) 0 j := by
      intro j
      have same : Edge (keptNext (fun i => decide (i < perFileRefs.length)) (linkedFiles perFileRefs)) =
          Link Shares perFileRefs := funext fun i => funext fun j => propext edge_iff
      rw [mem_flood popBack_pops fun i small => mem_range.mpr (of_decide_eq_true small)]
      unfold Reached
      rw [same]
      simp
    have all : Connected Shares perFileRefs ↔ ∀ j < perFileRefs.length, j ∈ flood popBack
        (fun i => decide (i < perFileRefs.length)) (linkedFiles perFileRefs) (range perFileRefs.length) [0] := by
      simp only [visited]
      exact connected_iff symm (by omega)
    have enough : (2 ≤ perFileRefs.length → Connected Shares perFileRefs) ↔ Connected Shares perFileRefs :=
      forall_prop_of_true (Nat.not_lt.mp few)
    rw [enough, all]
    split
    · rename_i idx found
      refine iff_of_false nofun fun each => ?_
      have unseen := find?_some found
      exact of_decide_eq_true unseen (each idx (mem_range.mp (mem_of_find?_eq_some found)))
    · rename_i none
      refine iff_of_true rfl fun j inside => ?_
      have seen := find?_eq_none.mp none j (mem_range.mpr inside)
      simpa using seen

theorem connected_fileRefs (files : List (List Value)) :
    Connected Shares (files.map fileRefs) ↔ Connected ShareHistory files := by
  have paired : List.Forall₂ (fun events refs => fileRefs events = refs) files (files.map fileRefs) := by
    rw [forall₂_map_right_iff]
    exact forall₂_same.mpr fun _ _ => rfl
  constructor
  · apply Connected.forall₂ paired.flip
    rintro _ _ _ _ rfl rfl shares
    exact (sharesHistory_iff _ _).mp shares
  · apply Connected.forall₂ paired
    rintro _ _ _ _ rfl rfl shares
    exact (sharesHistory_iff _ _).mpr shares

variable {roomVersion : Option String}

theorem eventTurn_foldlM (label : String) (events : List Value) (merging : Merging) (refs : FileRefs) :
    events.foldlM (eventTurn roomVersion label) (merging, refs) =
      ((named events).foldlM (mergeEvent roomVersion label) merging).map fun merging =>
        (merging, (named events).foldl (fun refs val => collectRefs val refs (eventIdOf val)) refs) := by
  induction events generalizing merging refs with
  | nil => rfl
  | cons val rest ih =>
    rw [foldlM_cons]
    by_cases unnamed : eventIdOf val = ""
    · have turn : eventTurn roomVersion label (merging, refs) val = .ok (merging, refs) := if_pos unnamed
      have rest' : named (val :: rest) = named rest := filter_cons_of_neg (by simpa using unnamed)
      rw [turn, rest', except_ok_bind, ih]
    · have turn : eventTurn roomVersion label (merging, refs) val = mergeEvent roomVersion label merging val >>=
          fun merging => .ok (merging, collectRefs val refs (eventIdOf val)) := if_neg unnamed
      have rest' : named (val :: rest) = val :: named rest := filter_cons_of_pos (by simpa using unnamed)
      rw [turn, rest', foldlM_cons, foldl_cons]
      cases mergeEvent roomVersion label merging val with
      | error fault => rfl
      | ok merging => exact ih merging (collectRefs val refs (eventIdOf val))

def labelled (fileSets : List (String × List Value)) : List (String × Value) :=
  fileSets.flatMap fun file => (named file.2).map (Prod.mk file.1)

def mergeRun (roomVersion : Option String) (list : List (String × Value)) (merging : Merging) : Except AppError Merging :=
  list.foldlM (fun merging entry => mergeEvent roomVersion entry.1 merging entry.2) merging

theorem fileTurn_foldlM (fileSets : List (String × List Value)) (merging : Merging) (perFileRefs : List FileRefs) :
    fileSets.foldlM (fileTurn roomVersion) (merging, perFileRefs) =
      (mergeRun roomVersion (labelled fileSets) merging).map fun merging =>
        (merging, perFileRefs ++ fileSets.map fun file => fileRefs file.2) := by
  induction fileSets generalizing merging perFileRefs with
  | nil =>
    rw [map_nil, append_nil]
    rfl
  | cons file rest ih =>
    have run : mergeRun roomVersion (labelled (file :: rest)) merging =
        (named file.2).foldlM (mergeEvent roomVersion file.1) merging >>= mergeRun roomVersion (labelled rest) := by
      unfold mergeRun labelled
      rw [flatMap_cons, foldlM_append, foldlM_map]
    rw [foldlM_cons, run]
    unfold fileTurn
    rw [eventTurn_foldlM]
    cases (named file.2).foldlM (mergeEvent roomVersion file.1) merging with
    | error fault => rfl
    | ok merging =>
      rw [map_cons, append_cons]
      exact ih merging (perFileRefs ++ [fileRefs file.2])

theorem labelled_map (fileSets : List (String × List Value)) :
    (labelled fileSets).map snd = named (fileSets.map snd).flatten := by
  unfold labelled named
  induction fileSets with
  | nil => rfl
  | cons file rest ih =>
    rw [flatMap_cons, map_append, ih, map_cons, flatten_cons, filter_append, List.map_map]
    congr 1
    exact List.map_id _

structure Consistent (roomVersion : Option String) (vals : List Value) : Prop where
  keys : ∀ val ∈ vals, ∃ key, comparisonKey val roomVersion = .ok key
  agree : ∀ val ∈ vals, ∀ other ∈ vals, eventIdOf val = eventIdOf other →
    comparisonKey val roomVersion = comparisonKey other roomVersion

structure Gathered (roomVersion : Option String) (vals : List Value) (merging : Merging) : Prop where
  firsts : FirstOccurrences eventIdOf vals merging.merged
  seen : ∀ id i, merging.seenIds[id]? = some i ↔ merging.merged[i]?.map eventIdOf = some id
  keys : List.Forall₂ (fun val key => comparisonKey val roomVersion = .ok key) merging.merged merging.mergedKeys
  copies : merging.duplicateCopies = min (vals.length - merging.merged.length) usizeMax

theorem gathered_start : Gathered roomVersion [] .start where
  firsts := .nil
  seen id i := by simp [Merging.start]
  keys := .nil
  copies := rfl

variable {vals : List Value} {val : Value}

theorem Gathered.first_of_seen (gathered : Gathered roomVersion vals merging) {id : String}
    (seen : merging.seenIds[id]? = some i) : ∃ first key, merging.merged[i]? = some first ∧ first ∈ vals ∧
      eventIdOf first = id ∧ comparisonKey first roomVersion = .ok key ∧ merging.mergedKeys[i]? = some key := by
  obtain ⟨first, found, same⟩ := Option.map_eq_some_iff.mp ((gathered.seen id i).mp seen)
  obtain ⟨inside, rfl⟩ := List.getElem?_eq_some_iff.mp found
  have within := gathered.keys.length_eq ▸ inside
  exact ⟨_, merging.mergedKeys[i], found, gathered.firsts.sublist.mem (getElem_mem inside), same,
    gathered.keys.get inside within, getElem?_eq_getElem within⟩

theorem Gathered.unseen (gathered : Gathered roomVersion vals merging) {id : String}
    (unseen : merging.seenIds[id]? = none) : id ∉ merging.merged.map eventIdOf := by
  intro inside
  obtain ⟨i, small, same⟩ := getElem_of_mem inside
  have found : merging.seenIds[id]? = some i := by
    rw [gathered.seen, ← getElem?_map, getElem?_eq_getElem small, same]
  rw [unseen] at found
  cases found

theorem Consistent.before (consistent : Consistent roomVersion (vals ++ [val])) : Consistent roomVersion vals where
  keys other member := consistent.keys other (mem_append_left _ member)
  agree one first other second := consistent.agree one (mem_append_left _ first) other (mem_append_left _ second)

theorem Consistent.next (consistent : Consistent roomVersion vals) {key : Bytes}
    (keyed : comparisonKey val roomVersion = .ok key)
    (agree : ∀ other ∈ vals, eventIdOf other = eventIdOf val → comparisonKey other roomVersion = .ok key) :
    Consistent roomVersion (vals ++ [val]) where
  keys other member := by
    rcases mem_append.mp member with before | last
    · exact consistent.keys other before
    · rw [mem_singleton.mp last]
      exact ⟨key, keyed⟩
  agree one first other second same := by
    rcases mem_append.mp first with first | first <;> rcases mem_append.mp second with second | second
    · exact consistent.agree one first other second same
    · rw [mem_singleton.mp second] at same ⊢
      rw [agree one first same, keyed]
    · rw [mem_singleton.mp first] at same ⊢
      rw [agree other second same.symm, keyed]
    · rw [mem_singleton.mp first, mem_singleton.mp second]

theorem mergeEvent_gathered (gathered : Gathered roomVersion vals merging) (consistent : Consistent roomVersion vals)
    {next : Merging} (merged : mergeEvent roomVersion label merging val = .ok next) :
    Gathered roomVersion (vals ++ [val]) next ∧ Consistent roomVersion (vals ++ [val]) := by
  obtain ⟨key, keyed, ended⟩ := Outcome.bind_eq_ok.mp merged
  cases seen : merging.seenIds[eventIdOf val]? with
  | some i =>
    obtain ⟨first, key', found, inside, same, firstKeyed, placed⟩ := gathered.first_of_seen seen
    rw [seen] at ended
    dsimp only at ended
    split at ended
    · cases ended
    · rename_i equal
      rw [not_not, placed] at equal
      cases equal
      cases ended
      have again : eventIdOf val ∈ merging.merged.map eventIdOf := mem_map.mpr ⟨first, mem_of_getElem? found, same⟩
      refine ⟨⟨gathered.firsts.again again, gathered.seen, gathered.keys, ?_⟩, consistent.next keyed ?_⟩
      · have fewer := gathered.firsts.sublist.length_le
        dsimp only
        rw [gathered.copies, length_append, length_singleton]
        unfold saturatingAdd
        omega
      · intro other mem equalIds
        rw [consistent.agree other mem first inside (equalIds.trans same.symm), firstKeyed]
  | none =>
    rw [seen] at ended
    cases ended
    have fresh := gathered.unseen seen
    have new : ∀ other ∈ vals, eventIdOf other ≠ eventIdOf val :=
      fun other mem same => fresh (same ▸ gathered.firsts.every other mem)
    refine ⟨⟨gathered.firsts.fresh fresh, fun id i => ?_, ?_, ?_⟩, consistent.next keyed
      fun other mem same => absurd same (new other mem)⟩
    · rw [Std.ExtHashMap.getElem?_insert, getElem?_append]
      by_cases same : eventIdOf val = id
      · subst same
        rw [if_pos (beq_self_eq_true _), Option.some.injEq]
        constructor
        · rintro rfl
          rw [if_neg (Nat.lt_irrefl _), Nat.sub_self]
          rfl
        · intro found
          split at found
          · rw [← gathered.seen, seen] at found
            cases found
          · rename_i past
            obtain ⟨other, here, _⟩ := Option.map_eq_some_iff.mp found
            have zero := (List.getElem?_eq_some_iff.mp here).1
            rw [length_singleton] at zero
            omega
      · rw [if_neg (by simpa using same), gathered.seen]
        split
        · rfl
        · rename_i past
          rw [getElem?_eq_none (Nat.not_lt.mp past)]
          refine iff_of_false nofun fun found => ?_
          obtain ⟨other, here, equal⟩ := Option.map_eq_some_iff.mp found
          exact same (mem_singleton.mp (mem_of_getElem? here) ▸ equal)
    · exact rel_append gathered.keys (.cons keyed .nil)
    · rw [gathered.copies, length_append, length_append]
      congr 1
      simp

theorem mergeEvent_ok (gathered : Gathered roomVersion vals merging)
    (consistent : Consistent roomVersion (vals ++ [val])) : ∃ next, mergeEvent roomVersion label merging val = .ok next := by
  obtain ⟨key, keyed⟩ := consistent.keys val (mem_append_right _ mem_cons_self)
  unfold mergeEvent
  rw [keyed, except_ok_bind]
  cases seen : merging.seenIds[eventIdOf val]? with
  | none => exact ⟨_, rfl⟩
  | some i =>
    obtain ⟨first, key', _, inside, same, firstKeyed, placed⟩ := gathered.first_of_seen seen
    have equal := consistent.agree first (mem_append_left _ inside) val (mem_append_right _ mem_cons_self) same
    rw [firstKeyed, keyed] at equal
    cases equal
    dsimp only
    rw [if_neg (not_not_intro placed)]
    exact ⟨_, rfl⟩

theorem mergeRun_spec (roomVersion : Option String) (list : List (String × Value)) :
    (∀ merging, mergeRun roomVersion list .start = .ok merging →
      Gathered roomVersion (list.map snd) merging ∧ Consistent roomVersion (list.map snd)) ∧
    (Consistent roomVersion (list.map snd) → ∃ merging, mergeRun roomVersion list .start = .ok merging) := by
  induction list using reverseRecOn with
  | nil =>
    refine ⟨?_, fun _ => ⟨_, rfl⟩⟩
    rintro _ ⟨⟩
    exact ⟨gathered_start, nofun, nofun⟩
  | append_singleton before entry ih =>
    have step : mergeRun roomVersion (before ++ [entry]) .start =
        mergeRun roomVersion before .start >>= fun merging => mergeEvent roomVersion entry.1 merging entry.2 := by
      unfold mergeRun
      rw [foldlM_append]
      simp
    rw [step, map_append, map_singleton]
    constructor
    · intro merging ended
      obtain ⟨between, first, last⟩ := Outcome.bind_eq_ok.mp ended
      obtain ⟨gathered, consistent⟩ := ih.1 between first
      exact mergeEvent_gathered gathered consistent last
    · intro consistent
      obtain ⟨between, first⟩ := ih.2 consistent.before
      rw [first, except_ok_bind]
      exact mergeEvent_ok (ih.1 between first).1 consistent

end

variable {roomVersion : Option String}

theorem consistent_named (vals : List Value) : Consistent roomVersion (named vals) ↔
    (∀ val ∈ vals, ∀ id, HasId val id → ∃ key, comparisonKey val roomVersion = .ok key) ∧
    ∀ val ∈ vals, ∀ other ∈ vals, ∀ id, HasId val id → HasId other id →
      comparisonKey val roomVersion = comparisonKey other roomVersion := by
  have listed : ∀ {val id}, val ∈ vals → HasId val id → val ∈ named vals := by
    intro val id inside has
    refine mem_named.mpr ⟨inside, ?_⟩
    rwa [(hasId_iff.mp has).1]
  constructor
  · intro consistent
    refine ⟨fun val inside id has => consistent.keys val (listed inside has), ?_⟩
    intro val inside other inside' id has has'
    exact consistent.agree val (listed inside has) other (listed inside' has')
      ((hasId_iff.mp has).1.trans (hasId_iff.mp has').1.symm)
  · rintro ⟨keys, agree⟩
    refine ⟨fun val mem => ?_, fun val mem other mem' same => ?_⟩
    · obtain ⟨inside, has⟩ := mem_named.mp mem
      exact keys val inside _ has
    · obtain ⟨inside, has⟩ := mem_named.mp mem
      obtain ⟨inside', has'⟩ := mem_named.mp mem'
      exact agree val inside other inside' _ has (same ▸ has')

theorem mergeEventSlices_ok (fileSets : List (String × List Value)) (result : MergeResult) :
    mergeEventSlices fileSets roomVersion = .ok result ↔ ∃ merging,
      mergeRun roomVersion (labelled fileSets) .start = .ok merging ∧
      (2 ≤ fileSets.length → Connected ShareHistory (fileSets.map snd)) ∧
      result = ⟨merging.merged, merging.duplicateCopies⟩ := by
  have refs : (fileSets.map fun file => fileRefs file.2) = (fileSets.map snd).map fileRefs := by
    rw [List.map_map]
    rfl
  have checked := performConnectivityCheck_ok (fileSets.map fun file => fileRefs file.2)
  rw [length_map, refs, connected_fileRefs, ← refs] at checked
  unfold mergeEventSlices
  rw [fileTurn_foldlM]
  cases mergeRun roomVersion (labelled fileSets) .start with
  | error fault =>
    refine iff_of_false nofun ?_
    rintro ⟨_, ⟨⟩, _⟩
  | ok merging =>
    simp only [Except.map, except_ok_bind, nil_append, Except.ok.injEq, exists_eq_left']
    by_cases many : 2 ≤ fileSets.length
    · rw [if_pos many, Outcome.bind_eq_ok]
      constructor
      · rintro ⟨⟨⟩, connected, ended⟩
        exact ⟨checked.mp connected, (Except.ok.inj ended).symm⟩
      · rintro ⟨connected, rfl⟩
        exact ⟨(), checked.mpr connected, rfl⟩
    · rw [if_neg many]
      constructor
      · intro ended
        exact ⟨fun more => absurd more many, (Except.ok.inj ended).symm⟩
      · rintro ⟨-, rfl⟩
        rfl

theorem mergeEventSlices_mergeable (fileSets : List (String × List Value)) :
    (∃ result, mergeEventSlices fileSets roomVersion = .ok result) ↔ Mergeable (fileSets.map snd) roomVersion := by
  obtain ⟨sound, complete⟩ := mergeRun_spec roomVersion (labelled fileSets)
  rw [labelled_map] at sound complete
  constructor
  · rintro ⟨result, merged⟩
    obtain ⟨merging, run, connected, -⟩ := (mergeEventSlices_ok fileSets result).mp merged
    obtain ⟨keys, agree⟩ := (consistent_named _).mp (sound merging run).2
    exact ⟨keys, agree, by rwa [length_map]⟩
  · rintro ⟨keys, agree, connected⟩
    rw [length_map] at connected
    obtain ⟨merging, run⟩ := complete ((consistent_named _).mpr ⟨keys, agree⟩)
    exact ⟨_, (mergeEventSlices_ok fileSets _).mpr ⟨merging, run, connected, rfl⟩⟩

theorem mergeEventSlices_merged (merged : mergeEventSlices fileSets roomVersion = .ok result) :
    Merged (fileSets.map snd) result := by
  obtain ⟨merging, run, -, rfl⟩ := (mergeEventSlices_ok fileSets result).mp merged
  have gathered := ((mergeRun_spec roomVersion (labelled fileSets)).1 merging run).1
  rw [labelled_map] at gathered
  exact ⟨gathered.firsts, gathered.copies⟩

theorem Shuffled.mem (shuffled : Shuffled fileSets others) (val : Value) :
    val ∈ (fileSets.map snd).flatten ↔ val ∈ (others.map snd).flatten := by
  obtain ⟨between, perm, each⟩ := shuffled
  rw [((perm.map snd).flatten).mem_iff]
  clear perm
  induction each with
  | nil => rfl
  | cons same _ ih => rw [map_cons, map_cons, flatten_cons, flatten_cons, mem_append,
      mem_append, same.mem_iff, ih]

theorem Shuffled.connected (shuffled : Shuffled fileSets others) :
    Connected ShareHistory (fileSets.map snd) ↔ Connected ShareHistory (others.map snd) := by
  obtain ⟨between, perm, each⟩ := shuffled
  have paired : List.Forall₂ List.Perm (between.map snd) (others.map snd) := by
    rw [forall₂_map_left_iff, forall₂_map_right_iff]
    exact each
  have keeps : ∀ a a' b b' : List Value, a.Perm a' → b.Perm b' → ShareHistory a b → ShareHistory a' b' := by
    intro a a' b b' left right
    unfold ShareHistory KnowsOf Owns
    simp only [left.mem_iff, right.mem_iff, imp_self]
  constructor
  · intro connected
    exact (connected.perm (perm.map snd)).forall₂ paired keeps
  · intro connected
    have back : List.Forall₂ (fun a b : List Value => a.Perm b) (others.map snd) (between.map snd) :=
      paired.flip.imp fun _ _ same => same.symm
    exact (connected.forall₂ back keeps).perm (perm.map snd).symm

theorem Shuffled.length_eq (shuffled : Shuffled fileSets others) : fileSets.length = others.length := by
  obtain ⟨between, perm, each⟩ := shuffled
  exact perm.length_eq.trans each.length_eq

theorem Shuffled.mergeable (shuffled : Shuffled fileSets others) :
    Mergeable (fileSets.map snd) roomVersion ↔ Mergeable (others.map snd) roomVersion := by
  constructor
  · rintro ⟨keys, agree, connected⟩
    simp only [shuffled.mem] at keys agree
    rw [length_map, shuffled.length_eq, ← length_map, shuffled.connected] at connected
    exact ⟨keys, agree, connected⟩
  · rintro ⟨keys, agree, connected⟩
    simp only [← shuffled.mem] at keys agree
    rw [length_map, ← shuffled.length_eq, ← length_map, ← shuffled.connected] at connected
    exact ⟨keys, agree, connected⟩

theorem keyed_eq {fileSets : List (String × List Value)} (mergeable : Mergeable (fileSets.map snd) roomVersion)
    (merged : Merged (fileSets.map snd) result) :
    keyed roomVersion result = {pair | ∃ val ∈ (fileSets.map snd).flatten, HasId val pair.1 ∧
      comparisonKey val roomVersion = .ok pair.2} := by
  ext pair
  constructor
  · rintro ⟨val, mem, has, key⟩
    exact ⟨val, (mem_named.mp (merged.firsts.sublist.mem mem)).1, has, key⟩
  · rintro ⟨val, inside, has, key⟩
    obtain ⟨same, -⟩ := hasId_iff.mp has
    have listed : val ∈ named (fileSets.map snd).flatten := mem_named.mpr ⟨inside, same.symm ▸ has⟩
    obtain ⟨first, mem, equal⟩ := mem_map.mp (merged.firsts.every val listed)
    obtain ⟨inside', has'⟩ := mem_named.mp (merged.firsts.sublist.mem mem)
    rw [equal, same] at has'
    refine ⟨first, mem, has', ?_⟩
    rw [mergeable.agree first inside' val inside pair.1 has' has, key]

end Rezzy.Cli
