import Rezzy.Lib.Loop
import Rezzy.State.EventCache

namespace Rezzy.State.LeanEventCache

open Basespec
open LeanEventCache (get new)

section

variable {Id C : Type} [DecidableEq Id] (start : LeanEventCache Id C) (ops : List (CacheOp Id C))

def cacheAt (n : Nat) : LeanEventCache Id C := Trace.stateAt (fun cache op => (op.apply cache).2) start ops n

def heldAt (n : Nat) (id : Id) : Option (LeanEvent Id C) := ((cacheAt start ops n).held id).map CacheEntry.event

def Inserts (n : Nat) (event : LeanEvent Id C) : Prop :=
  ∃ op, ops[n]? = some op ∧ op.inserts (cacheAt start ops n) = some event

def Touches (n : Nat) (id : Id) : Prop :=
  (∃ op, ops[n]? = some op ∧ op.finds (cacheAt start ops n) = some id) ∨
    ∃ event, Inserts start ops n event ∧ event.eventId = id

def Clears (n : Nat) : Prop := ops[n]? = some .clear

def Evicts (n : Nat) (id : Id) : Prop :=
  (heldAt start ops n id).isSome ∧ heldAt start ops (n + 1) id = none ∧ ¬Clears ops n

/-- Nothing is stored for the id or takes it away, from after `m` to before `n`. -/
def Lasts (id : Id) (m n : Nat) : Prop :=
  ∀ k, m < k → k < n →
    (¬∃ event, Inserts start ops k event ∧ event.eventId = id) ∧ ¬Evicts start ops k id ∧ ¬Clears ops k

def TouchedBefore (n : Nat) (id other : Id) : Prop :=
  ∃ k < n, Touches start ops k other ∧ ∀ j, k ≤ j → j < n → ¬Touches start ops j id

structure IsLru : Prop where
  index : ∀ n ≤ ops.length, ∀ tick id, (cacheAt start ops n).accessOrder[tick]? = some id ↔
    ∃ entry, (cacheAt start ops n).map.lookup id = some entry ∧ entry.lastAccess = tick
  own : ∀ n ≤ ops.length, ∀ id event, heldAt start ops n id = some event → event.eventId = id
  bounded : ∀ n ≤ ops.length, (cacheAt start ops n).len ≤ start.capacity
  value : ∀ n ≤ ops.length, ∀ id event, heldAt start ops n id = some event ↔
    event.eventId = id ∧ ∃ m < n, Inserts start ops m event ∧ Lasts start ops id m n
  lookup : ∀ n ≤ ops.length, ∀ id, ((cacheAt start ops n).get id).1 = heldAt start ops n id ∧
    ((cacheAt start ops n).getEvent id).1 = heldAt start ops n id ∧
    ∀ event, ((cacheAt start ops n).getOrInsert id event).1 = (heldAt start ops n id).getD event
  least : ∀ n id, Evicts start ops n id → ∀ other, other ≠ id → (heldAt start ops n other).isSome →
    TouchedBefore start ops n id other
  evicts : ∀ n id, Evicts start ops n id → (cacheAt start ops n).len = start.capacity ∧
    (∃ event, Inserts start ops n event ∧ heldAt start ops n event.eventId = none) ∧
    ∀ other, Evicts start ops n other → other = id

end

theorem clears_iff {Id C : Type} {ops : List (CacheOp Id C)} {n : Nat} {op : CacheOp Id C}
    (next : ops[n]? = some op) : Clears ops n ↔ op = .clear := by
  unfold Clears
  rw [next, Option.some.injEq]

variable {Id C : Type} [DecidableEq Id] {start : LeanEventCache Id C} {ops : List (CacheOp Id C)}

theorem new_sound {capacity : Nat} (made : new capacity = some start) :
    start.Sound ∧ start.generation = 0 ∧ ∀ id, start.held id = none := by
  unfold new at made
  split at made
  · rename_i room
    rw [← Option.some.inj made]
    refine ⟨⟨⟨fun tick id => iff_of_false (by simp) nofun, nofun, nofun⟩, room, Nat.zero_le _⟩, rfl, fun _ => rfl⟩
  · cases made

section

variable (sound : start.Sound) (fresh : start.generation = 0) (short : ops.length < 2 ^ 64)

include sound fresh short

theorem sound_at (within : n ≤ ops.length) :
    (cacheAt start ops n).Sound ∧ (cacheAt start ops n).capacity = start.capacity ∧
      (cacheAt start ops n).generation ≤ n := by
  refine Trace.stateAt_invariant (fun n (cache : LeanEventCache Id C) => cache.Sound ∧ cache.capacity = start.capacity ∧ cache.generation ≤ n)
    ⟨sound, rfl, fresh.le⟩
    (fun n op next now => ?_) within
  obtain ⟨holds, capacity, ticks⟩ := now
  obtain ⟨inside, -⟩ := List.getElem?_eq_some_iff.mp next
  have effect := apply_effect holds (by omega) op
  cases effect with
  | kept sound' capacity' generation' => exact ⟨sound', capacity'.trans capacity, by omega⟩
  | stored refreshed => exact ⟨refreshed.sound, refreshed.capacity.trans capacity, by rw [refreshed.generation]; omega⟩
  | found refreshed => exact ⟨refreshed.sound, refreshed.capacity.trans capacity, by rw [refreshed.generation]; omega⟩
  | cleared sound' capacity' generation' => exact ⟨sound', capacity'.trans capacity, by omega⟩

theorem effect_at (next : ops[n]? = some op) : Effect (cacheAt start ops n) op (cacheAt start ops (n + 1)) := by
  obtain ⟨inside, -⟩ := List.getElem?_eq_some_iff.mp next
  obtain ⟨holds, -, ticks⟩ := sound_at sound fresh short inside.le
  have step : cacheAt start ops (n + 1) = (op.apply (cacheAt start ops n)).2 := Trace.stateAt_succ next
  rw [step]
  exact apply_effect holds (by omega) op

end

section

variable {n : Nat} {op : CacheOp Id C} (next : ops[n]? = some op)

include next

theorem inserts_iff (event : LeanEvent Id C) :
    Inserts start ops n event ↔ op.inserts (cacheAt start ops n) = some event := by
  constructor
  · rintro ⟨other, at', stored⟩
    obtain rfl := Option.some.inj (next.symm.trans at')
    exact stored
  · exact fun stored => ⟨op, next, stored⟩

theorem touches_iff (id : Id) : Touches start ops n id ↔ op.finds (cacheAt start ops n) = some id ∨
      ∃ event, op.inserts (cacheAt start ops n) = some event ∧ event.eventId = id := by
  unfold Touches
  simp only [inserts_iff next]
  constructor
  · rintro (⟨other, at', found⟩ | stored)
    · obtain rfl := Option.some.inj (next.symm.trans at')
      exact .inl found
    · exact .inr stored
  · rintro (found | stored)
    · exact .inl ⟨op, next, found⟩
    · exact .inr stored

end

theorem heldAt_eq (n : Nat) (id : Id) :
    heldAt start ops n id = ((cacheAt start ops n).held id).map CacheEntry.event := rfl

theorem heldAt_some {n : Nat} {id : Id} {event : LeanEvent Id C} :
    heldAt start ops n id = some event ↔ ∃ entry, (cacheAt start ops n).held id = some entry ∧ entry.event = event :=
  Option.map_eq_some_iff

theorem heldAt_none {id : Id} : heldAt start ops n id = none ↔ (cacheAt start ops n).held id = none :=
  Option.map_eq_none_iff

theorem entries_next {n : Nat} {op : CacheOp Id C} (next : ops[n]? = some op)
    (effect : Effect (cacheAt start ops n) op (cacheAt start ops (n + 1))) (id : Id) :
    (∃ entry, (cacheAt start ops (n + 1)).held id = some entry ∧ Touches start ops n id ∧
        entry.lastAccess = (cacheAt start ops n).generation + 1 ∧
        (Inserts start ops n entry.event ∧ entry.event.eventId = id ∨
          (∀ event, ¬Inserts start ops n event) ∧ heldAt start ops n id = some entry.event)) ∨
      ¬Touches start ops n id ∧ ((cacheAt start ops (n + 1)).held id = (cacheAt start ops n).held id ∨
        (cacheAt start ops (n + 1)).held id = none ∧ (Clears ops n ∨
          ∃ event, Inserts start ops n event ∧ Victim (cacheAt start ops n) event.eventId id)) := by
  simp only [touches_iff next, inserts_iff next, clears_iff next]
  cases effect with
  | kept _ _ _ same stores finds =>
    refine .inr ⟨?_, .inl (same id)⟩
    rw [stores, finds]
    simp
  | @stored event refreshed stores finds =>
    rw [stores, finds]
    by_cases same : id = event.eventId
    · rw [same]
      exact .inl ⟨_, refreshed.stored, .inr ⟨event, rfl, rfl⟩, rfl, .inl ⟨rfl, rfl⟩⟩
    · refine .inr ⟨?_, ?_⟩
      · rintro (impossible | ⟨other, stored, own⟩)
        · cases impossible
        · rw [← Option.some.inj stored] at own
          exact same own.symm
      · rcases refreshed.others id same with equal | ⟨gone, victim⟩
        · exact .inl equal
        · exact .inr ⟨gone, .inr ⟨event, rfl, victim⟩⟩
  | @found other entry refreshed held stores finds =>
    rw [stores, finds]
    by_cases same : id = other
    · rw [same]
      exact .inl ⟨_, refreshed.stored, .inl rfl, rfl, .inr ⟨nofun, heldAt_some.mpr ⟨entry, held, rfl⟩⟩⟩
    · refine .inr ⟨?_, ?_⟩
      · rintro (found | ⟨event, impossible, -⟩)
        · exact same (Option.some.inj found).symm
        · cases impossible
      · rcases refreshed.others id same with equal | ⟨gone, victim⟩
        · exact .inl equal
        · cases held.symm.trans victim.fresh
  | cleared _ _ _ gone cleared =>
    subst cleared
    refine .inr ⟨?_, .inr ⟨gone id, .inl rfl⟩⟩
    rintro (impossible | ⟨event, impossible, -⟩)
    · cases impossible
    · cases impossible

theorem cleared_next (clears : Clears ops n) (id : Id) : heldAt start ops (n + 1) id = none := by
  have step : cacheAt start ops (n + 1) = (cacheAt start ops n).clear := Trace.stateAt_succ clears
  rw [heldAt_none, step]
  rfl

theorem lookups (n : Nat) (id : Id) : ((cacheAt start ops n).get id).1 = heldAt start ops n id ∧
    ((cacheAt start ops n).getEvent id).1 = heldAt start ops n id ∧
    ∀ event, ((cacheAt start ops n).getOrInsert id event).1 = (heldAt start ops n id).getD event := by
  unfold get
  rw [getEvent_eq]
  cases found : (cacheAt start ops n).held id with
  | none =>
    have missed : ((cacheAt start ops n).touch id).1 = heldAt start ops n id := by
      rw [heldAt_none.mpr found]
      have absent : (cacheAt start ops n).map.lookup id = none := found
      unfold touch
      rw [absent]
    refine ⟨missed, missed, fun event => ?_⟩
    rw [getOrInsert_missed found, heldAt_none.mpr found]
    rfl
  | some entry =>
    have value : heldAt start ops n id = some entry.event := heldAt_some.mpr ⟨entry, found, rfl⟩
    rw [touch_found found, value]
    refine ⟨rfl, rfl, fun event => ?_⟩
    rw [getOrInsert_found found]
    rfl

section

variable (sound : start.Sound) (fresh : start.generation = 0) (short : ops.length < 2 ^ 64)

include sound fresh short

theorem not_evicts_touched (next : ops[n]? = some op) {id : Id} (evicts : Evicts start ops n id) :
    ∃ event, Inserts start ops n event ∧ Victim (cacheAt start ops n) event.eventId id := by
  obtain ⟨before, after, going⟩ := evicts
  rw [heldAt_none] at after
  rcases entries_next next (effect_at sound fresh short next) id with ⟨entry, held, -⟩ | ⟨-, same | ⟨-, ends⟩⟩
  · cases after.symm.trans held
  · rw [heldAt_eq, ← same, after] at before
    cases before
  · exact ends.resolve_left going

theorem value_next (next : ops[n]? = some op) {id : Id} :
    heldAt start ops (n + 1) id = some event ↔ Inserts start ops n event ∧ event.eventId = id ∨
      heldAt start ops n id = some event ∧ (¬∃ other, Inserts start ops n other ∧ other.eventId = id) ∧
        ¬Evicts start ops n id ∧ ¬Clears ops n := by
  have entries := entries_next next (effect_at sound fresh short next) id
  constructor
  · intro after
    have stays : ¬Evicts start ops n id ∧ ¬Clears ops n := by
      constructor
      · rintro ⟨-, gone, -⟩
        cases after.symm.trans gone
      · intro clears
        cases after.symm.trans (cleared_next clears id)
    obtain ⟨now, held, rfl⟩ := heldAt_some.mp after
    rcases entries with ⟨entry, held', -, -, stored | ⟨stores, before⟩⟩ | ⟨untouched, same | ⟨gone, -⟩⟩
    · obtain rfl := Option.some.inj (held.symm.trans held')
      exact .inl stored
    · obtain rfl := Option.some.inj (held.symm.trans held')
      exact .inr ⟨before, fun inserted => stores _ inserted.choose_spec.1, stays⟩
    · exact .inr ⟨heldAt_some.mpr ⟨now, same.symm.trans held, rfl⟩, fun inserted => untouched (.inr inserted), stays⟩
    · cases held.symm.trans gone
  · rintro (⟨inserts, own⟩ | ⟨before, notInserted, stays, going⟩)
    · rcases entries with ⟨entry, held, -, -, ⟨stored, -⟩ | ⟨stores, -⟩⟩ | ⟨untouched, -⟩
      · rw [inserts_iff next] at stored inserts
        exact heldAt_some.mpr ⟨entry, held, Option.some.inj (stored.symm.trans inserts)⟩
      · exact absurd inserts (stores event)
      · exact absurd (.inr ⟨event, inserts, own⟩) untouched
    · rcases entries with ⟨entry, held, -, -, stored | ⟨-, same⟩⟩ | ⟨-, same | ⟨gone, -⟩⟩
      · exact absurd ⟨entry.event, stored⟩ notInserted
      · exact heldAt_some.mpr ⟨entry, held, Option.some.inj (same.symm.trans before)⟩
      · rw [heldAt_eq, same]
        exact before
      · refine absurd ⟨?_, heldAt_none.mpr gone, going⟩ stays
        rw [before]
        rfl

theorem value_exact (within : n ≤ ops.length) (empty : ∀ id, start.held id = none) (id : Id) (event : LeanEvent Id C) :
    heldAt start ops n id = some event ↔
      event.eventId = id ∧ ∃ m < n, Inserts start ops m event ∧ Lasts start ops id m n := by
  induction n with
  | zero =>
    have none : heldAt start ops 0 id = none := heldAt_none.mpr (empty id)
    rw [none]
    exact iff_of_false nofun fun ⟨_, m, impossible, _⟩ => absurd impossible (Nat.not_lt_zero m)
  | succ n ih =>
    have next : ops[n]? = some ops[n] := List.getElem?_eq_getElem within
    rw [value_next sound fresh short next, ih (Nat.le_of_succ_le within)]
    constructor
    · rintro (⟨inserts, own⟩ | ⟨⟨own, m, earlier, inserts, lasts⟩, stays⟩)
      · exact ⟨own, n, Nat.lt_succ_self n, inserts, fun k after before => by omega⟩
      · refine ⟨own, m, Nat.lt_succ_of_lt earlier, inserts, fun k after before => ?_⟩
        rcases Nat.lt_succ_iff_lt_or_eq.mp before with sooner | rfl
        · exact lasts k after sooner
        · exact stays
    · rintro ⟨own, m, earlier, inserts, lasts⟩
      rcases Nat.lt_succ_iff_lt_or_eq.mp earlier with sooner | rfl
      · refine .inr ⟨⟨own, m, sooner, inserts, fun k after before => lasts k after (Nat.lt_succ_of_lt before)⟩, ?_⟩
        exact lasts n sooner (Nat.lt_succ_self n)
      · exact .inl ⟨inserts, own⟩

theorem ticks_exact (within : n ≤ ops.length) (empty : ∀ id, start.held id = none) {id other : Id}
    (first : (cacheAt start ops n).held id = some entry) (second : (cacheAt start ops n).held other = some further)
    (less : entry.lastAccess < further.lastAccess) : TouchedBefore start ops n id other := by
  induction n generalizing entry further with
  | zero => cases (empty id).symm.trans first
  | succ n ih =>
    have inside : n ≤ ops.length := Nat.le_of_succ_le within
    have next : ops[n]? = some ops[n] := List.getElem?_eq_getElem within
    have effect := effect_at sound fresh short next
    obtain ⟨holds, -, -⟩ := sound_at sound fresh short inside
    have untouched : ∀ {x : Id} {e : CacheEntry Id C}, (cacheAt start ops (n + 1)).held x = some e →
        e.lastAccess ≤ (cacheAt start ops n).generation →
        ¬Touches start ops n x ∧ (cacheAt start ops n).held x = some e := by
      intro x e now old
      rcases entries_next next effect x with ⟨e', held, -, tick, -⟩ | ⟨untouched, same | ⟨gone, -⟩⟩
      · obtain rfl := Option.some.inj (now.symm.trans held)
        omega
      · exact ⟨untouched, same.symm.trans now⟩
      · cases now.symm.trans gone
    rcases entries_next next effect other with ⟨e', held, touches, tick, -⟩ | ⟨-, same | ⟨gone, -⟩⟩
    · obtain rfl := Option.some.inj (second.symm.trans held)
      obtain ⟨idle, -⟩ := untouched first (by omega)
      refine ⟨n, Nat.lt_succ_self n, touches, fun j after before => ?_⟩
      obtain rfl : j = n := by omega
      exact idle
    · have before := same.symm.trans second
      have old := holds.recent other further before
      obtain ⟨idle, now⟩ := untouched first (by omega)
      obtain ⟨k, earlier, touches, since⟩ := ih inside now before less
      refine ⟨k, Nat.lt_succ_of_lt earlier, touches, fun j after before => ?_⟩
      rcases Nat.lt_succ_iff_lt_or_eq.mp before with sooner | rfl
      · exact since j after sooner
      · exact idle
    · cases second.symm.trans gone

theorem value_own (within : n ≤ ops.length) {id : Id} (held : heldAt start ops n id = some event) :
    event.eventId = id := by
  obtain ⟨entry, found, rfl⟩ := heldAt_some.mp held
  exact (sound_at sound fresh short within).1.own id entry found

theorem evicts_least {id : Id} (evicts : Evicts start ops n id) (empty : ∀ id, start.held id = none) :
    (∀ other, other ≠ id → (heldAt start ops n other).isSome → TouchedBefore start ops n id other) ∧
      (cacheAt start ops n).len = start.capacity ∧
      (∃ event, Inserts start ops n event ∧ heldAt start ops n event.eventId = none) ∧
      ∀ other, Evicts start ops n other → other = id := by
  cases next : ops[n]? with
  | none =>
    have same : cacheAt start ops (n + 1) = cacheAt start ops n := Trace.stateAt_past next
    obtain ⟨before, after, -⟩ := evicts
    rw [heldAt_eq, same, ← heldAt_eq] at after
    rw [after] at before
    cases before
  | some op =>
    obtain ⟨inside, -⟩ := List.getElem?_eq_some_iff.mp next
    obtain ⟨holds, capacity, -⟩ := sound_at sound fresh short inside.le
    obtain ⟨event, inserts, absent, full, entry, found, least⟩ := not_evicts_touched sound fresh short next evicts
    refine ⟨fun other differs held => ?_, full.trans capacity, ⟨event, inserts, heldAt_none.mpr absent⟩,
      fun other again => ?_⟩
    · obtain ⟨value, known⟩ := Option.isSome_iff_exists.mp held
      obtain ⟨further, now, -⟩ := heldAt_some.mp known
      refine ticks_exact sound fresh short inside.le empty found now (lt_of_le_of_ne (least other further now) ?_)
      exact fun same => differs (holds.toIndexed.unique now found same.symm)
    · obtain ⟨_, _, _, _, further, now, smallest⟩ := not_evicts_touched sound fresh short next again
      exact holds.toIndexed.unique now found (le_antisymm (smallest id entry found) (least other further now))

end

/-- A cache of any capacity, over any calls that the 64-bit tick can count. -/
theorem lru_exact {capacity : Nat} (made : LeanEventCache.new capacity = some start) (short : ops.length < 2 ^ 64) :
    IsLru start ops := by
  obtain ⟨sound, fresh, empty⟩ := new_sound made
  constructor
  · exact fun n within => (sound_at sound fresh short within).1.order
  · exact fun n within id event held => value_own sound fresh short within held
  · intro n within
    obtain ⟨holds, capacity, -⟩ := sound_at sound fresh short within
    exact capacity ▸ holds.bounded
  · exact fun n within id event => value_exact sound fresh short within empty id event
  · exact fun n _ id => lookups n id
  · exact fun n id evicts => (evicts_least sound fresh short evicts empty).1
  · exact fun n id evicts => (evicts_least sound fresh short evicts empty).2

def named (id : Nat) : LeanEvent Nat Nat := ⟨id, "m.room.name", some "", 0, 0, "a", 0, [], [], 0, false, none⟩

theorem lru_exact_two : ∃ start : LeanEventCache Nat Nat, LeanEventCache.new 2 = some start ∧
    IsLru start [.insert (named 1), .insert (named 2), .get 1, .getOrInsert 3 (named 3), .getEvent 2, .clear] := by
  have made : LeanEventCache.new 2 = some (⟨∅, ∅, 0, 2, 0, 0, 0⟩ : LeanEventCache Nat Nat) := if_pos (by decide)
  exact ⟨_, made, lru_exact made (by decide)⟩

end Rezzy.State.LeanEventCache
