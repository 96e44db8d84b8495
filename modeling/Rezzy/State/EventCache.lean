import Mathlib.Data.List.AList
import Rezzy.Basespec.Event
import Rezzy.Lib.MapTotal

namespace Rezzy.State

open Basespec MapTotal AList Std.ExtTreeMap Option

section

variable {Id C : Type}

structure CacheEntry (Id C : Type) where
  event : LeanEvent Id C
  lastAccess : Nat

structure LeanEventCache (Id C : Type) where
  map : AList fun _ : Id => CacheEntry Id C
  accessOrder : Std.ExtTreeMap Nat Id
  generation : Nat
  capacity : Nat
  hits : Nat
  misses : Nat
  evictions : Nat

def nextTick (generation : Nat) : Nat := (generation + 1) % 2 ^ 64

def countUp (counter : Nat) : Nat := min (counter + 1) (2 ^ 32 - 1)

structure CacheStats where
  hits : Nat
  misses : Nat
  evictions : Nat

def popFirst (order : Std.ExtTreeMap Nat Id) : Option (Id × Std.ExtTreeMap Nat Id) := do
  let tick ← order.minKey?
  let id ← order[tick]?
  return (id, order.erase tick)

namespace LeanEventCache

def new (capacity : Nat) : Option (LeanEventCache Id C) :=
  if 0 < capacity then some ⟨∅, ∅, 0, capacity, 0, 0, 0⟩ else none

def len (cache : LeanEventCache Id C) : Nat := cache.map.entries.length

def isEmpty (cache : LeanEventCache Id C) : Bool := cache.len = 0

def stats (cache : LeanEventCache Id C) : CacheStats := ⟨cache.hits, cache.misses, cache.evictions⟩

variable [DecidableEq Id]

def bumpEntry (cache : LeanEventCache Id C) (id : Id) (entry : CacheEntry Id C) : LeanEventCache Id C :=
  let newGen := nextTick cache.generation
  { cache with
    generation := newGen
    map := cache.map.insert id { entry with lastAccess := newGen }
    accessOrder := (cache.accessOrder.erase entry.lastAccess).insert newGen entry.event.eventId }

def touch (cache : LeanEventCache Id C) (id : Id) : Option (LeanEvent Id C) × LeanEventCache Id C :=
  match cache.map.lookup id with
  | some entry => (some entry.event, { cache.bumpEntry id entry with hits := countUp cache.hits })
  | none => (none, { cache with misses := countUp cache.misses })

def get (cache : LeanEventCache Id C) (id : Id) : Option (LeanEvent Id C) × LeanEventCache Id C := cache.touch id

def getEvent (cache : LeanEventCache Id C) (id : Id) : Option (LeanEvent Id C) × LeanEventCache Id C :=
  match cache.map.lookup id with
  | some entry => (some entry.event, { cache.bumpEntry id entry with hits := countUp cache.hits })
  | none => (none, { cache with misses := countUp cache.misses })

def evictLru (cache : LeanEventCache Id C) : LeanEventCache Id C :=
  match popFirst cache.accessOrder with
  | some (id, order) =>
    { cache with map := cache.map.erase id, accessOrder := order, evictions := countUp cache.evictions }
  | none => cache

def makeRoom (cache : LeanEventCache Id C) : LeanEventCache Id C :=
  if cache.capacity ≤ cache.len then cache.evictLru else cache

def insertArc (cache : LeanEventCache Id C) (event : LeanEvent Id C) : LeanEventCache Id C :=
  let newGen := nextTick cache.generation
  let cache := { cache with generation := newGen }
  match cache.map.lookup event.eventId with
  | some existing =>
    { cache with
      map := cache.map.insert event.eventId ⟨event, newGen⟩
      accessOrder := (cache.accessOrder.erase existing.lastAccess).insert newGen event.eventId }
  | none =>
    let cache := cache.makeRoom
    { cache with
      map := cache.map.insert event.eventId ⟨event, newGen⟩
      accessOrder := cache.accessOrder.insert newGen event.eventId }

def insert (cache : LeanEventCache Id C) (event : LeanEvent Id C) : LeanEvent Id C × LeanEventCache Id C :=
  (event, cache.insertArc event)

/-- The event stands for the closure's result. Debug builds panic when it has another id. -/
def getOrInsert (cache : LeanEventCache Id C) (id : Id) (event : LeanEvent Id C) :
    LeanEvent Id C × LeanEventCache Id C :=
  match cache.get id with
  | (some found, cache) => (found, cache)
  | (none, cache) => cache.insert event

def clear (cache : LeanEventCache Id C) : LeanEventCache Id C :=
  { cache with map := ∅, accessOrder := ∅, generation := 0 }

end LeanEventCache

variable [DecidableEq Id]

inductive CacheOp (Id C : Type) where
  | insert (event : LeanEvent Id C)
  | insertArc (event : LeanEvent Id C)
  | get (id : Id)
  | getEvent (id : Id)
  | getOrInsert (id : Id) (event : LeanEvent Id C)
  | clear

namespace CacheOp

def apply (cache : LeanEventCache Id C) : CacheOp Id C → Option (LeanEvent Id C) × LeanEventCache Id C
  | insert event => (some (cache.insert event).1, (cache.insert event).2)
  | insertArc event => (none, cache.insertArc event)
  | get id => cache.get id
  | getEvent id => cache.getEvent id
  | getOrInsert id event => (some (cache.getOrInsert id event).1, (cache.getOrInsert id event).2)
  | clear => (none, cache.clear)

def inserts (cache : LeanEventCache Id C) : CacheOp Id C → Option (LeanEvent Id C)
  | insert event => some event
  | insertArc event => some event
  | getOrInsert id event => if (cache.map.lookup id).isSome then none else some event
  | get _ | getEvent _ | clear => none

def finds (cache : LeanEventCache Id C) : CacheOp Id C → Option Id
  | get id | getEvent id | getOrInsert id _ => if (cache.map.lookup id).isSome then some id else none
  | insert _ | insertArc _ | clear => none

end CacheOp

end

variable {Id C : Type} [DecidableEq Id]

namespace LeanEventCache

def held (cache : LeanEventCache Id C) (id : Id) : Option (CacheEntry Id C) := cache.map.lookup id

structure Indexed (cache : LeanEventCache Id C) : Prop where
  order : ∀ tick id, cache.accessOrder[tick]? = some id ↔ ∃ entry, cache.held id = some entry ∧ entry.lastAccess = tick
  own : ∀ id entry, cache.held id = some entry → entry.event.eventId = id
  recent : ∀ id entry, cache.held id = some entry → entry.lastAccess ≤ cache.generation

structure Sound (cache : LeanEventCache Id C) : Prop extends Indexed cache where
  room : 0 < cache.capacity
  bounded : cache.len ≤ cache.capacity

section

variable (map : AList fun _ : Id => CacheEntry Id C) {id : Id}

open List

omit [DecidableEq Id] in
theorem length_keys : map.keys.length = map.entries.length := length_map ..

theorem length_insert_held (known : (map.lookup id).isSome) :
    (map.insert id entry).entries.length = map.entries.length := by
  have mem : id ∈ map.keys := lookup_isSome.mp known
  rw [← length_keys, keys_insert, length_cons, length_erase_of_mem mem, ← length_keys]
  have := length_pos_of_mem mem
  omega

theorem length_insert_fresh (fresh : map.lookup id = none) :
    (map.insert id entry).entries.length = map.entries.length + 1 := by
  have missing : id ∉ map.keys := lookup_eq_none.mp fresh
  rw [← length_keys, keys_insert, length_cons, erase_of_not_mem missing, length_keys]

theorem length_erase (known : (map.lookup id).isSome) : (map.erase id).entries.length + 1 = map.entries.length := by
  have mem : id ∈ map.keys := lookup_isSome.mp known
  rw [← length_keys, keys_erase, length_erase_of_mem mem, ← length_keys]
  have := length_pos_of_mem mem
  omega

end

variable {cache : LeanEventCache Id C} {id : Id}

section

variable (indexed : cache.Indexed)
include indexed

theorem Indexed.unique (first : cache.held id = some entry)
    (second : cache.held other = some further) (same : entry.lastAccess = further.lastAccess) : id = other := by
  have one := (indexed.order entry.lastAccess id).mpr ⟨entry, first, rfl⟩
  have two := (indexed.order entry.lastAccess other).mpr ⟨further, second, same.symm⟩
  exact Option.some.inj (one.symm.trans two)

theorem Indexed.earlier (other : Id) (further : CacheEntry Id C)
    (found : cache.held other = some further) : further.lastAccess < cache.generation + 1 :=
  Nat.lt_succ_of_le (indexed.recent other further found)

theorem Indexed.remove (found : cache.held id = some entry) {after : LeanEventCache Id C}
    (map : after.map = cache.map.erase id) (order : after.accessOrder = cache.accessOrder.erase entry.lastAccess)
    (generation : cache.generation ≤ after.generation) : after.Indexed := by
  have held : ∀ other, after.held other = if other = id then none else cache.held other := by
    intro other
    unfold LeanEventCache.held
    rw [map]
    by_cases same : other = id
    · rw [if_pos same, same, lookup_erase]
    · rw [if_neg same, lookup_erase_ne same]
  have kept : ∀ other further, after.held other = some further → other ≠ id ∧ cache.held other = some further := by
    intro other further now
    rw [held] at now
    by_cases same : other = id
    · rw [if_pos same] at now
      cases now
    · rw [if_neg same] at now
      exact ⟨same, now⟩
  refine ⟨fun tick other => ?_, fun other further now => ?_, fun other further now => ?_⟩
  · rw [order, getElem?_erase_of_eq, held]
    by_cases old : tick = entry.lastAccess
    · rw [if_pos old]
      refine iff_of_false nofun ?_
      rintro ⟨further, now, tick_eq⟩
      obtain ⟨differs, now⟩ := kept other further (by rw [held]; exact now)
      exact differs (indexed.unique now found (tick_eq.trans old))
    · rw [if_neg old, indexed.order]
      by_cases same : other = id
      · rw [if_pos same, same, found]
        refine iff_of_false ?_ nofun
        rintro ⟨further, now, tick_eq⟩
        rw [Option.some.inj now] at old
        exact old tick_eq.symm
      · rw [if_neg same]
  · exact indexed.own other further (kept other further now).2
  · exact (indexed.recent other further (kept other further now).2).trans generation

theorem Indexed.place (fresh : cache.held id = none) {event : LeanEvent Id C}
    (own : event.eventId = id) {after : LeanEventCache Id C} {tick : Nat}
    (later : ∀ other further, cache.held other = some further → further.lastAccess < tick)
    (held : ∀ other, after.held other = if other = id then some ⟨event, tick⟩ else cache.held other)
    (order : after.accessOrder = cache.accessOrder.insert tick id) (generation : after.generation = tick) :
    after.Indexed := by
  refine ⟨fun at' other => ?_, fun other further now => ?_, fun other further now => ?_⟩
  · rw [order, getElem?_insert, held]
    by_cases new : tick = at'
    · rw [if_pos (compare_eq_iff_eq.mpr new), Option.some.injEq]
      by_cases same : other = id
      · rw [if_pos same]
        exact iff_of_true same.symm ⟨_, rfl, new⟩
      · rw [if_neg same]
        refine iff_of_false (fun equal => same equal.symm) ?_
        rintro ⟨further, now, tick_eq⟩
        exact (later other further now).ne (tick_eq.trans new.symm)
    · rw [if_neg fun equal => new (compare_eq_iff_eq.mp equal), indexed.order]
      by_cases same : other = id
      · rw [if_pos same, same, fresh]
        refine iff_of_false nofun ?_
        rintro ⟨further, now, tick_eq⟩
        rw [← Option.some.inj now] at tick_eq
        exact new tick_eq
      · rw [if_neg same]
  · rw [held] at now
    by_cases same : other = id
    · rw [if_pos same] at now
      rw [← Option.some.inj now, own, same]
    · rw [if_neg same] at now
      exact indexed.own other further now
  · rw [held] at now
    rw [generation]
    by_cases same : other = id
    · rw [if_pos same] at now
      rw [← Option.some.inj now]
    · rw [if_neg same] at now
      exact (later other further now).le

theorem Indexed.renew (found : cache.held id = some old) (own : event.eventId = id) {after : LeanEventCache Id C}
    (later : ∀ other further, cache.held other = some further → further.lastAccess < tick)
    (map : after.map = cache.map.insert id ⟨event, tick⟩)
    (order : after.accessOrder = (cache.accessOrder.erase old.lastAccess).insert tick id)
    (generation : after.generation = tick) : after.Indexed := by
  let without : LeanEventCache Id C := { cache with
    map := cache.map.erase id
    accessOrder := cache.accessOrder.erase old.lastAccess }
  have removed : without.Indexed := indexed.remove found rfl rfl le_rfl
  have earlier : ∀ other further, without.held other = some further → further.lastAccess < tick := by
    intro other further now
    have differs : other ≠ id := by
      rintro rfl
      cases now.symm.trans (lookup_erase other cache.map)
    exact later other further ((lookup_erase_ne differs).symm.trans now)
  refine removed.place (lookup_erase id cache.map) own earlier (fun other => ?_) order generation
  unfold LeanEventCache.held
  rw [map]
  by_cases same : other = id
  · rw [if_pos same, same, lookup_insert]
  · rw [if_neg same, lookup_insert_ne same, lookup_erase_ne same]

end

structure Victim (cache : LeanEventCache Id C) (id victim : Id) : Prop where
  fresh : cache.held id = none
  full : cache.len = cache.capacity
  least : ∃ entry, cache.held victim = some entry ∧
    ∀ other further, cache.held other = some further → entry.lastAccess ≤ further.lastAccess

theorem Indexed.popFirst (indexed : cache.Indexed) (some' : ∃ id, (cache.held id).isSome) :
    ∃ victim entry, popFirst cache.accessOrder = some (victim, cache.accessOrder.erase entry.lastAccess) ∧
      cache.held victim = some entry ∧
      ∀ other further, cache.held other = some further → entry.lastAccess ≤ further.lastAccess := by
  obtain ⟨id, isSome⟩ := some'
  obtain ⟨known, found⟩ := isSome_iff_exists.mp isSome
  have listed : ∀ other further, cache.held other = some further → further.lastAccess ∈ cache.accessOrder := by
    intro other further now
    rw [mem_iff_isSome_getElem?, (indexed.order _ other).mpr ⟨further, now, rfl⟩]
    rfl
  cases least : cache.accessOrder.minKey? with
  | none =>
    rw [minKey?_eq_none_iff] at least
    have mem := listed id known found
    rw [least] at mem
    exact absurd mem not_mem_empty
  | some tick =>
    obtain ⟨mem, smallest⟩ := minKey?_eq_some_iff_mem_and_forall.mp least
    obtain ⟨victim, at'⟩ := isSome_iff_exists.mp (mem_iff_isSome_getElem?.mp mem)
    obtain ⟨entry, held, same⟩ := (indexed.order tick victim).mp at'
    refine ⟨victim, entry, ?_, held, fun other further now => ?_⟩
    · unfold State.popFirst
      rw [least, bind_eq_bind, bind_some, at', same]
      rfl
    · rw [same]
      exact Nat.isLE_compare.mp (smallest _ (listed other further now))

/-- What a call does that stores an event or finds one: the id has the next tick, the others stay, but for the victim
    of an id that was not there. -/
structure Refreshed (cache after : LeanEventCache Id C) (id : Id) (event : LeanEvent Id C) : Prop where
  sound : after.Sound
  capacity : after.capacity = cache.capacity
  generation : after.generation = cache.generation + 1
  stored : after.held id = some ⟨event, cache.generation + 1⟩
  others : ∀ other, other ≠ id → after.held other = cache.held other ∨ after.held other = none ∧ Victim cache id other

theorem nextTick_eq {generation : Nat} (short : generation + 1 < 2 ^ 64) : nextTick generation = generation + 1 :=
  Nat.mod_eq_of_lt short

theorem held_insert (cache : LeanEventCache Id C) (entry : CacheEntry Id C) (other : Id) :
    (cache.map.insert id entry).lookup other = if other = id then some entry else cache.held other := by
  by_cases same : other = id
  · rw [if_pos same, same, lookup_insert]
  · rw [if_neg same, lookup_insert_ne same]
    rfl

theorem Sound.renew (sound : cache.Sound) (found : cache.held id = some old) (own : event.eventId = id)
    (map : after.map = cache.map.insert id ⟨event, cache.generation + 1⟩)
    (order : after.accessOrder = (cache.accessOrder.erase old.lastAccess).insert (cache.generation + 1) id)
    (generation : after.generation = cache.generation + 1) (capacity : after.capacity = cache.capacity) :
    Refreshed cache after id event := by
  have held : ∀ other, after.held other =
      if other = id then some ⟨event, cache.generation + 1⟩ else cache.held other := by
    intro other
    unfold LeanEventCache.held
    rw [map]
    exact held_insert cache _ other
  refine ⟨⟨sound.toIndexed.renew found own sound.toIndexed.earlier map order generation, ?_, ?_⟩, capacity, generation,
    ?_, fun other differs => .inl ?_⟩
  · rw [capacity]
    exact sound.room
  · have known : (cache.map.lookup id).isSome := Option.isSome_iff_exists.mpr ⟨old, found⟩
    unfold LeanEventCache.len
    rw [map, length_insert_held _ known, capacity]
    exact sound.bounded
  · rw [held, if_pos rfl]
  · rw [held, if_neg differs]

theorem bumpEntry_refreshed (sound : cache.Sound) (short : cache.generation + 1 < 2 ^ 64)
    (found : cache.held id = some old) (hits : Nat) :
    Refreshed cache { cache.bumpEntry id old with hits := hits } id old.event := by
  have own := sound.own id old found
  apply sound.renew found own
  · unfold bumpEntry
    rw [nextTick_eq short]
  · unfold bumpEntry
    rw [nextTick_eq short, own]
  · exact nextTick_eq short
  · rfl

theorem makeRoom_spec (sound : cache.Sound) (fresh : cache.held id = none) :
    cache.makeRoom.Indexed ∧ cache.makeRoom.len < cache.capacity ∧ cache.makeRoom.capacity = cache.capacity ∧
      cache.makeRoom.generation = cache.generation ∧
      ∀ other, cache.makeRoom.held other = cache.held other ∨
        cache.makeRoom.held other = none ∧ Victim cache id other := by
  unfold makeRoom
  by_cases full : cache.capacity ≤ cache.len
  · rw [if_pos full]
    have filled : ∃ id, (cache.held id).isSome := by
      have some' : cache.map.keys ≠ [] := by
        rw [← List.length_pos_iff, length_keys]
        exact sound.room.trans_le full
      obtain ⟨id, mem⟩ := List.exists_mem_of_ne_nil _ some'
      exact ⟨id, lookup_isSome.mpr mem⟩
    obtain ⟨victim, entry, popped, held, least⟩ := sound.toIndexed.popFirst filled
    unfold evictLru
    rw [popped]
    refine ⟨sound.toIndexed.remove held rfl rfl le_rfl, ?_, rfl, rfl, fun other => ?_⟩
    · have shorter := length_erase cache.map (isSome_iff_exists.mpr ⟨entry, held⟩)
      have bound := sound.bounded
      unfold LeanEventCache.len at bound ⊢
      dsimp only
      omega
    · by_cases same : other = victim
      · refine .inr ⟨?_, fresh, le_antisymm sound.bounded full, entry, same ▸ held, least⟩
        rw [same]
        exact lookup_erase victim cache.map
      · exact .inl (lookup_erase_ne same)
  · rw [if_neg full]
    exact ⟨sound.toIndexed, Nat.lt_of_not_le full, rfl, rfl, fun other => .inl rfl⟩

theorem insertArc_refreshed (sound : cache.Sound) (short : cache.generation + 1 < 2 ^ 64) (event : LeanEvent Id C) :
    Refreshed cache (cache.insertArc event) event.eventId event := by
  unfold insertArc
  rw [nextTick_eq short]
  cases found : cache.map.lookup event.eventId with
  | some existing =>
    dsimp only
    rw [found]
    exact sound.renew found rfl rfl rfl rfl rfl
  | none =>
    dsimp only
    rw [found]
    let ticked : LeanEventCache Id C := { cache with generation := cache.generation + 1 }
    have same : ticked.Sound := by
      refine ⟨⟨sound.order, sound.own, fun other further now => ?_⟩, sound.room, sound.bounded⟩
      exact (sound.recent other further now).trans (Nat.le_succ _)
    have fresh : ticked.held event.eventId = none := found
    obtain ⟨indexed, roomy, capacity, generation, others⟩ := makeRoom_spec same fresh
    have kept : ∀ other further, ticked.makeRoom.held other = some further → cache.held other = some further := by
      intro other further now
      rcases others other with equal | ⟨gone, -⟩
      · exact equal.symm.trans now
      · cases gone.symm.trans now
    have gone : ticked.makeRoom.held event.eventId = none := by
      rcases others event.eventId with equal | ⟨gone, -⟩
      · exact equal.trans fresh
      · exact gone
    have known : ∀ other, (ticked.makeRoom.map.insert event.eventId ⟨event, cache.generation + 1⟩).lookup other =
        if other = event.eventId then some ⟨event, cache.generation + 1⟩ else ticked.makeRoom.held other :=
      held_insert ticked.makeRoom _
    have earlier : ∀ other further, ticked.makeRoom.held other = some further →
        further.lastAccess < cache.generation + 1 :=
      fun other further now => sound.toIndexed.earlier other further (kept other further now)
    refine ⟨⟨indexed.place gone rfl earlier known rfl generation, ?_, ?_⟩, capacity, generation, ?_, fun other differs => ?_⟩
    · exact sound.room.trans_eq capacity.symm
    · exact (length_insert_fresh ticked.makeRoom.map gone).trans_le (roomy.trans_eq capacity.symm)
    · exact (known event.eventId).trans (if_pos rfl)
    · have same := (known other).trans (if_neg differs)
      rcases others other with equal | ⟨absent, victim⟩
      · exact .inl (same.trans equal)
      · exact .inr ⟨same.trans absent, victim.fresh, victim.full, victim.least⟩

inductive Effect (cache : LeanEventCache Id C) (op : CacheOp Id C) (after : LeanEventCache Id C) : Prop where
  | kept (sound : after.Sound) (capacity : after.capacity = cache.capacity)
      (generation : after.generation = cache.generation) (same : ∀ id, after.held id = cache.held id)
      (stores : op.inserts cache = none) (finds : op.finds cache = none) : Effect cache op after
  | stored {event : LeanEvent Id C} (refreshed : Refreshed cache after event.eventId event)
      (stores : op.inserts cache = some event) (finds : op.finds cache = none) : Effect cache op after
  | found {id : Id} {entry : CacheEntry Id C} (refreshed : Refreshed cache after id entry.event)
      (held : cache.held id = some entry) (stores : op.inserts cache = none) (finds : op.finds cache = some id) :
      Effect cache op after
  | cleared (sound : after.Sound) (capacity : after.capacity = cache.capacity) (generation : after.generation = 0)
      (gone : ∀ id, after.held id = none) (cleared : op = .clear) : Effect cache op after

theorem touch_missed (sound : cache.Sound) (missed : cache.held id = none) :
    cache.touch id = (none, { cache with misses := countUp cache.misses }) ∧
      ({ cache with misses := countUp cache.misses } : LeanEventCache Id C).Sound := by
  have absent : cache.map.lookup id = none := missed
  unfold touch
  rw [absent]
  exact ⟨rfl, ⟨sound.order, sound.own, sound.recent⟩, sound.room, sound.bounded⟩

theorem touch_found (found : cache.held id = some entry) :
    cache.touch id = (some entry.event, { cache.bumpEntry id entry with hits := countUp cache.hits }) := by
  have some' : cache.map.lookup id = some entry := found
  unfold touch
  rw [some']

theorem getEvent_eq (cache : LeanEventCache Id C) (id : Id) : cache.getEvent id = cache.touch id := rfl

theorem touch_effect (sound : cache.Sound) (short : cache.generation + 1 < 2 ^ 64) (stores : op.inserts cache = none)
    (finds : op.finds cache = if (cache.map.lookup id).isSome then some id else none) :
    Effect cache op (cache.touch id).2 := by
  cases found : cache.held id with
  | none =>
    have absent : cache.map.lookup id = none := found
    obtain ⟨missed, kept⟩ := touch_missed sound found
    rw [missed]
    rw [absent] at finds
    exact .kept kept rfl rfl (fun _ => rfl) stores finds
  | some entry =>
    have some' : cache.map.lookup id = some entry := found
    rw [touch_found found]
    rw [some'] at finds
    exact .found (bumpEntry_refreshed sound short found _) found stores finds

theorem getOrInsert_missed (missed : cache.held id = none) :
    cache.getOrInsert id event = (event, ({ cache with misses := countUp cache.misses }).insertArc event) := by
  have absent : cache.map.lookup id = none := missed
  unfold getOrInsert get touch
  rw [absent]
  rfl

theorem getOrInsert_found (found : cache.held id = some entry) : cache.getOrInsert id event =
      (entry.event, { cache.bumpEntry id entry with hits := countUp cache.hits }) := by
  have some' : cache.map.lookup id = some entry := found
  unfold getOrInsert get touch
  rw [some']

theorem clear_sound (sound : cache.Sound) : cache.clear.Sound where
  order tick id := iff_of_false (by simp [clear]) nofun
  own _ _ impossible := nomatch impossible
  recent _ _ impossible := nomatch impossible
  room := sound.room
  bounded := Nat.zero_le _

theorem apply_effect (sound : cache.Sound) (short : cache.generation + 1 < 2 ^ 64) (op : CacheOp Id C) :
    Effect cache op (op.apply cache).2 := by
  cases op with
  | insert event => exact .stored (insertArc_refreshed sound short event) rfl rfl
  | insertArc event => exact .stored (insertArc_refreshed sound short event) rfl rfl
  | get id => exact touch_effect sound short rfl rfl
  | getEvent id => exact touch_effect sound short rfl rfl
  | clear => exact .cleared (clear_sound sound) rfl rfl (fun _ => rfl) rfl
  | getOrInsert id event =>
    unfold CacheOp.apply
    dsimp only
    cases found : cache.held id with
    | none =>
      have absent : cache.map.lookup id = none := found
      rw [getOrInsert_missed found]
      have counted := insertArc_refreshed (touch_missed sound found).2 short event
      refine .stored ⟨counted.sound, counted.capacity, counted.generation, counted.stored, fun other differs => ?_⟩ ?_ ?_
      · rcases counted.others other differs with same | ⟨gone, victim⟩
        · exact .inl same
        · exact .inr ⟨gone, victim.fresh, victim.full, victim.least⟩
      · dsimp only [CacheOp.inserts]
        rw [absent]
        rfl
      · dsimp only [CacheOp.finds]
        rw [absent]
        rfl
    | some entry =>
      have some' : cache.map.lookup id = some entry := found
      rw [getOrInsert_found found]
      refine .found (bumpEntry_refreshed sound short found _) found ?_ ?_
      · dsimp only [CacheOp.inserts]
        rw [some']
        rfl
      · dsimp only [CacheOp.finds]
        rw [some']
        rfl

end LeanEventCache

end Rezzy.State
