import Rezzy.Bitmaps.ChunkOps

namespace Rezzy.Bitmaps

open Ascending

abbrev U32 := Fin ((1024 * 64) * (1024 * 64))

def split (value : U32) : U16 × U16 := (value.divNat, value.modNat)

structure Bitmap where
  chunks : List Chunk
deriving DecidableEq

inductive Mode where
  | or
  | and
  | sub
deriving DecidableEq

namespace Bitmap

def new : Bitmap := ⟨[]⟩

def isEmpty (self : Bitmap) : Bool := self.chunks.isEmpty

def len (self : Bitmap) : Nat := (self.chunks.map Chunk.len).sum

def searchIsOkAnd (chunks : List Chunk) (key : U16) (test : Chunk → Bool) : Bool :=
  match search Chunk.key chunks key with
  | .ok i => chunks[i]?.any test
  | .error _ => false

def contains (self : Bitmap) (value : U32) : Bool :=
  let (key, lo) := split value
  searchIsOkAnd self.chunks key fun chunk => chunk.contains lo

def okOrErr : Except Nat Nat → Nat
  | .ok i => i
  | .error i => i

def insertPos (chunks : List Chunk) (key : U16) : Nat :=
  match chunks.getLast? with
  | some last =>
    if last.key = key then chunks.length - 1
    else if last.key < key then chunks.length
    else okOrErr (search Chunk.key chunks key)
  | none => 0

def insert (self : Bitmap) (value : U32) : Bool × Bitmap :=
  let (key, lo) := split value
  let pos := insertPos self.chunks key
  match self.chunks[pos]?.filter fun chunk => decide (chunk.key = key) with
  | some chunk =>
    let (fresh, chunk) := chunk.insert lo
    (fresh, ⟨self.chunks.set pos chunk⟩)
  | none => (true, ⟨self.chunks.insertIdx pos ⟨key, 1, .array [lo]⟩⟩)

def remove (self : Bitmap) (value : U32) : Bool × Bitmap :=
  let (key, lo) := split value
  match search Chunk.key self.chunks key with
  | .error _ => (false, self)
  | .ok pos =>
    match self.chunks[pos]? with
    | none => (false, self)
    | some chunk =>
      let (present, chunk) := chunk.remove lo
      if !present then (false, ⟨self.chunks.set pos chunk⟩)
      else if chunk.len = 0 then (true, ⟨self.chunks.eraseIdx pos⟩)
      else (true, ⟨self.chunks.set pos chunk⟩)

def extend (self : Bitmap) (values : List U32) : Bitmap := values.foldl (fun bitmap v => (bitmap.insert v).2) self

def isSubset (self other : Bitmap) : Bool :=
  self.chunks.all fun chunk => searchIsOkAnd other.chunks chunk.key chunk.isSubset

def isDisjoint (self other : Bitmap) : Bool := apartWalk Chunk.key Chunk.isDisjoint self.chunks other.chunks

/-- What two chunks of one key become; without a result where the union of the source panics. -/
def meet (mode : Mode) (chunk o : Chunk) : Option (Option Chunk) :=
  match mode with
  | .or => (chunk.unionAssign o).map some
  | .and => some (chunk.intersection o)
  | .sub => some (chunk.difference o)

def mergeLoop (mode : Mode) : List Chunk → List Chunk → Option (List Chunk)
  | [], theirs => some (if mode = .or then theirs else [])
  | chunk :: mine, theirs => do
    let skipped := theirs.takeWhile fun o => decide (o.key < chunk.key)
    let theirs := theirs.dropWhile fun o => decide (o.key < chunk.key)
    let (kept, theirs) ←
      match theirs.head?.filter fun o => decide (o.key = chunk.key) with
      | some o => (meet mode chunk o).map fun kept => (kept, theirs.tail)
      | none => some (if mode = .and then none else some chunk, theirs)
    let out ← mergeLoop mode mine theirs
    return (if mode = .or then skipped else []) ++ (kept.toList ++ out)

/-- `aliased` where both are one object in memory. -/
def mergeWith (aliased : Bool) (mode : Mode) (self other : Bitmap) : Option Bitmap :=
  if aliased then some (if mode ≠ .sub then self else ⟨[]⟩)
  else if other.isEmpty then some (if mode = .and then ⟨[]⟩ else self)
  else if self.isEmpty then some (if mode = .or then ⟨other.chunks⟩ else self)
  else (mergeLoop mode self.chunks other.chunks).map Bitmap.mk

def bitorAssign (aliased : Bool) (self rhs : Bitmap) : Option Bitmap := mergeWith aliased .or self rhs

def bitandAssign (aliased : Bool) (self rhs : Bitmap) : Option Bitmap := mergeWith aliased .and self rhs

def subtractAssign (aliased : Bool) (self rhs : Bitmap) : Option Bitmap := mergeWith aliased .sub self rhs

def bitor (self rhs : Bitmap) : Option Bitmap := bitorAssign false self rhs

def bitandLoop : List Chunk → List Chunk → List Chunk
  | [], _ => []
  | chunk :: mine, theirs =>
    let theirs := theirs.dropWhile fun o => decide (o.key < chunk.key)
    match theirs.head?.filter fun o => decide (o.key = chunk.key) with
    | some o => (chunk.intersection o).toList ++ bitandLoop mine theirs.tail
    | none => bitandLoop mine theirs

def bitand (self rhs : Bitmap) : Bitmap := ⟨bitandLoop self.chunks rhs.chunks⟩

def sub (self rhs : Bitmap) : Option Bitmap := subtractAssign false self rhs

end Bitmap

namespace Bitmap

structure Canonical (b : Bitmap) : Prop where
  ascends : Ascends Chunk.key b.chunks
  each : ∀ c ∈ b.chunks, c.Canonical

/-- The bitmap is in canonical form and its values are exactly those that satisfy `P`. -/
structure Holds (P : U32 → Prop) (b : Bitmap) : Prop where
  ascends : Ascends Chunk.key b.chunks
  parts : ∀ key, Chunk.Holds key (fun lo => P (Fin.mkDivMod key lo)) (entryAt Chunk.key b.chunks key)

variable {P Q : U32 → Prop} {b c self other : Bitmap} {value : U32}

theorem Holds.canonical (holds : Holds P b) : Canonical b := by
  refine ⟨holds.ascends, ?_⟩
  intro c mem
  exact ((holds.parts c.key).canonical c (holds.ascends.entryAt_of_mem mem)).1

def Mem (b : Bitmap) (value : U32) : Prop :=
  (split value).2 ∈ Chunk.lowsOf (entryAt Chunk.key b.chunks (split value).1)

theorem Canonical.holds (canonical : Canonical b) : Holds (Mem b) b := by
  refine ⟨canonical.ascends, ?_⟩
  intro _
  constructor
  · intro c found
    obtain ⟨mem, same⟩ := entryAt_some found
    exact ⟨canonical.each c mem, same⟩
  · intro _
    unfold Mem split
    rw [Fin.divNat_mkDivMod, Fin.modNat_mkDivMod]

theorem Holds.congr (holds : Holds P b) (same : ∀ v, P v ↔ Q v) : Holds Q b :=
  ⟨holds.ascends, fun key => (holds.parts key).congr fun lo => same (Fin.mkDivMod key lo)⟩

theorem Holds.ext (left : Holds P b) (right : Holds Q c) (same : ∀ v, P v ↔ Q v) : b = c := by
  have chunks : b.chunks = c.chunks :=
    left.ascends.ext right.ascends fun key =>
      (left.parts key).ext (right.parts key) fun lo => same (Fin.mkDivMod key lo)
  cases b
  cases c
  exact congrArg Bitmap.mk chunks

theorem Holds.at' (holds : Holds P b) (value : U32) :
    Chunk.Holds value.divNat (fun lo => P (Fin.mkDivMod value.divNat lo)) (entryAt Chunk.key b.chunks value.divNat) :=
  holds.parts value.divNat

theorem new_holds : Holds (fun _ => False) new := ⟨Ascends.nil, fun _ => Chunk.holds_none fun _ => id⟩

theorem isEmpty_iff (holds : Holds P b) : b.isEmpty = true ↔ ∀ v, ¬P v := by
  unfold isEmpty
  rw [List.isEmpty_iff]
  constructor
  · intro none v given
    have part := (holds.at' v).lows v.modNat
    rw [Fin.divNat_mkDivMod_modNat, none] at part
    cases part.mpr given
  · intro empty
    have same := Holds.ext holds new_holds fun v => iff_of_false (empty v) id
    rw [same]
    rfl

theorem searchIsOkAnd_eq (ascends : Ascends Chunk.key b.chunks) (key : U16) (test : Chunk → Bool) :
    searchIsOkAnd b.chunks key test = (entryAt Chunk.key b.chunks key).any test := by
  obtain ⟨before, found, after, place⟩ := ascends.place key
  unfold searchIsOkAnd
  rw [place.entryAt]
  cases found with
  | none =>
    rw [place.search_absent]
    rfl
  | some chunk =>
    have at' : b.chunks[before.length]? = some chunk := by
      rw [place.split]
      simp
    rw [place.search_found]
    dsimp only
    rw [at']

theorem contains_iff (holds : Holds P b) (value : U32) : b.contains value = true ↔ P value := by
  show searchIsOkAnd b.chunks value.divNat _ = true ↔ _
  rw [searchIsOkAnd_eq holds.ascends]
  have part := (holds.at' value).lows value.modNat
  rw [Fin.divNat_mkDivMod_modNat] at part
  rw [← part]
  cases found : entryAt Chunk.key b.chunks value.divNat with
  | none => exact iff_of_false Bool.false_ne_true List.not_mem_nil
  | some chunk => exact ((holds.at' value).canonical chunk found).1.contains_iff value.modNat

theorem isSubset_iff (left : Holds P b) (right : Holds Q c) : b.isSubset c = true ↔ ∀ v, P v → Q v := by
  unfold isSubset
  rw [List.all_eq_true]
  constructor
  · intro all v given
    have part := (left.at' v).lows v.modNat
    rw [Fin.divNat_mkDivMod_modNat] at part
    have mem := part.mpr given
    cases found : entryAt Chunk.key b.chunks v.divNat with
    | none =>
      rw [found] at mem
      cases mem
    | some chunk =>
      obtain ⟨inside, key⟩ := entryAt_some found
      have within := all chunk inside
      rw [searchIsOkAnd_eq right.ascends, key] at within
      have theirs := (right.at' v).lows v.modNat
      rw [Fin.divNat_mkDivMod_modNat] at theirs
      apply theirs.mp
      cases held : entryAt Chunk.key c.chunks v.divNat with
      | none =>
        rw [held] at within
        cases within
      | some o =>
        rw [held] at within
        have mine := ((left.at' v).canonical chunk found).1.toTidy
        have other := ((right.at' v).canonical o held).1.toTidy
        rw [found] at mem
        exact (Chunk.isSubset_iff mine other).mp within v.modNat mem
  · intro sub chunk inside
    have found := left.ascends.entryAt_of_mem inside
    have canonical := ((left.parts chunk.key).canonical chunk found).1
    have members : ∀ lo ∈ chunk.lows, lo ∈ Chunk.lowsOf (entryAt Chunk.key c.chunks chunk.key) := by
      intro lo mem
      have mine := (left.parts chunk.key).lows lo
      rw [found] at mine
      exact ((right.parts chunk.key).lows lo).mpr (sub _ (mine.mp mem))
    rw [searchIsOkAnd_eq right.ascends]
    cases held : entryAt Chunk.key c.chunks chunk.key with
    | none =>
      rw [held] at members
      obtain ⟨lo, mem⟩ := List.exists_mem_of_ne_nil _ canonical.occupied
      cases members lo mem
    | some o =>
      rw [held] at members
      exact (Chunk.isSubset_iff canonical.toTidy ((right.parts chunk.key).canonical o held).1.toTidy).mpr members

theorem isDisjoint_iff (left : Holds P b) (right : Holds Q c) : b.isDisjoint c = true ↔ ∀ v, P v → ¬Q v := by
  unfold isDisjoint
  rw [apartWalk_iff left.ascends right.ascends]
  constructor
  · intro apart v given held
    have mine := (left.at' v).lows v.modNat
    have theirs := (right.at' v).lows v.modNat
    rw [Fin.divNat_mkDivMod_modNat] at mine theirs
    have first := mine.mpr given
    have second := theirs.mpr held
    cases found : entryAt Chunk.key b.chunks v.divNat with
    | none =>
      rw [found] at first
      cases first
    | some chunk =>
      cases found' : entryAt Chunk.key c.chunks v.divNat with
      | none =>
        rw [found'] at second
        cases second
      | some o =>
        rw [found] at first
        rw [found'] at second
        obtain ⟨inside, key⟩ := entryAt_some found
        obtain ⟨inside', key'⟩ := entryAt_some found'
        have clear := apart chunk inside o inside' (key.trans key'.symm)
        exact (Chunk.isDisjoint_iff ((left.at' v).canonical chunk found).1.toTidy
          ((right.at' v).canonical o found').1.toTidy).mp clear v.modNat first second
  · intro apart chunk inside o inside' same
    have found := left.ascends.entryAt_of_mem inside
    have found' := right.ascends.entryAt_of_mem inside'
    rw [Chunk.isDisjoint_iff ((left.parts _).canonical chunk found).1.toTidy
      ((right.parts _).canonical o found').1.toTidy]
    intro lo mem mem'
    have mine := (left.parts chunk.key).lows lo
    have theirs := (right.parts chunk.key).lows lo
    rw [found] at mine
    rw [same, found', ← same] at theirs
    exact apart _ (mine.mp mem) (theirs.mp mem')

end Bitmap

end Rezzy.Bitmaps
