import Rezzy.Bitmaps.Iter
import Rezzy.Lib.Sorted

namespace Rezzy.Bitmaps

open Sorted

structure Wide (n : Nat) where
  map : List (Fin n × Bitmap)
deriving DecidableEq

abbrev Bitmap64 := Wide (2 ^ 32)

abbrev Bitmap128 := Wide (2 ^ 96)

abbrev WideValue (n : Nat) := Fin (n * ((1024 * 64) * (1024 * 64)))

namespace Wide

variable {n : Nat}

def split (value : WideValue n) : Fin n × U32 := (value.divNat, value.modNat)

def new : Wide n := ⟨[]⟩

def len (self : Wide n) : Nat := (self.map.map fun e => e.2.len).sum

def contains (self : Wide n) (value : WideValue n) : Bool :=
  let (key, low) := split value
  (lookup self.map key).any fun b => b.contains low

def insert (self : Wide n) (value : WideValue n) : Bool × Wide n :=
  let (key, low) := split value
  let (fresh, b) := ((lookup self.map key).getD Bitmap.new).insert low
  (fresh, ⟨assign self.map key b⟩)

def remove (self : Wide n) (value : WideValue n) : Bool × Wide n :=
  let (key, low) := split value
  match lookup self.map key with
  | none => (false, self)
  | some bitmap =>
    let (removed, bitmap) := bitmap.remove low
    (removed, ⟨if bitmap.isEmpty then erase self.map key else assign self.map key bitmap⟩)

def isSubset (self other : Wide n) : Bool :=
  self.map.all fun (key, bitmap) => (lookup other.map key).any bitmap.isSubset

def isDisjoint (self other : Wide n) : Bool :=
  self.map.all fun (key, bitmap) => (lookup other.map key).all bitmap.isDisjoint

def absorb (self : Wide n) (key : Fin n) (bitmap : Bitmap) : Option (Wide n) :=
  match lookup self.map key with
  | none => some ⟨assign self.map key bitmap⟩
  | some own => (own.bitorAssign false bitmap).map fun b => ⟨assign self.map key b⟩

def retain (keep : Fin n → Bitmap → Option (Option Bitmap)) : List (Fin n × Bitmap) → Option (List (Fin n × Bitmap))
  | [] => some []
  | (k, b) :: rest => do
    let kept ← keep k b
    let rest ← retain keep rest
    return (kept.map (Prod.mk k)).toList ++ rest

def occupied (b : Bitmap) : Option Bitmap := if b.isEmpty then none else some b

def subtractAssign (aliased : Bool) (self rhs : Wide n) : Option (Wide n) :=
  (retain (fun k b =>
    match lookup rhs.map k with
    | some o => (b.subtractAssign aliased o).map occupied
    | none => some (occupied b)) self.map).map Wide.mk

def bitandAssign (aliased : Bool) (self rhs : Wide n) : Option (Wide n) :=
  (retain (fun k b =>
    match lookup rhs.map k with
    | some o => (b.bitandAssign aliased o).map occupied
    | none => some none) self.map).map Wide.mk

def unite (aliased : Bool) (self : Wide n) (entry : Fin n × Bitmap) : Option (Wide n) :=
  (((lookup self.map entry.1).getD Bitmap.new).bitorAssign aliased entry.2).map fun b => ⟨assign self.map entry.1 b⟩

def bitorAssign (aliased : Bool) (self rhs : Wide n) : Option (Wide n) := rhs.map.foldlM (unite aliased) self

def bitor (self rhs : Wide n) : Option (Wide n) := bitorAssign false self rhs

def intersect (rhs : Wide n) (out : List (Fin n × Bitmap)) (entry : Fin n × Bitmap) : List (Fin n × Bitmap) :=
  match lookup rhs.map entry.1 with
  | some o => if (entry.2.bitand o).isEmpty then out else assign out entry.1 (entry.2.bitand o)
  | none => out

def bitand (self rhs : Wide n) : Wide n := ⟨self.map.foldl (intersect rhs) []⟩

def sub (self rhs : Wide n) : Option (Wide n) := subtractAssign false self rhs

def extendLoop : Option (Fin n × Bitmap) → Wide n → List (WideValue n) → Option (Wide n)
  | some (k, bitmap), self, [] => self.absorb k bitmap
  | none, self, [] => some self
  | some (k, bitmap), self, v :: values =>
    let (key, low) := split v
    if k = key then extendLoop (some (k, (bitmap.insert low).2)) self values
    else do
      let self ← self.absorb k bitmap
      extendLoop (some (key, (Bitmap.new.insert low).2)) self values
  | none, self, v :: values =>
    let (key, low) := split v
    extendLoop (some (key, (Bitmap.new.insert low).2)) self values

def extend (self : Wide n) (values : List (WideValue n)) : Option (Wide n) := extendLoop none self values

structure Iter (n : Nat) where
  outer : List (Fin n × Bitmap)
  inner : Option (Fin n × Bitmap × Cursor)

def iter (self : Wide n) : Iter n := ⟨self.map, none⟩

def innerNext : Option (Fin n × Bitmap × Cursor) → Option (WideValue n × Cursor)
  | some (hi, b, cursor) =>
    match b.next cursor with
    | (some lo, cursor) => some (Fin.mkDivMod hi lo, cursor)
    | (none, _) => none
  | none => none

def nextFrom : List (Fin n × Bitmap) → Option (Fin n × Bitmap × Cursor) → Option (WideValue n) × Iter n
  | outer, inner =>
    match innerNext inner with
    | some (value, cursor) => (some value, ⟨outer, inner.map fun state => (state.1, state.2.1, cursor)⟩)
    | none =>
      match outer with
      | [] => (none, ⟨[], inner⟩)
      | (k, b) :: outer => nextFrom outer (some (k, b, Cursor.start))

def Iter.next (it : Iter n) : Option (WideValue n) × Iter n := nextFrom it.outer it.inner

end Wide

end Rezzy.Bitmaps
