import Rezzy.Lib.Region

namespace Rezzy.Region

open Relation List

def Formed (limit : Nat) (node : Node) : Prop := node.1 ≤ limit ∧ node.2 < 2 ^ node.1

instance (limit : Nat) (node : Node) : Decidable (Formed limit node) := inferInstanceAs (Decidable (_ ∧ _))

theorem Formed.inner (formed : Formed limit region) (inside : Within region node) (shallow : node.1 ≤ limit) :
    Formed limit node := by
  obtain ⟨deeper, same⟩ := inside
  refine ⟨shallow, ?_⟩
  have small : node.2 / 2 ^ (node.1 - region.1) < 2 ^ region.1 := same.trans_lt formed.2
  have split := (Nat.div_lt_iff_lt_mul (by positivity)).mp small
  rwa [← pow_add, Nat.add_sub_cancel' deeper] at split

theorem length_le_of_apart {limit : Nat} {nodes : List Node} (formed : ∀ node ∈ nodes, Formed limit node)
    (apart : nodes.Pairwise Apart) : nodes.length ≤ 2 ^ limit := by
  have distinct : (nodes.map (start limit)).Nodup := by
    rw [List.Nodup, pairwise_map]
    exact apart.imp_of_mem fun left right apart => apart.start_ne (formed _ left).1 (formed _ right).1
  have bounded : nodes.map (start limit) ⊆ List.range (2 ^ limit) := by
    intro _ mem
    obtain ⟨node, inside, rfl⟩ := mem_map.mp mem
    obtain ⟨shallow, small⟩ := formed node inside
    rw [mem_range]
    have room : 2 ^ node.1 * 2 ^ (limit - node.1) = 2 ^ limit := by
      rw [← pow_add, Nat.add_sub_cancel' shallow]
    rw [← room]
    exact Nat.mul_lt_mul_of_pos_right small (by positivity)
  have length := (distinct.subperm bounded).length_le
  rwa [length_map, length_range] at length

structure Parts (width limit : Nat) (node : Node) (parts : List Node) : Prop where
  within : ∀ part ∈ parts, Within node part
  apart : parts.Pairwise Apart
  shallow : ∀ part ∈ parts, part.1 ≤ limit
  complete : ∀ key, Holds width node key → ∃ part ∈ parts, Holds width part key

theorem Parts.self (shallow : node.1 ≤ limit) : Parts width limit node [node] where
  within := by
    intro part mem
    rw [mem_singleton.mp mem]
  apart := pairwise_singleton _ _
  shallow := by
    intro part mem
    rwa [mem_singleton.mp mem]
  complete := fun key holds => ⟨node, mem_singleton_self node, holds⟩

theorem Parts.children (shallow : node.1 + jump ≤ limit) (narrow : limit ≤ width) :
    Parts width limit node ((List.range (2 ^ jump)).map (child node jump)) where
  within := by
    intro part mem
    obtain ⟨suffix, small, rfl⟩ := mem_map.mp mem
    exact within_child (mem_range.mp small)
  apart := by
    rw [pairwise_map]
    exact nodup_range.imp fun different => child_apart different
  shallow := by
    intro part mem
    obtain ⟨suffix, small, rfl⟩ := mem_map.mp mem
    exact shallow
  complete := by
    intro _ holds
    obtain ⟨suffix, small, inside⟩ := holds_child (shallow.trans narrow) holds
    exact ⟨_, mem_map_of_mem (mem_range.mpr small), inside⟩

structure Recorded (given : List Node) (node : Node) (given' : List Node) : Prop where
  kept : ∀ region ∈ given, ∃ outer ∈ given', Within outer region
  added : ∃ outer ∈ given', Within outer node
  known : ∀ region ∈ given', region = node ∨ region ∈ given
  new : (∀ region ∈ given, Apart region node) → given'.Perm (node :: given)

abbrev Frontier := List Node × List Node

/-- One move of the search. Open regions are dropped only where that may be. -/
inductive Move (width limit : Nat) (lossy : Prop) : Frontier → Frontier → Prop where
  | split {node : Node} {parts rest given : List Node} (made : Parts width limit node parts) :
      Move width limit lossy (node :: rest, given) (parts ++ rest, given)
  | giveUp {node : Node} {rest given given' : List Node} (recorded : Recorded given node given') :
      Move width limit lossy (node :: rest, given) (rest, given')
  | drop (may : lossy) {node : Node} {rest given : List Node} : Move width limit lossy (node :: rest, given) (rest, given)
  | sort {nodes nodes' given : List Node} (perm : nodes.Perm nodes') :
      Move width limit lossy (nodes, given) (nodes', given)

abbrev Moves (width limit : Nat) (lossy : Prop) : Frontier → Frontier → Prop := ReflTransGen (Move width limit lossy)

variable {width limit : Nat} {lossy : Prop} {before after : Frontier}

theorem Moves.dropAll (may : nodes = [] ∨ lossy) (given : List Node) :
    Moves width limit lossy (nodes, given) ([], given) := by
  induction nodes with
  | nil => exact .refl
  | cons node nodes ih =>
    have loss : lossy := by simpa using may
    exact .head (.drop loss) (ih (.inr loss))

theorem Moves.forall_mem (moves : Moves width limit lossy before after) {P : Node → Prop}
    (inherits : ∀ {node part}, P node → Within node part → part.1 ≤ limit → P part)
    (opened : ∀ node ∈ before.1, P node) (given : ∀ node ∈ before.2, P node) :
    (∀ node ∈ after.1, P node) ∧ ∀ node ∈ after.2, P node := by
  induction moves with
  | refl => exact ⟨opened, given⟩
  | tail _ move ih =>
    obtain ⟨opened, given⟩ := ih
    cases move with
    | split made =>
      obtain ⟨own, rest⟩ := forall_mem_cons.mp opened
      refine ⟨forall_mem_append.mpr ⟨fun part mem => ?_, rest⟩, given⟩
      exact inherits own (made.within part mem) (made.shallow part mem)
    | giveUp recorded =>
      obtain ⟨own, rest⟩ := forall_mem_cons.mp opened
      refine ⟨rest, fun region mem => ?_⟩
      rcases recorded.known region mem with rfl | mem
      · exact own
      · exact given region mem
    | drop may => exact ⟨(forall_mem_cons.mp opened).2, given⟩
    | sort perm => exact ⟨fun node mem => opened node (perm.mem_iff.mpr mem), given⟩

theorem Parts.append_apart (made : Parts width limit node parts) (apart : (node :: rest).Pairwise Apart) :
    (parts ++ rest).Pairwise Apart := by
  rw [pairwise_cons] at apart
  refine pairwise_append.mpr ⟨made.apart, apart.2, fun part mem other behind => ?_⟩
  exact (apart.1 other behind).mono (made.within part mem) (.refl other)

theorem Moves.apart (moves : Moves width limit lossy before after) (apart : before.1.Pairwise Apart) :
    after.1.Pairwise Apart := by
  induction moves with
  | refl => exact apart
  | tail _ move ih =>
    cases move with
    | split made => exact made.append_apart ih
    | giveUp recorded => exact ih.tail
    | drop may => exact ih.tail
    | sort perm => exact (perm.pairwise_iff Apart.symm).mp ih

theorem Moves.all_apart (moves : Moves width limit lossy before after)
    (apart : (before.1 ++ before.2).Pairwise Apart) : (after.1 ++ after.2).Pairwise Apart := by
  induction moves with
  | refl => exact apart
  | tail _ move ih =>
    cases move with
    | @split node parts rest given made =>
      rw [append_assoc]
      exact made.append_apart ih
    | @giveUp node rest given given' recorded =>
      have ahead := (pairwise_cons.mp ih).1
      have perm := recorded.new fun region mem => (ahead region (mem_append_right _ mem)).symm
      have moved : (node :: (rest ++ given)).Perm (rest ++ given') :=
        perm_middle.symm.trans (perm.symm.append_left rest)
      exact (moved.pairwise_iff Apart.symm).mp ih
    | drop may => exact ih.tail
    | sort perm => exact ((perm.append_right _).pairwise_iff Apart.symm).mp ih

theorem Move.covered (move : Move width limit lossy before after) (lossless : ¬lossy) (narrow : limit ≤ width)
    (shallow : ∀ node ∈ before.1 ++ before.2, node.1 ≤ limit)
    (covered : ∃ node ∈ before.1 ++ before.2, Holds width node key) :
    ∃ node ∈ after.1 ++ after.2, Holds width node key := by
  obtain ⟨region, mem, holds⟩ := covered
  have depth : region.1 ≤ width := (shallow region mem).trans narrow
  cases move with
  | split made =>
    rcases mem_cons.mp mem with rfl | mem
    · obtain ⟨part, inside, held⟩ := made.complete key holds
      exact ⟨part, mem_append_left _ (mem_append_left _ inside), held⟩
    · rcases mem_append.mp mem with rest | given
      · exact ⟨region, mem_append_left _ (mem_append_right _ rest), holds⟩
      · exact ⟨region, mem_append_right _ given, holds⟩
  | giveUp recorded =>
    rcases mem_cons.mp mem with rfl | mem
    · obtain ⟨outer, inside, within⟩ := recorded.added
      exact ⟨outer, mem_append_right _ inside, within.holds depth holds⟩
    · rcases mem_append.mp mem with rest | given
      · exact ⟨region, mem_append_left _ rest, holds⟩
      · obtain ⟨outer, inside, within⟩ := recorded.kept region given
        exact ⟨outer, mem_append_right _ inside, within.holds depth holds⟩
  | drop may => exact absurd may lossless
  | sort perm => exact ⟨region, (perm.append_right _).mem_iff.mp mem, holds⟩

theorem Moves.covered (moves : Moves width limit lossy before after) (lossless : ¬lossy) (narrow : limit ≤ width)
    (shallow : ∀ node ∈ before.1 ++ before.2, node.1 ≤ limit)
    (covered : ∃ node ∈ before.1 ++ before.2, Holds width node key) :
    ∃ node ∈ after.1 ++ after.2, Holds width node key := by
  induction moves with
  | refl => exact covered
  | tail moves move ih =>
    obtain ⟨opened, given⟩ := forall_mem_append.mp shallow
    have still := Moves.forall_mem moves (P := fun node => node.1 ≤ limit) (fun _ _ small => small) opened given
    exact move.covered lossless narrow (forall_mem_append.mpr still) ih

end Rezzy.Region
