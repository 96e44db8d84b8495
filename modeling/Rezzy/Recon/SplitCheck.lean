import Rezzy.Recon.Retry

namespace Rezzy.Recon

open Region List Option Bool Nat

structure ElementHash where
  h128 : Nat
  h64 : Nat
deriving DecidableEq, Repr

def xorAll (hashes : List Nat) : Nat := hashes.foldl (fun acc h => acc ^^^ h) 0

namespace NodeSummary

def fromH128s (h128s : List Nat) : Except AlgebraicError NodeSummary :=
  if h128s.length ≤ u64Max then .ok ⟨h128s.length, xorAll h128s⟩ else .error .countOverflow

end NodeSummary

def between (population : List ElementHash) (start stop : Nat) : List Nat :=
  (population.filter fun e => start ≤ e.h64 && e.h64 < stop).map ElementHash.h128

def nodeSummary (population : List ElementHash) (node : Node) : Except AlgebraicError NodeSummary :=
  let bounds := boundsUnchecked (.new node.1 node.2 1)
  NodeSummary.fromH128s (between population bounds.1 bounds.2)

section

theorem foldl_xor (hashes : List Nat) (acc : Nat) :
    hashes.foldl (fun acc h => acc ^^^ h) acc = acc ^^^ xorAll hashes := by
  induction hashes generalizing acc with
  | nil => exact (Nat.xor_zero acc).symm
  | cons h hashes ih =>
    have first : xorAll (h :: hashes) = h ^^^ xorAll hashes := by
      show hashes.foldl _ (0 ^^^ h) = _
      rw [ih, Nat.zero_xor]
    show hashes.foldl _ (acc ^^^ h) = _
    rw [ih, first, Nat.xor_assoc]

theorem xorAll_append (left right : List Nat) : xorAll (left ++ right) = xorAll left ^^^ xorAll right := by
  unfold xorAll
  rw [foldl_append, foldl_xor]
  rfl

theorem xorAll_perm (perm : left.Perm right) : xorAll left = xorAll right := by
  exact perm.foldl_eq 0

theorem between_perm (ab : a ≤ b) (bc : b ≤ c) :
    (between population a b ++ between population b c).Perm (between population a c) := by
  have cut := (filter_append_perm (fun e : ElementHash => decide (e.h64 < b))
    (population.filter fun e => a ≤ e.h64 && e.h64 < c)).map ElementHash.h128
  rw [map_append, List.filter_filter, List.filter_filter] at cut
  have left : (fun e : ElementHash => decide (e.h64 < b) && (decide (a ≤ e.h64) && decide (e.h64 < c))) =
      fun e => decide (a ≤ e.h64) && decide (e.h64 < b) := by
    funext e
    rw [← decide_and, ← decide_and, ← decide_and, decide_eq_decide]
    omega
  have right : (fun e : ElementHash => !decide (e.h64 < b) && (decide (a ≤ e.h64) && decide (e.h64 < c))) =
      fun e => decide (b ≤ e.h64) && decide (e.h64 < c) := by
    funext e
    rw [← decide_not, ← decide_and, ← decide_and, ← decide_and, decide_eq_decide]
    omega
  rwa [left, right] at cut

theorem length_between (ab : a ≤ b) (bc : b ≤ c) :
    (between population a b).length + (between population b c).length = (between population a c).length := by
  rw [← length_append]
  exact (between_perm ab bc).length_eq

theorem xorAll_between (ab : a ≤ b) (bc : b ≤ c) :
    xorAll (between population a b) ^^^ xorAll (between population b c) = xorAll (between population a c) := by
  rw [← xorAll_append]
  exact xorAll_perm (between_perm ab bc)

theorem between_self : between population a a = [] := by
  unfold between
  rw [map_eq_nil_iff, filter_eq_nil_iff]
  intro _ _
  simp

def unshift (node : Node) (position : Nat) : Nat := (position - node.2 / 2 ^ node.1 * 2 ^ maxDepth) * 2 ^ maxDepth

theorem unshift_mono (node : Node) (le : s ≤ t) : unshift node s ≤ unshift node t :=
  Nat.mul_le_mul_right _ (Nat.sub_le_sub_right le _)

theorem boundsUnchecked_unshift (shallow : node.1 ≤ maxDepth) : boundsUnchecked (.new node.1 node.2 1) =
      (unshift node (node.2 <<< (maxDepth - node.1)), unshift node ((node.2 + 1) <<< (maxDepth - node.1))) := by
  obtain ⟨d, p⟩ := node
  have shallow : d ≤ 32 := shallow
  have wide : (2 : Nat) ^ (64 - d) = 2 ^ (32 - d) * 2 ^ 32 := by
    rw [← pow_add]
    congr 1
    omega
  have whole : p / 2 ^ d * 2 ^ 32 = p / 2 ^ d * 2 ^ d * 2 ^ (32 - d) := by
    rw [Nat.mul_assoc, ← pow_add, Nat.add_sub_cancel' shallow]
  have rest : p - p / 2 ^ d * 2 ^ d = p % 2 ^ d := by
    have := div_add_mod' p (2 ^ d)
    omega
  have next : p + 1 - p / 2 ^ d * 2 ^ d = p % 2 ^ d + 1 := by
    have := div_mul_le_self p (2 ^ d)
    omega
  rw [boundsUnchecked_eq (shallow.trans (by decide))]
  show (_ * 2 ^ (64 - d), _ * 2 ^ (64 - d)) =
    ((p <<< (32 - d) - p / 2 ^ d * 2 ^ 32) * 2 ^ 32, ((p + 1) <<< (32 - d) - p / 2 ^ d * 2 ^ 32) * 2 ^ 32)
  rw [shiftLeft_eq, shiftLeft_eq, whole, ← Nat.sub_mul, ← Nat.sub_mul, rest, next, wide, Nat.mul_assoc, Nat.mul_assoc]

theorem unshift_part (inside : Within parent node) : unshift node = unshift parent := by
  obtain ⟨deeper, same⟩ := inside
  have split : node.1 = (node.1 - parent.1) + parent.1 := by omega
  have dropped : node.2 / 2 ^ node.1 = parent.2 / 2 ^ parent.1 := by
    rw [split, pow_add, ← Nat.div_div_eq_div_mul, same]
  funext position
  unfold unshift
  rw [dropped]

end

variable {population : List ElementHash} {parent : Node}

abbrev Exact (population : List ElementHash) (entry : Node × NodeSummary) : Prop :=
  nodeSummary population entry.1 = .ok entry.2

theorem fromH128s_ok (made : NodeSummary.fromH128s h128s = .ok summary) :
    h128s.length ≤ u64Max ∧ summary = ⟨h128s.length, xorAll h128s⟩ := by
  unfold NodeSummary.fromH128s at made
  split at made
  · rename_i fits
    exact ⟨fits, (Except.ok.inj made).symm⟩
  · cases made

section

def spanSummary (population : List ElementHash) (parent : Node) (span : Nat × Nat) : NodeSummary :=
  let hashes := between population (unshift parent span.1) (unshift parent span.2)
  ⟨hashes.length, xorAll hashes⟩

theorem spanSummary_self (population : List ElementHash) (parent : Node) (position : Nat) : spanSummary population parent (position, position) = ⟨0, 0⟩ := by
  unfold spanSummary
  rw [between_self]
  rfl

theorem spanSummary_count (population : List ElementHash) (parent : Node) (ab : a ≤ b) (bc : b ≤ c) :
    (spanSummary population parent (a, b)).count + (spanSummary population parent (b, c)).count =
      (spanSummary population parent (a, c)).count := length_between (unshift_mono parent ab) (unshift_mono parent bc)

theorem spanSummary_digest (ab : a ≤ b) (bc : b ≤ c) :
    (spanSummary population parent (a, b)).digest ^^^ (spanSummary population parent (b, c)).digest =
      (spanSummary population parent (a, c)).digest := xorAll_between (unshift_mono parent ab) (unshift_mono parent bc)

section

variable {parts : List ((Nat × Nat) × NodeSummary)} (ordered : ∀ part ∈ parts, part.1.1 ≤ part.1.2)
include ordered

theorem walkCover_le {cursor count digest stop total last : Nat}
    (walked : walkCover parts cursor count valid digest = some (stop, total, fits, last)) : cursor ≤ stop := by
  induction parts generalizing cursor count digest valid with
  | nil => exact le_of_eq (Prod.mk.inj (Option.some.inj walked)).1
  | cons part parts ih =>
    obtain ⟨⟨childStart, childEnd⟩, summary⟩ := part
    have first : childStart ≤ childEnd := ordered _ mem_cons_self
    have rest := fun part mem => ordered part (mem_cons_of_mem _ mem)
    rw [walkCover] at walked
    split at walked
    · cases walked
    · rename_i meets
      have far : childEnd ≤ stop := by
        split at walked
        · exact ih rest walked
        · exact ih rest walked
      omega

theorem walkCover_exact (sums : ∀ part ∈ parts, part.2 = spanSummary population parent part.1)
    {start cursor stop count digest : Nat} (passed : start ≤ cursor)
    (walked : walkCover parts cursor (spanSummary population parent (start, cursor)).count valid
      (spanSummary population parent (start, cursor)).digest = some (stop, count, fits, digest))
    (small : (spanSummary population parent (start, stop)).count ≤ u64Max) :
    (⟨count, digest⟩ : NodeSummary) = spanSummary population parent (start, stop) ∧ fits = valid := by
  induction parts generalizing cursor with
  | nil =>
    obtain ⟨rfl, rfl, rfl, rfl⟩ : cursor = stop ∧ _ = count ∧ valid = fits ∧ _ = digest := by
      simpa [walkCover] using walked
    exact ⟨rfl, rfl⟩
  | cons part parts ih =>
    obtain ⟨⟨childStart, childEnd⟩, summary⟩ := part
    have first : childStart ≤ childEnd := ordered _ mem_cons_self
    have same : summary = spanSummary population parent (childStart, childEnd) := sums _ mem_cons_self
    have ordered := fun part mem => ordered part (mem_cons_of_mem _ mem)
    rw [walkCover] at walked
    split at walked
    · cases walked
    · rename_i meets
      obtain rfl : childStart = cursor := not_not.mp meets
      rw [same, spanSummary_digest passed first, spanSummary_count population parent passed first] at walked
      split at walked
      · exact ih ordered (fun part mem => sums part (mem_cons_of_mem _ mem)) (passed.trans first) walked
      · rename_i overflows
        have far := walkCover_le ordered walked
        have whole := spanSummary_count population parent (passed.trans first) far
        omega

end

theorem nodeInterval_exact (exact_ : Exact population entry) {span : Nat × Nat}
    (interval : nodeInterval entry.1 = some span) (inside : Within parent entry.1) :
    span.1 ≤ span.2 ∧ entry.2 = spanSummary population parent span := by
  unfold nodeInterval at interval
  split at interval
  · cases interval
  · rename_i shallow
    obtain rfl := Option.some.inj interval
    have shallow : entry.1.1 ≤ maxDepth := Nat.le_of_not_lt shallow
    refine ⟨?_, ?_⟩
    · rw [shiftLeft_eq, shiftLeft_eq]
      exact Nat.mul_le_mul_right _ (le_succ _)
    · have summary := (fromH128s_ok exact_).2
      rw [boundsUnchecked_unshift shallow, unshift_part inside] at summary
      exact summary

theorem mapM_some {α β : Type} {f : α → Option β} {list : List α} {results : List β} (mapped : list.mapM f = some results) :
    ∀ result ∈ results, ∃ item ∈ list, f item = some result := by
  induction list generalizing results with
  | nil =>
    obtain rfl : [] = results := Option.some.inj mapped
    intro result mem
    cases mem
  | cons item list ih =>
    rw [mapM_cons] at mapped
    obtain ⟨first, found, further⟩ := bind_eq_some_iff.mp mapped
    obtain ⟨rest, behind, same⟩ := bind_eq_some_iff.mp further
    obtain rfl : first :: rest = results := Option.some.inj same
    intro result mem
    rcases mem_cons.mp mem with rfl | mem
    · exact ⟨item, mem_cons_self, found⟩
    · obtain ⟨item, inside, found⟩ := ih behind result mem
      exact ⟨item, mem_cons_of_mem _ inside, found⟩

theorem summarizeDescendantCover_exact (exact_ : ∀ entry ∈ summaries, Exact population entry)
    (own : Exact population (parent, summary))
    (covered : summarizeDescendantCover parent summaries = some (total, fits)) : total = summary ∧ fits = true := by
  obtain ⟨descendants, mapped, bounded⟩ := bind_eq_some_iff.mp covered
  obtain ⟨⟨start, stop⟩, interval, summed⟩ := bind_eq_some_iff.mp bounded
  obtain ⟨⟨cursor, count, valid, digest⟩, walked, closed⟩ := bind_eq_some_iff.mp summed
  have parts : ∀ part ∈ descendants, part.1.1 ≤ part.1.2 ∧ part.2 = spanSummary population parent part.1 := by
    intro part mem
    obtain ⟨entry, inside, found⟩ := mapM_some mapped part mem
    obtain ⟨span, interval, rfl⟩ := map_eq_some_iff.mp found
    obtain ⟨mem, under⟩ := mem_filter.mp inside
    have within : Within parent entry.1 := by
      unfold nodeInterval at interval
      split at interval
      · cases interval
      · rename_i shallow
        exact (covers_iff (Nat.le_of_not_lt shallow)).mp (and_eq_true_iff.mp under).2
    exact nodeInterval_exact (exact_ entry mem) interval within
  obtain ⟨_, whole⟩ := nodeInterval_exact own interval (.refl parent)
  have small : (spanSummary population parent (start, stop)).count ≤ u64Max := by
    have whole : summary = spanSummary population parent (start, stop) := whole
    obtain ⟨small, same⟩ := fromH128s_ok own
    rw [← whole]
    exact (congrArg NodeSummary.count same).trans_le small
  have sorted : ∀ part ∈ descendants.mergeSort fun a b => a.1.1 ≤ b.1.1,
      part.1.1 ≤ part.1.2 ∧ part.2 = spanSummary population parent part.1 :=
    fun part mem => parts part (mem_mergeSort.mp mem)
  change (if cursor = stop then some ((⟨count, digest⟩ : NodeSummary), valid) else none) = _ at closed
  split at closed
  · rename_i complete
    obtain rfl : cursor = stop := complete
    obtain ⟨rfl, rfl⟩ := Prod.mk.inj (Option.some.inj closed)
    have nothing := spanSummary_self population parent start
    have sums := walkCover_exact (fun part mem => (sorted part mem).1) (fun part mem => (sorted part mem).2)
      (le_refl start) (by rw [nothing]; exact walked) small
    exact ⟨sums.1.trans whole.symm, sums.2⟩
  · cases closed

end

structure Faithful (population : List ElementHash) (exchange : BucketExchange) : Prop where
  parents : ∀ entry ∈ exchange.parents, Exact population entry
  awaiting : ∀ entry ∈ exchange.awaiting, Exact population entry

def FaithfulRound (population : List ElementHash) (round : List Slot) : Prop :=
  ∀ slot ∈ round, Exact population (slot.request.node, slot.remoteSummary)

variable {exchange : BucketExchange} {batch : BucketDecodeBatch} {round : List Slot}

namespace BucketExchange

theorem awaitSummary_exact {parents awaiting : List (Node × NodeSummary)}
    (exact_ : ∀ entry ∈ awaiting, Exact population entry)
    (own : Exact population (slot.request.node, slot.remoteSummary)) :
    ∀ entry ∈ awaitSummary parents awaiting slot, Exact population entry := by
  intro entry mem
  unfold awaitSummary at mem
  dsimp only at mem
  split at mem
  · rcases mem_append.mp mem with kept | new
    · exact exact_ entry (mem_filter.mp kept).1
    · rw [mem_singleton.mp new]
      exact own
  · exact exact_ entry (mem_filter.mp mem).1

theorem awaitSummaries_exact (parents : List (Node × NodeSummary)) {awaiting : List (Node × NodeSummary)}
    (exact_ : ∀ entry ∈ awaiting, Exact population entry) (faithful : FaithfulRound population round) :
    ∀ entry ∈ round.foldl (awaitSummary parents) awaiting, Exact population entry := by
  induction round generalizing awaiting with
  | nil => exact exact_
  | cons slot round ih =>
    apply ih
    · exact awaitSummary_exact exact_ (faithful slot mem_cons_self)
    · exact fun other mem => faithful other (mem_cons_of_mem _ mem)

variable (batch : BucketDecodeBatch) (faithful : Faithful population exchange)
include faithful

theorem checkParent_faithful (parent : Node) :
    ∃ parents, checkParent (exchange, batch) parent = ({ exchange with parents := parents }, batch) ∧
      ∀ entry ∈ parents, entry ∈ exchange.parents := by
  rw [checkParent.eq_def]
  dsimp only
  split
  · exact ⟨exchange.parents, rfl, fun _ mem => mem⟩
  · rename_i node summary found
    have own : Exact population (parent, summary) := by
      have same : node = parent := by simpa using find?_some found
      rw [← same]
      exact faithful.parents _ (mem_of_find?_eq_some found)
    split
    · exact ⟨exchange.parents, rfl, fun _ mem => mem⟩
    · rename_i total fits covered
      obtain ⟨sum, whole⟩ := summarizeDescendantCover_exact faithful.awaiting own covered
      rw [if_neg (by simp [sum, whole])]
      exact ⟨_, rfl, fun _ mem => mem_of_mem_eraseP mem⟩

theorem checkParents_faithful (candidates : List Node) :
    ∃ parents, candidates.foldl checkParent (exchange, batch) = ({ exchange with parents := parents }, batch) ∧
      ∀ entry ∈ parents, entry ∈ exchange.parents := by
  induction candidates generalizing exchange with
  | nil => exact ⟨exchange.parents, rfl, fun _ mem => mem⟩
  | cons parent candidates ih =>
    obtain ⟨parents, checked, kept⟩ := checkParent_faithful batch faithful parent
    have faithful' : Faithful population { exchange with parents := parents } :=
      ⟨fun entry mem => faithful.parents entry (kept entry mem), faithful.awaiting⟩
    obtain ⟨left, rest, subset⟩ := ih faithful'
    refine ⟨left, ?_, fun entry mem => kept entry (subset entry mem)⟩
    rw [foldl_cons, checked, rest]

theorem checkSplitConsistency_faithful (honest : FaithfulRound population round) :
    ∃ parents awaiting, exchange.checkSplitConsistency round batch =
        ({ exchange with parents := parents, awaiting := awaiting }, batch) ∧
      Faithful population { exchange with parents := parents, awaiting := awaiting } := by
  have waiting := awaitSummaries_exact exchange.parents faithful.awaiting honest
  have before : Faithful population
      { exchange with awaiting := round.foldl (awaitSummary exchange.parents) exchange.awaiting } :=
    ⟨faithful.parents, waiting⟩
  obtain ⟨parents, checked, kept⟩ := checkParents_faithful batch before (exchange.parents.map Prod.fst)
  unfold checkSplitConsistency
  dsimp only
  rw [checked]
  refine ⟨parents, _, rfl, fun entry mem => faithful.parents entry (kept entry mem), ?_⟩
  exact fun entry mem => waiting entry (mem_filter.mp mem).1

end BucketExchange

end Rezzy.Recon
