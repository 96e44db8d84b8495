import Rezzy.Recon.Runs

namespace Rezzy.Recon

open List hiding next
open Region Relation
open Prod (fst)
open Apart (symm)

def Classified.roots (classified : Classified) : List Nat := classified.lRoots ++ classified.mRoots

section

variable {α β : Type}

theorem filter_flatMap_parts {list : List α} (agree : ∀ a ∈ list, ∀ b ∈ parts a, p b = q a) :
    (list.flatMap parts).filter p = (list.filter q).flatMap parts := by
  induction list with
  | nil => rfl
  | cons a list ih =>
    have own := agree a mem_cons_self
    rw [flatMap_cons, filter_append, ih fun a mem => agree a (mem_cons_of_mem _ mem), filter_cons]
    cases kept : q a with
    | true =>
      rw [filter_eq_self.mpr fun b mem => (own b mem).trans kept]
      rfl
    | false =>
      have none_ : (parts a).filter p = [] := by
        apply filter_eq_nil_iff.mpr
        intro b mem
        rw [own b mem, kept]
        exact Bool.false_ne_true
      rw [none_]
      rfl

end

namespace BucketExchange

def places (exchange : BucketExchange) : List Node := exchange.classified.map Classified.node ++ exchange.ladderFailed

/-- Open nodes, classified nodes and regions given up are apart. A remembered parent is in none of them, unless it is
    the node itself. -/
structure Sound (exchange : BucketExchange) (opened : List Node) : Prop where
  formed : ∀ node ∈ opened ++ exchange.places, Formed maxDepth node
  spread : (opened ++ exchange.places).Pairwise Apart
  parents : ∀ parent ∈ exchange.parents.map fst, Formed maxDepth parent
  below : ∀ parent ∈ exchange.parents.map fst, ∀ node ∈ opened ++ exchange.places,
    Within node parent → node = parent
  order : (exchange.parents.map fst).Pairwise fun first later => Within later first → later = first
  inside : ∀ c ∈ exchange.classified, c.roots.Nodup ∧ ∀ root ∈ c.roots, inNode root c.node = true
  roots : exchange.accumulatedRoots.Perm (exchange.classified.flatMap Classified.roots)

variable {exchange : BucketExchange} {opened : List Node} {batch : BucketDecodeBatch} {round : List Slot}

namespace Sound

theorem eq_or_apart (sound : Sound exchange opened) (left : a ∈ opened ++ exchange.places)
    (right : b ∈ opened ++ exchange.places) : a = b ∨ Apart a b := by
  have : Std.Symm Apart := ⟨fun _ _ => symm⟩
  by_cases same : a = b
  · exact .inl same
  · exact .inr (sound.spread.forall left right same)

theorem perm (sound : Sound exchange opened) (same : opened.Perm turned) : Sound exchange turned := by
  have all := same.append_right exchange.places
  exact ⟨fun node mem => sound.formed node (all.mem_iff.mpr mem), (all.pairwise_iff symm).mp sound.spread,
    sound.parents, fun parent known node mem => sound.below parent known node (all.mem_iff.mpr mem), sound.order,
    sound.inside, sound.roots⟩

theorem inNode_covers (sound : Sound exchange opened) (formed : Formed maxDepth region)
    (mem : c ∈ exchange.classified) (clear : Apart region c.node ∨ Within region c.node) (own : root ∈ c.roots) :
    inNode root region = covers region c.node := by
  have known : c.node ∈ opened ++ exchange.places := mem_append_right _ (mem_append_left _ (mem_map_of_mem mem))
  have shallow := sound.formed c.node known
  have held := (inNode_iff shallow).mp ((sound.inside c mem).2 root own)
  have wide : maxDepth ≤ h64TrieWidth := by decide
  rw [Bool.eq_iff_iff, inNode_iff formed, covers_iff shallow.1]
  rcases clear with apart | inside
  · have away := apart.symm.not_common (shallow.1.trans wide) (formed.1.trans wide) held
    exact ⟨fun holds => absurd holds away, fun inside => absurd inside apart.1⟩
  · exact ⟨fun _ => inside, fun _ => inside.holds (shallow.1.trans wide) held⟩

end Sound

section

def Unbroken (exchange : BucketExchange) (node : Node) : Prop :=
  ∀ region ∈ exchange.ladderFailed, Within node region → region = node

theorem ladderFail_given (exchange : BucketExchange) (batch : BucketDecodeBatch) (region : Node) :
    (exchange.ladderFail region batch).1.ladderFailed =
      if region ∈ exchange.ladderFailed then exchange.ladderFailed else exchange.ladderFailed ++ [region] := rfl

def live (state : Progress) : List Node := openNodes state ++ state.1.classified.map Classified.node

theorem live_append (state : Progress) : live state ++ state.1.ladderFailed = openNodes state ++ state.1.places :=
  append_assoc _ _ _

theorem ladderFail_live (exchange : BucketExchange) (batch : BucketDecodeBatch) (region : Node) :
    (live (exchange.ladderFail region batch)).Sublist (live (exchange, batch)) :=
  ((filter_sublist.map _).append ((filter_sublist.map _).append filter_sublist)).append (filter_sublist.map _)

theorem ladderFail_outside (mem : node ∈ live (exchange.ladderFail region batch)) : covers region node = false := by
  rcases mem_append.mp mem with opened | classified
  · rcases mem_append.mp opened with pending | answered
    · obtain ⟨request, kept, rfl⟩ := mem_map.mp pending
      simpa using (mem_filter.mp kept).2
    · rcases mem_append.mp answered with success | failed
      · obtain ⟨success, kept, rfl⟩ := mem_map.mp success
        simpa using (mem_filter.mp kept).2
      · simpa using (mem_filter.mp failed).2
  · obtain ⟨c, kept, rfl⟩ := mem_map.mp classified
    simpa using (mem_filter.mp kept).2

theorem ladderFail_known (mem : node ∈ live (exchange.ladderFail region batch) ++ exchange.ladderFailed) :
    node ∈ openNodes (exchange, batch) ++ exchange.places := by
  rw [← live_append (exchange, batch)]
  exact ((ladderFail_live exchange batch region).append (.refl exchange.ladderFailed)).subset mem

theorem ladderFail_old (mem : node ∈ openNodes (exchange.ladderFail region batch) ++
      (exchange.ladderFail region batch).1.places) :
    node = region ∨ node ∈ live (exchange.ladderFail region batch) ++ exchange.ladderFailed := by
  rw [← live_append] at mem
  rcases mem_append.mp mem with kept | given
  · exact .inr (mem_append_left _ kept)
  · exact (mem_ladderFail_ladderFailed given).imp_right (mem_append_right _)

namespace Sound

def Clear (exchange : BucketExchange) (opened : List Node) (region : Node) : Prop :=
  ∀ node ∈ opened ++ exchange.places, Apart region node ∨ Within region node

theorem ladderFail_spread (sound : Sound exchange (openNodes (exchange, batch)))
    (clear : Clear exchange (openNodes (exchange, batch)) region) (unbroken : exchange.Unbroken region) :
    (openNodes (exchange.ladderFail region batch) ++ (exchange.ladderFail region batch).1.places).Pairwise Apart := by
  have apart : (live (exchange.ladderFail region batch) ++ exchange.ladderFailed).Pairwise Apart := by
    apply List.Pairwise.sublist ((ladderFail_live exchange batch region).append (.refl _))
    rw [live_append (exchange, batch)]
    exact sound.spread
  rw [← live_append, ladderFail_given]
  split
  · exact apart
  · rename_i new
    rw [← append_assoc]
    refine pairwise_append.mpr ⟨apart, pairwise_singleton _ _, fun node mem other same => ?_⟩
    rw [mem_singleton.mp same]
    have known := ladderFail_known mem
    rcases clear node known with separate | inside
    · exact separate.symm
    · rcases mem_append.mp mem with kept | given
      · have covered := (covers_iff (sound.formed node known).1).mpr inside
        rw [ladderFail_outside kept] at covered
        cases covered
      · exact absurd (unbroken node given inside ▸ given) new

theorem ladderFail_roots (sound : Sound exchange opened) (formed : Formed maxDepth region)
    (clear : Clear exchange opened region) : (exchange.ladderFail region batch).1.accumulatedRoots.Perm
      ((exchange.ladderFail region batch).1.classified.flatMap Classified.roots) := by
  refine (sound.roots.filter _).trans (.of_eq (filter_flatMap_parts ?_))
  intro c mem _ own
  have placed : c.node ∈ opened ++ exchange.places := mem_append_right _ (mem_append_left _ (mem_map_of_mem mem))
  rw [sound.inNode_covers formed mem (clear c.node placed) own]

theorem ladderFail (sound : Sound exchange (openNodes (exchange, batch))) (formed : Formed maxDepth region)
    (clear : Clear exchange (openNodes (exchange, batch)) region) (unbroken : exchange.Unbroken region) :
    Sound (exchange.ladderFail region batch).1 (openNodes (exchange.ladderFail region batch)) where
  formed := by
    intro node mem
    rcases ladderFail_old mem with rfl | mem
    · exact formed
    · exact sound.formed node (ladderFail_known mem)
  spread := sound.ladderFail_spread clear unbroken
  parents := fun parent mem => sound.parents parent ((filter_sublist.map _).subset mem)
  below := by
    intro parent mem node placed inside
    have remembered := (filter_sublist.map _).subset mem
    rcases ladderFail_old placed with rfl | placed
    · obtain ⟨entry, kept, rfl⟩ := mem_map.mp mem
      have uncovered := (mem_filter.mp kept).2
      rw [(covers_iff (sound.parents entry.1 remembered).1).mpr inside] at uncovered
      cases uncovered
    · exact sound.below parent remembered node (ladderFail_known placed) inside
  order := sound.order.sublist (filter_sublist.map _)
  inside := fun c mem => sound.inside c (mem_filter.mp mem).1
  roots := sound.ladderFail_roots formed clear

variable (sound : Sound exchange opened)
include sound

theorem clear_of_mem (mem : region ∈ opened ++ exchange.places) : Clear exchange opened region := by
  intro _ placed
  rcases sound.eq_or_apart mem placed with rfl | apart
  · exact .inr (.refl region)
  · exact .inl apart

theorem clear_of_parent (known : parent ∈ exchange.parents.map fst) : Clear exchange opened parent := by
  intro node placed
  by_cases inside : Within parent node
  · exact .inr inside
  · by_cases outer : Within node parent
    · obtain rfl := sound.below parent known node placed outer
      exact .inr (.refl node)
    · exact .inl ⟨inside, outer⟩

theorem forget {parents : List (Node × NodeSummary)}
    (fewer : parents.Sublist exchange.parents) : Sound { exchange with parents := parents } opened :=
  have subset := (fewer.map fst).subset
  ⟨sound.formed, sound.spread, fun parent mem => sound.parents parent (subset mem),
    fun parent mem => sound.below parent (subset mem), sound.order.sublist (fewer.map _), sound.inside, sound.roots⟩

theorem remember (mem : node ∈ opened) (summary : NodeSummary) :
    Sound { exchange with parents := exchange.parents ++ [(node, summary)] } opened := by
  have placed := mem_append_left exchange.places mem
  have known : ∀ parent ∈ (exchange.parents ++ [(node, summary)]).map fst,
      parent ∈ exchange.parents.map fst ∨ parent = node := by
    intro parent mem
    rw [map_append, mem_append] at mem
    exact mem.imp_right mem_singleton.mp
  refine ⟨sound.formed, sound.spread, fun parent mem => ?_, fun parent mem other inside within => ?_, ?_,
    sound.inside, sound.roots⟩
  · rcases known parent mem with mem | rfl
    · exact sound.parents parent mem
    · exact sound.formed parent placed
  · rcases known parent mem with mem | rfl
    · exact sound.below parent mem other inside within
    · rcases sound.eq_or_apart inside placed with same | apart
      · exact same
      · exact absurd within apart.1
  · rw [map_append]
    refine pairwise_append.mpr ⟨sound.order, pairwise_singleton _ _, fun parent mem later same => ?_⟩
    rw [mem_singleton.mp same]
    exact sound.below parent mem node placed

end Sound

theorem Change.sound {state next : Progress} (change : Change Unbroken round state next)
    (sound : Sound state.1 (openNodes state)) : Sound next.1 (openNodes next) := by
  cases change with
  | marks exchange batch failures forceSplit overflowRetry wideSplit =>
    exact ⟨sound.formed, sound.spread, sound.parents, sound.below, sound.order, sound.inside, sound.roots⟩
  | awaits exchange batch awaiting =>
    exact ⟨sound.formed, sound.spread, sound.parents, sound.below, sound.order, sound.inside, sound.roots⟩
  | settles exchange batch parent => exact sound.forget eraseP_sublist
  | blames exchange batch parent known meets =>
    have forgotten := sound.forget (eraseP_sublist (p := fun p => p.1 = parent))
    exact forgotten.ladderFail (sound.parents parent known) (sound.clear_of_parent known) meets
  | givesUp exchange batch node failed =>
    have placed : node ∈ openNodes (exchange, batch) ++ exchange.places :=
      mem_append_left _ (mem_append_right _ (mem_append_right _ failed))
    refine sound.ladderFail (sound.formed node placed) (sound.clear_of_mem placed) ?_
    intro _ given inside
    rcases sound.eq_or_apart placed (mem_append_right _ (mem_append_right _ given)) with same | apart
    · exact same.symm
    · exact absurd inside apart.1
  | remembers exchange batch slot inRound failed =>
    exact sound.remember (mem_append_right _ (mem_append_right _ failed)) slot.remoteSummary

theorem Changes.sound (changes : Changes Unbroken round state next) (sound : Sound state.1 (openNodes state)) :
    Sound next.1 (openNodes next) := by
  induction changes with
  | refl => exact sound
  | tail _ change ih => exact change.sound ih

theorem Changes.successes {condition : BucketExchange → Node → Prop} (changes : Changes condition round state next)
    (outside : ∀ success ∈ state.2.successfulBuckets, ∀ region ∈ state.1.ladderFailed, covers region success.node = false) :
    next.2.successfulBuckets = state.2.successfulBuckets.filter fun success =>
      !next.1.ladderFailed.any fun region => covers region success.node := by
  have lost : ∀ (exchange : BucketExchange) (batch : BucketDecodeBatch) (region : Node),
      batch.successfulBuckets = state.2.successfulBuckets.filter (fun success =>
        !exchange.ladderFailed.any fun region => covers region success.node) →
      (exchange.ladderFail region batch).2.successfulBuckets = state.2.successfulBuckets.filter fun success =>
        !(exchange.ladderFail region batch).1.ladderFailed.any fun region => covers region success.node := by
    intro exchange batch region before
    have both : (exchange.ladderFail region batch).2.successfulBuckets =
        batch.successfulBuckets.filter fun success => !covers region success.node := rfl
    rw [both, before, filter_filter, ladderFail_given]
    apply filter_congr
    intro success _
    split
    · rename_i given
      cases inside : covers region success.node with
      | true =>
        have found : (exchange.ladderFailed.any fun region => covers region success.node) = true :=
          any_eq_true.mpr ⟨region, given, inside⟩
        rw [found]
        rfl
      | false => rfl
    · rw [any_append, any_cons, any_nil, Bool.or_false, Bool.not_or, Bool.and_comm]
  induction changes with
  | refl =>
    symm
    apply filter_eq_self.mpr
    intro success mem
    rw [Bool.not_eq_true', any_eq_false]
    intro region given
    rw [outside success mem region given]
    exact Bool.false_ne_true
  | tail _ change ih =>
    cases change with
    | blames exchange batch parent known meets => exact lost _ batch parent ih
    | givesUp exchange batch node failed => exact lost exchange batch node ih
    | _ => exact ih

variable {successes : List BucketDecodeSuccess} {verified : List Classified}
  (each : List.Forall₂ ClassifiedAs successes verified)
include each

theorem classified_roots : (successes.flatMap BucketDecodeSuccess.roots).Perm (verified.flatMap Classified.roots) := by
  induction each with
  | nil => exact .refl _
  | cons own _ ih =>
    rw [flatMap_cons, flatMap_cons]
    exact own.roots.symm.append ih

theorem classified_nodes : verified.map Classified.node = successes.map BucketDecodeSuccess.node := by
  induction each with
  | nil => rfl
  | cons own _ ih => rw [map_cons, map_cons, own.node, ih]

theorem classified_inside : ∀ c ∈ verified, c.roots.Nodup ∧ ∀ root ∈ c.roots, inNode root c.node = true := by
  induction each with
  | nil => exact fun c none => nomatch none
  | cons own _ ih =>
    refine forall_mem_cons.mpr ⟨⟨own.roots.nodup_iff.mpr own.distinct, fun root mem => ?_⟩, ih⟩
    rw [own.node]
    exact own.inside root (own.roots.mem_iff.mp mem)

end

theorem nodup_roots {classified : List Classified} (formed : ∀ c ∈ classified, Formed maxDepth c.node)
    (apart : (classified.map Classified.node).Pairwise Apart)
    (inside : ∀ c ∈ classified, c.roots.Nodup ∧ ∀ root ∈ c.roots, inNode root c.node = true) :
    (classified.flatMap Classified.roots).Nodup := by
  rw [nodup_flatMap]
  refine ⟨fun c mem => (inside c mem).1, ?_⟩
  rw [pairwise_map] at apart
  refine apart.imp_of_mem fun {a b} left right separate root own other => ?_
  have wide : maxDepth ≤ h64TrieWidth := by decide
  have first := (inNode_iff (formed a left)).mp ((inside a left).2 root own)
  have second := (inNode_iff (formed b right)).mp ((inside b right).2 root other)
  exact separate.not_common ((formed a left).1.trans wide) ((formed b right).1.trans wide) first second

namespace Sound

theorem distinct (sound : Sound exchange opened) : exchange.accumulatedRoots.Nodup := by
  rw [sound.roots.nodup_iff]
  apply nodup_roots ?_ ?_ sound.inside
  · exact fun c mem => sound.formed c.node (mem_append_right _ (mem_append_left _ (mem_map_of_mem mem)))
  · exact (pairwise_append.mp (pairwise_append.mp sound.spread).2.1).1

theorem ingest (sound : Sound exchange (openNodes (exchange, batch)))
    (each : List.Forall₂ ClassifiedAs batch.successfulBuckets verified) : Sound { exchange with
        classified := exchange.classified ++ verified
        accumulatedRoots := exchange.accumulatedRoots ++ batch.successfulBuckets.flatMap BucketDecodeSuccess.roots }
      (batch.failedBuckets ++ exchange.pending.map BucketRequest.node) := by
  -- The same nodes, with those admitted taken from the open ones to the settled ones.
  have moved : (openNodes (exchange, batch) ++ exchange.places).Perm
      ((batch.failedBuckets ++ exchange.pending.map BucketRequest.node) ++
        ((exchange.classified ++ verified).map Classified.node ++ exchange.ladderFailed)) := by
    rw [map_append, classified_nodes each]
    unfold openNodes places BucketDecodeBatch.nodes
    rw [perm_iff_count]
    intro node
    simp only [count_append]
    omega
  refine ⟨fun node mem => sound.formed node (moved.mem_iff.mpr mem),
    (moved.pairwise_iff symm).mp sound.spread, sound.parents,
    fun parent known node mem => sound.below parent known node (moved.mem_iff.mpr mem), sound.order,
    forall_mem_append.mpr ⟨sound.inside, classified_inside each⟩, ?_⟩
  rw [flatMap_append]
  exact sound.roots.append (classified_roots each)

theorem places_perm (exchange : BucketExchange) (opened : List Node) :
    (opened ++ exchange.places).Perm (exchange.classified.map Classified.node ++ (opened ++ exchange.ladderFailed)) := by
  unfold places
  rw [perm_iff_count]
  intro _
  simp only [count_append]
  omega

theorem advance (sound : Sound exchange opened) {lossy : Prop}
    (moves : Moves h64TrieWidth maxDepth lossy (opened, exchange.ladderFailed) (opened', next.ladderFailed))
    (classified : next.classified = exchange.classified) (parents : next.parents = exchange.parents)
    (roots : next.accumulatedRoots = exchange.accumulatedRoots) : Sound next opened' := by
  have turned := places_perm exchange opened
  have turned' := places_perm next opened'
  rw [classified] at turned'
  have spread := pairwise_append.mp ((turned.pairwise_iff symm).mp sound.spread)
  -- What parts inherit stays true of the open nodes and of those given up.
  have after : ∀ {P : Node → Prop}, (∀ {node part : Node}, P node → Within node part → part.1 ≤ maxDepth → P part) →
      (∀ node ∈ opened ++ exchange.ladderFailed, P node) → ∀ node ∈ opened' ++ next.ladderFailed, P node := by
    intro P inherits all
    have before := forall_mem_append.mp all
    exact forall_mem_append.mpr (Moves.forall_mem moves inherits before.1 before.2)
  have keeps : ∀ {P : Node → Prop}, (∀ {node part : Node}, P node → Within node part → part.1 ≤ maxDepth → P part) →
      (∀ node ∈ opened ++ exchange.places, P node) → ∀ node ∈ opened' ++ next.places, P node := by
    intro P inherits all node mem
    rcases mem_append.mp (turned'.mem_iff.mp mem) with settled | moving
    · exact all node (turned.mem_iff.mpr (mem_append_left _ settled))
    · exact after inherits (fun other mem => all other (turned.mem_iff.mpr (mem_append_right _ mem))) node moving
  refine ⟨keeps Formed.inner sound.formed, ?_, ?_, ?_, ?_, ?_, ?_⟩
  · apply (turned'.pairwise_iff symm).mpr
    refine pairwise_append.mpr ⟨spread.1, Moves.all_apart moves spread.2.1, fun c mem => ?_⟩
    exact after (fun apart inside _ => apart.mono (.refl c) inside) (spread.2.2 c mem)
  · rw [parents]
    exact sound.parents
  · rw [parents]
    intro parent known
    refine keeps (fun {node part} own inside _ outer => ?_) (sound.below parent known)
    obtain rfl := own (inside.trans outer)
    exact outer.antisymm inside
  · rw [parents]
    exact sound.order
  · rw [classified]
    exact sound.inside
  · rw [classified, roots]
    exact sound.roots

end Sound

end BucketExchange

end Rezzy.Recon
