import Mathlib.Data.List.Nodup

namespace Firsts

open List

variable {α κ : Type} {key : α → κ} {all kept : List α} {a : α}

structure FirstOccurrences (key : α → κ) (all kept : List α) : Prop where
  once : (kept.map key).Nodup
  every : ∀ a ∈ all, key a ∈ kept.map key
  first : ∀ a ∈ kept, ∃ before after, all = before ++ a :: after ∧ key a ∉ before.map key
  sublist : kept.Sublist all

theorem FirstOccurrences.nil : FirstOccurrences key [] [] where
  once := nodup_nil
  every := nofun
  first := nofun
  sublist := .slnil

variable (firsts : FirstOccurrences key all kept)
include firsts

theorem FirstOccurrences.longer (a : α) :
    ∀ b ∈ kept, ∃ before after, all ++ [a] = before ++ b :: after ∧ key b ∉ before.map key := by
  intro b mem
  obtain ⟨before, after, shape, fresh⟩ := firsts.first b mem
  refine ⟨before, after ++ [a], ?_, fresh⟩
  rw [shape, append_assoc, cons_append]

theorem FirstOccurrences.again (seen : key a ∈ kept.map key) : FirstOccurrences key (all ++ [a]) kept where
  once := firsts.once
  every b member := by
    rcases mem_append.mp member with before | last
    · exact firsts.every b before
    · rwa [mem_singleton.mp last]
  first := firsts.longer a
  sublist := firsts.sublist.trans (sublist_append_left all [a])

theorem FirstOccurrences.fresh (new : key a ∉ kept.map key) : FirstOccurrences key (all ++ [a]) (kept ++ [a]) where
  once := by
    rw [map_append, map_singleton, nodup_append_comm]
    exact nodup_cons.mpr ⟨new, firsts.once⟩
  every b member := by
    rw [map_append]
    rcases mem_append.mp member with before | last
    · exact mem_append_left _ (firsts.every b before)
    · rw [mem_singleton.mp last]
      exact mem_append_right _ mem_cons_self
  first b member := by
    rcases mem_append.mp member with before | last
    · exact firsts.longer a b before
    · rw [mem_singleton.mp last]
      refine ⟨all, [], rfl, fun inside => ?_⟩
      obtain ⟨c, earlier, same⟩ := mem_map.mp inside
      exact new (same ▸ firsts.every c earlier)
  sublist := firsts.sublist.append (List.Sublist.refl [a])

end Firsts
