/-
# The source paths of a filter are minimal

`normalized_paths` keeps a path unless a path above it was kept. Since it walks
the paths in order and a path comes after every path above it, no two of the
paths kept are equal and none is above another. `src_paths_limited` checks the
number of paths on the way; when it answers, it answers the same list as
`src_paths`.

Key theorems: `pairwise_apart_normalizedPaths`, `pairwise_apart_srcPaths`,
`srcPathsLimited_minimal`.
-/
import Mega.View.Validate

namespace Mega
namespace View

open List KeySort PathCone

/-- The loop keeps its paths apart, as long as what is still to come is above none of them. -/
theorem pairwise_apart_keepMinimal : ∀ (paths minimal : List Path), (minimal ++ paths).Pairwise (· < ·) →
    minimal.Pairwise Apart → (keepMinimal minimal paths).Pairwise Apart
  | [], minimal, _, hapart => hapart
  | path :: paths, minimal, hsort, hapart => by
    unfold keepMinimal
    split
    · refine pairwise_apart_keepMinimal paths minimal (hsort.sublist ?_) hapart
      exact (sublist_cons_self path paths).append_left minimal
    · rename_i hnone
      refine pairwise_apart_keepMinimal paths (minimal ++ [path]) ?_ ?_
      · rwa [append_assoc, singleton_append]
      · refine pairwise_append.mpr ⟨hapart, pairwise_singleton _ path, ?_⟩
        intro kept hkept last hlast
        rw [mem_singleton.mp hlast]
        refine ⟨?_, ?_⟩
        · intro habove
          exact hnone (any_eq_true.mpr ⟨kept, hkept, isPrefix_iff.mpr habove⟩)
        · intro hbelow
          have hlt : kept < path := (pairwise_append.mp hsort).2.2 kept hkept path mem_cons_self
          exact absurd (le_of_isPrefix hbelow) (not_le.mpr hlt)

theorem pairwise_apart_normalizedPaths (paths : List Path) : (normalizedPaths paths).Pairwise Apart := by
  refine pairwise_apart_keepMinimal _ [] ?_ List.Pairwise.nil
  have hsort : ((sortBy id paths).destutter (· ≠ ·)).Pairwise fun a b => id a ≤ id b :=
    (sortBy_pairwise id paths).sublist (destutter_sublist _ _)
  exact pairwise_lt_of_isChain_ne Function.injective_id hsort (isChain_destutter _ _)

theorem pairwise_apart_srcPaths (f : Filter) : ((srcPaths f).map pathSegments).Pairwise Apart := by
  have hread : ((normalizedPaths (pull f [[]])).map displayPath).map pathSegments = normalizedPaths (pull f [[]]) := by
    rw [map_map]
    refine (map_congr_left ?_).trans (map_id _)
    intro p hp
    exact pathSegments_displayPath (validPath_of_mem_pull (mem_of_mem_normalizedPaths hp))
  have hperm := (sortBy_perm id ((normalizedPaths (pull f [[]])).map displayPath)).map pathSegments
  rw [hread] at hperm
  exact (hperm.pairwise_iff Apart.symm).mpr (pairwise_apart_normalizedPaths _)

theorem length_le_of_checkLimit {k : ℕ} {paths out : List Path} (h : checkLimit k paths = some out) :
    out.length ≤ k := by
  unfold checkLimit at h
  split at h
  · cases h
  · rename_i hle
    rw [← Option.some.inj h]
    exact not_lt.mp hle

/-- **The limited source paths are the source paths**: at most as many as allowed, sorted, and none equal to or
above another. -/
theorem srcPathsLimited_minimal {f : Filter} {k : ℕ} {paths : List Text} (h : srcPathsLimited f k = some paths) :
    paths = srcPaths f ∧ paths.length ≤ k ∧ paths.Pairwise (· ≤ ·) ∧ (paths.map pathSegments).Pairwise Apart := by
  have heq := srcPathsLimited_eq h
  have hlen : paths.length ≤ k := by
    obtain ⟨pulled, -, hlimit⟩ := Option.bind_eq_some_iff.mp h
    obtain ⟨kept, hkept, hpaths⟩ := Option.bind_eq_some_iff.mp hlimit
    rw [← Option.some.inj hpaths, length_sortBy, length_map]
    exact length_le_of_checkLimit hkept
  refine ⟨heq, hlen, ?_, ?_⟩
  · rw [heq]
    exact sortBy_pairwise id _
  · rw [heq]
    exact pairwise_apart_srcPaths f

/-- A compose of two directories of which one is below the other reads one path. -/
theorem srcPathsLimited_minimal_nested :
    srcPathsLimited (.compose [.subdir ⟨[['a'], ['b']], by decide, by decide⟩, .subdir ⟨[['a']], by decide, by decide⟩])
      1 = some [['/', 'a']] ∧ ([['/', 'a']] : List Text).length ≤ 1 := by
  have hpaths : srcPathsLimited (.compose [.subdir ⟨[['a'], ['b']], by decide, by decide⟩,
      .subdir ⟨[['a']], by decide, by decide⟩]) 1 = some [['/', 'a']] := by decide +kernel
  exact ⟨hpaths, (srcPathsLimited_minimal hpaths).2.1⟩

end View
end Mega
