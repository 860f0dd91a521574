/-
# The graph of retained metadata pages

`validate_graph` of `ceres/snapshot/retention_dag.rs`: before a group of metadata
pages is retained, its edges must lie within the group, have no cycle, and lead
from the root to every page. The pages are released by their incoming edges, as
`Kahn` does it, and then collected from the root, as `DepthFirst.gather` does.

The pages are the keys of a map and the edges a set, both in order.

Key definitions: `validateGraph`.
Key theorem: `validateGraph_exact`.
-/
import Mega.Lib.Fallible
import Mega.Lib.Kahn

namespace Mega
namespace Snapshot
namespace RetentionDag

open Relation Kahn DepthFirst

variable {PageId : Type} [LinearOrder PageId]

inductive GraphFault where
  /-- "metadata root payload is missing" -/
  | rootMissing
  /-- "metadata child payload is missing" -/
  | childMissing
  /-- "metadata graph contains a cycle" -/
  | cycle
  /-- "metadata graph includes unreachable payloads" -/
  | unreachable
deriving DecidableEq

/-- The edges in the order of the set. -/
def edgeList (edges : Finset (PageId × PageId)) : List (PageId × PageId) :=
  ((edges.map toLex.toEmbedding).sort (· ≤ ·)).map ofLex

/-- The pages in the order they are released; the source keeps their number. -/
def visited (pages : List PageId) (edges : List (PageId × PageId)) : List PageId :=
  (release edges pages.length (fun v => (sources edges v).length)
    (pages.filter fun v => (sources edges v).length = 0) []).getD []

/-- The pages that the root leads to. -/
def reachable (root : PageId) (pages : List PageId) (edges : List (PageId × PageId)) : List PageId :=
  (gather (targets edges) (fun _ => false) (1 + Explore.ahead (targets edges) pages []) [root] []).getD []

def validateGraph (root : PageId) (pages : Finset PageId) (edges : Finset (PageId × PageId)) :
    Except GraphFault Unit :=
  if root ∉ pages then .error .rootMissing
  else if (edgeList edges).any fun e => e.1 ∉ pages || e.2 ∉ pages then .error .childMissing
  else if (visited (pages.sort (· ≤ ·)) (edgeList edges)).length ≠ pages.card then .error .cycle
  else if (reachable root (pages.sort (· ≤ ·)) (edgeList edges)).length ≠ pages.card then .error .unreachable
  else .ok ()

theorem mem_edgeList {edges : Finset (PageId × PageId)} {e : PageId × PageId} : e ∈ edgeList edges ↔ e ∈ edges := by
  simp [edgeList]

theorem nodup_edgeList (edges : Finset (PageId × PageId)) : (edgeList edges).Nodup :=
  (Finset.sort_nodup _ _).map ofLex.injective

variable {pages : List PageId} {edges : List (PageId × PageId)}

theorem length_visited (hpages : pages.Nodup) (hedges : edges.Nodup)
    (hends : ∀ e ∈ edges, e.1 ∈ pages ∧ e.2 ∈ pages) :
    (visited pages edges).length = pages.length ↔ ∀ v, ¬ TransGen (fun a b => (a, b) ∈ edges) v v := by
  obtain ⟨incoming, released, hrelease, hinv⟩ :=
    release_spec hedges (fun e he => (hends e he).2) pages.length (Inv.start hpages) (by simp)
  rw [visited, hrelease, Option.getD_some]
  exact hinv.all_iff hpages hends

theorem length_reachable (hpages : pages.Nodup) (hends : ∀ e ∈ edges, e.1 ∈ pages ∧ e.2 ∈ pages) {root : PageId}
    (hroot : root ∈ pages) : (reachable root pages edges).length = pages.length ↔
      ∀ v ∈ pages, ReflTransGen (fun a b => (a, b) ∈ edges) root v := by
  have hinner : ∀ a ∈ pages, ∀ b ∈ targets edges a, b ∈ pages := fun a _ b hb => (hends _ (mem_targets.mp hb)).2
  have hskip : ∀ a b : PageId, (fun _ : PageId => false) a = true → b ∈ targets edges a →
      (fun _ : PageId => false) b = true := by simp
  obtain ⟨found, hgather, hcovers⟩ := gather_covers pages hinner hskip Covers.nil hroot le_rfl
  have hnext : Next (targets edges) = fun a b => (a, b) ∈ edges := by
    funext a b
    exact propext mem_targets
  have hmem : ∀ v, v ∈ found ↔ ReflTransGen (fun a b => (a, b) ∈ edges) root v := fun v => by
    simp [hcovers.mem_iff, hnext]
  have hsub : found ⊆ pages := fun v hv => by
    induction (hmem v).mp hv with
    | refl => exact hroot
    | tail _ hstep _ => exact (hends _ hstep).2
  have hsubperm := List.subperm_of_subset hcovers.nodup hsub
  rw [reachable, hgather, Option.getD_some]
  constructor
  · intro hlength v hv
    exact (hmem v).mp ((hsubperm.perm_of_length_le hlength.ge).mem_iff.mpr hv)
  · intro hall
    have hle := (List.subperm_of_subset hpages fun v hv => (hmem v).mpr (hall v hv)).length_le
    have hge := hsubperm.length_le
    omega

/-- **The validation is exact.** It succeeds if and only if the root is a page, the edges lie between pages,
there is no cycle, and the root leads to every page. -/
theorem validateGraph_exact (root : PageId) (pages : Finset PageId) (edges : Finset (PageId × PageId)) :
    validateGraph root pages edges = .ok () ↔
      root ∈ pages ∧ (∀ e ∈ edges, e.1 ∈ pages ∧ e.2 ∈ pages) ∧
      (∀ v, ¬ TransGen (fun a b => (a, b) ∈ edges) v v) ∧
      ∀ v ∈ pages, ReflTransGen (fun a b => (a, b) ∈ edges) root v := by
  have hpages := Finset.sort_nodup pages (· ≤ ·)
  have hends : (¬ (edgeList edges).any (fun e => e.1 ∉ pages || e.2 ∉ pages) = true) ↔
      ∀ e ∈ edgeList edges, e.1 ∈ pages.sort (· ≤ ·) ∧ e.2 ∈ pages.sort (· ≤ ·) := by
    simp [not_or]
  simp only [validateGraph, Fallible.guard_eq_ok, hends, not_not, ne_eq, and_true, ← Finset.length_sort (· ≤ ·)]
  refine and_congr_right fun hroot => ?_
  have hroot' : root ∈ pages.sort (· ≤ ·) := by simpa using hroot
  constructor
  · rintro ⟨hinside, hvisited, hreachable⟩
    rw [length_visited hpages (nodup_edgeList edges) hinside] at hvisited
    rw [length_reachable hpages hinside hroot'] at hreachable
    simp only [mem_edgeList, Finset.mem_sort] at hinside hvisited hreachable
    exact ⟨hinside, hvisited, hreachable⟩
  · rintro ⟨hinside, hacyclic, hall⟩
    have hinside' : ∀ e ∈ edgeList edges, e.1 ∈ pages.sort (· ≤ ·) ∧ e.2 ∈ pages.sort (· ≤ ·) := by
      simpa only [mem_edgeList, Finset.mem_sort] using hinside
    refine ⟨hinside', (length_visited hpages (nodup_edgeList edges) hinside').mpr ?_,
      (length_reachable hpages hinside' hroot').mpr ?_⟩
    · simpa only [mem_edgeList] using hacyclic
    · simpa only [mem_edgeList, Finset.mem_sort] using hall

end RetentionDag
end Snapshot
end Mega
