/-
# Releasing the nodes of a graph

Every node of a finite graph counts its incoming edges. A node without any is
ready; it is released, and its targets count one edge less. A node is released
after all its sources, so on a cycle none is, and what is never released has a
source that is not either. The nodes are all released exactly if there is no
cycle.

Key definitions: `release`, `Inv`.
Key theorems: `Inv.next`, `release_spec`, `Inv.all_iff`.
-/
import Mega.Lib.DepthFirst

namespace Mega
namespace Kahn

open List Relation DepthFirst

variable {ν : Type*} [DecidableEq ν] {edges : List (ν × ν)}

def targets (edges : List (ν × ν)) (v : ν) : List ν := (edges.filter (·.1 = v)).map Prod.snd

def sources (edges : List (ν × ν)) (v : ν) : List ν := (edges.filter (·.2 = v)).map Prod.fst

@[simp]
theorem mem_targets {v w : ν} : w ∈ targets edges v ↔ (v, w) ∈ edges := by simp [targets]

@[simp]
theorem mem_sources {v w : ν} : v ∈ sources edges w ↔ (v, w) ∈ edges := by simp [sources]

theorem nodup_targets (h : edges.Nodup) (v : ν) : (targets edges v).Nodup := by
  refine (h.filter _).map_on fun a ha b hb hab => ?_
  simp only [mem_filter, decide_eq_true_eq] at ha hb
  exact Prod.ext (ha.2.trans hb.2.symm) hab

theorem nodup_sources (h : edges.Nodup) (v : ν) : (sources edges v).Nodup := by
  refine (h.filter _).map_on fun a ha b hb hab => ?_
  simp only [mem_filter, decide_eq_true_eq] at ha hb
  exact Prod.ext hab (ha.2.trans hb.2.symm)

/-- One edge less at each of the nodes; a node left without any is ready. -/
def settle (incoming : ν → ℕ) (ready : List ν) : List ν → (ν → ℕ) × List ν
  | [] => (incoming, ready)
  | v :: rest =>
    settle (Function.update incoming v (incoming v - 1)) (if incoming v - 1 = 0 then ready ++ [v] else ready) rest

/-- Releases ready nodes, first come first served, until none is left. -/
def release (edges : List (ν × ν)) : ℕ → (ν → ℕ) → List ν → List ν → Option (List ν)
  | _, _, [], released => some released
  | 0, _, _ :: _, _ => none
  | fuel + 1, incoming, v :: ready, released =>
    release edges fuel (settle incoming ready (targets edges v)).1 (settle incoming ready (targets edges v)).2
      (released ++ [v])

theorem settle_eq : ∀ {nodes : List ν} (incoming : ν → ℕ) (ready : List ν), nodes.Nodup →
    settle incoming ready nodes = (fun v => if v ∈ nodes then incoming v - 1 else incoming v,
      ready ++ nodes.filter (incoming · - 1 = 0))
  | [], incoming, ready, _ => by simp [settle]
  | v :: rest, incoming, ready, h => by
    obtain ⟨hv, hrest⟩ := nodup_cons.mp h
    rw [settle, settle_eq _ _ hrest]
    refine Prod.ext (funext fun w => ?_) ?_
    · by_cases hw : w = v
      · simp [hw, hv]
      · simp [hw]
    · have hsame : rest.filter (Function.update incoming v (incoming v - 1) · - 1 = 0) =
          rest.filter (incoming · - 1 = 0) :=
        filter_congr fun w hw => by
          rw [Function.update_of_ne (ne_of_mem_of_not_mem hw hv)]
      rw [hsame, filter_cons]
      by_cases hzero : incoming v - 1 = 0 <;> simp [hzero]

/-- What holds between two releases. -/
structure Inv (nodes : List ν) (edges : List (ν × ν)) (incoming : ν → ℕ) (ready released : List ν) : Prop where
  nodup : (released ++ ready).Nodup
  inside : ∀ v ∈ released ++ ready, v ∈ nodes
  count : ∀ v, incoming v = ((sources edges v).filter (· ∉ released)).length
  free : ∀ v ∈ nodes, incoming v = 0 ↔ v ∈ released ++ ready
  settled : Settled (sources edges) released.reverse

theorem Inv.start {nodes : List ν} (h : nodes.Nodup) :
    Inv nodes edges (fun v => (sources edges v).length) (nodes.filter fun v => (sources edges v).length = 0) [] where
  nodup := by simpa using h.filter _
  inside v hv := by
    rw [nil_append, mem_filter] at hv
    exact hv.1
  count v := by simp
  free v hv := by simp [hv]
  settled := trivial

/-- Leaving out one more element. -/
theorem length_filter_concat {l released : List ν} {v : ν} (hl : l.Nodup) (hv : v ∉ released) :
    (l.filter (· ∉ released ++ [v])).length =
      if v ∈ l then (l.filter (· ∉ released)).length - 1 else (l.filter (· ∉ released)).length := by
  have hfilter : l.filter (· ∉ released ++ [v]) = (l.filter (· ∉ released)).erase v := by
    rw [(hl.filter _).erase_eq_filter, filter_filter]
    exact filter_congr fun w _ => by by_cases hw : w = v <;> simp [hw]
  rw [hfilter]
  split
  · rw [length_erase_of_mem (mem_filter.mpr ⟨‹_›, by simpa using hv⟩)]
  · rw [erase_of_not_mem fun hmem => ‹v ∉ l› (mem_filter.mp hmem).1]

theorem Inv.next {nodes : List ν} {incoming : ν → ℕ} {v : ν} {ready released : List ν} (hedges : edges.Nodup)
    (hends : ∀ e ∈ edges, e.2 ∈ nodes) (h : Inv nodes edges incoming (v :: ready) released) :
    Inv nodes edges (settle incoming ready (targets edges v)).1 (settle incoming ready (targets edges v)).2
      (released ++ [v]) := by
  rw [settle_eq _ _ (nodup_targets hedges v)]
  have hmem : ∀ w, w ∈ released ++ [v] ++ ready ↔ w ∈ released ++ v :: ready := fun w => by simp
  have hnew : v ∉ released := fun hv => by simpa using (nodup_append.mp h.nodup).2.2 v hv v
  have hfirst : incoming v = 0 := (h.free v (h.inside v (by simp))).mpr (by simp)
  -- a target still counts the edge from the node, so it was not ready before
  have htarget : ∀ w, (v, w) ∈ edges → incoming w ≠ 0 := fun w hw => by
    rw [h.count, ne_eq, length_eq_zero_iff, filter_eq_nil_iff]
    exact fun hnone => hnone v (mem_sources.mpr hw) (by simpa using hnew)
  have hlate : ∀ w, (v, w) ∈ edges → w ∉ released ++ v :: ready := fun w hw hin =>
    htarget w hw ((h.free w (hends _ hw)).mpr hin)
  refine ⟨?_, ?_, fun w => ?_, fun w hw => ?_, ?_⟩
  · rw [← append_assoc, nodup_append]
    refine ⟨by simpa using h.nodup, (nodup_targets hedges v).filter _, fun a ha b hb hab => ?_⟩
    rw [mem_filter, mem_targets] at hb
    exact hlate b hb.1 ((hmem b).mp (hab ▸ ha))
  · intro w hw
    rw [← append_assoc, mem_append, hmem, mem_filter, mem_targets] at hw
    exact hw.elim (h.inside w) fun hw => hends _ hw.1
  · rw [length_filter_concat (nodup_sources hedges w) hnew, ← h.count]
    simp only [mem_targets, mem_sources]
  · rw [← append_assoc, mem_append, hmem, ← h.free w hw, mem_filter, mem_targets]
    by_cases hvw : (v, w) ∈ edges
    · simp [hvw, htarget w hvw]
    · simp [hvw]
  · rw [reverse_append, reverse_singleton, singleton_append]
    refine ⟨by simpa using hnew, fun w hw => ?_, h.settled⟩
    have hnone := h.count v
    rw [hfirst, eq_comm, length_eq_zero_iff, filter_eq_nil_iff] at hnone
    simpa using hnone w hw

/-- **With a step for each node the releases end**, and no node is ready then. -/
theorem release_spec {nodes : List ν} (hedges : edges.Nodup) (hends : ∀ e ∈ edges, e.2 ∈ nodes) :
    ∀ (fuel : ℕ) {incoming : ν → ℕ} {ready released : List ν}, Inv nodes edges incoming ready released →
      nodes.length ≤ fuel + released.length →
      ∃ incoming' released', release edges fuel incoming ready released = some released' ∧
        Inv nodes edges incoming' [] released'
  | fuel, incoming, [], released, h, _ => ⟨incoming, released, by unfold release; rfl, h⟩
  | 0, _, v :: ready, released, h, hfuel => by
    have hlength := (subperm_of_subset h.nodup fun w hw => h.inside w hw).length_le
    rw [length_append, length_cons] at hlength
    omega
  | fuel + 1, _, v :: ready, released, h, hfuel => by
    rw [release]
    refine release_spec hedges hends fuel (h.next hedges hends) ?_
    rw [length_append, length_singleton]
    omega

/-- **All nodes are released exactly if there is no cycle.** -/
theorem Inv.all_iff {nodes : List ν} {incoming : ν → ℕ} {released : List ν}
    (h : Inv nodes edges incoming [] released) (hnodes : nodes.Nodup)
    (hends : ∀ e ∈ edges, e.1 ∈ nodes ∧ e.2 ∈ nodes) :
    released.length = nodes.length ↔ ∀ v, ¬ TransGen (fun a b => (a, b) ∈ edges) v v := by
  have hnodup : released.Nodup := by simpa using h.nodup
  have hinside : released ⊆ nodes := fun v hv => h.inside v (by simpa using hv)
  have hswap : ∀ {v}, TransGen (fun a b => (a, b) ∈ edges) v v ↔ TransGen (Next (sources edges)) v v := fun {v} => by
    have hnext : Next (sources edges) = Function.swap (fun a b => (a, b) ∈ edges) := by
      funext a b
      exact propext mem_sources
    rw [hnext, transGen_swap]
  constructor
  · intro hlength v hcycle
    have hall : released.Perm nodes := (subperm_of_subset hnodup hinside).perm_of_length_le hlength.ge
    have hmem : v ∈ nodes := by
      obtain ⟨w, hstep, -⟩ := TransGen.head'_iff.mp hcycle
      exact (hends _ hstep).1
    exact h.settled.acyclic (mem_reverse.mpr (hall.mem_iff.mpr hmem)) (hswap.mp hcycle)
  · intro hacyclic
    have : IsStrictOrder ν (TransGen fun a b => (a, b) ∈ edges) := { irrefl := hacyclic }
    -- what is not released has a source that is not: there is no first such node
    have hall : ∀ v ∈ nodes, v ∈ released := by
      intro v hv
      by_contra hnot
      have hfinite : {w | w ∈ nodes ∧ w ∉ released}.Finite := nodes.finite_toSet.subset fun w hw => hw.1
      refine (hfinite.wellFoundedOn (r := TransGen fun a b => (a, b) ∈ edges)).induction (P := fun _ => False)
        ⟨hv, hnot⟩ fun w hw hbefore => ?_
      have hpos : incoming w ≠ 0 := fun hzero => hw.2 (by simpa using (h.free w hw.1).mp hzero)
      rw [h.count, ne_eq, length_eq_zero_iff] at hpos
      obtain ⟨a, ha⟩ := exists_mem_of_ne_nil _ hpos
      rw [mem_filter, mem_sources, decide_eq_true_eq] at ha
      exact hbefore a ⟨(hends _ ha.1).1, ha.2⟩ (.single ha.1)
    have hle := (subperm_of_subset hnodes hall).length_le
    have hge := (subperm_of_subset hnodup hinside).length_le
    omega

end Kahn
end Mega
