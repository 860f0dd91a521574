/-
# Chunk map proofs

`ceres/snapshot/chunk_map_index.rs`: the hashes of the pages of a chunk map are
the leaves of a Merkle tree, which is stored as one row for each subtree, named
by the interval of pages it covers. To prove one page, the sibling intervals on
the way down to it are computed from the number of pages alone and their rows
are fetched.

The tree splits `n` pages at the largest power of two below `n`. `build` walks it
over the hashes and `proof_intervals` over the counts; both are the tree of
`Bisect` for one rule (`splitRule`).

The codec's verification of a proof is outside the repository; `foldProof` is
the fold it is: from the leaf up, with the hash that `build` uses.

Key definitions: `split`, `build`, `indexedNodes`, `proofIntervals`,
`selectedProof`, `foldProof`.
Key theorems: `build_eq`, `proofLoop_eq`, `selectedProof_eq`,
`chunk_map_proofs_verify`.
-/
import Mega.Lib.Bisect
import Mega.Lib.PrefixCode
import Mega.Lib.Table

namespace Mega
namespace Snapshot
namespace ChunkMap

open Bisect

/-- A SHA-256 digest. -/
abbrev Digest := Vector UInt8 32

variable {pages : ℕ} {hashes : List Digest}

structure ChunkMapNode where
  start : ℕ
  pages : ℕ
  digest : Digest
deriving DecidableEq

/-- A step of a proof; the side is that of the sibling. -/
structure ProofStep where
  side : Side
  siblingPages : ℕ
  digest : Digest
deriving DecidableEq

inductive ChunkMapError where
  /-- "chunk map is outside the indexed page profile" -/
  | outsideProfile
  /-- "chunk map page does not exist" -/
  | noSuchPage
  /-- "persisted chunk map proof coverage is incomplete" -/
  | incomplete
  /-- "persisted chunk map sibling is missing" -/
  | missingSibling
  /-- "persisted chunk map sibling is duplicated" -/
  | duplicatedSibling
deriving DecidableEq

def maxPages : ℕ := 32768

/-- `u64::leading_zeros`. -/
def leadingZeros (n : ℕ) : ℕ := if n = 0 then 64 else 63 - Nat.log 2 n

/-- `1 << (63 - (pages - 1).leading_zeros())`. -/
def split (pages : ℕ) : ℕ := 2 ^ (63 - leadingZeros (pages - 1))

theorem split_lt (h : 1 < pages) : split pages < pages := by
  have hne : pages - 1 ≠ 0 := by omega
  have hexp : 63 - leadingZeros (pages - 1) ≤ Nat.log 2 (pages - 1) := by
    rw [leadingZeros, if_neg hne]
    omega
  have hpow : 2 ^ (63 - leadingZeros (pages - 1)) ≤ pages - 1 :=
    (Nat.pow_le_pow_right (by norm_num) hexp).trans (Nat.pow_log_le_self 2 hne)
  unfold split
  omega

/-- The rule of the tree. -/
def splitRule : Rule := ⟨split, fun _ => Nat.two_pow_pos _, split_lt⟩

section Code

variable (sha256 : List UInt8 → Digest)

/-- The hash of a branch over so many pages on the left and so many on the right. -/
def branch (leftPages : ℕ) (left : Digest) (rightPages : ℕ) (right : Digest) : Digest :=
  sha256 ("mega.mst2.chunkbranch\x00".toList.map (fun ch => UInt8.ofNat ch.toNat) ++
    PrefixCode.leBytes 8 leftPages ++ left.toList ++ PrefixCode.leBytes 8 rightPages ++ right.toList)

/-- Adds the nodes over the hashes and answers their digest. It is called with one hash or more. -/
def build (hashes : List Digest) (start : ℕ) (nodes : List ChunkMapNode) : Digest × List ChunkMapNode :=
  let pages := hashes.length
  if 1 < pages then
    let (left, nodes) := build (hashes.take (split pages)) start nodes
    let (right, nodes) := build (hashes.drop (split pages)) (start + split pages) nodes
    let digest := branch sha256 (split pages) left (pages - split pages) right
    (digest, nodes ++ [⟨start, pages, digest⟩])
  else
    let digest := hashes.headD (Vector.replicate 32 0)
    (digest, nodes ++ [⟨start, pages, digest⟩])
termination_by hashes.length
decreasing_by
  · have hlt := split_lt ‹1 < hashes.length›
    rw [List.length_take]
    omega
  · have hpos := splitRule.pos ‹1 < hashes.length›
    have hpos : 0 < split hashes.length := hpos
    rw [List.length_drop]
    omega

def indexedNodes (hashes : List Digest) : Except ChunkMapError (List ChunkMapNode) :=
  if hashes = [] ∨ hashes.length > maxPages then .error .outsideProfile
  else .ok (build sha256 hashes 0 []).2

/-- The loop of `proof_intervals`. -/
def proofLoop (index start count : ℕ) (intervals : List (Side × ℕ × ℕ)) : List (Side × ℕ × ℕ) :=
  if 1 < count then
    let left := split count
    if index < start + left then
      proofLoop index start left (intervals ++ [(.right, start + left, count - left)])
    else proofLoop index (start + left) (count - left) (intervals ++ [(.left, start, left)])
  else intervals
termination_by count
decreasing_by
  · exact split_lt ‹1 < count›
  · have hpos : 0 < split count := splitRule.pos ‹1 < count›
    omega

def proofIntervals (pages index : ℕ) : Except ChunkMapError (List (Side × ℕ × ℕ)) :=
  if pages = 0 ∨ pages > maxPages ∨ index ≥ pages then .error .noSuchPage
  else .ok (proofLoop index 0 pages []).reverse

/-- The step for one interval. -/
def selectedStep (nodes : List ChunkMapNode) (interval : Side × ℕ × ℕ) : Except ChunkMapError ProofStep :=
  match nodes.filter fun n => n.start = interval.2.1 ∧ n.pages = interval.2.2 with
  | [] => .error .missingSibling
  | [node] => .ok ⟨interval.1, interval.2.2, node.digest⟩
  | _ => .error .duplicatedSibling

def selectedProof (intervals : List (Side × ℕ × ℕ)) (nodes : List ChunkMapNode) :
    Except ChunkMapError (List ProofStep) :=
  if nodes.length ≠ intervals.length then .error .incomplete else intervals.mapM (selectedStep nodes)

/-- Folds a leaf through a proof, from the leaf up. -/
def foldProof (leaf : Digest) (proof : List ProofStep) : Digest :=
  climb (branch sha256) leaf (proof.map fun step => (step.side, step.siblingPages, step.digest))

end Code

/-! ### Both walks are the tree of the rule -/

section Build

variable {sha256 : List UInt8 → Digest}

variable (sha256) in
/-- The digest of the tree over the hashes. -/
def rootDigest (hashes : List Digest) : Digest :=
  if 1 < hashes.length then
    branch sha256 (split hashes.length) (rootDigest (hashes.take (split hashes.length)))
      (hashes.length - split hashes.length) (rootDigest (hashes.drop (split hashes.length)))
  else hashes.headD (Vector.replicate 32 0)
termination_by hashes.length
decreasing_by
  · have hlt := split_lt ‹1 < hashes.length›
    rw [List.length_take]
    omega
  · have hpos : 0 < split hashes.length := splitRule.pos ‹1 < hashes.length›
    rw [List.length_drop]
    omega

/-- The hashes of an interval of pages. -/
def slice (hashes : List Digest) (start pages : ℕ) : List Digest := (hashes.drop start).take pages

theorem slice_take {k start : ℕ} (h : start + pages ≤ k) :
    slice (hashes.take k) start pages = slice hashes start pages := by
  unfold slice
  rw [List.drop_take, List.take_take, Nat.min_eq_left (by omega)]

theorem slice_drop (k start pages : ℕ) : slice (hashes.drop k) start pages = slice hashes (k + start) pages := by
  unfold slice
  rw [List.drop_drop]

variable (sha256) in
/-- The node of an interval, for hashes whose first page is `offset`. -/
def nodeOf (hashes : List Digest) (offset : ℕ) (part : ℕ × ℕ) : ChunkMapNode :=
  ⟨part.1, part.2, rootDigest sha256 (slice hashes (part.1 - offset) part.2)⟩

/-- **`build` adds the nodes of the tree**, children before their parent. -/
theorem build_eq (hashes : List Digest) (start : ℕ) (nodes : List ChunkMapNode) (hpos : 0 < hashes.length) :
    build sha256 hashes start nodes =
      (rootDigest sha256 hashes,
        nodes ++ (parts splitRule start hashes.length).map (nodeOf sha256 hashes start)) := by
  induction hn : hashes.length using Nat.strong_induction_on generalizing hashes start nodes with
  | _ n ih =>
    have hself : nodeOf sha256 hashes start (start, n) = ⟨start, n, rootDigest sha256 hashes⟩ := by
      simp [nodeOf, slice, ← hn]
    by_cases h : 1 < n
    · have hlt := split_lt h
      have hsplit : 0 < split n := splitRule.pos h
      have hleft := ih (split n) hlt (hashes.take (split n)) start nodes
        (by rw [List.length_take]; omega) (by rw [List.length_take]; omega)
      have hright := ih (n - split n) (by omega) (hashes.drop (split n)) (start + split n)
        (nodes ++ (parts splitRule start (split n)).map (nodeOf sha256 (hashes.take (split n)) start))
        (by rw [List.length_drop]; omega) (by rw [List.length_drop]; omega)
      have hmapl : (parts splitRule start (split n)).map (nodeOf sha256 (hashes.take (split n)) start) =
          (parts splitRule start (split n)).map (nodeOf sha256 hashes start) := by
        refine List.map_congr_left ?_
        intro part hpart
        have hin := inside_of_mem_parts start (split n) hsplit part hpart
        have hstart := hin.start_le
        have hstop := hin.stop_le
        rw [nodeOf, nodeOf, slice_take (by omega)]
      have hmapr : (parts splitRule (start + split n) (n - split n)).map
            (nodeOf sha256 (hashes.drop (split n)) (start + split n)) =
          (parts splitRule (start + split n) (n - split n)).map (nodeOf sha256 hashes start) := by
        refine List.map_congr_left ?_
        intro part hpart
        have hin := inside_of_mem_parts (start + split n) (n - split n) (by omega) part hpart
        have hstart := hin.start_le
        have hoffset : split n + (part.1 - (start + split n)) = part.1 - start := by omega
        rw [nodeOf, nodeOf, slice_drop, hoffset]
      have hroot : rootDigest sha256 hashes = branch sha256 (split n) (rootDigest sha256 (hashes.take (split n)))
          (n - split n) (rootDigest sha256 (hashes.drop (split n))) := by
        rw [rootDigest, hn, if_pos h]
      have hparts : parts splitRule start n = parts splitRule start (split n) ++
          parts splitRule (start + split n) (n - split n) ++ [(start, n)] := parts_node h
      rw [build]
      simp only [hn, if_pos h, hleft, hright]
      rw [hparts, List.map_append, List.map_append, hmapl, hmapr, ← hroot, List.map_singleton, hself]
      simp only [List.append_assoc]
    · have hroot : rootDigest sha256 hashes = hashes.headD (Vector.replicate 32 0) := by
        rw [rootDigest, hn, if_neg h]
      rw [build]
      simp only [hn, if_neg h]
      rw [parts_leaf h, List.map_singleton, hself, hroot]

/-- **`proof_intervals` walks down the tree.** -/
theorem proofLoop_eq (index start count : ℕ) (intervals : List (Side × ℕ × ℕ)) :
    proofLoop index start count intervals = intervals ++ siblings splitRule index start count := by
  induction start, count using splitRule.induction generalizing intervals with
  | leaf start count h => rw [proofLoop, if_neg h, siblings_leaf h, List.append_nil]
  | node start count h ihl ihr =>
    rw [proofLoop, if_pos h]
    dsimp only
    by_cases hindex : index < start + split count
    · rw [if_pos hindex, siblings_left h hindex]
      exact (ihl _).trans (List.append_assoc _ _ _)
    · rw [if_neg hindex, siblings_right h hindex]
      exact (ihr _).trans (List.append_assoc _ _ _)

end Build

/-! ### Proofs -/

section Proofs

variable {sha256 : List UInt8 → Digest}

/-- The interval of pages a node covers, as start and count. -/
def ChunkMapNode.interval (node : ChunkMapNode) : ℕ × ℕ := (node.start, node.pages)

/-- A node is named by an interval of a proof. -/
def named (interval : Side × ℕ × ℕ) (node : ChunkMapNode) : Bool :=
  node.start = interval.2.1 ∧ node.pages = interval.2.2

theorem named_iff {interval : Side × ℕ × ℕ} {node : ChunkMapNode} :
    named interval node = true ↔ node.interval = interval.2 := by
  simp [named, ChunkMapNode.interval, Prod.ext_iff]

theorem filter_named {nodes : List ChunkMapNode} (hnodup : (nodes.map ChunkMapNode.interval).Nodup)
    {node : ChunkMapNode} (hnode : node ∈ nodes) {interval : Side × ℕ × ℕ} (hnamed : node.interval = interval.2) :
    nodes.filter (named interval) = [node] := by
  rw [← Table.filter_key_of_nodup hnodup hnode]
  refine List.filter_congr ?_
  intro other _
  rw [Bool.eq_iff_iff, named_iff, decide_eq_true_iff, hnamed]

theorem selectedStep_eq {nodes : List ChunkMapNode} {interval : Side × ℕ × ℕ} {node : ChunkMapNode}
    (h : nodes.filter (named interval) = [node]) :
    selectedStep nodes interval = .ok ⟨interval.1, interval.2.2, node.digest⟩ := by
  have hfilter : (nodes.filter fun n => n.start = interval.2.1 ∧ n.pages = interval.2.2) = [node] := h
  rw [selectedStep, hfilter]

theorem mapM_eq_ok {α β ε : Type} {f : α → Except ε β} {g : α → β} : ∀ {l : List α}, (∀ a ∈ l, f a = .ok (g a)) →
    l.mapM f = .ok (l.map g)
  | [], _ => rfl
  | a :: l, h => by
    rw [List.mapM_cons, h a List.mem_cons_self, mapM_eq_ok fun b hb => h b (List.mem_cons_of_mem a hb)]
    rfl

variable (sha256) in
/-- The digest of an interval of pages. -/
def intervalDigest (hashes : List Digest) (part : ℕ × ℕ) : Digest := rootDigest sha256 (slice hashes part.1 part.2)

theorem intervalDigest_leaf {i : ℕ} (hi : i < hashes.length) : intervalDigest sha256 hashes (i, 1) = hashes[i] := by
  have hslice : slice hashes i 1 = [hashes[i]] := by
    rw [slice, List.drop_eq_getElem_cons hi]
    rfl
  rw [intervalDigest, hslice, rootDigest, if_neg (by simp)]
  rfl

theorem intervalDigest_node {start : ℕ} (h : 1 < pages) (hstop : start + pages ≤ hashes.length) :
    intervalDigest sha256 hashes (start, pages) =
      branch sha256 (split pages) (intervalDigest sha256 hashes (start, split pages)) (pages - split pages)
        (intervalDigest sha256 hashes (start + split pages, pages - split pages)) := by
  have hlt := split_lt h
  have hlength : (slice hashes start pages).length = pages := by
    rw [slice, List.length_take, List.length_drop]
    omega
  have hleft : (slice hashes start pages).take (split pages) = slice hashes start (split pages) := by
    rw [slice, slice, List.take_take, Nat.min_eq_left (by omega)]
  have hright : (slice hashes start pages).drop (split pages) =
      slice hashes (start + split pages) (pages - split pages) := by
    rw [slice, slice, List.drop_take, List.drop_drop]
  rw [intervalDigest, rootDigest, hlength, if_pos h, hleft, hright]
  rfl

/-- The nodes that the intervals name, in some order. -/
def Fetched (intervals : List (Side × ℕ × ℕ)) (nodes fetched : List ChunkMapNode) : Prop :=
  fetched.Perm (nodes.filter fun node => intervals.any fun interval => named interval node)

/-- What `indexed_nodes` answers. -/
theorem indexedNodes_eq (hne : hashes ≠ []) (hmax : hashes.length ≤ maxPages) :
    indexedNodes sha256 hashes = .ok ((parts splitRule 0 hashes.length).map (nodeOf sha256 hashes 0)) := by
  have hpos : 0 < hashes.length := List.length_pos_iff.mpr hne
  rw [indexedNodes, if_neg (by simpa [hne] using hmax), build_eq hashes 0 [] hpos]
  rfl

theorem proofIntervals_eq {index : ℕ} (hmax : pages ≤ maxPages) (hindex : index < pages) :
    proofIntervals pages index = .ok (siblings splitRule index 0 pages).reverse := by
  rw [proofIntervals, if_neg (by omega), proofLoop_eq, List.nil_append]

theorem map_interval_nodes (hashes : List Digest) (intervals : List (ℕ × ℕ)) :
    (intervals.map (nodeOf sha256 hashes 0)).map ChunkMapNode.interval = intervals := by
  rw [List.map_map]
  exact List.map_id intervals

/-- The fetched nodes are those of the intervals, once each. -/
theorem Fetched.perm {parts : List (ℕ × ℕ)} (hparts : parts.Nodup) {intervals : List (Side × ℕ × ℕ)}
    (hintervals : (intervals.map Prod.snd).Nodup) (hmem : ∀ interval ∈ intervals, interval.2 ∈ parts)
    {fetched : List ChunkMapNode} (h : Fetched intervals (parts.map (nodeOf sha256 hashes 0)) fetched) :
    (fetched.map ChunkMapNode.interval).Perm (intervals.map Prod.snd) := by
  have hnodup : ((parts.map (nodeOf sha256 hashes 0)).map ChunkMapNode.interval).Nodup := by
    rwa [map_interval_nodes]
  have hfetched : (fetched.map ChunkMapNode.interval).Nodup :=
    (h.map ChunkMapNode.interval).nodup_iff.mpr (hnodup.sublist (List.filter_sublist.map _))
  refine (List.perm_ext_iff_of_nodup hfetched hintervals).mpr ?_
  intro part
  constructor
  · intro hpart
    obtain ⟨node, hnode, rfl⟩ := List.mem_map.mp hpart
    obtain ⟨-, hany⟩ := List.mem_filter.mp (h.mem_iff.mp hnode)
    obtain ⟨interval, hinterval, hnamed⟩ := List.any_eq_true.mp hany
    rw [named_iff.mp hnamed]
    exact List.mem_map_of_mem hinterval
  · intro hpart
    obtain ⟨interval, hinterval, rfl⟩ := List.mem_map.mp hpart
    refine List.mem_map.mpr ⟨nodeOf sha256 hashes 0 interval.2, h.mem_iff.mpr (List.mem_filter.mpr ⟨?_, ?_⟩), rfl⟩
    · exact List.mem_map_of_mem (hmem interval hinterval)
    · exact List.any_eq_true.mpr ⟨interval, hinterval, named_iff.mpr rfl⟩

/-- The proof made of the fetched nodes. -/
theorem selectedProof_eq {parts : List (ℕ × ℕ)} (hparts : parts.Nodup) {intervals : List (Side × ℕ × ℕ)}
    (hintervals : (intervals.map Prod.snd).Nodup) (hmem : ∀ interval ∈ intervals, interval.2 ∈ parts)
    {fetched : List ChunkMapNode} (h : Fetched intervals (parts.map (nodeOf sha256 hashes 0)) fetched) :
    selectedProof intervals fetched =
      .ok (intervals.map fun interval => ⟨interval.1, interval.2.2, intervalDigest sha256 hashes interval.2⟩) := by
  have hperm := h.perm hparts hintervals hmem
  have hlength : fetched.length = intervals.length := by simpa using hperm.length_eq
  rw [selectedProof, if_neg (not_not.mpr hlength)]
  refine mapM_eq_ok ?_
  intro interval hinterval
  have hnode : nodeOf sha256 hashes 0 interval.2 ∈ fetched := by
    refine h.mem_iff.mpr (List.mem_filter.mpr ⟨List.mem_map_of_mem (hmem interval hinterval), ?_⟩)
    exact List.any_eq_true.mpr ⟨interval, hinterval, named_iff.mpr rfl⟩
  exact selectedStep_eq (filter_named (hperm.nodup_iff.mpr hintervals) hnode rfl)

/-- **Chunk map proofs verify.** The nodes over `n` hashes are `2 n - 1` with distinct intervals; each interval
of the proof of a page names one of them; the intervals and the page make up all pages; and the page's hash
folded through the proof is the digest of the root. -/
theorem chunk_map_proofs_verify (sha256 : List UInt8 → Digest) (hashes : List Digest) (hne : hashes ≠ [])
    (hmax : hashes.length ≤ 32768) (i : ℕ) (hi : i < hashes.length) :
    ∃ nodes intervals root, indexedNodes sha256 hashes = .ok nodes ∧
      nodes.length = 2 * hashes.length - 1 ∧ (nodes.map ChunkMapNode.interval).Nodup ∧
      nodes.getLast? = some root ∧ root.interval = (0, hashes.length) ∧
      proofIntervals hashes.length i = .ok intervals ∧
      (∀ interval ∈ intervals, (nodes.filter (named interval)).length = 1) ∧
      (i :: intervals.flatMap fun interval => positions interval.2).Perm (List.range hashes.length) ∧
      ∀ fetched, Fetched intervals nodes fetched →
        ∃ proof, selectedProof intervals fetched = .ok proof ∧ foldProof sha256 hashes[i] proof = root.digest := by
  have hpos : 0 < hashes.length := List.length_pos_iff.mpr hne
  have hparts : (parts splitRule 0 hashes.length).Nodup := nodup_parts 0 hashes.length hpos
  have hmem : ∀ interval ∈ (siblings splitRule i 0 hashes.length).reverse,
      interval.2 ∈ parts splitRule 0 hashes.length := by
    intro interval hinterval
    exact siblings_mem_parts 0 hashes.length hpos interval (List.mem_reverse.mp hinterval)
  have hintervals : ((siblings splitRule i 0 hashes.length).reverse.map Prod.snd).Nodup := by
    rw [List.map_reverse]
    exact List.nodup_reverse.mpr (nodup_siblings 0 hashes.length hpos)
  refine ⟨_, _, nodeOf sha256 hashes 0 (0, hashes.length), indexedNodes_eq hne hmax, ?_, ?_, ?_, rfl,
    proofIntervals_eq hmax hi, ?_, ?_, ?_⟩
  · rw [List.length_map, length_parts 0 hashes.length hpos]
  · rwa [map_interval_nodes]
  · rw [List.getLast?_map, getLast?_parts]
    rfl
  · intro interval hinterval
    have hnode : nodeOf sha256 hashes 0 interval.2 ∈
        (parts splitRule 0 hashes.length).map (nodeOf sha256 hashes 0) :=
      List.mem_map_of_mem (hmem interval hinterval)
    have hkeys : (((parts splitRule 0 hashes.length).map (nodeOf sha256 hashes 0)).map
        ChunkMapNode.interval).Nodup := by
      rwa [map_interval_nodes]
    have hnamed : (nodeOf sha256 hashes 0 interval.2).interval = interval.2 := rfl
    rw [filter_named hkeys hnode hnamed, List.length_singleton]
  · have hperm := @perm_siblings i splitRule 0 hashes.length hpos (Nat.zero_le i) (by omega)
    have hreverse := (List.reverse_perm (siblings splitRule i 0 hashes.length)).flatMap_right
      (fun interval => positions interval.2)
    rw [List.range_eq_range']
    exact (hreverse.cons i).trans hperm
  · intro fetched hfetched
    refine ⟨_, selectedProof_eq hparts hintervals hmem hfetched, ?_⟩
    have hclimb := @climb_siblings i splitRule Digest (branch sha256) (intervalDigest sha256 hashes) 0 hashes.length
      hpos (Nat.zero_le i) (by omega) fun s c hc _ hstop => intervalDigest_node hc (by omega)
    rw [intervalDigest_leaf hi] at hclimb
    rw [foldProof, climb, List.map_map]
    exact congrArg Prod.fst hclimb

/-- Three pages, with the length of what is hashed as a digest. -/
theorem chunk_map_proofs_verify_three :
    ∃ nodes root proof,
      indexedNodes (fun bytes => Vector.replicate 32 (UInt8.ofNat bytes.length))
        [Vector.replicate 32 1, Vector.replicate 32 2, Vector.replicate 32 3] = .ok nodes ∧
      nodes.length = 5 ∧ nodes.getLast? = some root ∧
      foldProof (fun bytes => Vector.replicate 32 (UInt8.ofNat bytes.length)) (Vector.replicate 32 2) proof =
        root.digest := by
  obtain ⟨nodes, intervals, root, hnodes, hlength, -, hlast, -, -, -, -, hproof⟩ :=
    chunk_map_proofs_verify (fun bytes => Vector.replicate 32 (UInt8.ofNat bytes.length))
      [Vector.replicate 32 1, Vector.replicate 32 2, Vector.replicate 32 3] (by simp) (by simp) 1 (by simp)
  obtain ⟨proof, -, hfold⟩ := hproof _ (List.Perm.refl _)
  exact ⟨nodes, root, proof, hnodes, hlength, hlast, hfold⟩

end Proofs

end ChunkMap
end Snapshot
end Mega
