/-
# The inverse of a canonical filter

`invert` canonicalizes at every level. On a canonical filter that
canonicalization only re-sorts composes: the inverse of each shape is the
mirrored shape. So the compose nodes of a canonical filter and of its inverse
correspond one to one, which is what makes a check of the inverse's compose
nodes a check of the filter's own.

Key definition: `Mirrors`.
Key theorems: `mirrors_invert`, `invert_compose_of_canonical`,
`invert_chain_of_canonical`.
-/
import Mega.View.Semantics

namespace Mega
namespace View

open KeySort

theorem canonical_invert (f : Filter) : Canonical (invert f) := by
  cases f <;> exact canonical_canonicalize _

@[simp] theorem canonicalize_invert (f : Filter) : canonicalize (invert f) = invert f :=
  canonicalize_of_canonical (canonical_invert f)

theorem map_canonicalize_map_invert (fs : List Filter) :
    (fs.map invert).map canonicalize = fs.map invert := by
  simp [Function.comp_def]

theorem invert_exclude_of_canonical {sels : List Selector} (h : Canonical (.exclude sels)) :
    invert (.exclude sels) = .exclude sels := by
  rw [invert, canonicalize_of_canonical h]

theorem invert_compose_of_isMember {ms : List Filter} (hlen : 2 ≤ ms.length)
    (hmem : ∀ m ∈ ms, isMember (invert m) = true) :
    invert (.compose ms) = .compose (sortBy print (ms.map invert)) := by
  have hself : composeMembers (ms.map invert) = ms.map invert := composeMembers_eq_self (by simpa using hmem)
  have hlen' : 2 ≤ (sortBy print (ms.map invert)).length := by simpa using hlen
  rw [invert_compose, canonicalize_compose, map_canonicalize_map_invert, canonicalizeCompose, hself]
  generalize sortBy print (ms.map invert) = ms' at hlen' ⊢
  obtain _ | ⟨a, _ | ⟨b, ms'⟩⟩ := ms'
  · simp at hlen'
  · simp at hlen'
  · rfl

theorem invert_chain_of_isOp {ops : List Filter} (hlen : 2 ≤ ops.length)
    (hop : ∀ op ∈ ops, isOp (invert op) = true)
    (hch : (ops.map invert).reverse.IsChain (fun a b => fusable a b = false)) :
    invert (.chain ops) = .chain (ops.map invert).reverse := by
  have hmap : (ops.map invert).reverse.map canonicalize = (ops.map invert).reverse := by
    rw [List.map_reverse, map_canonicalize_map_invert]
  have hloop := chainLoop_of_isChain (ops.map invert).reverse [] (by simpa using hop) (by simpa using hch)
  rw [invert_chain, canonicalize_chain, hmap, canonicalizeChain, hloop, List.append_nil,
    List.reverse_reverse]
  have hlen' : 2 ≤ (ops.map invert).length := by simpa using hlen
  generalize ops.map invert = ops' at hlen' ⊢
  obtain _ | ⟨a, _ | ⟨b, ops'⟩⟩ := ops'
  · simp at hlen'
  · simp at hlen'
  · simp

/-- Which path operator a filter is: `true` for `subdir`, `false` for `prefixed`. -/
def pathSide : Filter → Option Bool
  | .subdir _ => some true
  | .prefixed _ => some false
  | _ => none

theorem fusable_eq_pathSide (a b : Filter) :
    fusable a b = ((pathSide a).bind fun x => (pathSide b).map fun y => !(x && !y)).getD false := by
  cases a <;> cases b <;> rfl

/-- The shape of an inverse: path operators change sides, nothing else changes. -/
structure Mirrors (f g : Filter) : Prop where
  side : pathSide g = (pathSide f).map not
  op : isOp g = isOp f
  member : isMember g = isMember f

/-- Two neighbours fuse exactly when they do after mirroring and swapping. -/
theorem fusable_of_mirrors {a b a' b' : Filter} (ha : Mirrors a a') (hb : Mirrors b b') :
    fusable b' a' = fusable a b := by
  rw [fusable_eq_pathSide, fusable_eq_pathSide, ha.side, hb.side]
  rcases pathSide a with _ | _ | _ <;> rcases pathSide b with _ | _ | _ <;> rfl

theorem isChain_reverse_map_invert {ops : List Filter} (hm : ∀ op ∈ ops, Mirrors op (invert op))
    (hch : ops.IsChain (fun a b => fusable a b = false)) :
    (ops.map invert).reverse.IsChain (fun a b => fusable a b = false) := by
  rw [List.isChain_reverse, List.isChain_map]
  induction ops with
  | nil => exact List.isChain_nil
  | cons a ops ih =>
    cases ops with
    | nil => exact List.isChain_singleton _
    | cons b ops =>
      obtain ⟨hab, hch⟩ := List.isChain_cons_cons.mp hch
      refine List.isChain_cons_cons.mpr ⟨?_, ih (fun o ho => hm o (by simp [ho])) hch⟩
      rw [fusable_of_mirrors (hm a (by simp)) (hm b (by simp)), hab]

theorem mirrors_invert {f : Filter} (h : Canonical f) : Mirrors f (invert f) := by
  induction h with
  | subdir | prefixed | nop | empty => exact ⟨rfl, rfl, rfl⟩
  | exclude sels hne hsort hch =>
    rw [invert_exclude_of_canonical (.exclude sels hne hsort hch)]
    exact ⟨rfl, rfl, rfl⟩
  | compose ms hlen _ hmem _ ih =>
    rw [invert_compose_of_isMember hlen fun m hm => by rw [(ih m hm).member, hmem m hm]]
    exact ⟨rfl, rfl, rfl⟩
  | chain ops hlen _ hop hch ih =>
    rw [invert_chain_of_isOp hlen (fun o ho => by rw [(ih o ho).op, hop o ho])
      (isChain_reverse_map_invert ih hch)]
    exact ⟨rfl, rfl, rfl⟩

theorem invert_compose_of_canonical {ms : List Filter} (h : Canonical (.compose ms)) :
    invert (.compose ms) = .compose (sortBy print (ms.map invert)) := by
  cases h with
  | compose _ hlen hcan hmem _ =>
    exact invert_compose_of_isMember hlen fun m hm => by rw [(mirrors_invert (hcan m hm)).member, hmem m hm]

theorem invert_chain_of_canonical {ops : List Filter} (h : Canonical (.chain ops)) :
    invert (.chain ops) = .chain (ops.map invert).reverse := by
  cases h with
  | chain _ hlen hcan hop hch =>
    exact invert_chain_of_isOp hlen (fun o ho => by rw [(mirrors_invert (hcan o ho)).op, hop o ho])
      (isChain_reverse_map_invert (fun o ho => mirrors_invert (hcan o ho)) hch)

end View
end Mega
