/-
# Normal form and the inverse

What `canonicalize` returns is in normal form at every node (`NormalNode`), it is
read back from its text, and so canonical filters are told apart by their texts.
That is what makes `invert` an involution on them: inverting a compose sorts its
members by other texts than before, and inverting again has to bring back the
order.

Key definitions: `nodes`, `NormalNode`.
Key theorems: `normalNode_of_canonical`, `print_injective`,
`canonicalize_normal_form`, `invert_invert`.
-/
import Mega.View.Invert
import Mega.View.Reload

namespace Mega
namespace View

open KeySort

/-! ### Normal form -/

mutual

/-- The nodes of a filter, the filter itself first. -/
def nodes : Filter → List Filter
  | .compose members => .compose members :: nodesAll members
  | .chain ops => .chain ops :: nodesAll ops
  | other => [other]

def nodesAll : List Filter → List Filter
  | [] => []
  | f :: fs => nodes f ++ nodesAll fs

end

theorem mem_nodesAll {n : Filter} : ∀ {fs : List Filter}, n ∈ nodesAll fs ↔ ∃ f ∈ fs, n ∈ nodes f
  | [] => by simp [nodesAll]
  | f :: fs => by simp [nodesAll, mem_nodesAll]

/-- The normal form of one node. No two neighbours in a chain can be merged or cancelled. -/
def NormalNode : Filter → Prop
  | .chain ops => 2 ≤ ops.length ∧ (∀ op ∈ ops, (∀ nested, op ≠ .chain nested) ∧ op ≠ .nop ∧ op ≠ .empty) ∧
      ops.IsChain fun a b => fusable a b = false
  | .compose members => 2 ≤ members.length ∧ members.Pairwise (fun a b => print a ≤ print b) ∧
      ∀ m ∈ members, (∀ nested, m ≠ .compose nested) ∧ m ≠ .empty
  | .exclude selectors => selectors ≠ [] ∧ selectors.Pairwise fun a b => printSelector a < printSelector b
  | _ => True

theorem printSelector_injective : Function.Injective printSelector := by
  intro a b hab
  exact (printSelector_inj (r := []) (s := []) stops_nil stops_nil (by rw [hab])).1

theorem normalNode_of_canonical {f : Filter} (h : Canonical f) : ∀ n ∈ nodes f, NormalNode n := by
  induction h with
  | subdir | prefixed | nop | empty =>
    intro n hn
    rw [List.mem_singleton.mp hn]
    trivial
  | exclude sels hne hsort hch =>
    intro n hn
    rw [List.mem_singleton.mp hn]
    exact ⟨hne, pairwise_lt_of_isChain_ne printSelector_injective hsort hch⟩
  | compose ms hlen _ hmem hsort ih =>
    intro n hn
    rcases List.mem_cons.mp hn with rfl | hn
    · refine ⟨hlen, hsort, ?_⟩
      intro m hm
      have hkind := hmem m hm
      refine ⟨?_, ?_⟩
      · rintro nested rfl
        cases hkind
      · rintro rfl
        cases hkind
    · obtain ⟨m, hm, hn⟩ := mem_nodesAll.mp hn
      exact ih m hm n hn
  | chain ops hlen _ hop hch ih =>
    intro n hn
    rcases List.mem_cons.mp hn with rfl | hn
    · refine ⟨hlen, ?_, hch⟩
      intro op hmem
      have hkind := hop op hmem
      refine ⟨?_, ?_, ?_⟩
      · rintro nested rfl
        cases hkind
      · rintro rfl
        cases hkind
      · rintro rfl
        cases hkind
    · obtain ⟨op, hop, hn⟩ := mem_nodesAll.mp hn
      exact ih op hop n hn

/-- **Canonical filters with the same text are the same filter**: the parser, allowed to go deep enough, reads
one filter from it. -/
theorem print_injective {f g : Filter} (hf : Canonical f) (hg : Canonical g) (h : print f = print g) : f = g := by
  have hreadf := parse_print hf (le_max_left (depth f) (depth g))
  have hreadg := parse_print hg (le_max_right (depth f) (depth g))
  rw [h, hreadg] at hreadf
  exact (Except.ok.inj hreadf).symm

/-- **The canonical form is a normal form.** -/
theorem canonicalize_normal_form (f : Filter) :
    canonicalize (canonicalize f) = canonicalize f ∧
      (∀ n ∈ nodes (canonicalize f), NormalNode n) ∧
      (depth (canonicalize f) ≤ parseMaxNesting → parse (print (canonicalize f)) = .ok (canonicalize f)) ∧
      ∀ g, print (canonicalize f) = print (canonicalize g) → canonicalize f = canonicalize g := by
  have hf := canonical_canonicalize f
  refine ⟨canonicalize_of_canonical hf, normalNode_of_canonical hf, fun hdepth => parse_print hf hdepth, ?_⟩
  intro g hprint
  exact print_injective hf (canonical_canonicalize g) hprint

/-! ### The inverse -/

theorem map_invert_map_invert {fs : List Filter} (h : ∀ f ∈ fs, invert (invert f) = f) :
    (fs.map invert).map invert = fs := by
  rw [List.map_map]
  exact (List.map_congr_left h).trans (List.map_id fs)

/-- Inverting twice gives a canonical filter back. -/
theorem invert_invert_of_canonical {f : Filter} (h : Canonical f) : invert (invert f) = f := by
  induction h with
  | subdir | prefixed | nop | empty => rfl
  | exclude sels hne hsort hch =>
    have hself := invert_exclude_of_canonical (.exclude sels hne hsort hch)
    rw [hself, hself]
  | compose ms hlen hcan hmem hsort ih =>
    have hinv := invert_compose_of_canonical (.compose ms hlen hcan hmem hsort)
    have hinv' : Canonical (.compose (sortBy print (ms.map invert))) := hinv ▸ canonical_invert _
    rw [hinv, invert_compose_of_canonical hinv']
    -- the members of the inverse, inverted, are the members in some order
    have hperm : ((sortBy print (ms.map invert)).map invert).Perm ms := by
      have hsorted := (sortBy_perm print (ms.map invert)).map invert
      rwa [map_invert_map_invert ih] at hsorted
    have hinj : ∀ a ∈ ms, ∀ b ∈ ms, print a = print b → a = b := by
      intro a ha b hb
      exact print_injective (hcan a ha) (hcan b hb)
    rw [← sortBy_eq_of_perm hperm.symm hinj, sortBy_eq_self hsort]
  | chain ops hlen hcan hop hch ih =>
    have hinv := invert_chain_of_canonical (.chain ops hlen hcan hop hch)
    have hinv' : Canonical (.chain (ops.map invert).reverse) := hinv ▸ canonical_invert _
    rw [hinv, invert_chain_of_canonical hinv', List.map_reverse, List.reverse_reverse, map_invert_map_invert ih]

/-- **The inverse is an involution on canonical filters.** -/
theorem invert_invert (f : Filter) : invert (invert (canonicalize f)) = canonicalize f :=
  invert_invert_of_canonical (canonical_canonicalize f)

end View
end Mega
