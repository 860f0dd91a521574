/-
# The first occurrences of a list

A loop that keeps a set of what it has seen and takes what is new gives each
element once, in the order of the first occurrences.

Key definition: `firsts`.
Key theorems: `mem_firsts`, `nodup_firsts`, `pairwise_firsts`.
-/
import Mathlib

namespace Firsts

open List

variable {α : Type} [BEq α]

/-- What is new in the list, given what was seen before. -/
def firsts : List α → List α → List α
  | _, [] => []
  | seen, a :: l => if seen.contains a then firsts seen l else a :: firsts (a :: seen) l

variable [LawfulBEq α]

theorem mem_firsts {b : α} : ∀ {seen l : List α}, b ∈ firsts seen l ↔ b ∈ l ∧ b ∉ seen
  | seen, [] => by simp [firsts]
  | seen, a :: l => by
    unfold firsts
    simp only [contains_iff_mem]
    by_cases ha : a ∈ seen
    · rw [if_pos ha, mem_firsts, mem_cons]
      constructor
      · exact fun h => ⟨Or.inr h.1, h.2⟩
      · intro h
        refine ⟨h.1.resolve_left fun heq => h.2 (heq ▸ ha), h.2⟩
    · rw [if_neg ha, mem_cons, mem_firsts, mem_cons, mem_cons]
      by_cases heq : b = a
      · subst heq
        simp [ha]
      · simp [heq]

theorem nodup_firsts : ∀ (seen l : List α), (firsts seen l).Nodup
  | _, [] => nodup_nil
  | seen, a :: l => by
    unfold firsts
    simp only [contains_iff_mem]
    by_cases ha : a ∈ seen
    · rw [if_pos ha]
      exact nodup_firsts seen l
    · rw [if_neg ha, nodup_cons]
      refine ⟨fun hmem => ?_, nodup_firsts (a :: seen) l⟩
      exact (mem_firsts.mp hmem).2 mem_cons_self

/-- The elements stand in the order in which they first occur. -/
theorem pairwise_firsts : ∀ (seen l : List α), (firsts seen l).Pairwise fun a b => l.idxOf a < l.idxOf b
  | _, [] => Pairwise.nil
  | seen, a :: l => by
    -- an element of the rest other than `a` stands one place further in the whole
    have hshift : ∀ b, b ≠ a → (a :: l).idxOf b = l.idxOf b + 1 := fun b hb => idxOf_cons_ne l hb.symm
    have hrest : ∀ seen', a ∈ seen' → (firsts seen' l).Pairwise fun b c => (a :: l).idxOf b < (a :: l).idxOf c := by
      intro seen' ha
      refine (pairwise_firsts seen' l).imp_of_mem fun {b c} hb hc hlt => ?_
      have hne : ∀ d ∈ firsts seen' l, d ≠ a := fun d hd heq => (mem_firsts.mp hd).2 (heq ▸ ha)
      rw [hshift b (hne b hb), hshift c (hne c hc)]
      omega
    unfold firsts
    simp only [contains_iff_mem]
    by_cases ha : a ∈ seen
    · rw [if_pos ha]
      exact hrest seen ha
    · rw [if_neg ha, pairwise_cons]
      refine ⟨fun b hb => ?_, hrest (a :: seen) mem_cons_self⟩
      have hne : b ≠ a := fun heq => (mem_firsts.mp hb).2 (heq ▸ mem_cons_self)
      rw [idxOf_cons_self, hshift b hne]
      omega

end Firsts
