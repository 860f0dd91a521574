/-
# Greedy splits have the fewest pages

A list is cut into consecutive pages, and `fits` says which lists may be a page.
A split is full when no page could take the first element of the page after it.
If a part of what fits fits, a full split has no more pages than any other: page
by page its cuts lie at least as far along the list.

Key definitions: `Legal`, `Full`, `Hereditary`.
Key theorems: `Full.length_le`.
-/
import Mathlib

namespace GreedySplit

open List

variable {α : Type} {fits : List α → Prop}

/-- Every page has an element, and fits. -/
def Legal (fits : List α → Prop) (pages : List (List α)) : Prop := ∀ page ∈ pages, page ≠ [] ∧ fits page

/-- No page could take the first element of the rest. -/
inductive Full (fits : List α → Prop) : List (List α) → Prop
  | nil : Full fits []
  | cons {page : List α} {pages : List (List α)} (hfull : ∀ a rest, pages.flatten = a :: rest → ¬ fits (page ++ [a]))
      (hrest : Full fits pages) : Full fits (page :: pages)

/-- A part of what fits, fits. -/
def Hereditary (fits : List α → Prop) : Prop := ∀ {page part : List α}, part <:+: page → part ≠ [] → fits page → fits part

/-- No page of a full split could take the element after it. -/
theorem Full.stops {pages before after : List (List α)} {page : List α} (h : Full fits pages)
    (hpages : pages = before ++ page :: after) {a : α} {rest : List α} (hafter : after.flatten = a :: rest) :
    ¬ fits (page ++ [a]) := by
  induction h generalizing before with
  | nil => simp at hpages
  | @cons first pages hfull _ ih =>
    rcases before with _ | ⟨first', before⟩
    · obtain ⟨rfl, rfl⟩ := cons.inj hpages
      exact hfull a rest hafter
    · exact ih (cons.inj hpages).2

/-- What the full split has left after a page is part of what any other split has left. -/
theorem suffix_of_full {page other left right : List α} (hered : Hereditary fits)
    (hsuffix : page ++ left <:+ other ++ right) (hfull : ∀ a rest, left = a :: rest → ¬ fits (page ++ [a]))
    (hother : fits other) : left <:+ right := by
  obtain ⟨skipped, hall⟩ := hsuffix
  rw [← append_assoc] at hall
  rcases append_eq_append_iff.mp hall with ⟨middle, hmiddle, hleft⟩ | ⟨middle, _, hright⟩
  · rcases middle with _ | ⟨a, rest⟩
    · exact ⟨[], by simpa using hleft⟩
    · -- the other page would hold this page and one element more
      have hinfix : page ++ [a] <:+: other := ⟨skipped, rest, by rw [hmiddle]; simp⟩
      exact absurd (hered hinfix (by simp) hother) (hfull a (rest ++ right) hleft)
  · exact ⟨middle, hright.symm⟩

/-- **A full split has the fewest pages.** -/
theorem Full.length_le (hered : Hereditary fits) {pages : List (List α)} (hfull : Full fits pages)
    (hlegal : Legal fits pages) : ∀ {others : List (List α)}, Legal fits others → pages.flatten <:+ others.flatten →
      pages.length ≤ others.length := by
  induction hfull with
  | nil => exact fun _ _ => Nat.zero_le _
  | @cons page pages hstop _ ih =>
    intro others hothers hsuffix
    rcases others with _ | ⟨other, others⟩
    · have hempty : page ++ pages.flatten = [] := by simpa using hsuffix
      exact absurd (append_eq_nil_iff.mp hempty).1 (hlegal page mem_cons_self).1
    · have hrest := suffix_of_full hered hsuffix hstop (hothers other mem_cons_self).2
      have hle := ih (fun p hp => hlegal p (mem_cons_of_mem _ hp)) (fun p hp => hothers p (mem_cons_of_mem _ hp)) hrest
      rw [length_cons, length_cons]
      omega

end GreedySplit
