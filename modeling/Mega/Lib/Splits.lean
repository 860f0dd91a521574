/-
# Splitting at a separator

What `splitOn` does at the two ends of a list: an element that is no separator goes
to the first or to the last part. So trimming the front of the list trims the front
of the first part, if no separator is trimmed.

Key theorems: `not_mem_of_mem_splitOn`, `splitOn_cons_ne`, `splitOn_concat_ne`, `splitOn_dropWhile`.
-/
import Mathlib

namespace Splits

open List

variable {α : Type*} {sep : α}

theorem intercalate_concat (before : List (List α)) (last more : List α) :
    [sep].intercalate (before ++ [last ++ more]) = [sep].intercalate (before ++ [last]) ++ more := by
  induction before with
  | nil => simp [intercalate]
  | cons first before ih =>
    have hcons (tail : List (List α)) (h : tail ≠ []) :
        [sep].intercalate (first :: tail) = first ++ sep :: [sep].intercalate tail := by
      obtain ⟨next, tail, rfl⟩ := exists_cons_of_ne_nil h
      simp [intercalate]
    rw [cons_append, cons_append, hcons _ (by simp), hcons _ (by simp), ih, append_assoc, cons_append]

variable [BEq α] [LawfulBEq α]

theorem splitOn_cons_self (l : List α) : (sep :: l).splitOn sep = [] :: l.splitOn sep := by
  rw [splitOn_cons_eq_if_modifyHead, if_pos BEq.rfl]

theorem splitOn_cons_ne {ch : α} (h : ch ≠ sep) (l : List α) : ∃ first more, l.splitOn sep = first :: more ∧
    (ch :: l).splitOn sep = (ch :: first) :: more := by
  obtain ⟨first, more, hsplit⟩ := exists_cons_of_ne_nil (splitOn_ne_nil sep l)
  refine ⟨first, more, hsplit, ?_⟩
  rw [splitOn_cons_eq_if_modifyHead, if_neg (by simpa using h), hsplit, modifyHead_cons]

theorem splitOn_two {a b : List α} (ha : sep ∉ a) (hb : sep ∉ b) : (a ++ sep :: b).splitOn sep = [a, b] := by
  have hjoin : a ++ sep :: b = [sep].intercalate [a, b] := by simp [intercalate]
  rw [hjoin, splitOn_intercalate sep (by simp [ha, hb]) (by simp)]

theorem splitOn_three {a b c : List α} (ha : sep ∉ a) (hb : sep ∉ b) (hc : sep ∉ c) :
    (a ++ sep :: (b ++ sep :: c)).splitOn sep = [a, b, c] := by
  have hjoin : a ++ sep :: (b ++ sep :: c) = [sep].intercalate [a, b, c] := by simp [intercalate]
  rw [hjoin, splitOn_intercalate sep (by simp [ha, hb, hc]) (by simp)]

/-- The parts hold no separator. -/
theorem not_mem_of_mem_splitOn : ∀ {l part : List α}, part ∈ l.splitOn sep → sep ∉ part
  | [], part, h => by
    rw [splitOn_nil, mem_singleton] at h
    rw [h]
    exact not_mem_nil
  | ch :: l, part, h => by
    have ih : ∀ {part : List α}, part ∈ l.splitOn sep → sep ∉ part := not_mem_of_mem_splitOn
    by_cases hch : ch = sep
    · rw [hch, splitOn_cons_self] at h
      rcases mem_cons.mp h with rfl | h
      · exact not_mem_nil
      · exact ih h
    · obtain ⟨first, more, hsplit, hcons⟩ := splitOn_cons_ne hch l
      rw [hsplit] at ih
      rw [hcons] at h
      rcases mem_cons.mp h with rfl | h
      · rw [mem_cons, not_or]
        exact ⟨fun heq => hch heq.symm, ih mem_cons_self⟩
      · exact ih (mem_cons_of_mem _ h)

/-- The elements of a list are separators and the elements of its parts. -/
theorem mem_iff_mem_splitOn : ∀ {l : List α} {ch : α}, ch ≠ sep → (ch ∈ l ↔ ∃ part ∈ l.splitOn sep, ch ∈ part)
  | [], ch, _ => by simp
  | x :: l, ch, h => by
    have ih : ch ∈ l ↔ ∃ part ∈ l.splitOn sep, ch ∈ part := mem_iff_mem_splitOn h
    by_cases hx : x = sep
    · subst hx
      rw [mem_cons, or_iff_right h, ih, splitOn_cons_self]
      simp
    · obtain ⟨first, more, hsplit, hcons⟩ := splitOn_cons_ne hx l
      rw [hsplit] at ih
      rw [hcons, mem_cons, ih]
      simp [or_assoc]

theorem splitOn_concat_ne {ch : α} (h : ch ≠ sep) (l : List α) : ∃ before last, l.splitOn sep = before ++ [last] ∧
    (l ++ [ch]).splitOn sep = before ++ [last ++ [ch]] := by
  obtain ⟨before, last, hsplit⟩ : ∃ before last, l.splitOn sep = before ++ [last] :=
    ⟨_, _, (dropLast_append_getLast (splitOn_ne_nil sep l)).symm⟩
  have hparts : ∀ part ∈ before ++ [last], sep ∉ part := fun part hpart => not_mem_of_mem_splitOn (hsplit ▸ hpart)
  refine ⟨before, last, hsplit, ?_⟩
  have hjoin : l ++ [ch] = [sep].intercalate (before ++ [last ++ [ch]]) := by
    rw [intercalate_concat, ← hsplit, intercalate_splitOn]
  rw [hjoin, splitOn_intercalate sep ?_ (by simp)]
  rw [forall_mem_append, forall_mem_singleton] at hparts ⊢
  refine ⟨hparts.1, fun hmem => ?_⟩
  rcases mem_append.mp hmem with hmem | hmem
  · exact hparts.2 hmem
  · exact h (mem_singleton.mp hmem).symm

/-- **Trimming the front trims the first part.** -/
theorem splitOn_dropWhile {p : α → Bool} (hp : p sep = false) : ∀ l : List α,
    (l.dropWhile p).splitOn sep = (l.splitOn sep).modifyHead (dropWhile p)
  | [] => by simp
  | ch :: l => by
    by_cases hch : p ch = true
    · have hne : ch ≠ sep := by
        rintro rfl
        rw [hch] at hp
        cases hp
      obtain ⟨first, more, hsplit, hcons⟩ := splitOn_cons_ne hne l
      rw [dropWhile_cons_of_pos hch, splitOn_dropWhile hp l, hsplit, hcons, modifyHead_cons, modifyHead_cons,
        dropWhile_cons_of_pos hch]
    · rw [dropWhile_cons_of_neg hch]
      by_cases hne : ch = sep
      · rw [hne, splitOn_cons_self, modifyHead_cons, dropWhile_nil]
      · obtain ⟨first, more, hsplit, hcons⟩ := splitOn_cons_ne hne l
        rw [hcons, modifyHead_cons, dropWhile_cons_of_neg hch]

end Splits
