/-
# Texts as lines

Cutting a text at the first occurrence of a separator, and the block of lines
that a text starts with: the lines up to the first empty one, and what follows
it. A text has such a block if and only if it has an empty line that is ended by
a newline. An encoding that spells out each letter, and uses the code of the
newline for nothing else, does not change where the lines are.

Key definitions: `cut`, `block`, `blockText`.
Key theorems: `cut_eq_some`, `block_blockText`, `block_eq_some`, `block_eq_none`,
`cut_flatMap`, `block_flatMap`.
-/
import Mathlib

namespace Lines

open List

variable {α β : Type*} [DecidableEq α] [DecidableEq β]
variable {before text : List α}

/-- The text before and after the first separator. -/
def cut (sep : α) : List α → Option (List α × List α)
  | [] => none
  | c :: rest => if c = sep then some ([], rest) else (cut sep rest).map fun parts => (c :: parts.1, parts.2)

variable {sep : α}

theorem cut_append (h : sep ∉ before) (after : List α) : cut sep (before ++ sep :: after) = some (before, after) := by
  induction before with
  | nil => simp [cut]
  | cons c before ih =>
    have hc : c ≠ sep := fun hsame => h (hsame ▸ mem_cons_self)
    rw [cons_append, cut, if_neg hc, ih fun hmem => h (mem_cons_of_mem c hmem)]
    rfl

theorem cut_eq_some {after : List α} (h : cut sep text = some (before, after)) :
    text = before ++ sep :: after ∧ sep ∉ before := by
  induction text generalizing before with
  | nil => cases h
  | cons c text ih =>
    rw [cut] at h
    split at h
    · rename_i hc
      obtain ⟨rfl, rfl⟩ := Prod.mk.inj (Option.some.inj h)
      exact ⟨by rw [hc, nil_append], not_mem_nil⟩
    · rename_i hc
      obtain ⟨⟨first, rest⟩, hparts, heq⟩ := Option.map_eq_some_iff.mp h
      obtain ⟨rfl, rfl⟩ := Prod.mk.inj heq
      obtain ⟨htext, hfirst⟩ := ih hparts
      refine ⟨by rw [htext, cons_append], ?_⟩
      intro hmem
      rcases mem_cons.mp hmem with hsame | hmem
      · exact hc hsame.symm
      · exact hfirst hmem

theorem cut_eq_none : cut sep text = none ↔ sep ∉ text := by
  constructor
  · intro hnone hmem
    obtain ⟨before, after, htext, hbefore⟩ := eq_append_cons_of_mem hmem
    rw [htext, cut_append hbefore] at hnone
    cases hnone
  · intro hnot
    cases hcut : cut sep text with
    | none => rfl
    | some parts =>
      obtain ⟨htext, -⟩ := cut_eq_some hcut
      rw [htext] at hnot
      exact absurd (mem_append_right _ mem_cons_self) hnot

theorem length_of_cut {after : List α} (h : cut sep text = some (before, after)) : after.length < text.length := by
  rw [(cut_eq_some h).1, length_append, length_cons]
  omega

/-! ### Blocks -/

/-- The lines up to the first empty line, and what follows it. -/
def block (sep : α) (text : List α) : Option (List (List α) × List α) :=
  match _h : cut sep text with
  | none => none
  | some (line, after) =>
    if line = [] then some ([], after) else (block sep after).map fun parts => (line :: parts.1, parts.2)
termination_by text.length
decreasing_by exact length_of_cut _h

/-- The text of lines, an empty line, and what follows it. -/
def blockText (sep : α) (lines : List (List α)) (body : List α) : List α :=
  lines.flatMap (· ++ [sep]) ++ sep :: body

omit [DecidableEq α] in
theorem blockText_cons (line : List α) (lines : List (List α)) (body : List α) :
    blockText sep (line :: lines) body = line ++ sep :: blockText sep lines body := by
  simp [blockText]

omit [DecidableEq α] in
theorem blockText_eq {lines : List (List α)} (h : lines ≠ []) (body : List α) :
    blockText sep lines body = [sep].intercalate lines ++ sep :: sep :: body := by
  induction lines with
  | nil => exact absurd rfl h
  | cons line lines ih =>
    cases lines with
    | nil => simp [blockText, List.intercalate]
    | cons next lines =>
      rw [blockText_cons, ih (cons_ne_nil _ _)]
      simp [List.intercalate]

theorem block_of_cut {line after : List α} (h : cut sep text = some (line, after)) :
    block sep text =
      if line = [] then some ([], after) else (block sep after).map fun parts => (line :: parts.1, parts.2) := by
  rw [block]
  split
  · rename_i hnone
    rw [h] at hnone
    cases hnone
  · rename_i line' after' hsome
    rw [h] at hsome
    obtain ⟨rfl, rfl⟩ := Prod.mk.inj (Option.some.inj hsome)
    rfl

theorem block_of_cut_none (h : cut sep text = none) : block sep text = none := by
  rw [block]
  split
  · rfl
  · rename_i hsome
    rw [h] at hsome
    cases hsome

/-- A line that a block may hold. -/
def IsLine (sep : α) (line : List α) : Prop := line ≠ [] ∧ sep ∉ line

theorem block_blockText {lines : List (List α)} (h : ∀ line ∈ lines, IsLine sep line) (body : List α) :
    block sep (blockText sep lines body) = some (lines, body) := by
  induction lines with
  | nil =>
    have hcut : cut sep (blockText sep [] body) = some ([], body) := cut_append not_mem_nil body
    rw [block_of_cut hcut, if_pos rfl]
  | cons line lines ih =>
    obtain ⟨hne, hsep⟩ := h line mem_cons_self
    rw [blockText_cons, block_of_cut (cut_append hsep _), if_neg hne,
      ih fun other hother => h other (mem_cons_of_mem line hother)]
    rfl

theorem block_eq_some : ∀ {lines : List (List α)} {body : List α},
    block sep text = some (lines, body) → text = blockText sep lines body ∧ ∀ line ∈ lines, IsLine sep line := by
  induction hlen : text.length using Nat.strong_induction_on generalizing text with
  | _ n ih =>
    intro lines body h
    cases hcut : cut sep text with
    | none =>
      rw [block_of_cut_none hcut] at h
      cases h
    | some parts =>
      obtain ⟨line, after⟩ := parts
      obtain ⟨htext, hsep⟩ := cut_eq_some hcut
      rw [block_of_cut hcut] at h
      split at h
      · rename_i hline
        obtain ⟨rfl, rfl⟩ := Prod.mk.inj (Option.some.inj h)
        refine ⟨by rw [htext, hline]; rfl, ?_⟩
        intro line hmem
        cases hmem
      · rename_i hline
        obtain ⟨⟨rest, body'⟩, hrest, heq⟩ := Option.map_eq_some_iff.mp h
        obtain ⟨rfl, rfl⟩ := Prod.mk.inj heq
        obtain ⟨hafter, hlines⟩ := ih after.length (hlen ▸ length_of_cut hcut) rfl hrest
        refine ⟨by rw [htext, blockText_cons, ← hafter], ?_⟩
        exact forall_mem_cons.mpr ⟨⟨hline, hsep⟩, hlines⟩

/-- The text starts with an empty line, or has one further on. -/
def HasEmptyLine (sep : α) (text : List α) : Prop :=
  (∃ body, text = sep :: body) ∨ ∃ before body, text = before ++ sep :: sep :: body

omit [DecidableEq α] in
/-- A first line that is not empty makes no difference. -/
theorem hasEmptyLine_append {line : List α} (h : IsLine sep line) (after : List α) :
    HasEmptyLine sep (line ++ sep :: after) ↔ HasEmptyLine sep after := by
  obtain ⟨hne, hsep⟩ := h
  constructor
  · rintro (⟨body, hbody⟩ | ⟨before, body, hbody⟩)
    · obtain ⟨c, rest, rfl⟩ := exists_cons_of_ne_nil hne
      obtain ⟨rfl, -⟩ := List.cons.inj hbody
      exact absurd mem_cons_self hsep
    · rcases append_eq_append_iff.mp hbody with ⟨more, rfl, hafter⟩ | ⟨more, rfl, hafter⟩
      · cases more with
        | nil => exact .inl ⟨body, (List.cons.inj hafter).2⟩
        | cons c more => exact .inr ⟨more, body, (List.cons.inj hafter).2⟩
      · cases more with
        | nil => exact .inl ⟨body, (List.cons.inj hafter).2.symm⟩
        | cons c more =>
          obtain ⟨rfl, -⟩ := List.cons.inj hafter
          exact absurd (mem_append_right _ mem_cons_self) hsep
  · rintro (⟨body, rfl⟩ | ⟨before, body, rfl⟩)
    · exact .inr ⟨line, body, rfl⟩
    · exact .inr ⟨line ++ sep :: before, body, by simp⟩

/-- **A text has a block if and only if it has an empty line.** -/
theorem block_eq_none : block sep text = none ↔ ¬ HasEmptyLine sep text := by
  induction hlen : text.length using Nat.strong_induction_on generalizing text with
  | _ n ih =>
    cases hcut : cut sep text with
    | none =>
      have hsep := cut_eq_none.mp hcut
      refine iff_of_true (block_of_cut_none hcut) ?_
      rintro (⟨body, rfl⟩ | ⟨before, body, rfl⟩)
      · exact hsep mem_cons_self
      · exact hsep (mem_append_right _ mem_cons_self)
    | some parts =>
      obtain ⟨line, after⟩ := parts
      obtain ⟨htext, hsep⟩ := cut_eq_some hcut
      rw [block_of_cut hcut]
      by_cases hline : line = []
      · rw [if_pos hline]
        refine iff_of_false (by rintro ⟨⟩) (not_not.mpr (.inl ⟨after, ?_⟩))
        rw [htext, hline, nil_append]
      · rw [if_neg hline, Option.map_eq_none_iff, htext, hasEmptyLine_append ⟨hline, hsep⟩]
        exact ih after.length (hlen ▸ length_of_cut hcut) rfl

/-! ### Encodings -/

section Encoding

variable {sep' : β} {code : α → List β}

theorem cut_append_of_notMem (h : sep ∉ before) (text : List α) :
    cut sep (before ++ text) = (cut sep text).map fun parts => (before ++ parts.1, parts.2) := by
  induction before with
  | nil => simp
  | cons c before ih =>
    have hc : c ≠ sep := fun hsame => h (hsame ▸ mem_cons_self)
    rw [cons_append, cut, if_neg hc, ih fun hmem => h (mem_cons_of_mem c hmem), Option.map_map]
    rfl

theorem cut_flatMap (hsep : code sep = [sep']) (hother : ∀ c, c ≠ sep → sep' ∉ code c) (text : List α) :
    cut sep' (text.flatMap code) = (cut sep text).map fun parts => (parts.1.flatMap code, parts.2.flatMap code) := by
  induction text with
  | nil => rfl
  | cons c text ih =>
    rw [flatMap_cons, cut]
    by_cases hc : c = sep
    · rw [if_pos hc, hc, hsep, singleton_append, cut, if_pos rfl]
      rfl
    · rw [if_neg hc, cut_append_of_notMem (hother c hc), ih, Option.map_map, Option.map_map]
      refine congrArg (fun f => Option.map f (cut sep text)) ?_
      funext parts
      simp

omit [DecidableEq α] [DecidableEq β] in
theorem flatMap_eq_nil_iff (hcode : ∀ c, code c ≠ []) {line : List α} : line.flatMap code = [] ↔ line = [] := by
  cases line with
  | nil => simp
  | cons c line => simp [hcode c]

theorem block_flatMap (hsep : code sep = [sep']) (hother : ∀ c, c ≠ sep → sep' ∉ code c)
    (hcode : ∀ c, code c ≠ []) (text : List α) :
    block sep' (text.flatMap code) =
      (block sep text).map fun parts => (parts.1.map (·.flatMap code), parts.2.flatMap code) := by
  induction hlen : text.length using Nat.strong_induction_on generalizing text with
  | _ n ih =>
    have hcode' := cut_flatMap hsep hother text
    cases hcut : cut sep text with
    | none =>
      rw [hcut] at hcode'
      rw [block_of_cut_none hcode', block_of_cut_none hcut]
      rfl
    | some parts =>
      obtain ⟨line, after⟩ := parts
      rw [hcut] at hcode'
      rw [block_of_cut hcode', block_of_cut hcut]
      by_cases hline : line = []
      · rw [if_pos ((flatMap_eq_nil_iff hcode).mpr hline), if_pos hline]
        rfl
      · rw [if_neg (mt (flatMap_eq_nil_iff hcode).mp hline), if_neg hline,
          ih after.length (hlen ▸ length_of_cut hcut) after rfl, Option.map_map, Option.map_map]
        rfl

omit [DecidableEq α] [DecidableEq β] in
theorem flatMap_blockText (hsep : code sep = [sep']) (lines : List (List α)) (body : List α) :
    (blockText sep lines body).flatMap code = blockText sep' (lines.map (·.flatMap code)) (body.flatMap code) := by
  simp [blockText, flatMap_assoc, flatMap_map, hsep]

end Encoding

end Lines
