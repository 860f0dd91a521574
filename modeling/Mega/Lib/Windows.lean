/-
# Overlapping spans cover every short window

A row of spans, each of which starts after the one before it, ends after it, and
overlaps it by at least `overlap`. Then every window of at most `overlap` inside
the whole lies inside one of the spans: the first span that reaches the end of
the window starts before the window does.

Key definitions: `Steps`, `Row`.
Key theorems: `Row.covers`, `Row.pairwise`.
-/
import Mathlib

namespace Windows

open List

/-- A span and the next one. -/
structure Steps (overlap : ℕ) (a b : ℕ × ℕ) : Prop where
  start : a.1 < b.1
  stop : a.2 < b.2
  overlaps : b.1 + overlap ≤ a.2

/-- A row of spans from `start` to `stop`. -/
inductive Row (overlap : ℕ) : ℕ → ℕ → List (ℕ × ℕ) → Prop
  | last {start stop : ℕ} : Row overlap start stop [(start, stop)]
  | more {start stop : ℕ} {span next : ℕ × ℕ} {spans : List (ℕ × ℕ)} (hstart : span.1 = start)
      (hstep : Steps overlap span next) (hrest : Row overlap next.1 stop (next :: spans)) :
      Row overlap start stop (span :: next :: spans)

variable {overlap start stop : ℕ} {spans : List (ℕ × ℕ)}

theorem Row.head (h : Row overlap start stop spans) : spans.head?.map Prod.fst = some start := by
  cases h with
  | last => rfl
  | more hstart _ _ => exact congrArg some hstart

theorem Row.getLast (h : Row overlap start stop spans) : spans.getLast?.map Prod.snd = some stop := by
  induction h with
  | last => rfl
  | more _ _ _ ih => simpa using ih

/-- Starts and ends increase along the row. -/
theorem Row.pairwise (h : Row overlap start stop spans) : spans.Pairwise fun a b => a.1 < b.1 ∧ a.2 < b.2 := by
  have htrans : IsTrans (ℕ × ℕ) fun a b => a.1 < b.1 ∧ a.2 < b.2 :=
    ⟨fun a b c hab hbc => ⟨hab.1.trans hbc.1, hab.2.trans hbc.2⟩⟩
  apply IsChain.pairwise
  induction h with
  | last => exact .singleton _
  | more _ hstep _ ih => exact isChain_cons_cons.mpr ⟨⟨hstep.start, hstep.stop⟩, ih⟩

/-- **A short window lies inside a span.** -/
theorem Row.covers (h : Row overlap start stop spans) {a b : ℕ} (ha : start ≤ a) (hab : a ≤ b) (hb : b ≤ stop)
    (hshort : b - a ≤ overlap) : ∃ span ∈ spans, span.1 ≤ a ∧ b ≤ span.2 := by
  induction h with
  | last => exact ⟨_, mem_cons_self, ha, hb⟩
  | @more start stop span next spans hstart hstep _ ih =>
    by_cases hreach : b ≤ span.2
    · exact ⟨span, mem_cons_self, by omega, hreach⟩
    · -- the window ends past this span, so it starts past the start of the next
      have hnext : next.1 ≤ a := by
        have hoverlaps := hstep.overlaps
        omega
      obtain ⟨found, hmem, hfound⟩ := ih hnext hb
      exact ⟨found, mem_cons_of_mem _ hmem, hfound⟩

end Windows
