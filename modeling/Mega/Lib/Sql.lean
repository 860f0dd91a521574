/-
# Expressions of SQL

The part of SQL expressions that a query's condition is made of. A value may be
`NULL`, a comparison with `NULL` is neither true nor false, and a `WHERE` or
`WHEN` takes only what is true.

Key definitions: `Truth`, `eq`, `existsRow`, `caseWhen`, `maxOf`, `deepest`.
Key theorems: `isTrue_eq`, `isTrue_existsRow`, `deepest_unique`.
-/
import Mathlib

namespace Sql

variable {α β : Type*}

/-- True, false, or unknown. -/
abbrev Truth := Option Bool

def isTrue (t : Truth) : Bool := t == some true

/-- Compares two values by a test; unknown if one of them is `NULL`. -/
def compare (test : β → β → Bool) (a b : Option β) : Truth := a.bind fun x => b.map (test x)

def eq [DecidableEq β] (a b : Option β) : Truth := compare (fun x y => decide (x = y)) a b

def gt [LT β] [DecidableLT β] (a b : Option β) : Truth := compare (fun x y => decide (y < x)) a b

def not (t : Truth) : Truth := t.map Bool.not

def and : Truth → Truth → Truth
  | some false, _ => some false
  | _, some false => some false
  | some true, some true => some true
  | _, _ => none

/-- `EXISTS (SELECT 1 FROM rows WHERE cond)`. -/
def existsRow (rows : List α) (cond : α → Truth) : Truth := some (rows.any fun row => isTrue (cond row))

/-- `CASE WHEN … THEN … ELSE … END`. -/
def caseWhen : List (Truth × Truth) → Truth → Truth
  | [], otherwise => otherwise
  | branch :: branches, otherwise => if isTrue branch.1 then branch.2 else caseWhen branches otherwise

def coalesce (t otherwise : Truth) : Truth := t.or otherwise

/-- `SELECT max(column) FROM rows`. -/
def maxOf [LinearOrder β] (column : α → β) (rows : List α) : Option β := (rows.argmax column).map column

/-- `ORDER BY key DESC LIMIT 1`. -/
def deepest [LinearOrder β] (key : α → β) (rows : List α) : Option α := rows.argmax key

/-! ### What a condition takes -/

theorem isTrue_iff {t : Truth} : isTrue t = true ↔ t = some true := by simp [isTrue]

theorem isTrue_some (b : Bool) : isTrue (some b) = b := by cases b <;> rfl

theorem isTrue_eq [DecidableEq β] (a b : Option β) : isTrue (eq a b) = true ↔ ∃ x, a = some x ∧ b = some x := by
  cases a <;> cases b <;> simp [eq, compare, isTrue, eq_comm]

theorem isTrue_and {s t : Truth} : isTrue (and s t) = true ↔ isTrue s = true ∧ isTrue t = true := by
  rcases s with _ | _ | _ <;> rcases t with _ | _ | _ <;> decide

theorem isTrue_existsRow {rows : List α} {cond : α → Truth} :
    isTrue (existsRow rows cond) = true ↔ ∃ row ∈ rows, isTrue (cond row) = true := by
  rw [existsRow, isTrue_some, List.any_eq_true]

theorem not_existsRow {rows : List α} {cond : α → Truth} :
    not (existsRow rows cond) = some true ↔ ¬ ∃ row ∈ rows, isTrue (cond row) = true := by
  rw [← isTrue_existsRow, existsRow, isTrue_some]
  simp [not]

theorem coalesce_false {t : Truth} : coalesce t (some false) = some true ↔ t = some true := by
  rcases t with _ | _ | _ <;> decide

/-- The row with the greatest key, where keys are unique. -/
theorem deepest_unique [LinearOrder β] {key : α → β} {rows : List α} (hkey : (rows.map key).Nodup) {top : α}
    (htop : top ∈ rows) (hle : ∀ row ∈ rows, key row ≤ key top) : deepest key rows = some top := by
  cases hdeepest : rows.argmax key with
  | none =>
    rw [List.argmax_eq_none.mp hdeepest] at htop
    cases htop
  | some best =>
    have hmem : best ∈ rows := List.argmax_mem hdeepest
    have hsame : key best = key top := le_antisymm (hle best hmem) (List.le_of_mem_argmax htop hdeepest)
    rw [deepest, hdeepest, List.inj_on_of_nodup_map hkey hmem htop hsame]

end Sql
