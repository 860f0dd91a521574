/-
# Weights of keys

A table of weights has a row for each key it knows. Weight is added to a row, or a
new row is made for it, so the total grows by what is added. Two tables in the
order of their keys are merged to find the weight they have in common.

Key definitions: `add`, `total`, `common`.
Key theorems: `total_add`, `common_comm`, `common_le_total`.
-/
import Mathlib

namespace Weights

open List

variable {κ : Type*}

/-- Adds weight to the row of a key. -/
def add [DecidableEq κ] : List (κ × ℕ) → κ → ℕ → List (κ × ℕ)
  | [], key, n => [(key, n)]
  | (key', w) :: rows, key, n => if key' = key then (key', w + n) :: rows else (key', w) :: add rows key n

def total (rows : List (κ × ℕ)) : ℕ := (rows.map Prod.snd).sum

theorem total_cons (row : κ × ℕ) (rows : List (κ × ℕ)) : total (row :: rows) = row.2 + total rows := by
  rw [total, map_cons, sum_cons]
  rfl

theorem total_perm {rows rows' : List (κ × ℕ)} (h : rows.Perm rows') : total rows = total rows' := (h.map Prod.snd).sum_eq

section Add

variable [DecidableEq κ]

/-- **What is added is added to the total.** -/
theorem total_add (rows : List (κ × ℕ)) (key : κ) (n : ℕ) : total (add rows key n) = total rows + n := by
  induction rows with
  | nil => simp [add, total]
  | cons row rows ih =>
    obtain ⟨key', w⟩ := row
    rw [add]
    split_ifs
    · rw [total_cons, total_cons]
      show w + n + _ = w + _ + n
      omega
    · rw [total_cons, total_cons, ih]
      show w + _ = w + _ + n
      omega

end Add

/-! ### The weight in common -/

variable [LinearOrder κ]

/-- Merges two tables in the order of their keys. -/
def common : List (κ × ℕ) → List (κ × ℕ) → ℕ
  | [], _ => 0
  | _ :: _, [] => 0
  | (key, w) :: rows, (key', w') :: rows' =>
    if key < key' then common rows ((key', w') :: rows')
    else if key' < key then common ((key, w) :: rows) rows'
    else min w w' + common rows rows'
termination_by rows rows' => rows.length + rows'.length

theorem common_nil (rows : List (κ × ℕ)) : common rows [] = 0 := by
  cases rows <;> rw [common]

/-- **The weight in common does not depend on which table comes first.** -/
theorem common_comm (rows rows' : List (κ × ℕ)) : common rows rows' = common rows' rows := by
  fun_induction common rows rows' with
  | case1 rows' => rw [common_nil]
  | case2 => rw [common]
  | case3 key w rows key' w' rows' hlt ih => rw [ih, common, if_neg (not_lt_of_gt hlt), if_pos hlt]
  | case4 key w rows key' w' rows' hlt hgt ih => rw [ih, common, if_pos hgt]
  | case5 key w rows key' w' rows' hlt hgt ih => rw [ih, common, if_neg hgt, if_neg hlt, Nat.min_comm]

/-- No more is in common than the first table has. -/
theorem common_le_total (rows rows' : List (κ × ℕ)) : common rows rows' ≤ total rows := by
  fun_induction common rows rows' with
  | case1 => exact Nat.zero_le _
  | case2 => exact Nat.zero_le _
  | case3 key w rows key' w' rows' hlt ih =>
    rw [total_cons]
    omega
  | case4 key w rows key' w' rows' hlt hgt ih => exact ih
  | case5 key w rows key' w' rows' hlt hgt ih =>
    rw [total_cons]
    show min w w' + _ ≤ w + _
    omega

end Weights
