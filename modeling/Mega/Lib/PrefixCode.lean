/-
# Codes that can be read off the front

A code is front-readable if what it writes for a value, followed by anything,
determines the value and what follows. Numbers in a fixed number of bytes, and
bytes after their length, are front-readable as long as the number or the length
fits.

Key definitions: `FrontOn`, `leBytes`, `sized`.
Key theorems: `frontOn_leBytes`, `frontOn_sized`.
-/
import Mathlib

namespace PrefixCode

variable {α σ : Type*}

/-- The codes of the values that satisfy `ok` can be read off the front. -/
def FrontOn (ok : α → Prop) (code : α → List σ) : Prop :=
  ∀ a b s t, ok a → ok b → code a ++ s = code b ++ t → a = b ∧ s = t

/-- A number in `k` bytes, the lowest first. -/
def leBytes : ℕ → ℕ → List UInt8
  | 0, _ => []
  | k + 1, n => UInt8.ofNat (n % 256) :: leBytes k (n / 256)

theorem frontOn_leBytes : ∀ k, FrontOn (· < 256 ^ k) (leBytes k)
  | 0, a, b, s, t, ha, hb, h => by
    simp only [pow_zero, Nat.lt_one_iff] at ha hb
    exact ⟨ha.trans hb.symm, h⟩
  | k + 1, a, b, s, t, ha, hb, h => by
    simp only [leBytes, List.cons_append, List.cons.injEq] at h
    obtain ⟨hlow, hrest⟩ := h
    rw [pow_succ] at ha hb
    obtain ⟨hhigh, hst⟩ := frontOn_leBytes k (a / 256) (b / 256) s t (Nat.div_lt_of_lt_mul (by omega))
      (Nat.div_lt_of_lt_mul (by omega)) hrest
    have hmod : a % 256 = b % 256 := by
      have hnat := congrArg UInt8.toNat hlow
      simpa using hnat
    exact ⟨by omega, hst⟩

/-- Bytes after their length. -/
def sized (bytes : List UInt8) : List UInt8 := leBytes 8 bytes.length ++ bytes

theorem frontOn_sized : FrontOn (·.length < 2 ^ 64) sized := by
  intro a b s t ha hb h
  simp only [sized, List.append_assoc] at h
  obtain ⟨hlength, hrest⟩ := frontOn_leBytes 8 _ _ _ _ (by omega) (by omega) h
  exact List.append_inj hrest hlength

end PrefixCode
