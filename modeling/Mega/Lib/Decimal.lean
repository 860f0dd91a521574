/-
# Decimal digits

A list of digit characters as a number, and as a number in scientific notation:
`scaled digits e` has its first digit at `10 ^ e`. Zeros at either end of the
digits do not count, and the exponent of digits that begin with no zero is the
decimal logarithm.

Key definitions: `value`, `scaled`.
Key theorems: `scaled_append_zeros`, `scaled_zeros_append`, `log_scaled`.
-/
import Mathlib

namespace Decimal

open List

def value (digits : List Char) : ℕ := Nat.ofDigitChars 10 digits 0

theorem value_append (digits more : List Char) : value (digits ++ more) = value digits * 10 ^ more.length + value more := by
  rw [value, Nat.ofDigitChars_append, Nat.ofDigitChars_eq_ofDigitChars_zero, Nat.mul_comm]
  rfl

theorem value_cons (ch : Char) (digits : List Char) :
    value (ch :: digits) = (ch.toNat - '0'.toNat) * 10 ^ digits.length + value digits := by
  have h := value_append [ch] digits
  rw [singleton_append] at h
  rw [h, value, Nat.ofDigitChars_cons, Nat.ofDigitChars_nil]
  simp

theorem value_zeros (n : ℕ) : value (replicate n '0') = 0 := by
  rw [value, Nat.ofDigitChars_replicate_zero, Nat.mul_zero]

theorem value_toDigits (n : ℕ) : value (Nat.toDigits 10 n) = n := Nat.ofDigitChars_ten_toDigits

theorem head_toDigits {n : ℕ} (h : n ≠ 0) : (Nat.toDigits 10 n).head? ≠ some '0' := by
  induction n using Nat.strong_induction_on with
  | _ n ih =>
    rw [Nat.toDigits_eq_if (by decide : 1 < 10)]
    split_ifs with hsmall
    · interval_cases n <;> simp_all [Nat.digitChar]
    · rw [head?_append_of_ne_nil _ Nat.toDigits_ne_nil]
      exact ih (n / 10) (by omega) (by omega)

theorem digit_le_nine {ch : Char} (h : ch.isDigit = true) : ch.toNat - '0'.toNat ≤ 9 := by
  have hrange : 48 ≤ ch.toNat ∧ ch.toNat ≤ 57 := by simpa [Char.isDigit, UInt32.le_iff_toNat_le] using h
  have hzero : '0'.toNat = 48 := rfl
  omega

theorem one_le_digit {ch : Char} (h : ch.isDigit = true) (hzero : ch ≠ '0') : 1 ≤ ch.toNat - '0'.toNat := by
  have hrange : 48 ≤ ch.toNat ∧ ch.toNat ≤ 57 := by simpa [Char.isDigit, UInt32.le_iff_toNat_le] using h
  have hne : ch.toNat ≠ 48 := fun heq => hzero (Char.toNat_inj.mp heq)
  have h0 : '0'.toNat = 48 := rfl
  omega

theorem value_lt {digits : List Char} (h : ∀ ch ∈ digits, ch.isDigit = true) : value digits < 10 ^ digits.length := by
  induction digits with
  | nil => decide
  | cons ch digits ih =>
    have hfirst := digit_le_nine (h ch mem_cons_self)
    have hrest := ih fun ch' hch' => h ch' (mem_cons_of_mem _ hch')
    rw [value_cons, length_cons, Nat.pow_succ]
    nlinarith

/-- Digits that begin with no zero use their whole length. -/
theorem le_value {ch : Char} (digits : List Char) (h : ch.isDigit = true) (hzero : ch ≠ '0') :
    10 ^ digits.length ≤ value (ch :: digits) := by
  rw [value_cons]
  have hfirst := one_le_digit h hzero
  nlinarith [Nat.zero_le (value digits), Nat.one_le_pow digits.length 10 (by decide)]

/-! ### Scientific notation -/

/-- The number with the given digits, the first of them at `10 ^ e`. -/
def scaled (digits : List Char) (e : ℤ) : ℚ := value digits * 10 ^ (e + 1 - digits.length)

theorem scaled_append_zeros (digits : List Char) (n : ℕ) (e : ℤ) :
    scaled (digits ++ replicate n '0') e = scaled digits e := by
  have hpow : (10 : ℚ) ^ (e + 1 - digits.length) = 10 ^ n * 10 ^ (e + 1 - (digits.length + n : ℤ)) := by
    rw [← zpow_natCast, ← zpow_add₀ (by norm_num)]
    congr 1
    omega
  rw [scaled, scaled, value_append, value_zeros, length_append, length_replicate, hpow]
  push_cast
  ring

theorem scaled_zeros_append (digits : List Char) (n : ℕ) (e : ℤ) :
    scaled (replicate n '0' ++ digits) e = scaled digits (e - n) := by
  have hexponent : e + 1 - ((replicate n '0' ++ digits).length : ℤ) = e - n + 1 - digits.length := by
    rw [length_append, length_replicate]
    omega
  rw [scaled, scaled, value_append, value_zeros, hexponent]
  simp

/-- Numbers that are equal stay so when both exponents are raised. -/
theorem scaled_shift {digits more : List Char} {e : ℤ} (h : scaled digits e = scaled more e) (d : ℤ) :
    scaled digits (e + d) = scaled more (e + d) := by
  have hraise (list : List Char) : scaled list (e + d) = scaled list e * 10 ^ d := by
    rw [scaled, scaled, mul_assoc, ← zpow_add₀ (by norm_num)]
    congr 2
    ring
  rw [hraise, hraise, h]

/-- **The exponent of digits that begin with no zero is the decimal logarithm.** -/
theorem log_scaled {ch : Char} {digits : List Char} (hdigits : ∀ ch' ∈ ch :: digits, ch'.isDigit = true)
    (hzero : ch ≠ '0') (e : ℤ) : 0 < scaled (ch :: digits) e ∧ Int.log 10 (scaled (ch :: digits) e) = e := by
  have hlow : ((10 : ℚ) ^ digits.length) ≤ value (ch :: digits) := by
    exact_mod_cast le_value digits (hdigits ch mem_cons_self) hzero
  have hhigh : (value (ch :: digits) : ℚ) < 10 ^ (digits.length + 1) := by exact_mod_cast value_lt hdigits
  have hscale : (0 : ℚ) < 10 ^ (e - digits.length) := by positivity
  have heq : scaled (ch :: digits) e = value (ch :: digits) * 10 ^ (e - digits.length) := by
    rw [scaled, length_cons]
    congr 2
    push_cast
    ring
  have hjoin (n : ℕ) : (10 : ℚ) ^ n * 10 ^ (e - digits.length) = 10 ^ (e + n - digits.length) := by
    rw [← zpow_natCast, ← zpow_add₀ (by norm_num)]
    congr 1
    ring
  have hfrom : (10 : ℚ) ^ e ≤ scaled (ch :: digits) e := by
    calc (10 : ℚ) ^ e = 10 ^ digits.length * 10 ^ (e - digits.length) := by rw [hjoin]; congr 1; ring
      _ ≤ value (ch :: digits) * 10 ^ (e - digits.length) := by gcongr
      _ = _ := heq.symm
  have hto : scaled (ch :: digits) e < 10 ^ (e + 1) := by
    calc scaled (ch :: digits) e = value (ch :: digits) * 10 ^ (e - digits.length) := heq
      _ < 10 ^ (digits.length + 1) * 10 ^ (e - digits.length) := by gcongr
      _ = 10 ^ (e + 1) := by rw [hjoin]; congr 1; push_cast; ring
  have hpos : 0 < scaled (ch :: digits) e := lt_of_lt_of_le (by positivity) hfrom
  refine ⟨hpos, le_antisymm ?_ ?_⟩
  · have hlt := (Int.lt_zpow_iff_log_lt (by decide : 1 < 10) hpos).mp (by exact_mod_cast hto)
    omega
  · exact (Int.zpow_le_iff_le_log (by decide : 1 < 10) hpos).mp (by exact_mod_cast hfrom)

end Decimal
