/-
# The text of a number keeps its value

`ryu` renders a number either with a point, as in `120.5` and `0.001`, or with one
digit before the point and an exponent, as in `1.5e-7`. `parse_shortest_decimal`
takes the digits and the exponent of the first one out of it, and `es6_format`
writes them as ECMAScript does. A text shorter than `2 ^ 31` keeps its value this
way: above that the lengths no longer fit the `i32` they are counted in.

Key definitions: `decimalValue`, `Rendered`, `IsTidy`, `es6Text`.
Key theorems: `parseShortestDecimal_spec`, `es6Format_spec`, `es6Text_keeps_value`.
-/
import Mega.Json.Numerals

namespace Mega
namespace Json

open List Decimal

/-! ### The number that a numeral denotes -/

def intOf : Text → ℤ
  | '-' :: digits => -Decimal.value digits
  | '+' :: digits => Decimal.value digits
  | digits => Decimal.value digits

/-- The rational that a decimal numeral denotes. -/
def decimalValue (text : Text) : ℚ :=
  let negative := text.head? = some '-'
  let body := if negative then text.tail else text
  let coeff := body.takeWhile fun ch => ¬ isMark ch
  let exponent := (body.dropWhile fun ch => ¬ isMark ch).tail
  let int := coeff.takeWhile (· ≠ '.')
  let fraction := (coeff.dropWhile (· ≠ '.')).tail
  (if negative then -1 else 1) * (Decimal.value (int ++ fraction) * 10 ^ (intOf exponent - fraction.length))

/-! ### Parts of a numeral -/

theorem not_mark_of_digit {ch : Char} (h : ch.isDigit = true) : ¬ isMark ch := by
  rintro (rfl | rfl) <;> cases h

theorem not_point_of_digit {ch : Char} (h : ch.isDigit = true) : ch ≠ '.' := by
  rintro rfl
  cases h

theorem IsInt.isDigits {int : Text} (h : IsInt int) : IsDigits int := by
  cases h with
  | zero => exact ⟨cons_ne_nil _ _, forall_mem_singleton.mpr rfl⟩
  | digits hdigit _ h => exact ⟨cons_ne_nil _ _, forall_mem_cons.mpr ⟨hdigit, h⟩⟩

theorem IsFraction.not_mark {fraction : Text} (h : IsFraction fraction) : ∀ ch ∈ fraction, ¬ isMark ch := by
  cases h with
  | none => exact fun _ h => absurd h not_mem_nil
  | digits h => exact forall_mem_cons.mpr ⟨by decide, fun ch hch => not_mark_of_digit (h.2 ch hch)⟩

theorem split_coeff {int fraction exponent : Text} (hint : IsDigits int) (hfraction : IsFraction fraction)
    (hexponent : IsExponent exponent) :
    ((int ++ (fraction ++ exponent)).takeWhile fun ch => ¬ isMark ch) = int ++ fraction ∧
      ((int ++ (fraction ++ exponent)).dropWhile fun ch => ¬ isMark ch) = exponent := by
  have hall : ∀ ch ∈ int ++ fraction, decide (¬ isMark ch) = true := by
    intro ch hch
    rcases mem_append.mp hch with hch | hch
    · exact decide_eq_true (not_mark_of_digit (hint.2 ch hch))
    · exact decide_eq_true (hfraction.not_mark ch hch)
  rw [← append_assoc, takeWhile_append_of_pos hall, dropWhile_append_of_pos hall]
  cases hexponent with
  | none => simp
  | digits hmark _ _ => simp [hmark]

theorem split_point {int fraction : Text} (hint : IsDigits int) (hfraction : IsFraction fraction) :
    (int ++ fraction).takeWhile (· ≠ '.') = int ∧ (int ++ fraction).dropWhile (· ≠ '.') = fraction := by
  have hall : ∀ ch ∈ int, decide (ch ≠ '.') = true := fun ch hch => decide_eq_true (not_point_of_digit (hint.2 ch hch))
  rw [takeWhile_append_of_pos hall, dropWhile_append_of_pos hall]
  cases hfraction with
  | none => simp
  | digits _ => simp

theorem head_ne_of_digits {digits : Text} (h : IsDigits digits) {ch : Char} (hch : ch.isDigit = false) :
    digits.head? ≠ some ch := by
  obtain ⟨hne, hall⟩ := h
  rcases digits with _ | ⟨first, digits⟩
  · exact absurd rfl hne
  · rintro heq
    have hdigit := hall first mem_cons_self
    rw [Option.some.inj heq, hch] at hdigit
    cases hdigit

theorem split_sign {sign int : Text} (hsign : sign = [] ∨ sign = ['-']) (hint : IsDigits int) (rest : Text) :
    ((sign ++ (int ++ rest)).head? = some '-' ↔ sign = ['-']) ∧
      (if (sign ++ (int ++ rest)).head? = some '-' then (sign ++ (int ++ rest)).tail else sign ++ (int ++ rest)) =
        int ++ rest := by
  rcases hsign with rfl | rfl
  · have hne : (int ++ rest).head? ≠ some '-' := by
      rw [head?_append_of_ne_nil _ hint.1]
      exact head_ne_of_digits hint rfl
    rw [nil_append, if_neg hne]
    exact ⟨iff_of_false hne (by decide), rfl⟩
  · exact ⟨by simp, by simp⟩

/-- A numeral denotes the number with the digits on both sides of its point. -/
theorem decimalValue_parts {sign int fraction exponent : Text} (hsign : sign = [] ∨ sign = ['-']) (hint : IsDigits int)
    (hfraction : IsFraction fraction) (hexponent : IsExponent exponent) :
    decimalValue (sign ++ (int ++ (fraction ++ exponent))) =
      (if sign = ['-'] then -1 else 1) * scaled (int ++ fraction.tail) (int.length - 1 + intOf exponent.tail) := by
  obtain ⟨hnegative, hbody⟩ := split_sign hsign hint (fraction ++ exponent)
  obtain ⟨htake, hdrop⟩ := split_coeff hint hfraction hexponent
  obtain ⟨hint', hfraction'⟩ := split_point hint hfraction
  have hexp : (int.length : ℤ) - 1 + intOf exponent.tail + 1 - ((int ++ fraction.tail).length : ℤ) =
      intOf exponent.tail - fraction.tail.length := by
    rw [length_append]
    push_cast
    ring
  unfold decimalValue
  simp only [hbody, htake, hdrop, hint', hfraction']
  simp only [hnegative, scaled, hexp]

/-! ### Digits without superfluous zeros -/

/-- Digits that neither begin nor end with a zero. -/
structure IsTrimmed (digits : Text) : Prop where
  all : IsDigits digits
  first : digits.head? ≠ some '0'
  last : digits.getLast? ≠ some '0'

theorem IsTrimmed.log_scaled {digits : Text} (h : IsTrimmed digits) (e : ℤ) :
    0 < scaled digits e ∧ Int.log 10 (scaled digits e) = e := by
  obtain ⟨⟨hne, hall⟩, hfirst, -⟩ := h
  rcases digits with _ | ⟨ch, digits⟩
  · exact absurd rfl hne
  · exact Decimal.log_scaled hall (fun hzero => hfirst (by rw [hzero]; rfl)) e

theorem eq_zeros {digits : Text} (h : ∀ ch ∈ digits, ch = '0') : digits = replicate digits.length '0' :=
  eq_replicate_of_mem h

/-- Trimming takes zeros off the end, and none remains there. -/
theorem trimEndZeros_spec (digits : Text) : ∃ n, digits = trimEndZeros digits ++ replicate n '0' ∧
    (trimEndZeros digits).getLast? ≠ some '0' := by
  refine ⟨(digits.rtakeWhile (· = '0')).length, ?_, ?_⟩
  · have hzeros : digits.rtakeWhile (· = '0') = replicate (digits.rtakeWhile (· = '0')).length '0' := by
      refine eq_zeros fun ch hch => ?_
      simpa using mem_rtakeWhile_imp hch
    rw [← hzeros, trimEndZeros, rdropWhile_append_rtakeWhile]
  · intro hlast
    have hne : trimEndZeros digits ≠ [] := by
      intro hnil
      rw [hnil] at hlast
      cases hlast
    rw [getLast?_eq_some_getLast hne] at hlast
    exact rdropWhile_last_not _ _ hne (decide_eq_true (Option.some.inj hlast))

theorem length_trimEndZeros_le (digits : Text) : (trimEndZeros digits).length ≤ digits.length :=
  IsPrefix.length_le <| rdropWhile_prefix _ _

theorem trimEndZeros_isTrimmed {digits : Text} (hall : ∀ ch ∈ digits, ch.isDigit = true)
    (hfirst : digits.head? ≠ some '0') (hne : trimEndZeros digits ≠ []) : IsTrimmed (trimEndZeros digits) := by
  obtain ⟨n, hsplit, hlast⟩ := trimEndZeros_spec digits
  refine ⟨⟨hne, fun ch hch => hall ch ?_⟩, fun hhead => hfirst ?_, hlast⟩
  · rw [hsplit]
    exact mem_append_left _ hch
  · rw [hsplit, head?_append, hhead]
    rfl

/-! ### Reading what `ryu` renders -/

theorem wrapI32_of_lt {n : ℤ} (hlow : -2 ^ 31 ≤ n) (hhigh : n < 2 ^ 31) : wrapI32 n = n :=
  Int.bmod_eq_of_le (by omega) (by omega)

theorem intOf_digits {digits : Text} (h : IsDigits digits) : intOf digits = Decimal.value digits := by
  unfold intOf
  split
  · exact absurd rfl (head_ne_of_digits h rfl)
  · exact absurd rfl (head_ne_of_digits h rfl)
  · rfl

theorem parseI32_exponent {sign digits : Text} (hsign : sign = [] ∨ sign = ['+'] ∨ sign = ['-']) (h : IsDigits digits)
    (hlow : -2 ^ 31 ≤ intOf (sign ++ digits)) (hhigh : intOf (sign ++ digits) < 2 ^ 31) :
    parseI32 ((sign ++ digits).dropWhile (· = '+')) = some (intOf (sign ++ digits)) := by
  have hplus : digits.dropWhile (· = '+') = digits := by
    rcases digits with _ | ⟨ch, digits⟩
    · rfl
    · have hne : ch ≠ '+' := fun heq => head_ne_of_digits h rfl (congrArg some heq)
      rw [dropWhile_cons, if_neg (by simpa using hne)]
  have hany : ¬ (digits = [] ∨ digits.any (fun ch => !ch.isDigit) = true) := by
    rintro (hnil | hany)
    · exact h.1 hnil
    · obtain ⟨ch, hch, hdigit⟩ := any_eq_true.mp hany
      rw [h.2 ch hch] at hdigit
      cases hdigit
  have hminus : digits.head? ≠ some '-' := head_ne_of_digits h rfl
  have hplus' : digits.head? ≠ some '+' := head_ne_of_digits h rfl
  rcases hsign with rfl | rfl | rfl
  · rw [nil_append, intOf_digits h] at hlow hhigh ⊢
    simp only [hplus, parseI32, hminus, hplus', or_self, if_false, hany, hlow, hhigh, and_self, if_true]
  · have hsigned : intOf (['+'] ++ digits) = Decimal.value digits := rfl
    rw [hsigned] at hlow hhigh ⊢
    have hdrop : (['+'] ++ digits).dropWhile (· = '+') = digits := by simpa using hplus
    simp only [hdrop, parseI32, hminus, hplus', or_self, if_false, hany, hlow, hhigh, and_self, if_true]
  · have hsigned : intOf (['-'] ++ digits) = -Decimal.value digits := rfl
    rw [hsigned] at hlow hhigh ⊢
    have hdrop : (['-'] ++ digits).dropWhile (· = '+') = '-' :: digits := by simp
    simp only [hdrop, parseI32, head?_cons, tail_cons, true_or, if_true, hany, if_false, hlow, hhigh, and_self]

/-- Sign, coefficient and exponent are read apart. -/
theorem parseShortestDecimal_parts {sign int fraction exponent : Text} (hsign : sign = [] ∨ sign = ['-'])
    (hint : IsDigits int) (hfraction : IsFraction fraction) (hexponent : IsExponent exponent)
    (hlow : -2 ^ 31 ≤ intOf exponent.tail) (hhigh : intOf exponent.tail < 2 ^ 31) :
    parseShortestDecimal (sign ++ (int ++ (fraction ++ exponent))) =
      (decide (sign = ['-']), (coeffToDigits (int ++ fraction)).1,
        wrapI32 ((coeffToDigits (int ++ fraction)).2 + intOf exponent.tail)) := by
  obtain ⟨hnegative, hbody⟩ := split_sign hsign hint (fraction ++ exponent)
  obtain ⟨htake, hdrop⟩ := split_coeff hint hfraction hexponent
  unfold parseShortestDecimal
  simp only [hbody, htake, hdrop]
  simp only [hnegative]
  cases hexponent with
  | none => rfl
  | digits _ hsign' h => simp only [tail_cons, parseI32_exponent hsign' h hlow hhigh, Option.getD_some]

/-- What the digits and the exponent of a coefficient must be. -/
structure Reads (coeff : Text) (parts : Text × ℤ) (number : ℚ) : Prop where
  trimmed : IsTrimmed parts.1
  value : scaled parts.1 parts.2 = number
  length : parts.1.length ≤ coeff.length
  low : -coeff.length ≤ parts.2
  high : parts.2 < coeff.length

/-- No digit before the point: the zeros behind the point count down. -/
theorem coeffToDigits_zero {fraction : Text} (h : IsDigits fraction) (hlength : fraction.length + 1 < 2 ^ 31)
    (hvalue : Decimal.value fraction ≠ 0) :
    Reads ('0' :: '.' :: fraction) (coeffToDigits ('0' :: '.' :: fraction)) (scaled ('0' :: fraction) 0) := by
  obtain ⟨zeros, hzeros⟩ : ∃ n, (fraction.takeWhile (· = '0')).length = n := ⟨_, rfl⟩
  obtain ⟨rest, hrest⟩ : ∃ rest, fraction.dropWhile (· = '0') = rest := ⟨_, rfl⟩
  have hsplit : fraction = replicate zeros '0' ++ rest := by
    have htake : fraction.takeWhile (· = '0') = replicate zeros '0' := by
      rw [← hzeros]
      exact eq_zeros fun ch hch => by simpa using mem_takeWhile_imp hch
    rw [← htake, ← hrest, takeWhile_append_dropWhile]
  have hdrop : fraction.drop zeros = rest := by rw [hsplit, drop_left' (length_replicate)]
  have hbound : zeros + rest.length = fraction.length := by rw [hsplit, length_append, length_replicate]
  obtain ⟨n, htrim, hlast⟩ := trimEndZeros_spec rest
  have hne : trimEndZeros rest ≠ [] := by
    intro hnil
    refine hvalue ?_
    rw [hsplit, htrim, hnil, nil_append, value_append, value_zeros, value_zeros]
    simp
  have hfirst : rest.head? ≠ some '0' := by
    intro hhead
    have hnot := head?_dropWhile_not (fun ch => decide (ch = '0')) fraction
    rw [hrest, hhead] at hnot
    simp at hnot
  have hall : ∀ ch ∈ rest, ch.isDigit = true := by
    intro ch hch
    refine h.2 ch ?_
    rw [hsplit]
    exact mem_append_right _ hch
  have hlength' := length_trimEndZeros_le rest
  have hwrap : wrapI32 (-wrapI32 (wrapI32 zeros + 1)) = -(zeros + 1) := by
    have hcount : wrapI32 zeros = zeros := wrapI32_of_lt (by omega) (by omega)
    have hnext : wrapI32 (zeros + 1) = zeros + 1 := wrapI32_of_lt (by omega) (by omega)
    rw [hcount, hnext, wrapI32_of_lt (by omega) (by omega)]
  have heq : coeffToDigits ('0' :: '.' :: fraction) = (trimEndZeros rest, -((zeros : ℤ) + 1)) := by
    have hcode : coeffToDigits ('0' :: '.' :: fraction) =
        (if trimEndZeros (fraction.drop (fraction.takeWhile (· = '0')).length) = [] then ['0']
          else trimEndZeros (fraction.drop (fraction.takeWhile (· = '0')).length),
          wrapI32 (-wrapI32 (wrapI32 (fraction.takeWhile (· = '0')).length + 1))) := rfl
    rw [hcode, hzeros, hdrop, if_neg hne, hwrap]
  rw [heq]
  refine ⟨trimEndZeros_isTrimmed hall hfirst hne, ?_, ?_, ?_, ?_⟩
  · have hwhole : '0' :: fraction = replicate (zeros + 1) '0' ++ (trimEndZeros rest ++ replicate n '0') := by
      rw [← htrim, replicate_succ, cons_append, ← hsplit]
    have hexponent : (0 : ℤ) - ((zeros + 1 : ℕ) : ℤ) = -((zeros : ℤ) + 1) := by omega
    rw [hwhole, scaled_zeros_append, scaled_append_zeros, hexponent]
  · show (trimEndZeros rest).length ≤ fraction.length + 1 + 1
    omega
  · show -((fraction.length + 1 + 1 : ℕ) : ℤ) ≤ -((zeros : ℤ) + 1)
    omega
  · show -((zeros : ℤ) + 1) < ((fraction.length + 1 + 1 : ℕ) : ℤ)
    omega

/-- Digits before the point say how far it is to the first of them. -/
theorem coeffToDigits_point {ch : Char} {int fraction : Text} (hint : ∀ ch' ∈ ch :: int, ch'.isDigit = true)
    (hzero : ch ≠ '0') (h : IsDigits fraction) (hlength : (ch :: int).length < 2 ^ 31) :
    Reads (ch :: int ++ '.' :: fraction) (coeffToDigits (ch :: int ++ '.' :: fraction))
        (scaled (ch :: int ++ fraction) int.length) ∧
      (coeffToDigits (ch :: int ++ '.' :: fraction)).2 = int.length := by
  obtain ⟨htake, hdrop⟩ := split_point ⟨cons_ne_nil ch int, hint⟩ (.digits h)
  obtain ⟨n, htrim, hlast⟩ := trimEndZeros_spec (ch :: int ++ fraction)
  have hne : trimEndZeros (ch :: int ++ fraction) ≠ [] := by
    intro hnil
    rw [hnil, nil_append] at htrim
    have hmem : ch ∈ replicate n '0' := htrim ▸ mem_cons_self
    exact hzero (eq_of_mem_replicate hmem)
  have hall : ∀ ch' ∈ ch :: int ++ fraction, ch'.isDigit = true := by
    intro ch' hch'
    rcases mem_append.mp hch' with hch' | hch'
    · exact hint ch' hch'
    · exact h.2 ch' hch'
  have hfirst : (ch :: int ++ fraction).head? ≠ some '0' := fun hhead => hzero (Option.some.inj hhead)
  have hlength' := length_trimEndZeros_le (ch :: int ++ fraction)
  have heq : coeffToDigits (ch :: int ++ '.' :: fraction) =
      (trimEndZeros (ch :: int ++ fraction), (int.length : ℤ)) := by
    have hint' : ¬ (ch :: int = [] ∨ ch :: int = ['0']) := by
      rintro (heq | heq)
      · cases heq
      · exact hzero (cons.inj heq).1
    rw [length_cons] at hlength
    unfold coeffToDigits
    simp only [hdrop, htake, if_neg hint', length_cons]
    have hcount : wrapI32 ((int.length + 1 : ℕ) : ℤ) = int.length + 1 := wrapI32_of_lt (by omega) (by omega)
    rw [hcount, add_sub_cancel_right, wrapI32_of_lt (by omega) (by omega)]
  rw [heq]
  refine ⟨⟨trimEndZeros_isTrimmed hall hfirst hne, ?_, ?_, ?_, ?_⟩, rfl⟩
  · show scaled (trimEndZeros (ch :: int ++ fraction)) int.length = _
    nth_rewrite 2 [htrim]
    rw [scaled_append_zeros]
  all_goals simp only [length_append, length_cons] at hlength' ⊢; omega

/-- One digit before the exponent, and no point. -/
theorem coeffToDigits_single {ch : Char} (hdigit : ch.isDigit = true) (hzero : ch ≠ '0') :
    Reads [ch] (coeffToDigits [ch]) (scaled [ch] 0) ∧ (coeffToDigits [ch]).2 = 0 := by
  have heq : coeffToDigits [ch] = ([ch], 0) := by
    have hpoint := not_point_of_digit hdigit
    simp [coeffToDigits, hpoint, hzero, wrapI32]
  have hlast : [ch].getLast? ≠ some '0' := fun hlast => hzero (Option.some.inj hlast)
  have hfirst : [ch].head? ≠ some '0' := fun hhead => hzero (Option.some.inj hhead)
  rw [heq]
  exact ⟨⟨⟨⟨cons_ne_nil _ _, by simpa using hdigit⟩, hfirst, hlast⟩, rfl, le_rfl, by simp, by simp⟩, rfl⟩

/-- The decimals of the shortest-decimal printer: digits around a point, or one digit other than zero, perhaps a point
and digits that do not end in a zero, and an exponent that fits an `i32`. -/
inductive Rendered : Text → Prop
  | plain {sign int fraction : Text} (hsign : sign = [] ∨ sign = ['-']) (hint : IsInt int) (h : IsDigits fraction) :
      Rendered (sign ++ (int ++ ('.' :: fraction ++ [])))
  | scientific {sign fraction expSign digits : Text} {ch : Char} (hsign : sign = [] ∨ sign = ['-'])
      (hdigit : ch.isDigit = true) (hzero : ch ≠ '0') (hfraction : IsFraction fraction)
      (hlast : fraction.getLast? ≠ some '0') (hexpSign : expSign = [] ∨ expSign = ['+'] ∨ expSign = ['-'])
      (hdigits : IsDigits digits) (hlow : -2 ^ 31 ≤ intOf (expSign ++ digits)) (hhigh : intOf (expSign ++ digits) < 2 ^ 31) :
      Rendered (sign ++ ([ch] ++ (fraction ++ 'e' :: (expSign ++ digits))))

/-- The number that a sign, digits and an exponent stand for. -/
def signed (negative : Bool) (digits : Text) (e : ℤ) : ℚ := (if negative then -1 else 1) * scaled digits e

/-- **The digits and the exponent that are read of a decimal denote its value.** -/
theorem parseShortestDecimal_spec {rendered : Text} (h : Rendered rendered) (hlength : rendered.length < 2 ^ 31)
    (hvalue : decimalValue rendered ≠ 0) :
    IsTrimmed (parseShortestDecimal rendered).2.1 ∧ (parseShortestDecimal rendered).2.1.length < 2 ^ 31 ∧
      signed (parseShortestDecimal rendered).1 (parseShortestDecimal rendered).2.1 (parseShortestDecimal rendered).2.2 =
        decimalValue rendered := by
  cases h with
  | @plain sign int fraction hsign hint h =>
    have hparts := decimalValue_parts hsign hint.isDigits (.digits h) .none
    rw [hparts] at hvalue ⊢
    have hreads : Reads (int ++ '.' :: fraction) (coeffToDigits (int ++ '.' :: fraction))
        (scaled (int ++ fraction) (int.length - 1)) := by
      simp only [length_append, length_cons] at hlength
      cases hint with
      | zero =>
        refine coeffToDigits_zero h (by omega) fun hzero => hvalue ?_
        have hfirst : Decimal.value ['0'] = 0 := rfl
        have hsum : Decimal.value (['0'] ++ fraction) = 0 := by rw [value_append, hzero, hfirst, zero_mul]
        rw [tail_cons, scaled, hsum]
        simp
      | @digits ch int hdigit hzero hall =>
        have hlen : ((ch :: int).length : ℤ) - 1 = int.length := by rw [length_cons]; omega
        rw [hlen]
        exact (coeffToDigits_point (forall_mem_cons.mpr ⟨hdigit, hall⟩) hzero h (by rw [length_cons]; omega)).1
    rw [parseShortestDecimal_parts hsign hint.isDigits (.digits h) .none (by decide) (by decide)]
    obtain ⟨htrimmed, hnumber, hlen, hlow, hhigh⟩ := hreads
    have hcoeff : (int ++ '.' :: fraction).length < 2 ^ 31 := by
      simp only [length_append, length_cons] at hlength ⊢
      omega
    have hexponent : wrapI32 ((coeffToDigits (int ++ '.' :: fraction)).2 + intOf (tail [])) =
        (coeffToDigits (int ++ '.' :: fraction)).2 := by
      have hnone : intOf (tail []) = 0 := rfl
      rw [hnone, add_zero, wrapI32_of_lt (by omega) (by omega)]
    refine ⟨htrimmed, lt_of_le_of_lt hlen hcoeff, ?_⟩
    simp only [signed, hexponent, hnumber, tail_cons]
    have hnone : intOf (tail []) = 0 := rfl
    rw [hnone, add_zero]
    simp
  | @scientific sign fraction expSign digits ch hsign hdigit hzero hfraction hlast hexpSign hdigits hlow hhigh =>
    have hint : IsDigits [ch] := ⟨cons_ne_nil _ _, by simpa using hdigit⟩
    have hexp : IsExponent ('e' :: (expSign ++ digits)) := .digits (.inl rfl) hexpSign hdigits
    have hparts := decimalValue_parts hsign hint hfraction hexp
    rw [hparts, parseShortestDecimal_parts hsign hint hfraction hexp hlow hhigh]
    have hreads : Reads ([ch] ++ fraction) (coeffToDigits ([ch] ++ fraction)) (scaled ([ch] ++ fraction.tail) 0) ∧
        (coeffToDigits ([ch] ++ fraction)).2 = 0 := by
      cases hfraction with
      | none => exact coeffToDigits_single hdigit hzero
      | digits h =>
        exact coeffToDigits_point hint.2 hzero h (by rw [length_singleton]; decide)
    obtain ⟨⟨htrimmed, hnumber, hlen, -, -⟩, hfirst⟩ := hreads
    refine ⟨htrimmed, ?_, ?_⟩
    · simp only [length_append, length_cons] at hlength hlen ⊢
      omega
    · rw [hfirst] at hnumber
      have hscaled := scaled_shift hnumber (intOf (expSign ++ digits))
      have hwrap : wrapI32 (0 + intOf (expSign ++ digits)) = 0 + intOf (expSign ++ digits) :=
        wrapI32_of_lt (by omega) (by omega)
      simp only [signed, hfirst, tail_cons, length_singleton]
      rw [hwrap, hscaled]
      simp

/-! ### Writing -/

/-- A numeral without superfluous zeros: none before the digits, none behind them after a point, none before the
exponent. -/
inductive IsTidy : Text → Prop
  | plain {sign int fraction : Text} (hsign : sign = [] ∨ sign = ['-']) (hint : IsInt int)
      (hfraction : IsFraction fraction) (hlast : fraction.getLast? ≠ some '0') : IsTidy (sign ++ (int ++ (fraction ++ [])))
  | scientific {sign fraction expSign digits : Text} {ch : Char} (hsign : sign = [] ∨ sign = ['-'])
      (hdigit : ch.isDigit = true) (hzero : ch ≠ '0') (hfraction : IsFraction fraction)
      (hlast : fraction.getLast? ≠ some '0') (hexpSign : expSign = ['+'] ∨ expSign = ['-']) (hdigits : IsDigits digits)
      (hfirst : digits.head? ≠ some '0') : IsTidy (sign ++ ([ch] ++ (fraction ++ 'e' :: (expSign ++ digits))))

/-- A number written without an exponent. -/
def IsPlain (text : Text) : Prop := ∀ ch ∈ text, ¬ isMark ch

theorem isPlain_parts {sign int fraction : Text} (hsign : sign = [] ∨ sign = ['-']) (hint : IsDigits int)
    (hfraction : IsFraction fraction) : IsPlain (sign ++ (int ++ (fraction ++ []))) := by
  intro ch hch
  rw [append_nil] at hch
  rcases mem_append.mp hch with hch | hch
  · rcases hsign with rfl | rfl
    · cases hch
    · rw [mem_singleton.mp hch]
      decide
  rcases mem_append.mp hch with hch | hch
  · exact not_mark_of_digit (hint.2 ch hch)
  · exact hfraction.not_mark ch hch

/-- What a text for the digits and the exponent must be. -/
structure Writes (negative : Bool) (digits : Text) (e : ℤ) (text : Text) : Prop where
  tidy : IsTidy text
  value : decimalValue text = signed negative digits e
  plain : IsPlain text ↔ -6 ≤ e ∧ e ≤ 20

def signText (negative : Bool) : Text := if negative then ['-'] else []

theorem signText_cases (negative : Bool) : signText negative = [] ∨ signText negative = ['-'] := by
  cases negative
  · exact .inl rfl
  · exact .inr rfl

theorem signed_eq (negative : Bool) (digits : Text) (e : ℤ) :
    signed negative digits e = (if signText negative = ['-'] then -1 else 1) * scaled digits e := by
  cases negative <;> rfl

/-- A layout without an exponent. -/
theorem writes_plain (negative : Bool) {digits int fraction : Text} {e : ℤ} (hint : IsInt int)
    (hfraction : IsFraction fraction) (hlast : fraction.getLast? ≠ some '0')
    (hvalue : scaled (int ++ fraction.tail) (int.length - 1) = scaled digits e) (hlow : -6 ≤ e) (hhigh : e ≤ 20) :
    Writes negative digits e (signText negative ++ (int ++ (fraction ++ []))) := by
  have hsign := signText_cases negative
  refine ⟨.plain hsign hint hfraction hlast, ?_, iff_of_true ?_ ⟨hlow, hhigh⟩⟩
  · have hnone : intOf (tail []) = 0 := rfl
    rw [decimalValue_parts hsign hint.isDigits hfraction .none, hnone, add_zero, hvalue, signed_eq]
  · exact isPlain_parts hsign hint.isDigits hfraction

theorem isDigits_toDigits (n : ℕ) : IsDigits (Nat.toDigits 10 n) :=
  ⟨Nat.toDigits_ne_nil, fun _ h => Nat.isDigit_of_mem_toDigits (by decide) (by decide) h⟩

theorem intOf_intText (e : ℤ) : intOf ((if 0 ≤ e then ['+'] else []) ++ intText e) = e := by
  unfold intText
  by_cases he : 0 ≤ e
  · rw [if_pos he, if_neg (by omega)]
    have hvalue : intOf (['+'] ++ Nat.toDigits 10 e.natAbs) = Decimal.value (Nat.toDigits 10 e.natAbs) := rfl
    rw [hvalue, value_toDigits]
    omega
  · rw [if_neg he, if_pos (by omega), nil_append]
    have hvalue : intOf ('-' :: Nat.toDigits 10 e.natAbs) = -Decimal.value (Nat.toDigits 10 e.natAbs) := rfl
    rw [hvalue, value_toDigits]
    omega

/-- The exponent of a number in scientific notation is written with its sign. -/
theorem exists_exponent {e : ℤ} (h : e ≠ 0) : ∃ expSign digits, (if 0 ≤ e then ['+'] else []) ++ intText e = expSign ++ digits ∧
    (expSign = ['+'] ∨ expSign = ['-']) ∧ IsDigits digits ∧ digits.head? ≠ some '0' := by
  have hdigits := isDigits_toDigits e.natAbs
  have hfirst := head_toDigits (n := e.natAbs) (by omega)
  unfold intText
  by_cases he : 0 ≤ e
  · rw [if_pos he, if_neg (by omega)]
    exact ⟨['+'], _, rfl, .inl rfl, hdigits, hfirst⟩
  · rw [if_neg he, if_pos (by omega)]
    exact ⟨['-'], _, rfl, .inr rfl, hdigits, hfirst⟩

theorem IsTrimmed.getLast_append {digits before : Text} (h : IsTrimmed digits) :
    (before ++ digits).getLast? ≠ some '0' := by
  rw [getLast?_append_of_ne_nil _ h.all.1]
  exact h.last

/-- The end of the digits is a fraction. -/
theorem IsTrimmed.drop {digits : Text} (h : IsTrimmed digits) {n : ℕ} (hn : n < digits.length) :
    IsFraction ('.' :: digits.drop n) ∧ ('.' :: digits.drop n).getLast? ≠ some '0' := by
  have hne : digits.drop n ≠ [] := by
    rw [ne_eq, drop_eq_nil_iff]
    omega
  refine ⟨.digits ⟨hne, fun ch hch => h.all.2 ch (mem_of_mem_drop hch)⟩, ?_⟩
  rw [← singleton_append, getLast?_append_of_ne_nil _ hne, getLast?_drop, if_neg (by omega)]
  exact h.last

theorem IsTrimmed.isInt {digits : Text} (h : IsTrimmed digits) {n : ℕ} (hn : 0 < n) (zeros : ℕ) :
    IsInt (digits.take n ++ replicate zeros '0') := by
  obtain ⟨⟨hne, hall⟩, hfirst, -⟩ := h
  rcases digits with _ | ⟨ch, digits⟩
  · exact absurd rfl hne
  obtain ⟨n, rfl⟩ := Nat.exists_eq_succ_of_ne_zero hn.ne'
  refine .digits (hall ch mem_cons_self) (fun hzero => hfirst (by rw [hzero]; rfl)) ?_
  intro ch' hmem
  rcases mem_append.mp hmem with hmem | hmem
  · exact hall ch' (mem_cons_of_mem _ (mem_of_mem_take hmem))
  · rw [eq_of_mem_replicate hmem]
    rfl

section Layouts

variable {digits : Text} (h : IsTrimmed digits) (negative : Bool)

include h

theorem writes_scientific {e : ℤ} (he : ¬ (-6 ≤ e ∧ e < 21)) :
    Writes negative digits e (signText negative ++ (digits.take 1 ++ ((if 1 < digits.length then '.' :: digits.drop 1 else [])
      ++ 'e' :: ((if 0 ≤ e then ['+'] else []) ++ intText e)))) := by
  obtain ⟨expSign, exponent, htext, hexpSign, hexponent, hfirst⟩ := exists_exponent (e := e) (by omega)
  have hvalue := intOf_intText e
  rw [htext] at hvalue ⊢
  have hsign := signText_cases negative
  obtain ⟨⟨hne, hall⟩, hhead, hlast⟩ := id h
  rcases hdigits : digits with _ | ⟨ch, more⟩
  · exact absurd hdigits hne
  have hdigit : ch.isDigit = true := hall ch (by rw [hdigits]; exact mem_cons_self)
  have hzero : ch ≠ '0' := fun hzero => hhead (by rw [hdigits, hzero]; rfl)
  obtain ⟨fraction, hfraction⟩ : ∃ fraction, (if 1 < (ch :: more).length then '.' :: (ch :: more).drop 1 else []) = fraction :=
    ⟨_, rfl⟩
  have hisFraction : IsFraction fraction ∧ fraction.getLast? ≠ some '0' ∧ fraction.tail = more := by
    rw [← hfraction]
    split_ifs with hmore
    · rw [← hdigits] at hmore ⊢
      refine ⟨(h.drop hmore).1, (h.drop hmore).2, ?_⟩
      rw [hdigits]
      rfl
    · refine ⟨.none, by simp, ?_⟩
      rw [length_cons] at hmore
      exact (length_eq_zero_iff.mp (by omega)).symm
  rw [hfraction]
  show Writes negative (ch :: more) e (signText negative ++ ([ch] ++ (fraction ++ 'e' :: (expSign ++ exponent))))
  refine ⟨.scientific hsign hdigit hzero hisFraction.1 hisFraction.2.1 hexpSign hexponent hfirst, ?_, ?_⟩
  · rw [decimalValue_parts hsign ⟨cons_ne_nil _ _, by simpa using hdigit⟩ hisFraction.1
      (.digits (.inl rfl) (.inr hexpSign) hexponent), tail_cons, hvalue, hisFraction.2.2, signed_eq]
    simp
  · refine iff_of_false (fun hplain => hplain 'e' ?_ (.inl rfl)) (by omega)
    simp

theorem writes_integer {e : ℤ} (he : e < 21) (hlength : digits.length ≤ e + 1) :
    Writes negative digits e (signText negative ++ (digits ++ replicate (e + 1 - digits.length).toNat '0')) := by
  have hpos : 0 < digits.length := length_pos_of_ne_nil h.all.1
  have hint := h.isInt hpos (e + 1 - digits.length).toNat
  rw [take_length] at hint
  have hvalue : scaled (digits ++ replicate (e + 1 - digits.length).toNat '0' ++ tail [])
      ((digits ++ replicate (e + 1 - digits.length).toNat '0').length - 1) = scaled digits e := by
    have hlast : ((digits ++ replicate (e + 1 - digits.length).toNat '0').length : ℤ) - 1 = e := by
      rw [length_append, length_replicate]
      omega
    rw [tail_nil, append_nil, hlast, scaled_append_zeros]
  simpa using writes_plain negative hint .none (by simp) hvalue (by omega) (by omega)

theorem writes_point {e : ℤ} (he : e < 21) (hpos : 0 ≤ e) (hlength : e + 1 < digits.length) :
    Writes negative digits e
      (signText negative ++ (digits.take (e + 1).toNat ++ '.' :: digits.drop (e + 1).toNat)) := by
  have hint := h.isInt (n := (e + 1).toNat) (by omega) 0
  rw [replicate_zero, append_nil] at hint
  obtain ⟨hfraction, hlast⟩ := h.drop (n := (e + 1).toNat) (by omega)
  have hvalue : scaled (digits.take (e + 1).toNat ++ ('.' :: digits.drop (e + 1).toNat).tail)
      ((digits.take (e + 1).toNat).length - 1) = scaled digits e := by
    have hcount : ((digits.take (e + 1).toNat).length : ℤ) - 1 = e := by
      rw [length_take]
      omega
    rw [tail_cons, take_append_drop, hcount]
  simpa using writes_plain negative hint hfraction hlast hvalue (by omega) (by omega)

theorem writes_small {e : ℤ} (hlow : -6 ≤ e) (hneg : e < 0) :
    Writes negative digits e (signText negative ++ '0' :: '.' :: (replicate (-e - 1).toNat '0' ++ digits)) := by
  have hfraction : IsFraction ('.' :: (replicate (-e - 1).toNat '0' ++ digits)) := by
    refine .digits ⟨fun hnil => h.all.1 (append_eq_nil_iff.mp hnil).2, fun ch hch => ?_⟩
    rcases mem_append.mp hch with hch | hch
    · rw [eq_of_mem_replicate hch]
      rfl
    · exact h.all.2 ch hch
  have hlast : ('.' :: (replicate (-e - 1).toNat '0' ++ digits)).getLast? ≠ some '0' := by
    rw [← cons_append]
    exact h.getLast_append
  have hvalue : scaled (['0'] ++ ('.' :: (replicate (-e - 1).toNat '0' ++ digits)).tail) (['0'].length - 1) =
      scaled digits e := by
    have hzeros : ['0'] ++ (replicate (-e - 1).toNat '0' ++ digits) = replicate (-e).toNat '0' ++ digits := by
      obtain ⟨n, hn⟩ : ∃ n : ℕ, -e = n + 1 := ⟨(-e - 1).toNat, by omega⟩
      have hcount : (-e).toNat = n + 1 ∧ (-e - 1).toNat = n := by omega
      rw [hcount.1, hcount.2, replicate_succ]
      rfl
    have hexponent : (['0'].length : ℤ) - 1 - ((-e).toNat : ℤ) = e := by
      rw [length_singleton]
      omega
    rw [tail_cons, hzeros, scaled_zeros_append, hexponent]
  simpa using writes_plain negative .zero hfraction hlast hvalue hlow (by omega)

/-- **What is written is tidy, denotes the number, and has an exponent only for large and small numbers.** -/
theorem es6Format_spec (e : ℤ) (hlength : digits.length < 2 ^ 31) :
    Writes negative digits e (es6Format negative digits e) := by
  have hk : wrapI32 digits.length = digits.length := wrapI32_of_lt (by omega) (by omega)
  unfold es6Format
  simp only [hk]
  by_cases hrange : ¬ (-6 ≤ e ∧ e < 21)
  · rw [if_pos hrange]
    simpa [signText] using writes_scientific h negative hrange
  rw [if_neg hrange]
  by_cases hpos : 0 ≤ e
  · rw [if_pos hpos]
    by_cases hshort : digits.length ≤ e + 1
    · have hwrap : wrapI32 (e + 1 - digits.length) = e + 1 - digits.length := wrapI32_of_lt (by omega) (by omega)
      rw [if_pos hshort, hwrap]
      exact writes_integer h negative (by omega) hshort
    · rw [if_neg hshort]
      exact writes_point h negative (by omega) hpos (by omega)
  · rw [if_neg hpos]
    exact writes_small h negative (by omega) (by omega)

end Layouts

/-! ### The text of a number -/

/-- What is written for a decimal as `ryu` renders it. -/
def es6Text (rendered : Text) : Text :=
  es6Format (parseShortestDecimal rendered).1 (parseShortestDecimal rendered).2.1 (parseShortestDecimal rendered).2.2

theorem abs_signed {digits : Text} (h : IsTrimmed digits) (negative : Bool) (e : ℤ) :
    |signed negative digits e| = scaled digits e := by
  have hpos := (h.log_scaled e).1
  rw [signed, abs_mul, abs_of_pos hpos]
  cases negative <;> simp

/-- **The text keeps the value of the decimal, has an exponent only outside the plain range, and no superfluous
zeros.** -/
theorem es6Text_spec {rendered : Text} (h : Rendered rendered) (hlength : rendered.length < 2 ^ 31)
    (hvalue : decimalValue rendered ≠ 0) :
    Writes (parseShortestDecimal rendered).1 (parseShortestDecimal rendered).2.1 (parseShortestDecimal rendered).2.2
        (es6Text rendered) ∧
      decimalValue (es6Text rendered) = decimalValue rendered ∧
      Int.log 10 |decimalValue rendered| = (parseShortestDecimal rendered).2.2 := by
  obtain ⟨htrimmed, hshort, hnumber⟩ := parseShortestDecimal_spec h hlength hvalue
  have hwrites := es6Format_spec htrimmed (parseShortestDecimal rendered).1 (parseShortestDecimal rendered).2.2 hshort
  refine ⟨hwrites, by rw [← hnumber]; exact hwrites.value, ?_⟩
  rw [← hnumber, abs_signed htrimmed, (htrimmed.log_scaled _).2]

/-- **A decimal shorter than `2 ^ 31` keeps its value.** Its text has no exponent exactly if the leading digit stands
between `10 ^ -6` and `10 ^ 20`, and no superfluous zeros. -/
theorem es6Text_keeps_value {rendered : Text} (h : Rendered rendered) (hlength : rendered.length < 2 ^ 31)
    (hvalue : decimalValue rendered ≠ 0) :
    decimalValue (es6Text rendered) = decimalValue rendered ∧
      (IsPlain (es6Text rendered) ↔
        -6 ≤ Int.log 10 |decimalValue rendered| ∧ Int.log 10 |decimalValue rendered| ≤ 20) ∧
      IsTidy (es6Text rendered) := by
  obtain ⟨hwrites, hkeeps, hlog⟩ := es6Text_spec h hlength hvalue
  rw [hlog]
  exact ⟨hkeeps, hwrites.plain, hwrites.tidy⟩

theorem es6Text_keeps_value_sample :
    decimalValue (es6Text ['-', '1', '2', '0', '.', '5', '0']) = decimalValue ['-', '1', '2', '0', '.', '5', '0'] ∧
      (IsPlain (es6Text ['-', '1', '2', '0', '.', '5', '0']) ↔
        -6 ≤ Int.log 10 |decimalValue ['-', '1', '2', '0', '.', '5', '0']| ∧
          Int.log 10 |decimalValue ['-', '1', '2', '0', '.', '5', '0']| ≤ 20) ∧
      IsTidy (es6Text ['-', '1', '2', '0', '.', '5', '0']) := by
  have hint : IsInt ['1', '2', '0'] := .digits rfl (by decide) (forall_mem_cons.mpr ⟨rfl, forall_mem_singleton.mpr rfl⟩)
  have hfraction : IsDigits ['5', '0'] := ⟨cons_ne_nil _ _, forall_mem_cons.mpr ⟨rfl, forall_mem_singleton.mpr rfl⟩⟩
  have hrendered : Rendered ['-', '1', '2', '0', '.', '5', '0'] := .plain (.inr rfl) hint hfraction
  exact es6Text_keeps_value hrendered (by decide) (by decide +kernel)

/-- A one, `n` zeros, a point and a zero. -/
def powerOfTen (n : ℕ) : Text := [] ++ ('1' :: replicate n '0' ++ ('.' :: ['0'] ++ []))

theorem trimEndZeros_one (n : ℕ) : trimEndZeros ('1' :: replicate n '0') = ['1'] := by
  induction n with
  | zero => rfl
  | succ n ih =>
    rw [replicate_succ', ← cons_append, trimEndZeros, rdropWhile_concat, if_pos (by decide)]
    exact ih

section PowerOfTen

variable (n : ℕ)

theorem powerOfTen_isInt : IsInt ('1' :: replicate n '0') :=
  .digits rfl (by decide) fun ch hch => by rw [eq_of_mem_replicate hch]; rfl

theorem isDigits_zero : IsDigits ['0'] := ⟨cons_ne_nil _ _, forall_mem_singleton.mpr rfl⟩

theorem isTrimmed_one : IsTrimmed ['1'] := ⟨⟨cons_ne_nil _ _, forall_mem_singleton.mpr rfl⟩, by decide, by decide⟩

theorem decimalValue_powerOfTen : decimalValue (powerOfTen n) = scaled ['1'] n := by
  have hparts := decimalValue_parts (.inl rfl) (powerOfTen_isInt n).isDigits (.digits isDigits_zero) .none
  have hzeros : '1' :: replicate n '0' ++ ['0'] = ['1'] ++ replicate (n + 1) '0' := by
    rw [replicate_succ', cons_append, singleton_append]
  have hcount : (('1' :: replicate n '0').length : ℤ) - 1 + intOf (tail []) = n := by
    have hnone : intOf (tail []) = 0 := rfl
    rw [hnone, length_cons, length_replicate]
    omega
  rw [powerOfTen, hparts, tail_cons, hcount, hzeros, scaled_append_zeros]
  simp

/-- The exponent that is read goes round with the length. -/
theorem decimalValue_es6Text_powerOfTen {e : ℤ} (he : wrapI32 (wrapI32 ((n + 1 : ℕ) : ℤ) - 1) = e)
    (hlow : -2 ^ 31 ≤ e) (hhigh : e < 2 ^ 31) : decimalValue (es6Text (powerOfTen n)) = scaled ['1'] e := by
  have hint := (powerOfTen_isInt n).isDigits
  have hfraction : IsFraction ('.' :: ['0']) := .digits isDigits_zero
  have hcoeff : coeffToDigits ('1' :: replicate n '0' ++ '.' :: ['0']) = (['1'], e) := by
    obtain ⟨htake, hdrop⟩ := split_point hint hfraction
    have hsome : ¬ ('1' :: replicate n '0' = [] ∨ '1' :: replicate n '0' = ['0']) := by simp
    have hdigits : '1' :: replicate n '0' ++ ['0'] = '1' :: replicate (n + 1) '0' := by
      rw [replicate_succ', cons_append]
    unfold coeffToDigits
    simp only [hdrop, htake, if_neg hsome]
    rw [hdigits, trimEndZeros_one, length_cons, length_replicate, he]
  have hparse : parseShortestDecimal (powerOfTen n) = (false, ['1'], e) := by
    rw [powerOfTen, parseShortestDecimal_parts (.inl rfl) hint hfraction .none (by decide) (by decide), hcoeff]
    have hnone : intOf (tail []) = 0 := rfl
    rw [hnone, add_zero, wrapI32_of_lt hlow hhigh]
    rfl
  have hwrites := es6Format_spec isTrimmed_one false e (by decide)
  rw [es6Text, hparse, hwrites.value, signed, if_neg (by decide), one_mul]

end PowerOfTen

/-- With `2 ^ 31` zeros before the point the number of digits does not fit an `i32`: `10 ^ (2 ^ 31)` is written as
`1e-2147483648`. -/
theorem long_decimal_loses_value :
    Rendered (powerOfTen (2 ^ 31)) ∧ decimalValue (powerOfTen (2 ^ 31)) ≠ 0 ∧
      decimalValue (es6Text (powerOfTen (2 ^ 31))) ≠ decimalValue (powerOfTen (2 ^ 31)) := by
  have hlost := decimalValue_es6Text_powerOfTen (2 ^ 31) (e := -2 ^ 31) (by decide) (by decide) (by decide)
  obtain ⟨hpos, hlog⟩ := isTrimmed_one.log_scaled ((2 ^ 31 : ℕ) : ℤ)
  rw [hlost, decimalValue_powerOfTen]
  refine ⟨.plain (.inl rfl) (powerOfTen_isInt _) isDigits_zero, hpos.ne', fun heq => ?_⟩
  rw [← heq, (isTrimmed_one.log_scaled _).2] at hlog
  omega

end Json
end Mega
