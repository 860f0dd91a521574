/-
# JSON numbers

The numbers of `common/canonical_json.rs`: the numerals of JSON, and the text that
`es6_number_to_string` writes as ECMAScript does, from the shortest decimal that
`ryu` gives.

Key definitions: `IsInt`, `IsFraction`, `IsExponent`, `parseShortestDecimal`, `es6Format`.
-/
import Mega.Lib.Decimal
import Mega.Json.Strings

namespace Mega
namespace Json

open List

/-! ### Numerals -/

def isMark (ch : Char) : Prop := ch = 'e' ∨ ch = 'E'

instance (ch : Char) : Decidable (isMark ch) := inferInstanceAs (Decidable (_ ∨ _))

def IsDigits (digits : Text) : Prop := digits ≠ [] ∧ ∀ ch ∈ digits, ch.isDigit = true

inductive IsInt : Text → Prop
  | zero : IsInt ['0']
  | digits {ch : Char} {digits : Text} (hdigit : ch.isDigit = true) (hzero : ch ≠ '0')
      (h : ∀ ch ∈ digits, ch.isDigit = true) : IsInt (ch :: digits)

inductive IsFraction : Text → Prop
  | none : IsFraction []
  | digits {digits : Text} (h : IsDigits digits) : IsFraction ('.' :: digits)

inductive IsExponent : Text → Prop
  | none : IsExponent []
  | digits {mark : Char} {sign digits : Text} (hmark : isMark mark) (hsign : sign = [] ∨ sign = ['+'] ∨ sign = ['-'])
      (h : IsDigits digits) : IsExponent (mark :: (sign ++ digits))

/-! ### Writing -/

/-- `to_string` of an integer. -/
def intText (e : ℤ) : Text := if e < 0 then '-' :: Nat.toDigits 10 e.natAbs else Nat.toDigits 10 e.natAbs

/-- Arithmetic of `i32`, and `as i32`: both go round. -/
def wrapI32 (n : ℤ) : ℤ := n.bmod (2 ^ 32)

/-- `str::parse::<i32>`. -/
def parseI32 (text : Text) : Option ℤ :=
  let negative := text.head? = some '-'
  let digits := if negative ∨ text.head? = some '+' then text.tail else text
  if digits = [] ∨ digits.any (fun ch => !ch.isDigit) then none
  else
    let value : ℤ := if negative then -Decimal.value digits else Decimal.value digits
    if -2 ^ 31 ≤ value ∧ value < 2 ^ 31 then some value else none

def trimEndZeros (digits : Text) : Text := digits.rdropWhile (· = '0')

/-- The digits of a coefficient without its point, and the exponent of the first of them. -/
def coeffToDigits (coeff : Text) : Text × ℤ :=
  match coeff.dropWhile (· ≠ '.') with
  | _ :: fraction =>
    let int := coeff.takeWhile (· ≠ '.')
    if int = [] ∨ int = ['0'] then
      let leadingZeros := (fraction.takeWhile (· = '0')).length
      let digits := trimEndZeros (fraction.drop leadingZeros)
      (if digits = [] then ['0'] else digits, wrapI32 (-wrapI32 (wrapI32 leadingZeros + 1)))
    else (trimEndZeros (int ++ fraction), wrapI32 (wrapI32 int.length - 1))
  | [] =>
    let digits := coeff.dropWhile (· = '0')
    let digits := if digits = [] then ['0'] else digits
    (digits, wrapI32 (wrapI32 digits.length - 1))

/-- Sign, digits and exponent of a decimal as `ryu` renders it. -/
def parseShortestDecimal (rendered : Text) : Bool × Text × ℤ :=
  let negative := rendered.head? = some '-'
  let body := if negative then rendered.tail else rendered
  let coeff := body.takeWhile fun ch => ¬ isMark ch
  let exponent :=
    match body.dropWhile fun ch => ¬ isMark ch with
    | _ :: exponent => (parseI32 (exponent.dropWhile (· = '+'))).getD 0
    | [] => 0
  (negative, (coeffToDigits coeff).1, wrapI32 ((coeffToDigits coeff).2 + exponent))

def es6Format (negative : Bool) (digits : Text) (e : ℤ) : Text :=
  let k := wrapI32 digits.length
  (if negative then ['-'] else []) ++
    if ¬ (-6 ≤ e ∧ e < 21) then
      digits.take 1 ++ ((if 1 < k then '.' :: digits.drop 1 else []) ++
        'e' :: ((if 0 ≤ e then ['+'] else []) ++ intText e))
    else if 0 ≤ e then
      if k ≤ e + 1 then digits ++ replicate (wrapI32 (e + 1 - k)).toNat '0'
      else digits.take (e + 1).toNat ++ '.' :: digits.drop (e + 1).toNat
    else '0' :: '.' :: (replicate (-e - 1).toNat '0' ++ digits)

end Json
end Mega
