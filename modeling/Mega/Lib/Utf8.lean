/-
# Reading bytes as UTF-8

Bytes that need not be UTF-8 are read from the front. `validText` is what can be
read before the first byte that starts no character. `lossyText` goes on behind it:
each longest run of bytes that begins a character and does not end it becomes a
replacement character.

Key definitions: `encode`, `decodeFirst`, `validText`, `validLength`, `lossyText`.
Key theorem: `take_validLength`.
-/
import Mathlib

namespace Utf8

open List

def encode (text : List Char) : List UInt8 := text.flatMap String.utf8EncodeChar

theorem encode_append (a b : List Char) : encode (a ++ b) = encode a ++ encode b := flatMap_append

/-- The character at the front of the bytes. -/
def decodeFirst (bytes : List UInt8) : Option Char := bytes.toByteArray.utf8DecodeChar? 0

theorem decodeFirst_eq_some {bytes : List UInt8} {c : Char} (h : decodeFirst bytes = some c) :
    bytes = String.utf8EncodeChar c ++ bytes.drop c.utf8Size := by
  have harray := congrArg (fun b : ByteArray => b.data.toList) (ByteArray.eq_of_utf8DecodeChar?_eq_some h)
  have hbytes : bytes = String.utf8EncodeChar c ++ (bytes.drop c.utf8Size).take (bytes.length - c.utf8Size) := by
    simpa using harray
  rwa [take_of_length_le (by rw [length_drop])] at hbytes

/-! ### Up to the first error -/

/-- The characters that are read, at most so many. -/
def scan : ℕ → List UInt8 → List Char
  | 0, _ => []
  | fuel + 1, bytes =>
    match decodeFirst bytes with
    | none => []
    | some c => c :: scan fuel (bytes.drop c.utf8Size)

def validText (bytes : List UInt8) : List Char := scan bytes.length bytes

theorem encode_scan_isPrefix (fuel : ℕ) (bytes : List UInt8) : encode (scan fuel bytes) <+: bytes := by
  induction fuel generalizing bytes with
  | zero => exact nil_prefix
  | succ fuel ih =>
    rw [scan]
    cases hfirst : decodeFirst bytes with
    | none => exact nil_prefix
    | some c =>
      obtain ⟨rest, hrest⟩ := ih (bytes.drop c.utf8Size)
      refine ⟨rest, ?_⟩
      show String.utf8EncodeChar c ++ encode _ ++ rest = bytes
      rw [append_assoc, hrest, ← decodeFirst_eq_some hfirst]

/-- How many bytes there are before the first error. -/
def validLength (bytes : List UInt8) : ℕ := (encode (validText bytes)).length

theorem validLength_le (bytes : List UInt8) : validLength bytes ≤ bytes.length :=
  (encode_scan_isPrefix _ bytes).length_le

/-- **The bytes before the first error are UTF-8.** -/
theorem take_validLength (bytes : List UInt8) : bytes.take (validLength bytes) = encode (validText bytes) :=
  (prefix_iff_eq_take.mp (encode_scan_isPrefix _ bytes)).symm

/-! ### Past errors -/

def isContinuation (b : UInt8) : Bool := 0x80 ≤ b && b ≤ 0xBF

/-- The second byte of a character of three or four bytes. -/
def secondFits (first second : UInt8) : Bool :=
  if first == 0xE0 then 0xA0 ≤ second && second ≤ 0xBF
  else if first == 0xED then 0x80 ≤ second && second ≤ 0x9F
  else if first == 0xF0 then 0x90 ≤ second && second ≤ 0xBF
  else if first == 0xF4 then 0x80 ≤ second && second ≤ 0x8F
  else 0xE1 ≤ first && first ≤ 0xF3 && isContinuation second

/-- How many bytes of a character that is not there are replaced at once. -/
def badLength : List UInt8 → ℕ
  | first :: second :: third :: _ =>
    if secondFits first second then if 0xF0 ≤ first && isContinuation third then 3 else 2 else 1
  | [first, second] => if secondFits first second then 2 else 1
  | _ => 1

def replacement : Char := '\uFFFD'

def replaceFrom : ℕ → List UInt8 → List Char
  | 0, _ => []
  | _ + 1, [] => []
  | fuel + 1, bytes =>
    match decodeFirst bytes with
    | some c => c :: replaceFrom fuel (bytes.drop c.utf8Size)
    | none => replacement :: replaceFrom fuel (bytes.drop (badLength bytes))

def lossyText (bytes : List UInt8) : List Char := replaceFrom bytes.length bytes

-- a character that is cut off is replaced at once, a byte that starts none by itself
example : lossyText [0x61, 0xE2, 0x82, 0x62, 0xFF, 0xC0, 0x80] =
    ['a', replacement, 'b', replacement, replacement, replacement] := by decide +kernel

end Utf8
