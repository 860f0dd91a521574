/-
# JSON strings

`write_json_string` of `common/canonical_json.rs`. A string is written in its
compact form, where only what must be escaped is; the serializer of the wire types
writes the same form.

Key definitions: `writeChar`, `writeJsonString`.
-/
import Mathlib
import Mega.Lib.Fallible

namespace Mega
namespace Json

open List

abbrev Text := List Char

/-- A digit of `{:x}`. -/
def hexDigit (n : ℕ) : Char := Char.ofNat (if n < 10 then '0'.toNat + n else 'a'.toNat + (n - 10))

/-- `{:04x}` of a number below `2 ^ 16`. -/
def hex4 (n : ℕ) : Text := [hexDigit (n / 4096 % 16), hexDigit (n / 256 % 16), hexDigit (n / 16 % 16), hexDigit (n % 16)]

def writeChar (ch : Char) : Text :=
  if ch = '"' then ['\\', '"']
  else if ch = '\\' then ['\\', '\\']
  else if ch = '\x08' then ['\\', 'b']
  else if ch = '\t' then ['\\', 't']
  else if ch = '\n' then ['\\', 'n']
  else if ch = '\x0c' then ['\\', 'f']
  else if ch = '\r' then ['\\', 'r']
  else if ch.toNat < 0x20 then '\\' :: 'u' :: hex4 ch.toNat
  else [ch]

def writeJsonString (s : Text) : Text := '"' :: s.flatMap writeChar ++ ['"']

end Json
end Mega
