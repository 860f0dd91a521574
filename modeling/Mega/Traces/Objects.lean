/-
# Raw trace objects

What the fetch and the publication of trace streams share: the errors, the
types of raw Git objects with the links that are parsed from their bytes, and
the texts of object ids.

Key definitions: `TracesError`, `RawObjectType`, `VerifiedRawObject`.
-/
import Mathlib

namespace Mega
namespace Traces

inductive TracesError where
  | unknownScope
  | invalidParameter
  | objectIntegrity
  | responseBudget
  | queryTimeout
  /-- a loop of the model has run out of steps -/
  | unfinished
deriving DecidableEq

def integrity : TracesError := .objectIntegrity

/-- A file of the spool could not be read or written. -/
def ioError : TracesError := .queryTimeout

inductive RawObjectType where
  | commit
  | tree
  | blob
  | tag
deriving DecidableEq

inductive RawTreeMode where
  | tree
  | blob
  | gitlink
deriving DecidableEq

structure RawTreeEntry where
  mode : RawTreeMode
  name : List UInt8
  oid : String
deriving DecidableEq

structure CommitLinks where
  tree : String
  parents : List String

structure VerifiedRawObject where
  objectType : RawObjectType
  bytes : List UInt8
deriving DecidableEq

/-- `TracesProtocolLimits::MAX_OBJECT_BYTES`. -/
def maxObjectBytes : ℕ := 67108864

def isAsciiHexdigit (c : Char) : Bool :=
  c.isDigit || (decide ('a' ≤ c) && decide (c ≤ 'f')) || (decide ('A' ≤ c) && decide (c ≤ 'F'))

def toAsciiLowercase (text : String) : String := String.ofList (text.toList.map Char.toLower)

def hexDigit (n : ℕ) : Char := "0123456789abcdef".toList.getD n '0'

def hexEncode (bytes : List UInt8) : String :=
  String.ofList (bytes.flatMap fun byte => [hexDigit (byte.toNat / 16), hexDigit (byte.toNat % 16)])

def fromUtf8 (bytes : List UInt8) : Option String := String.fromUTF8? ⟨bytes.toArray⟩

end Traces
end Mega
