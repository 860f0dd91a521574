/-
# Reading a pack

The readers of `ceres/traces/pack_decode.rs`: so many bytes of the stream, and the
header of an object with its type and size.

`read_exact` of the standard library retries an interrupted read for ever; here it
gives up as `Stop.pending` after `patience` retries.

Key definitions: `readFull`, `readSize`, `readTypeAndSize`.
-/
import Mega.Lib.Prog
import Mega.Traces.HashingReader

namespace Mega
namespace PackDecode

open List

inductive ObjectType where
  | commit
  | tree
  | blob
  | tag
deriving DecidableEq

/-- The errors of these readers. -/
inductive PackError where
  | truncated
  | sizeOverflow
  | io (kind : ErrorKind)
deriving DecidableEq

/-- Why a decoder stopped: an error, or it is still retrying an interrupted read. -/
inductive Stop where
  | failed (error : PackError)
  | pending
deriving DecidableEq

variable {σ : Type} (src : Source σ)

/-- `read_full`, with the loop of `read_exact`. -/
def readFull (patience n : ℕ) : Prog (HashingReader σ) Stop Bytes := fun r =>
  if n = 0 then (.ok [], r)
  else
    match r.read src n with
    | (r, .ok []) => (.error (.failed .truncated), r)
    | (r, .ok (b :: bytes)) =>
      match readFull patience (n - (b :: bytes).length) r with
      | (.ok more, r) => (.ok (b :: bytes ++ more), r)
      | (.error stop, r) => (.error stop, r)
    | (r, .error .interrupted) => if patience = 0 then (.error .pending, r) else readFull (patience - 1) n r
    | (r, .error .unexpectedEof) => (.error (.failed .truncated), r)
    | (r, .error kind) => (.error (.failed (.io kind)), r)
termination_by n + patience
decreasing_by
  · rw [length_cons]
    omega
  · omega

def readU8 (patience : ℕ) : Prog (HashingReader σ) Stop ℕ := do
  let byte ← readFull src patience 1
  return (byte.headD 0).toNat

/-- The further bytes of a size: seven bits each, lowest first. -/
def readSize (patience shift size byte : ℕ) : Prog (HashingReader σ) Stop ℕ :=
  if byte < 128 then pure size
  else do
    let byte ← readU8 src patience
    let part := byte % 128
    if 64 ≤ shift ∨ (2 ^ 64 - 1) / 2 ^ shift < part then throw (.failed .sizeOverflow)
    else if 2 ^ 64 ≤ size + part * 2 ^ shift then throw (.failed .sizeOverflow)
    else readSize patience (shift + 7) (size + part * 2 ^ shift) byte
termination_by 64 - shift
decreasing_by omega

def readTypeAndSize (patience : ℕ) : Prog (HashingReader σ) Stop (ℕ × ℕ) := do
  let byte ← readU8 src patience
  let size ← readSize src patience 4 (byte % 16) byte
  return (byte / 16 % 8, size)

end PackDecode
end Mega
