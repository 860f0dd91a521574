/-
# The header of an object in a pack

An object begins with its type and its size: three bits of type and four of size in
the first byte, then seven bits of size in each further byte, lowest first, as long
as the top bit is set. `object_inner` of `ceres/traces/pack_encode.rs` writes it, and
`read_type_and_size` of `pack_decode.rs` reads it. What is read is the number that is
written there, or an error: a size that does not fit 64 bits is never cut off.

Key definitions: `objectHeader`, `base128`, `headerValue`, `decodeSize`.
Key theorems: `decodeSize_exact`, `decodeSize_overflow`, `decodeSize_encodeGroups`, `header_exact`.
-/
import Mega.Lib.Fallible
import Mega.Traces.PackStream

namespace Mega
namespace PackDecode

open List

/-! ### Writing -/

/-- The number of an object type. -/
def objectTag : ObjectType → ℕ
  | .commit => 1
  | .tree => 2
  | .blob => 3
  | .tag => 4

/-- The byte, with its top bit set if more of the size follows, and the further bytes. -/
def encodeGroups (byte size : ℕ) : Bytes :=
  if size = 0 then [UInt8.ofNat byte] else UInt8.ofNat (byte + 128) :: encodeGroups (size % 128) (size / 128)
termination_by size
decreasing_by omega

/-- The header bytes that `object_inner` writes. -/
def objectHeader (type : ObjectType) (size : ℕ) : Bytes := encodeGroups (objectTag type * 16 + size % 16) (size / 16)

/-! ### The number that is written -/

/-- A little-endian number of base 128. -/
def base128 : Bytes → ℕ
  | [] => 0
  | b :: bytes => b.toNat % 128 + 128 * base128 bytes

/-- The further bytes of a number: up to the first without its top bit, none if the byte before has not. -/
def further (byte : ℕ) : Bytes → Bytes
  | [] => []
  | b :: bytes => if byte < 128 then [] else b :: further b.toNat bytes

/-- The size that the header at the front denotes. -/
def headerValue : Bytes → ℕ
  | [] => 0
  | b :: bytes => b.toNat % 16 + 16 * base128 (further b.toNat bytes)

/-! ### Reading from a list -/

/-- `readSize` on a list of bytes. -/
def decodeSize (shift size byte : ℕ) : Bytes → Except PackError (ℕ × Bytes)
  | [] => if byte < 128 then .ok (size, []) else .error .truncated
  | b :: bytes =>
    if byte < 128 then .ok (size, b :: bytes)
    else if 64 ≤ shift ∨ (2 ^ 64 - 1) / 2 ^ shift < b.toNat % 128 then .error .sizeOverflow
    else if 2 ^ 64 ≤ size + b.toNat % 128 * 2 ^ shift then .error .sizeOverflow
    else decodeSize (shift + 7) (size + b.toNat % 128 * 2 ^ shift) b.toNat bytes

/-- The part of the size that a byte and those behind it make up. -/
theorem base128_split (shift size : ℕ) (b : UInt8) (bytes : Bytes) :
    size + 2 ^ shift * base128 (b :: bytes) = size + b.toNat % 128 * 2 ^ shift + 2 ^ (shift + 7) * base128 bytes := by
  rw [base128, pow_add]
  ring

/-- **What is read is the number, and it fits.** -/
theorem decodeSize_exact : ∀ (bytes : Bytes) {shift size byte n : ℕ} {rest : Bytes}, size < 2 ^ 64 →
    decodeSize shift size byte bytes = .ok (n, rest) →
    n = size + 2 ^ shift * base128 (further byte bytes) ∧ n < 2 ^ 64 ∧ bytes = further byte bytes ++ rest
  | [], shift, size, byte, n, rest, hsize, h => by
    rw [decodeSize] at h
    split_ifs at h
    cases h
    exact ⟨rfl, hsize, rfl⟩
  | b :: bytes, shift, size, byte, n, rest, hsize, h => by
    rw [decodeSize] at h
    split_ifs at h with hlast hwide hover
    · cases h
      rw [further, if_pos hlast]
      exact ⟨rfl, hsize, rfl⟩
    · obtain ⟨hn, hlt, hsplit⟩ := decodeSize_exact bytes (by omega) h
      rw [further, if_neg hlast, base128_split]
      exact ⟨hn, hlt, by rw [cons_append, ← hsplit]⟩

/-- **A number that does not fit is an overflow.** -/
theorem decodeSize_overflow : ∀ (bytes : Bytes) {shift size byte : ℕ}, size < 2 ^ 64 →
    2 ^ 64 ≤ size + 2 ^ shift * base128 (further byte bytes) →
    decodeSize shift size byte bytes = .error .sizeOverflow
  | [], shift, size, byte, hsize, h => by
    rw [further, base128, Nat.mul_zero] at h
    omega
  | b :: bytes, shift, size, byte, hsize, h => by
    rw [further] at h
    rw [decodeSize]
    split_ifs at h ⊢ with hlast hwide hover
    · rw [base128, Nat.mul_zero] at h
      omega
    · rfl
    · rfl
    · rw [base128_split] at h
      exact decodeSize_overflow bytes (by omega) h

theorem toNat_ofNat {n : ℕ} (h : n < 256) : (UInt8.ofNat n).toNat = n := Nat.mod_eq_of_lt h

/-- **What is written is read**, whatever follows it. -/
theorem decodeSize_encodeGroups (s : ℕ) : ∀ {shift size byte : ℕ} (rest : Bytes), 128 ≤ byte → s ≠ 0 →
    size + 2 ^ shift * s < 2 ^ 64 →
    decodeSize shift size byte (encodeGroups (s % 128) (s / 128) ++ rest) = .ok (size + 2 ^ shift * s, rest) := by
  induction s using Nat.strong_induction_on with
  | _ s ih =>
    intro shift size byte rest hbyte hs hfits
    have hparts : 2 ^ shift * s = s % 128 * 2 ^ shift + 2 ^ (shift + 7) * (s / 128) := by
      nth_rewrite 1 [← Nat.mod_add_div s 128]
      rw [pow_add]
      ring
    have hnarrow : ¬ (64 ≤ shift ∨ (2 ^ 64 - 1) / 2 ^ shift < s % 128) := by
      rintro (hwide | hwide)
      · have hpow : 2 ^ 64 ≤ 2 ^ shift := Nat.pow_le_pow_right (by decide) hwide
        have hone : 2 ^ shift ≤ 2 ^ shift * s := Nat.le_mul_of_pos_right _ (Nat.pos_of_ne_zero hs)
        omega
      · rw [Nat.div_lt_iff_lt_mul (Nat.two_pow_pos shift)] at hwide
        omega
    have hstep (b : UInt8) (hb : b.toNat % 128 = s % 128) (more : Bytes) :
        decodeSize shift size byte (b :: more) = decodeSize (shift + 7) (size + s % 128 * 2 ^ shift) b.toNat more := by
      rw [decodeSize, hb, if_neg (by omega), if_neg hnarrow, if_neg (by omega)]
    rw [encodeGroups]
    by_cases hlast : s / 128 = 0
    · have hb : (UInt8.ofNat (s % 128)).toNat = s % 128 := toNat_ofNat (by omega)
      rw [if_pos hlast, singleton_append, hstep _ (by omega), hb, hparts, hlast]
      rcases rest with _ | ⟨b, rest⟩
      · rw [decodeSize, if_pos (by omega), Nat.mul_zero, Nat.add_zero]
      · rw [decodeSize, if_pos (by omega), Nat.mul_zero, Nat.add_zero]
    · have hb : (UInt8.ofNat (s % 128 + 128)).toNat = s % 128 + 128 := toNat_ofNat (by omega)
      rw [if_neg hlast, cons_append, hstep _ (by omega), hb, hparts, ← Nat.add_assoc]
      exact ih (s / 128) (by omega) rest (by omega) hlast (by omega)

/-! ### Reading from a stream -/

/-- The program answers as the list decoder does, and leaves what that leaves. -/
def Agrees {σ α : Type} {src : Source σ} (stream : Stream src) (x : Prog (HashingReader σ) Stop α) (r : HashingReader σ) :
    Except PackError (α × Bytes) → Prop
  | .ok (a, rest) => ∃ r', x.exec r = (.ok a, r') ∧ stream.ahead r' = rest
  | .error e => ∃ r', x.exec r = (.error (.failed e), r')

section Streams

variable {σ : Type} {src : Source σ} (stream : Stream src) (patience : ℕ)

theorem readSize_agrees : ∀ (bytes : Bytes) (shift size byte : ℕ) (r : HashingReader σ), stream.ahead r = bytes →
    Agrees stream (readSize src patience shift size byte) r (decodeSize shift size byte bytes)
  | [], shift, size, byte, r, hahead => by
    rw [readSize, decodeSize]
    split_ifs with hlast
    · exact ⟨r, rfl, hahead⟩
    · rcases readU8_ahead stream patience r with ⟨b, rest, r', hbytes, -⟩ | ⟨-, r', hrun⟩
      · rw [hahead] at hbytes
        cases hbytes
      · exact ⟨r', by rw [Prog.exec_bind, hrun]⟩
  | b :: bytes, shift, size, byte, r, hahead => by
    rw [readSize, decodeSize]
    by_cases hlast : byte < 128
    · rw [if_pos hlast, if_pos hlast]
      exact ⟨r, rfl, hahead⟩
    rw [if_neg hlast, if_neg hlast]
    rcases readU8_ahead stream patience r with ⟨b', rest, r', hbytes, hrun, hrest⟩ | ⟨hnone, -⟩
    · rw [hahead] at hbytes
      cases hbytes
      have ih := readSize_agrees bytes (shift + 7) (size + b.toNat % 128 * 2 ^ shift) b.toNat r' hrest
      split_ifs with hwide hover
      · exact ⟨r', by rw [Prog.exec_bind, hrun]; simp only [if_pos hwide]; rfl⟩
      · exact ⟨r', by rw [Prog.exec_bind, hrun]; simp only [if_neg hwide, if_pos hover]; rfl⟩
      · unfold Agrees at ih ⊢
        simp only [Prog.exec_bind, hrun, if_neg hwide, if_neg hover]
        exact ih
    · rw [hahead] at hnone
      cases hnone

/-- `readTypeAndSize` on a list of bytes. -/
def decodeHeader : Bytes → Except PackError ((ℕ × ℕ) × Bytes)
  | [] => .error .truncated
  | b :: bytes => do
    let (size, rest) ← decodeSize 4 (b.toNat % 16) b.toNat bytes
    return ((b.toNat / 16 % 8, size), rest)

theorem readTypeAndSize_agrees (r : HashingReader σ) :
    Agrees stream (readTypeAndSize src patience) r (decodeHeader (stream.ahead r)) := by
  rcases readU8_ahead stream patience r with ⟨b, rest, r', hbytes, hrun, hrest⟩ | ⟨hnone, r', hrun⟩
  · have hsize := readSize_agrees stream patience rest 4 (b.toNat % 16) b.toNat r' hrest
    rw [hbytes, decodeHeader]
    rcases hdecode : decodeSize 4 (b.toNat % 16) b.toNat rest with e | ⟨size, rest'⟩
    · rw [hdecode] at hsize
      obtain ⟨r'', hread⟩ := hsize
      exact ⟨r'', by rw [readTypeAndSize, Prog.exec_bind, hrun]; simp only [Prog.exec_bind, hread]⟩
    · rw [hdecode] at hsize
      obtain ⟨r'', hread, hrest'⟩ := hsize
      exact ⟨r'', by rw [readTypeAndSize, Prog.exec_bind, hrun]; simp only [Prog.exec_bind, hread]; rfl, hrest'⟩
  · rw [hnone]
    exact ⟨r', by rw [readTypeAndSize, Prog.exec_bind, hrun]⟩

end Streams

/-! ### The header -/

theorem decodeHeader_objectHeader (type : ObjectType) {size : ℕ} (hsize : size < 2 ^ 64) (rest : Bytes) :
    decodeHeader (objectHeader type size ++ rest) = .ok ((objectTag type, size), rest) := by
  have htag : objectTag type < 8 := by cases type <;> decide
  rw [objectHeader, encodeGroups]
  by_cases hsmall : size / 16 = 0
  · have hb : (UInt8.ofNat (objectTag type * 16 + size % 16)).toNat = objectTag type * 16 + size % 16 :=
      toNat_ofNat (by omega)
    have hread : decodeSize 4 ((objectTag type * 16 + size % 16) % 16) (objectTag type * 16 + size % 16) rest =
        .ok ((objectTag type * 16 + size % 16) % 16, rest) := by
      rcases rest with _ | ⟨b, rest⟩
      · rw [decodeSize, if_pos (by omega)]
      · rw [decodeSize, if_pos (by omega)]
    have hparts : (objectTag type * 16 + size % 16) / 16 % 8 = objectTag type ∧
        (objectTag type * 16 + size % 16) % 16 = size := by omega
    rw [if_pos hsmall, singleton_append, decodeHeader, hb, hread, hparts.2]
    simp only [hparts.1]
    rfl
  · have hb : (UInt8.ofNat (objectTag type * 16 + size % 16 + 128)).toNat = objectTag type * 16 + size % 16 + 128 :=
      toNat_ofNat (by omega)
    have hparts : (objectTag type * 16 + size % 16 + 128) / 16 % 8 = objectTag type ∧
        (objectTag type * 16 + size % 16 + 128) % 16 = size % 16 ∧ size % 16 + 2 ^ 4 * (size / 16) = size := by omega
    have hread : decodeSize 4 (size % 16) (objectTag type * 16 + size % 16 + 128)
        (encodeGroups (size / 16 % 128) (size / 16 / 128) ++ rest) = .ok (size % 16 + 2 ^ 4 * (size / 16), rest) :=
      decodeSize_encodeGroups (size / 16) rest (by omega) hsmall (by omega)
    rw [if_neg hsmall, cons_append, decodeHeader, hb, hparts.2.1, hread]
    simp only [hparts.1, hparts.2.2]
    rfl

theorem decodeHeader_exact {bytes rest : Bytes} {code n : ℕ} (h : decodeHeader bytes = .ok ((code, n), rest)) :
    n = headerValue bytes ∧ n < 2 ^ 64 := by
  rcases bytes with _ | ⟨b, bytes⟩
  · cases h
  obtain ⟨⟨n', rest'⟩, hsize, hreturn⟩ := Fallible.bind_eq_ok.mp h
  cases hreturn
  obtain ⟨hn, hlt, -⟩ := decodeSize_exact bytes (by omega) hsize
  exact ⟨hn, hlt⟩

theorem decodeHeader_overflow {bytes : Bytes} (h : 2 ^ 64 ≤ headerValue bytes) :
    decodeHeader bytes = .error .sizeOverflow := by
  rcases bytes with _ | ⟨b, bytes⟩
  · exact absurd h (by decide)
  · rw [decodeHeader, decodeSize_overflow bytes (by omega) h]
    rfl

/-- **The header of an object is exact**, from any reader of a byte stream, in pieces of any size: what was written
for a type and a size below `2 ^ 64` is read back, and nothing more; what is read from any bytes is the number they
denote, or an error; and a number of `2 ^ 64` or more is the overflow error. -/
theorem header_exact {σ : Type} {src : Source σ} (stream : Stream src) (patience : ℕ) (r : HashingReader σ) :
    (∀ (type : ObjectType) (size : ℕ) (rest : Bytes), size < 2 ^ 64 → stream.ahead r = objectHeader type size ++ rest →
      ∃ r', (readTypeAndSize src patience).exec r = (.ok (objectTag type, size), r') ∧ stream.ahead r' = rest) ∧
      ((∃ code r', (readTypeAndSize src patience).exec r = (.ok (code, headerValue (stream.ahead r)), r')) ∨
        ∃ e r', (readTypeAndSize src patience).exec r = (.error (.failed e), r')) ∧
      (2 ^ 64 ≤ headerValue (stream.ahead r) →
        ∃ r', (readTypeAndSize src patience).exec r = (.error (.failed .sizeOverflow), r')) := by
  have hagrees := readTypeAndSize_agrees stream patience r
  refine ⟨fun type size rest hsize hahead => ?_, ?_, fun hlarge => ?_⟩
  · rw [hahead, decodeHeader_objectHeader type hsize] at hagrees
    exact hagrees
  · rcases hdecode : decodeHeader (stream.ahead r) with e | ⟨⟨code, n⟩, rest⟩
    · rw [hdecode] at hagrees
      obtain ⟨r', hrun⟩ := hagrees
      exact .inr ⟨e, r', hrun⟩
    · rw [hdecode] at hagrees
      obtain ⟨r', hrun, -⟩ := hagrees
      rw [(decodeHeader_exact hdecode).1] at hrun
      exact .inl ⟨code, r', hrun⟩
  · rw [decodeHeader_overflow hlarge] at hagrees
    exact hagrees

theorem header_exact_blob : ∃ r', (readTypeAndSize byteSource 0).exec (.new (objectHeader .blob 300 ++ [7])) =
    (.ok (3, 300), r') ∧ byteStream.ahead r' = [7] :=
  (header_exact byteStream 0 (.new (objectHeader .blob 300 ++ [7]))).1 .blob 300 [7] (by decide) rfl

example : objectHeader .blob 300 = [0xbc, 0x12] := by decide +kernel

end PackDecode
end Mega
