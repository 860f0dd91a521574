/-
# Packs that are read to their end

A stream is an inner reader that does not fail: it hands out the bytes of a
pack, in pieces of any size. What the decoder then reads depends only on the
bytes that are ahead, not on how much of them is buffered.

Key definitions: `Stream`, `Stream.ahead`, `Takes`.
Key theorems: `takes_of_loop`, `readFull_takes`.
-/
import Mega.Traces.PackDecode

namespace Mega
namespace PackDecode

open List

/-- A reader of a byte stream: it hands out what is left, a part at a time. -/
structure Stream {σ : Type} (src : Source σ) where
  rest : σ → Bytes
  read : ∀ s n, ∃ s' bytes, src.read s n = (s', .ok bytes) ∧ rest s = bytes ++ rest s' ∧
    (bytes = [] → n = 0 ∨ rest s = [])

/-- The bytes of a list, as many as asked for. -/
def byteSource : Source Bytes where
  read s n := (s.drop n, .ok (s.take n))
  read_le s n bytes h := by
    cases h
    exact length_take_le n s

def byteStream : Stream byteSource where
  rest s := s
  read s n := by
    refine ⟨s.drop n, s.take n, rfl, (take_append_drop n s).symm, fun h => ?_⟩
    rcases take_eq_nil_iff.mp h with hn | hs
    · exact .inl hn
    · exact .inr hs

variable {σ : Type} {src : Source σ} (stream : Stream src)

namespace Stream

/-- What a reader has not handed out yet. -/
def ahead (r : HashingReader σ) : Bytes := r.buffered ++ stream.rest r.inner

end Stream

theorem readUnhashed_ahead (r : HashingReader σ) (n : ℕ) :
    ∃ r' bytes, r.readUnhashed src n = (r', .ok bytes) ∧ bytes.length ≤ n ∧
      stream.ahead r = bytes ++ stream.ahead r' ∧ (bytes = [] → n = 0 ∨ stream.ahead r = []) ∧
      r'.hashed = r.hashed := by
  rcases readUnhashed_cases src r n with ⟨henough, r', hread, hbuffered, hinner, hhashed⟩ |
    ⟨hlt, r', bytes, hsource, hread, hbuffered, hhashed⟩ | ⟨hlt, r', e, hsource, hread, hbuffered, hhashed⟩
  · refine ⟨r', _, hread, length_take_le _ _, ?_, ?_, hhashed⟩
    · unfold Stream.ahead
      rw [hbuffered, hinner, ← append_assoc, take_append_drop]
    · intro hempty
      left
      have hlength := congrArg length hempty
      rw [length_take, length_nil] at hlength
      omega
  · obtain ⟨s', bytes', hstream, hrest, hprogress⟩ := stream.read r.inner (n - r.buffered.length)
    rw [hsource] at hstream
    cases hstream
    have hle := src.read_le r.inner (n - r.buffered.length) bytes (by rw [hsource])
    refine ⟨r', _, hread, ?_, ?_, ?_, hhashed⟩
    · rw [length_append]
      omega
    · unfold Stream.ahead
      rw [hbuffered, nil_append, hrest, append_assoc]
    · intro hempty
      obtain ⟨hnone, hbytes⟩ := append_eq_nil_iff.mp hempty
      rcases hprogress hbytes with hzero | hend
      · omega
      · right
        unfold Stream.ahead
        rw [hnone, hend, append_nil]
  · obtain ⟨s', bytes', hstream, -⟩ := stream.read r.inner (n - r.buffered.length)
    rw [hsource] at hstream
    cases hstream

theorem read_ahead (r : HashingReader σ) (n : ℕ) :
    ∃ r' bytes, r.read src n = (r', .ok bytes) ∧ bytes.length ≤ n ∧
      stream.ahead r = bytes ++ stream.ahead r' ∧ (bytes = [] → n = 0 ∨ stream.ahead r = []) ∧
      r'.hashed = r.hashed ++ bytes := by
  obtain ⟨r', bytes, hread, hle, hahead, hprogress, hhashed⟩ := readUnhashed_ahead stream r n
  refine ⟨r'.update bytes, bytes, ?_, hle, hahead, hprogress, ?_⟩
  · unfold HashingReader.read
    rw [hread]
  · exact congrArg (· ++ bytes) hhashed

/-- The program takes `n` bytes of what is ahead, if there are so many; `counted` of them go into the digest. -/
def Takes (n : ℕ) (counted : Bytes → Bytes) (x : Prog (HashingReader σ) Stop Bytes) : Prop :=
  ∀ r, (n ≤ (stream.ahead r).length ∧ ∃ r', x.exec r = (.ok ((stream.ahead r).take n), r') ∧
      stream.ahead r' = (stream.ahead r).drop n ∧ r'.hashed = r.hashed ++ counted ((stream.ahead r).take n)) ∨
    ((stream.ahead r).length < n ∧ ∃ r', x.exec r = (.error (.failed .truncated), r'))

variable {stream}

variable (stream)

/-- **A loop that reads until it has enough takes what is ahead.** A read that answers with nothing ends it. -/
theorem takes_of_loop {loop : ℕ → HashingReader σ → Except Stop Bytes × HashingReader σ} {counted : Bytes → Bytes}
    (hnil : counted [] = []) (happend : ∀ a b, counted (a ++ b) = counted a ++ counted b)
    (hzero : ∀ r, loop 0 r = (.ok [], r))
    (hstep : ∀ n r, n ≠ 0 → ∃ r' bytes, bytes.length ≤ n ∧ stream.ahead r = bytes ++ stream.ahead r' ∧
      (bytes = [] → stream.ahead r = []) ∧ r'.hashed = r.hashed ++ counted bytes ∧
      loop n r = match bytes with
        | [] => (.error (.failed .truncated), r')
        | b :: bytes =>
          match loop (n - (b :: bytes).length) r' with
          | (.ok more, r) => (.ok (b :: bytes ++ more), r)
          | (.error stop, r) => (.error stop, r)) :
    ∀ n, Takes stream n counted (loop n) := by
  intro n
  induction n using Nat.strong_induction_on with
  | _ n ih =>
    intro r
    by_cases hn : n = 0
    · left
      subst hn
      exact ⟨Nat.zero_le _, r, by rw [take_zero]; exact hzero r, rfl, by rw [take_zero, hnil, append_nil]⟩
    obtain ⟨r', bytes, hle, hahead, hprogress, hhashed, hloop⟩ := hstep n r hn
    rcases bytes with _ | ⟨b, bytes⟩
    · right
      rw [hprogress rfl, length_nil]
      exact ⟨Nat.pos_of_ne_zero hn, r', hloop⟩
    · have hlen : (b :: bytes).length = bytes.length + 1 := length_cons
      have htotal : (stream.ahead r).length = (b :: bytes).length + (stream.ahead r').length := by
        rw [hahead, length_append]
      rcases ih (n - (b :: bytes).length) (by omega) r' with ⟨henough, r'', hrest, hahead', hhashed'⟩ |
        ⟨hshort, r'', hrest⟩
      · left
        have hmore : loop (n - (b :: bytes).length) r' = _ := hrest
        have htake : (stream.ahead r).take n = b :: bytes ++ (stream.ahead r').take (n - (b :: bytes).length) := by
          rw [hahead, take_append, take_of_length_le hle]
        refine ⟨by omega, r'', ?_, ?_, ?_⟩
        · show loop n r = _
          simp only [hloop, hmore, htake]
        · rw [hahead', hahead, drop_append, drop_of_length_le hle, nil_append]
        · rw [hhashed', hhashed, htake, happend, append_assoc]
      · right
        have hmore : loop (n - (b :: bytes).length) r' = _ := hrest
        refine ⟨by omega, r'', ?_⟩
        show loop n r = _
        simp only [hloop, hmore]

theorem readFull_takes (patience n : ℕ) : Takes stream n id (readFull src patience n) := by
  refine takes_of_loop stream rfl (fun _ _ => rfl) (fun r => ?_) (fun n r hn => ?_) n
  · rw [readFull, if_pos rfl]
  · obtain ⟨r', bytes, hread, hle, hahead, hprogress, hhashed⟩ := read_ahead stream r n
    refine ⟨r', bytes, hle, hahead, fun h => (hprogress h).resolve_left hn, hhashed, ?_⟩
    rw [readFull, if_neg hn, hread]
    rcases bytes with _ | ⟨b, bytes⟩ <;> rfl

/-- A byte is read if there is one ahead. -/
theorem readU8_ahead (patience : ℕ) (r : HashingReader σ) :
    (∃ b rest r', stream.ahead r = b :: rest ∧ (readU8 src patience).exec r = (.ok b.toNat, r') ∧ stream.ahead r' = rest) ∨
      (stream.ahead r = [] ∧ ∃ r', (readU8 src patience).exec r = (.error (.failed .truncated), r')) := by
  rcases readFull_takes stream patience 1 r with ⟨hle, r', hrun, hahead, -⟩ | ⟨hlt, r', hrun⟩
  · obtain ⟨b, rest, hbytes⟩ := exists_cons_of_length_pos hle
    rw [hbytes] at hrun hahead
    exact .inl ⟨b, rest, r', hbytes, by rw [readU8, Prog.exec_bind, hrun]; rfl, hahead⟩
  · refine .inr ⟨length_eq_zero_iff.mp (by omega), r', ?_⟩
    rw [readU8, Prog.exec_bind, hrun]

end PackDecode
end Mega
