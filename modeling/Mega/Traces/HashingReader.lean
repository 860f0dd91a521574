/-
# The hashing reader of the pack decoder

`HashingReader` of `ceres/traces/pack_decode.rs`: a buffered reader that hashes
the bytes that are read or consumed, but not those that are read unhashed. It
reads from an inner reader, which may answer with fewer bytes than asked for or
with an error at any time.

A read first copies what is buffered and then asks the inner reader for the
rest. If that fails, what was copied is gone: the reader has moved past it, and
the caller only sees the error. So no byte is lost exactly if the inner reader
never fails in such a read.

The hasher is the list of bytes it was updated with.

Key definitions: `Source`, `HashingReader`, `Call`, `Usage.step`, `Faithful`, `Steady`.
Key theorems: `faithful_step_iff`, `faithful_iff_steady`.
-/
import Mega.Lib.Run

namespace Mega
namespace PackDecode

open List

abbrev Bytes := List UInt8

/-- `io::ErrorKind`, as far as kinds are told apart. -/
inductive ErrorKind where
  | unexpectedEof
  | invalidInput
  | interrupted
  | other
deriving DecidableEq

/-- An inner reader: it hands out at most as many bytes as it is asked for, none at its end. -/
structure Source (σ : Type) where
  read : σ → ℕ → σ × Except ErrorKind Bytes
  read_le : ∀ s n bytes, (read s n).2 = .ok bytes → bytes.length ≤ n

/-- The reader with a record of what it has handed out. -/
def Source.logged {σ : Type} (src : Source σ) : Source (σ × Bytes) where
  read s n :=
    match src.read s.1 n with
    | (inner, .ok bytes) => ((inner, s.2 ++ bytes), .ok bytes)
    | (inner, .error e) => ((inner, s.2), .error e)
  read_le s n bytes h := by
    refine src.read_le s.1 n bytes ?_
    rcases hread : src.read s.1 n with ⟨inner, answer | answer⟩ <;> rw [hread] at h <;> exact h

/-- What `SourceWatch` knows of the inner reader. -/
structure SourceState where
  eof : Bool
  error : Option ErrorKind
deriving DecidableEq

def SourceState.received (state : SourceState) (bytes : Bytes) : SourceState :=
  if bytes = [] then { state with eof := true } else { state with error := none }

structure HashingReader (σ : Type) where
  inner : σ
  hashed : Bytes
  buffer : Bytes
  position : ℕ
  source : SourceState
  inside : position ≤ buffer.length

namespace HashingReader

variable {σ : Type}

def new (inner : σ) : HashingReader σ := ⟨inner, [], [], 0, ⟨false, none⟩, Nat.le_refl 0⟩

/-- What is left in the buffer. -/
def buffered (r : HashingReader σ) : Bytes := r.buffer.drop r.position

/-- The position moves past some bytes of the buffer. -/
def advance (r : HashingReader σ) (n : ℕ) : HashingReader σ :=
  { r with
    position := r.position + min n (r.buffer.length - r.position)
    inside := by
      have hinside := r.inside
      omega }

/-- A buffer that is used up is cleared. -/
def settle (r : HashingReader σ) : HashingReader σ :=
  if r.position = r.buffer.length then { r with buffer := [], position := 0, inside := Nat.le_refl 0 } else r

def update (r : HashingReader σ) (bytes : Bytes) : HashingReader σ := { r with hashed := r.hashed ++ bytes }

variable (src : Source σ)

def refill (r : HashingReader σ) : HashingReader σ × Except ErrorKind Unit :=
  if r.position = r.buffer.length then
    match src.read r.inner 8192 with
    | (inner, .ok bytes) => (⟨inner, r.hashed, bytes, 0, r.source.received bytes, Nat.zero_le _⟩, .ok ())
    | (inner, .error e) => (⟨inner, r.hashed, [], 0, { r.source with error := some e }, Nat.le_refl 0⟩, .error e)
  else (r, .ok ())

def readUnhashed (r : HashingReader σ) (n : ℕ) : HashingReader σ × Except ErrorKind Bytes :=
  let copied := r.buffered.take n
  let r := r.advance n
  if copied.length < n then
    match src.read r.inner (n - copied.length) with
    | (inner, .ok bytes) =>
      (({ r with inner := inner, source := r.source.received bytes } : HashingReader σ).settle, .ok (copied ++ bytes))
    | (inner, .error e) => ({ r with inner := inner, source := { r.source with error := some e } }, .error e)
  else (r.settle, .ok copied)

def read (r : HashingReader σ) (n : ℕ) : HashingReader σ × Except ErrorKind Bytes :=
  match r.readUnhashed src n with
  | (r, .ok bytes) => (r.update bytes, .ok bytes)
  | (r, .error e) => (r, .error e)

def fillBuf (r : HashingReader σ) : HashingReader σ × Except ErrorKind Bytes :=
  match r.refill src with
  | (r, .ok ()) => (r, .ok r.buffered)
  | (r, .error e) => (r, .error e)

def consume (r : HashingReader σ) (amount : ℕ) : HashingReader σ :=
  ((r.update (r.buffered.take amount)).advance amount).settle

/-! ### What is left in the buffer -/

@[simp]
theorem buffered_advance (r : HashingReader σ) (n : ℕ) : (r.advance n).buffered = r.buffered.drop n := by
  show r.buffer.drop (r.position + min n (r.buffer.length - r.position)) = (r.buffer.drop r.position).drop n
  rw [drop_drop]
  rcases Nat.le_total n (r.buffer.length - r.position) with hle | hle
  · rw [Nat.min_eq_left hle]
  · rw [Nat.min_eq_right hle, drop_of_length_le (by omega), drop_of_length_le (by omega)]

@[simp]
theorem buffered_settle (r : HashingReader σ) : r.settle.buffered = r.buffered := by
  unfold settle
  by_cases hend : r.position = r.buffer.length
  · rw [if_pos hend]
    unfold buffered
    rw [drop_of_length_le (by omega : r.buffer.length ≤ r.position)]
    rfl
  · rw [if_neg hend]

@[simp]
theorem inner_settle (r : HashingReader σ) : r.settle.inner = r.inner := by
  unfold settle
  split_ifs <;> rfl

@[simp]
theorem hashed_settle (r : HashingReader σ) : r.settle.hashed = r.hashed := by
  unfold settle
  split_ifs <;> rfl

theorem buffered_eq_nil (r : HashingReader σ) (h : r.position = r.buffer.length) : r.buffered = [] :=
  drop_of_length_le (by omega)

end HashingReader

/-! ### Calls -/

inductive Call where
  | read (n : ℕ)
  | fillBuf
  | consume (amount : ℕ)
  | readUnhashed (n : ℕ)
deriving DecidableEq

/-- How many bytes a call copies out. -/
def Call.asks : Call → Option ℕ
  | .read n => some n
  | .readUnhashed n => some n
  | _ => none

/-- A reader in use: the bytes that its caller got, and those of them that were read or consumed. -/
structure Usage (σ : Type) where
  reader : HashingReader (σ × Bytes)
  delivered : Bytes
  digested : Bytes

namespace Usage

variable {σ : Type} (src : Source σ)

def new (inner : σ) : Usage σ := ⟨.new (inner, []), [], []⟩

/-- What the inner reader has handed out. -/
def handedOut (u : Usage σ) : Bytes := u.reader.inner.2

def step (u : Usage σ) : Call → Usage σ
  | .read n =>
    match u.reader.read src.logged n with
    | (r, .ok bytes) => ⟨r, u.delivered ++ bytes, u.digested ++ bytes⟩
    | (r, .error _) => { u with reader := r }
  | .fillBuf => { u with reader := (u.reader.fillBuf src.logged).1 }
  | .consume amount =>
    ⟨u.reader.consume amount, u.delivered ++ u.reader.buffered.take amount, u.digested ++ u.reader.buffered.take amount⟩
  | .readUnhashed n =>
    match u.reader.readUnhashed src.logged n with
    | (r, .ok bytes) => { u with reader := r, delivered := u.delivered ++ bytes }
    | (r, .error _) => { u with reader := r }

/-- The call answers with an error. -/
def Fails (u : Usage σ) : Call → Prop
  | .read n => ∃ e, (u.reader.read src.logged n).2 = .error e
  | .fillBuf => ∃ e, (u.reader.fillBuf src.logged).2 = .error e
  | .consume _ => False
  | .readUnhashed n => ∃ e, (u.reader.readUnhashed src.logged n).2 = .error e

end Usage

/-- What the caller got and what is left in the buffer are what the inner reader has handed out, and the digest is over
what was read or consumed. -/
structure Exact {σ : Type} (u : Usage σ) : Prop where
  stream : u.delivered ++ u.reader.buffered = u.handedOut
  digest : u.reader.hashed = u.digested

/-- The call keeps to that, and if it fails it has consumed nothing. -/
structure Faithful {σ : Type} (src : Source σ) (u : Usage σ) (call : Call) : Prop where
  exact : Exact (u.step src call)
  error : u.Fails src call → (u.step src call).reader.buffered = u.reader.buffered ∧
    (u.step src call).handedOut = u.handedOut

/-- The inner reader does not fail in a call that has copied buffered bytes already. -/
def Steady {σ : Type} (src : Source σ) (u : Usage σ) (call : Call) : Prop :=
  ∀ n, call.asks = some n → u.reader.buffered ≠ [] → u.reader.buffered.length < n →
    ∀ e, (src.read u.reader.inner.1 (n - u.reader.buffered.length)).2 ≠ .error e

section Steps

variable {σ : Type} {src : Source σ} {u : Usage σ}

/-- **A read takes what is buffered, and what the inner reader has if that is not enough.** -/
theorem readUnhashed_cases {σ : Type} (src : Source σ) (r : HashingReader σ) (n : ℕ) :
    (n ≤ r.buffered.length ∧ ∃ r', r.readUnhashed src n = (r', .ok (r.buffered.take n)) ∧
        r'.buffered = r.buffered.drop n ∧ r'.inner = r.inner ∧ r'.hashed = r.hashed) ∨
      (r.buffered.length < n ∧ ∃ r' bytes, src.read r.inner (n - r.buffered.length) = (r'.inner, .ok bytes) ∧
        r.readUnhashed src n = (r', .ok (r.buffered ++ bytes)) ∧ r'.buffered = [] ∧ r'.hashed = r.hashed) ∨
      (r.buffered.length < n ∧ ∃ r' e, src.read r.inner (n - r.buffered.length) = (r'.inner, .error e) ∧
        r.readUnhashed src n = (r', .error e) ∧ r'.buffered = [] ∧ r'.hashed = r.hashed) := by
  have hinner : (r.advance n).inner = r.inner := rfl
  have hhashed : (r.advance n).hashed = r.hashed := rfl
  unfold HashingReader.readUnhashed
  by_cases henough : n ≤ r.buffered.length
  · left
    have hlength : (r.buffered.take n).length = n := by rw [length_take, Nat.min_eq_left henough]
    simp only [hlength, lt_self_iff_false, if_false]
    exact ⟨henough, _, rfl, by simp, by simp [hinner], by simp [hhashed]⟩
  · right
    have hlt : r.buffered.length < n := by omega
    have hcopied : r.buffered.take n = r.buffered := take_of_length_le (by omega)
    have hbuffered : (r.advance n).buffered = [] := by
      rw [HashingReader.buffered_advance]
      exact drop_of_length_le (by omega)
    simp only [hcopied, if_pos hlt, hinner]
    rcases src.read r.inner (n - r.buffered.length) with ⟨inner, e | bytes⟩
    · exact .inr ⟨hlt, _, e, rfl, rfl, hbuffered, rfl⟩
    · refine .inl ⟨hlt, _, bytes, ?_, rfl, ?_, by simp [hhashed]⟩
      · rw [HashingReader.inner_settle]
      · rw [HashingReader.buffered_settle]
        exact hbuffered

theorem logged_ok {s t : σ × Bytes} {n : ℕ} {bytes : Bytes} (h : src.logged.read s n = (t, .ok bytes)) :
    (src.read s.1 n).2 = .ok bytes ∧ t.2 = s.2 ++ bytes := by
  simp only [Source.logged] at h
  rcases hread : src.read s.1 n with ⟨inner, e | answer⟩ <;> rw [hread] at h <;> cases h
  exact ⟨rfl, rfl⟩

theorem logged_error {s t : σ × Bytes} {n : ℕ} {e : ErrorKind} (h : src.logged.read s n = (t, .error e)) :
    (src.read s.1 n).2 = .error e ∧ t.2 = s.2 := by
  simp only [Source.logged] at h
  rcases hread : src.read s.1 n with ⟨inner, e' | answer⟩ <;> rw [hread] at h <;> cases h
  exact ⟨rfl, rfl⟩

/-- Filling the buffer takes from the inner reader when the buffer is used up. -/
theorem fillBuf_cases (src : Source σ) (r : HashingReader (σ × Bytes)) :
    ((r.fillBuf src.logged).1 = r ∧ ∀ e, (r.fillBuf src.logged).2 ≠ .error e) ∨
      (r.buffered = [] ∧ ∃ bytes, (r.fillBuf src.logged).1.buffered = bytes ∧
        (r.fillBuf src.logged).1.inner.2 = r.inner.2 ++ bytes ∧ (r.fillBuf src.logged).1.hashed = r.hashed ∧
        ∀ e, (r.fillBuf src.logged).2 = .error e → bytes = []) := by
  unfold HashingReader.fillBuf HashingReader.refill
  by_cases hend : r.position = r.buffer.length
  · right
    refine ⟨r.buffered_eq_nil hend, ?_⟩
    simp only [if_pos hend]
    rcases hread : src.logged.read r.inner 8192 with ⟨inner, e | bytes⟩
    · exact ⟨[], rfl, by rw [append_nil]; exact (logged_error hread).2, rfl, fun _ _ => rfl⟩
    · exact ⟨bytes, rfl, (logged_ok hread).2, rfl, fun e h => by cases h⟩
  · left
    simp only [if_neg hend]
    exact ⟨trivial, fun e h => by cases h⟩

/-- What a call does that copies bytes out, hashed or not. -/
inductive Copies (src : Source σ) (u after : Usage σ) (n : ℕ) (fails : Prop) : Prop
  | buffered (henough : n ≤ u.reader.buffered.length) (hok : ¬ fails)
      (hdelivered : after.delivered = u.delivered ++ u.reader.buffered.take n)
      (hbuffered : after.reader.buffered = u.reader.buffered.drop n) (hout : after.handedOut = u.handedOut)
  | both (bytes : Bytes) (hlt : u.reader.buffered.length < n)
      (hsource : (src.read u.reader.inner.1 (n - u.reader.buffered.length)).2 = .ok bytes) (hok : ¬ fails)
      (hdelivered : after.delivered = u.delivered ++ (u.reader.buffered ++ bytes))
      (hbuffered : after.reader.buffered = []) (hout : after.handedOut = u.handedOut ++ bytes)
  | lost (e : ErrorKind) (hlt : u.reader.buffered.length < n)
      (hsource : (src.read u.reader.inner.1 (n - u.reader.buffered.length)).2 = .error e) (hfails : fails)
      (hdelivered : after.delivered = u.delivered) (hbuffered : after.reader.buffered = [])
      (hout : after.handedOut = u.handedOut)

/-- A call that copies bytes out, and hashes what it delivers if it hashes at all. -/
theorem step_copies (u : Usage σ) {call : Call} {n : ℕ} (hasks : call.asks = some n) :
    Copies src u (u.step src call) n (u.Fails src call) ∧
      (u.reader.hashed = u.digested → (u.step src call).reader.hashed = (u.step src call).digested) := by
  obtain rfl | rfl : call = .read n ∨ call = .readUnhashed n := by
    cases call <;> simp_all [Call.asks]
  all_goals
    unfold Usage.Fails
    rcases readUnhashed_cases src.logged u.reader n with ⟨henough, r, hread, hbuffered, hinner, hhashed⟩ |
      ⟨hlt, r, bytes, hsource, hread, hbuffered, hhashed⟩ | ⟨hlt, r, e, hsource, hread, hbuffered, hhashed⟩
    · simp only [Usage.step, HashingReader.read, hread]
      refine ⟨.buffered henough (fun hfails => by simp at hfails) rfl hbuffered (congrArg Prod.snd hinner), fun h => ?_⟩
      simpa [HashingReader.update] using hhashed.trans h
    · simp only [Usage.step, HashingReader.read, hread]
      obtain ⟨hbytes, hout⟩ := logged_ok hsource
      refine ⟨.both bytes hlt hbytes (fun hfails => by simp at hfails) rfl hbuffered hout, fun h => ?_⟩
      simpa [HashingReader.update] using hhashed.trans h
    · simp only [Usage.step, HashingReader.read, hread]
      obtain ⟨herror, hout⟩ := logged_error hsource
      exact ⟨.lost e hlt herror ⟨e, rfl⟩ rfl hbuffered hout, fun h => hhashed.trans h⟩

/-- Nothing is lost in such a call exactly if the inner reader does not fail after bytes were copied. -/
theorem faithful_copies_iff (h : Exact u) {call : Call} {n : ℕ} (hasks : call.asks = some n) :
    Faithful src u call ↔ Steady src u call := by
  obtain ⟨hcopies, hdigest⟩ := step_copies u hasks
  rcases hcopies with ⟨henough, hok, hdelivered, hbuffered, hout⟩ |
    ⟨bytes, hlt, hsource, hok, hdelivered, hbuffered, hout⟩ | ⟨e, hlt, hsource, hfails, hdelivered, hbuffered, hout⟩
  · refine iff_of_true ⟨⟨?_, hdigest h.digest⟩, fun hfails => absurd hfails hok⟩ ?_
    · rw [hdelivered, hbuffered, hout, append_assoc, take_append_drop]
      exact h.stream
    · intro m hm _ hlt
      cases hasks.symm.trans hm
      omega
  · refine iff_of_true ⟨⟨?_, hdigest h.digest⟩, fun hfails => absurd hfails hok⟩ ?_
    · rw [hdelivered, hbuffered, hout, append_nil, ← append_assoc, h.stream]
    · intro m hm _ _ e' he
      cases hasks.symm.trans hm
      rw [hsource] at he
      cases he
  · constructor
    · -- what was buffered is gone, so there was nothing
      intro hfaithful m hm hne hlt' e'
      have hkept := (hfaithful.error hfails).1
      rw [hbuffered] at hkept
      exact absurd hkept.symm hne
    · intro hsteady
      have hempty : u.reader.buffered = [] := by
        by_contra hne
        exact hsteady n hasks hne hlt e hsource
      refine ⟨⟨?_, hdigest h.digest⟩, fun _ => ⟨hbuffered.trans hempty.symm, hout⟩⟩
      rw [hdelivered, hbuffered, hout, ← h.stream, hempty]

/-- Filling the buffer loses nothing. -/
theorem faithful_fillBuf (h : Exact u) : Faithful src u .fillBuf := by
  rcases fillBuf_cases src u.reader with ⟨hsame, hok⟩ | ⟨hempty, bytes, hbuffered, hinner, hhashed, herror⟩
  · have hstep : u.step src .fillBuf = u := by
      unfold Usage.step
      rw [hsame]
    refine ⟨by rw [hstep]; exact h, ?_⟩
    rintro ⟨e, he⟩
    exact absurd he (hok e)
  · have hout : (u.step src .fillBuf).handedOut = u.handedOut ++ bytes := hinner
    refine ⟨⟨?_, hhashed.trans h.digest⟩, ?_⟩
    · show u.delivered ++ (u.reader.fillBuf src.logged).1.buffered = _
      have hdelivered := h.stream
      rw [hempty, append_nil] at hdelivered
      rw [hbuffered, hout, hdelivered]
    · rintro ⟨e, he⟩
      have hnone := herror e he
      refine ⟨?_, by rw [hout, hnone, append_nil]⟩
      show (u.reader.fillBuf src.logged).1.buffered = _
      rw [hbuffered, hnone, hempty]

theorem faithful_consume (h : Exact u) (amount : ℕ) : Faithful src u (.consume amount) := by
  have hbuffered : (u.reader.consume amount).buffered = u.reader.buffered.drop amount := by
    unfold HashingReader.consume
    rw [HashingReader.buffered_settle, HashingReader.buffered_advance]
    rfl
  have hinner : (u.reader.consume amount).inner = u.reader.inner := by
    unfold HashingReader.consume
    rw [HashingReader.inner_settle]
    rfl
  have hhashed : (u.reader.consume amount).hashed = u.reader.hashed ++ u.reader.buffered.take amount := by
    unfold HashingReader.consume
    rw [HashingReader.hashed_settle]
    rfl
  refine ⟨⟨?_, ?_⟩, fun hfails => hfails.elim⟩
  · show (u.delivered ++ u.reader.buffered.take amount) ++ (u.reader.consume amount).buffered =
      (u.reader.consume amount).inner.2
    rw [hbuffered, hinner, append_assoc, take_append_drop]
    exact h.stream
  · show (u.reader.consume amount).hashed = u.digested ++ u.reader.buffered.take amount
    rw [hhashed, h.digest]

/-- **One call.** -/
theorem faithful_step_iff (h : Exact u) (call : Call) : Faithful src u call ↔ Steady src u call := by
  cases call with
  | read n => exact faithful_copies_iff h rfl
  | readUnhashed n => exact faithful_copies_iff h rfl
  | fillBuf => exact iff_of_true (faithful_fillBuf h) fun n hn => by cases hn
  | consume amount => exact iff_of_true (faithful_consume h amount) fun n hn => by cases hn

theorem faithful_iff_steady_from : ∀ {u : Usage σ} (calls : List Call), Exact u →
    (Run.Meets (Usage.step src) (Faithful src) u calls ↔ Run.Meets (Usage.step src) (Steady src) u calls)
  | _, [], _ => Iff.rfl
  | u, call :: calls, h => by
    have hstep : Faithful src u call ↔ Steady src u call := faithful_step_iff h call
    constructor
    · rintro ⟨hfaithful, hrest⟩
      exact ⟨hstep.mp hfaithful, (faithful_iff_steady_from calls hfaithful.exact).mp hrest⟩
    · rintro ⟨hsteady, hrest⟩
      have hfaithful := hstep.mpr hsteady
      exact ⟨hfaithful, (faithful_iff_steady_from calls hfaithful.exact).mpr hrest⟩

end Steps

/-- **No byte is lost, repeated or hashed wrongly in a run exactly if the inner reader never fails in a call that has
copied buffered bytes.** -/
theorem faithful_iff_steady {σ : Type} (src : Source σ) (inner : σ) (calls : List Call) :
    Run.Meets (Usage.step src) (Faithful src) (Usage.new inner) calls ↔
      Run.Meets (Usage.step src) (Steady src) (Usage.new inner) calls :=
  faithful_iff_steady_from calls ⟨rfl, rfl⟩

/-- An inner reader with prepared answers; a longer answer is handed out in parts. -/
def scripted : Source (List (Except ErrorKind Bytes)) where
  read
    | [], _ => ([], .ok [])
    | .error e :: rest, _ => (rest, .error e)
    | .ok bytes :: rest, n => (if n < bytes.length then .ok (bytes.drop n) :: rest else rest, .ok (bytes.take n))
  read_le script n bytes h := by
    rcases script with _ | ⟨_ | answer, rest⟩
    · cases h
      exact Nat.zero_le n
    · cases h
    · cases h
      exact length_take_le n answer

/-- Four bytes are buffered and two consumed. A read of four more is interrupted, and the next read goes on behind the
two bytes that were left in the buffer. -/
theorem bytes_lost_by_interrupted :
    ¬ Run.Meets (Usage.step scripted) (Faithful scripted)
        (Usage.new [.ok [1, 2, 3, 4], .error .interrupted, .ok [5, 6]]) [.fillBuf, .consume 2, .read 4, .read 2] ∧
      (Run.run (Usage.step scripted) (Usage.new [.ok [1, 2, 3, 4], .error .interrupted, .ok [5, 6]])
        [.fillBuf, .consume 2, .read 4, .read 2]).delivered = [1, 2, 5, 6] ∧
      (Run.run (Usage.step scripted) (Usage.new [.ok [1, 2, 3, 4], .error .interrupted, .ok [5, 6]])
        [.fillBuf, .consume 2, .read 4, .read 2]).handedOut = [1, 2, 3, 4, 5, 6] := by
  refine ⟨fun hmeets => ?_, by decide, by decide⟩
  have hstream := hmeets.2.2.1.exact.stream
  revert hstream
  decide

end PackDecode
end Mega
