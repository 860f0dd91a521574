/-
# The budget of a diagnostic

`DiagnosticSink` of `ceres/github_sync/send_pack.rs` collects what the other side
says while a pack is sent, so that an error can quote it. Progress gives way to
important bytes, and a sink that is full is marked as truncated. What is rendered
is text, although the bytes may be anything and are cut anywhere: bytes that are
not UTF-8 are replaced, which makes the text longer, and the text is cut once more.

However it is called, the sink stores no more than its limit, and what it renders
is UTF-8, within the limit, and says so if anything is missing.

Key definitions: `DiagnosticSink`, `DiagnosticSink.fit`, `DiagnosticSink.render`, `Call`.
Key theorems: `kept_apply`, `render_spec`, `diagnostic_budget`.
-/
import Mega.Lib.Run
import Mega.Lib.Utf8

namespace Mega
namespace GithubSync

open List

abbrev Bytes := List UInt8

def diagnosticTruncated : Bytes := Utf8.encode "truncated".toList

/-- `from_utf8` fails at the first error, and `valid_up_to` is how many bytes come before it. -/
def validUtf8PrefixLen (bytes : Bytes) : ℕ := Utf8.validLength bytes

structure DiagnosticSink where
  limit : ℕ
  progress : Bytes
  important : Bytes
  truncated : Bool
  sawStderr : Bool

namespace DiagnosticSink

def new (limit : ℕ) : DiagnosticSink := ⟨limit, [], [], false, false⟩

/-- What is left of the limit for a space and the marker. -/
def keep (sink : DiagnosticSink) : ℕ := sink.limit - (diagnosticTruncated.length + 1)

def fit (sink : DiagnosticSink) : DiagnosticSink :=
  if sink.keep < sink.important.length then
    { sink with important := sink.important.take sink.keep, progress := [], truncated := true }
  else
    let rest := sink.keep - sink.important.length
    if rest < sink.progress.length then { sink with progress := sink.progress.take rest, truncated := true } else sink

def pushImportant (sink : DiagnosticSink) (data : Bytes) : DiagnosticSink :=
  if data = [] then sink else { sink with important := sink.important ++ data }.fit

def pushStderr (sink : DiagnosticSink) (data : Bytes) : DiagnosticSink :=
  { sink with sawStderr := true }.pushImportant data

def push (sink : DiagnosticSink) (data : Bytes) : DiagnosticSink :=
  if data = [] then sink
  else if sink.truncated ∧ sink.important ≠ [] then sink
  else { sink with progress := sink.progress ++ data }.fit

/-- The text with the marker behind it, or the marker alone. -/
def mark (limit : ℕ) (body : Bytes) : Bytes :=
  let rendered := if body = [] then diagnosticTruncated else body ++ Utf8.encode [' '] ++ diagnosticTruncated
  if rendered.length ≤ limit then rendered else diagnosticTruncated

def render (sink : DiagnosticSink) : Bytes :=
  let body := Utf8.encode (Utf8.lossyText (sink.important ++ sink.progress))
  let truncated := sink.truncated || decide (sink.limit < body.length)
  let body :=
    if truncated ∧ sink.keep < body.length then
      body.take (validUtf8PrefixLen (body.take (min sink.keep body.length)))
    else body
  if truncated then mark sink.limit body else body

end DiagnosticSink

/-! ### Calls -/

inductive Call where
  | push (data : Bytes)
  | pushStderr (data : Bytes)
  | pushImportant (data : Bytes)

namespace Call

def apply (sink : DiagnosticSink) : Call → DiagnosticSink
  | .push data => sink.push data
  | .pushStderr data => sink.pushStderr data
  | .pushImportant data => sink.pushImportant data

/-- The important bytes of the call. -/
def important : Call → Bytes
  | .push _ => []
  | .pushStderr data => data
  | .pushImportant data => data

def progress : Call → Bytes
  | .push data => data
  | .pushStderr _ => []
  | .pushImportant _ => []

end Call

/-- The sink after the calls. -/
def sinkAfter (limit : ℕ) (calls : List Call) : DiagnosticSink := Run.run Call.apply (.new limit) calls

/-- What the sink stores: it fits, and unless the sink is marked it is all of what was pushed. -/
structure Kept (limit : ℕ) (important progress : Bytes) (sink : DiagnosticSink) : Prop where
  limit : sink.limit = limit
  fits : sink.important.length + sink.progress.length ≤ sink.keep
  all : sink.truncated = false → sink.important = important ∧ sink.progress = progress

open DiagnosticSink

/-- **Fitting cuts what is too much and marks the sink**, or changes nothing. -/
theorem kept_fit (sink : DiagnosticSink) {important progress : Bytes}
    (h : sink.truncated = false → sink.important = important ∧ sink.progress = progress) :
    Kept sink.limit important progress sink.fit := by
  simp only [fit]
  split_ifs with himportant hprogress
  · refine ⟨rfl, ?_, fun hmark => Bool.noConfusion hmark⟩
    show (sink.important.take sink.keep).length + 0 ≤ sink.keep
    rw [length_take]
    omega
  · refine ⟨rfl, ?_, fun hmark => Bool.noConfusion hmark⟩
    show sink.important.length + (sink.progress.take (sink.keep - sink.important.length)).length ≤ sink.keep
    rw [length_take]
    omega
  · exact ⟨rfl, by omega, h⟩

theorem kept_pushImportant {limit : ℕ} {important progress : Bytes} {sink : DiagnosticSink}
    (h : Kept limit important progress sink) (data : Bytes) :
    Kept limit (important ++ data) progress (sink.pushImportant data) := by
  unfold pushImportant
  split_ifs with hdata
  · rw [hdata, append_nil]
    exact h
  · have hpushed : sink.truncated = false → sink.important ++ data = important ++ data ∧ sink.progress = progress :=
      fun hmark => ⟨by rw [(h.all hmark).1], (h.all hmark).2⟩
    have hfit := kept_fit { sink with important := sink.important ++ data } hpushed
    rw [← h.limit]
    exact hfit

theorem kept_push {limit : ℕ} {important progress : Bytes} {sink : DiagnosticSink}
    (h : Kept limit important progress sink) (data : Bytes) :
    Kept limit important (progress ++ data) (sink.push data) := by
  unfold push
  split_ifs with hdata hfull
  · rw [hdata, append_nil]
    exact h
  · -- progress that comes later is dropped, and the sink is marked already
    exact ⟨h.limit, h.fits, fun hmark => absurd (hmark.symm.trans hfull.1) Bool.false_ne_true⟩
  · have hpushed : sink.truncated = false → sink.important = important ∧ sink.progress ++ data = progress ++ data :=
      fun hmark => ⟨(h.all hmark).1, by rw [(h.all hmark).2]⟩
    have hfit := kept_fit { sink with progress := sink.progress ++ data } hpushed
    rw [← h.limit]
    exact hfit

/-- **One call keeps what fits.** -/
theorem kept_apply {limit : ℕ} {important progress : Bytes} {sink : DiagnosticSink}
    (h : Kept limit important progress sink) (call : Call) :
    Kept limit (important ++ call.important) (progress ++ call.progress) (call.apply sink) := by
  cases call with
  | push data =>
    rw [Call.important, append_nil]
    exact kept_push h data
  | pushStderr data =>
    rw [Call.progress, append_nil]
    have hseen : Kept limit important progress { sink with sawStderr := true } := ⟨h.limit, h.fits, h.all⟩
    exact kept_pushImportant hseen data
  | pushImportant data =>
    rw [Call.progress, append_nil]
    exact kept_pushImportant h data

theorem kept_sinkAfter (limit : ℕ) (calls : List Call) :
    Kept limit (calls.flatMap Call.important) (calls.flatMap Call.progress) (sinkAfter limit calls) := by
  induction calls using List.reverseRecOn with
  | nil => exact ⟨rfl, Nat.zero_le _, fun _ => ⟨rfl, rfl⟩⟩
  | append_singleton calls call ih =>
    have hstep : sinkAfter limit (calls ++ [call]) = call.apply (sinkAfter limit calls) := Run.run_concat _ _ _ _
    rw [hstep, flatMap_append, flatMap_append, flatMap_singleton, flatMap_singleton]
    exact kept_apply ih call

/-! ### Rendering -/

theorem length_diagnosticTruncated : diagnosticTruncated.length = 9 := by decide

/-- What is marked is UTF-8, within the limit, and has the marker. -/
theorem mark_spec {limit : ℕ} (hlimit : 9 ≤ limit) (text : List Char) :
    (∃ text', mark limit (Utf8.encode text) = Utf8.encode text') ∧ (mark limit (Utf8.encode text)).length ≤ limit ∧
      diagnosticTruncated <:+: mark limit (Utf8.encode text) := by
  have halone : (∃ text', diagnosticTruncated = Utf8.encode text') ∧ diagnosticTruncated.length ≤ limit ∧
      diagnosticTruncated <:+: diagnosticTruncated :=
    ⟨⟨_, rfl⟩, length_diagnosticTruncated.trans_le hlimit, infix_rfl⟩
  simp only [mark]
  split_ifs with hempty hfits hfits
  · exact halone
  · exact halone
  · refine ⟨⟨text ++ [' '] ++ "truncated".toList, ?_⟩, hfits, (suffix_append _ _).isInfix⟩
    rw [Utf8.encode_append, Utf8.encode_append]
    rfl
  · exact halone

/-- The text that is cut is UTF-8 again. -/
theorem take_validUtf8PrefixLen (body : Bytes) (n : ℕ) :
    body.take (validUtf8PrefixLen (body.take (min n body.length))) =
      Utf8.encode (Utf8.validText (body.take (min n body.length))) := by
  have hle := Utf8.validLength_le (body.take (min n body.length))
  rw [length_take] at hle
  rw [← Utf8.take_validLength, take_take, validUtf8PrefixLen]
  congr 1
  omega

/-- **What is rendered** is UTF-8 within the limit; if it is not all of the text, or the sink is marked, it has the
marker. -/
theorem render_spec (sink : DiagnosticSink) (hlimit : 9 ≤ sink.limit) :
    (∃ text, sink.render = Utf8.encode text) ∧ sink.render.length ≤ sink.limit ∧
      (sink.truncated = true ∨ sink.render ≠ Utf8.encode (Utf8.lossyText (sink.important ++ sink.progress)) →
        diagnosticTruncated <:+: sink.render) := by
  obtain ⟨text, htext⟩ : ∃ text, text = Utf8.lossyText (sink.important ++ sink.progress) := ⟨_, rfl⟩
  have hrender : sink.render = Utf8.encode text ∧ sink.truncated = false ∧ (Utf8.encode text).length ≤ sink.limit ∨
      ∃ text', sink.render = mark sink.limit (Utf8.encode text') := by
    simp only [render, ← htext]
    split_ifs with hmark hcut hcut
    · exact .inr ⟨_, congrArg (mark sink.limit) (take_validUtf8PrefixLen _ _)⟩
    · exact .inr ⟨text, rfl⟩
    · exact absurd hcut.1 hmark
    · rw [Bool.or_eq_true, decide_eq_true_eq, not_or, Bool.not_eq_true, not_lt] at hmark
      exact .inl ⟨rfl, hmark⟩
  rw [← htext]
  rcases hrender with ⟨hrender, hmark, hlength⟩ | ⟨text', hrender⟩
  · rw [hrender, hmark]
    refine ⟨⟨text, rfl⟩, hlength, ?_⟩
    rintro (hmark | hsame)
    · cases hmark
    · exact absurd rfl hsame
  · rw [hrender]
    obtain ⟨hvalid, hlength, hmarker⟩ := mark_spec hlimit text'
    exact ⟨hvalid, hlength, fun _ => hmarker⟩

/-- Bytes were dropped: some that were pushed are not stored, or the text of those that are stored is not all there. -/
def Dropped (calls : List Call) (sink : DiagnosticSink) : Prop :=
  sink.important ≠ calls.flatMap Call.important ∨ sink.progress ≠ calls.flatMap Call.progress ∨
    sink.render ≠ Utf8.encode (Utf8.lossyText (sink.important ++ sink.progress))

/-- **The budget of a diagnostic.** After any calls with any bytes what is rendered is UTF-8 of at most `limit` bytes, it
has the marker if bytes were dropped, and no more than `limit` bytes are stored. -/
theorem diagnostic_budget {limit : ℕ} (hlimit : 16 ≤ limit) (calls : List Call) :
    (∃ text, (sinkAfter limit calls).render = Utf8.encode text) ∧ (sinkAfter limit calls).render.length ≤ limit ∧
      (Dropped calls (sinkAfter limit calls) → diagnosticTruncated <:+: (sinkAfter limit calls).render) ∧
      (sinkAfter limit calls).important.length + (sinkAfter limit calls).progress.length ≤ limit := by
  obtain ⟨hsame, hfits, hall⟩ := kept_sinkAfter limit calls
  obtain ⟨hvalid, hlength, hmarker⟩ := render_spec (sinkAfter limit calls) (by omega)
  rw [hsame] at hlength
  refine ⟨hvalid, hlength, fun hdropped => hmarker ?_, ?_⟩
  · cases hmark : (sinkAfter limit calls).truncated with
    | true => exact .inl rfl
    | false =>
      obtain ⟨himportant, hprogress⟩ := hall hmark
      rcases hdropped with hdropped | hdropped | hdropped
      · exact absurd himportant hdropped
      · exact absurd hprogress hdropped
      · exact .inr hdropped
  · unfold keep at hfits
    omega

/-- Bytes that are no UTF-8 are three times as long when they are replaced. -/
theorem diagnostic_budget_replaced :
    (sinkAfter 16 [.push [0x61, 0x62], .pushStderr [0xFF, 0xFF, 0xFF, 0xFF, 0xFF], .push [0x63]]).render.length ≤ 16 ∧
      diagnosticTruncated <:+:
        (sinkAfter 16 [.push [0x61, 0x62], .pushStderr [0xFF, 0xFF, 0xFF, 0xFF, 0xFF], .push [0x63]]).render :=
  ⟨(diagnostic_budget (by decide) _).2.1, (diagnostic_budget (by decide) _).2.2.1 (.inr (.inl (by decide +kernel)))⟩

end GithubSync
end Mega
