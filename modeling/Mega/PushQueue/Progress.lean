/-
# The queue goes on

Whatever has happened, the first request that waits can be brought to run, unless
the queue is hard stopped, or the claim finds no root or no native publication. And
what is done is done once.

Key theorems: `waiting_request_runs`, `done_operation_replayed`.
-/
import Mega.PushQueue.Exclusive

namespace Mega
namespace PushQueue

open List Receipts

variable {events : List Event} {r : Row}

theorem after_concat (events : List Event) (e : Event) : after (events ++ [e]) = step (after events) e :=
  Run.run_concat step {} events e

/-- The first of the rows that wait. -/
structure First (db : Db) (r : Row) : Prop where
  mem : r ∈ db.rows
  queued : r.status = .queued
  le : ∀ r' ∈ db.rows, r'.status = .queued → r.id ≤ r'.id

section Environment

variable {native : Bool} {o : Observation} (henv : native = true → o.initialized = true)
include henv

/-- While no row is running, a claim of the first one takes effect. -/
theorem runs_of_idle (hopen : (after events).db.control.hardStopped = false) (hfirst : First (after events).db r)
    (hidle : ∀ r' ∈ (after events).db.rows, r'.status ≠ .running) (now : ℕ) :
    ((after (events ++ [.claim native [o] r.id now])).db.getById r.id).map Row.status = some .running := by
  have hclaimable : (after events).db.claimable r.id = true := by
    simp only [Db.claimable, Bool.and_eq_true, any_eq_true, all_eq_true, beq_iff_eq, bne_iff_ne, Bool.or_eq_true,
      decide_eq_true_eq]
    refine ⟨⟨⟨r, hfirst.mem, rfl, hfirst.queued⟩, hidle⟩, fun r' hr' => ?_⟩
    by_cases hqueued : r'.status = .queued
    · exact .inr (hfirst.le r' hr' hqueued)
    · exact .inl hqueued
  have hclaimed : { r with
      status := .running, startedAt := some now, heartbeatAt := now
      expectedCommitHash := o.rootCommit, expectedTreeHash := o.rootTree } ∈
      (after (events ++ [.claim native [o] r.id now])).db.rows := by
    have hready : (native && !o.initialized) = false := by
      cases native <;> simp_all
    rw [after_concat, step, State.commit, claimForExecution, hopen, hclaimable]
    simp only [Bool.false_eq_true, ↓reduceIte, hready]
    exact mem_map.mpr ⟨r, hfirst.mem, by simp [hfirst.queued]⟩
  exact congrArg (Option.map Row.status) ((valid_after _).sound.getById hclaimed)

end Environment

/-- **The first request that waits can be brought to run** wherever a claim finds one root, and the native publication
initialized if it is enabled: at most one transaction gives up the writer that is running, and the claim of the
request takes effect. -/
theorem waiting_request_runs (events : List Event) (r : Row) (now : ℕ) (native : Bool) (o : Observation)
    (henv : native = true → o.initialized = true) (hopen : (after events).db.control.hardStopped = false)
    (hfirst : First (after events).db r) :
    ∃ before : List Event, before.length ≤ 1 ∧
      ((after (events ++ before ++ [.claim native [o] r.id now])).db.getById r.id).map Row.status = some .running := by
  by_cases hidle : ∀ r' ∈ (after events).db.rows, r'.status ≠ .running
  · refine ⟨[], by simp, ?_⟩
    rw [append_nil]
    exact runs_of_idle henv hopen hfirst hidle now
  obtain ⟨writer, hwriter, hrunning⟩ : ∃ writer ∈ (after events).db.rows, writer.status = .running := by
    simpa using hidle
  have hdb : (after (events ++ [.markFailed writer.id .claimLost []])).db =
      (markFailedIfRunningInTxn writer.id .claimLost [] (after events).db).2 := by
    rw [after_concat]
    rfl
  -- the writer was the only row that is running, and the rows that wait are as they were
  have hrows : ∀ r' ∈ (after (events ++ [.markFailed writer.id .claimLost []])).db.rows,
      r'.status ≠ .running ∧ (r'.status = .queued → r' ∈ (after events).db.rows) := by
    rw [hdb]
    intro r' hr'
    obtain ⟨before, hbefore, rfl⟩ := mem_map.mp hr'
    by_cases hguard : before.id = writer.id ∧ before.status = .running
    · simp [hguard]
    · have hkept : ¬ (before.id == writer.id && before.status == .running) = true := by simpa using hguard
      simp only [if_neg hkept]
      refine ⟨fun hrun => hguard ⟨?_, hrun⟩, fun _ => hbefore⟩
      exact (valid_after events).sound.running before hbefore writer hwriter ⟨hrun, hrunning⟩
  refine ⟨[.markFailed writer.id .claimLost []], le_rfl, ?_⟩
  refine runs_of_idle henv (by rw [hdb]; exact hopen) ⟨?_, hfirst.queued, fun r' hr' hqueued => ?_⟩
    (fun r' hr' => (hrows r' hr').1) now
  · rw [hdb]
    exact mem_map.mpr ⟨r, hfirst.mem, by simp [hfirst.queued]⟩
  · exact hfirst.le r' ((hrows r' hr').2 hqueued) hqueued

/-- A request to push. -/
def pushTo (path : String) : Request := ⟨.push, "op".toList, path.toList, [], [], none, []⟩

def noRecords : Audit := ⟨⟨[], [], [], fun _ => .ok ()⟩, fun _ => .error (.integrity .scope)⟩

/-- Row 1 is running and row 2 waits. -/
def oneWaits : List Event :=
  [.enqueue noRecords (pushTo "/a") 0, .enqueue noRecords (pushTo "/b") 1, .claim true [⟨none, none, true⟩] 1 2]

theorem waiting_request_runs_second : ∃ before : List Event, before.length ≤ 1 ∧
    ((after (oneWaits ++ before ++ [.claim true [⟨none, none, true⟩] 2 9])).db.getById 2).map Row.status =
      some .running :=
  waiting_request_runs oneWaits { id := 2, request := pushTo "/b", heartbeatAt := 1 } 9 true _ (fun _ => rfl) (by decide)
    ⟨by decide, rfl, by decide⟩

/-- **What is done is not done again.** Once the row of an operation is done, every enqueue of that operation,
after whatever has happened since, changes nothing. It is answered with that row, unless the audit of a push or a
merge against what was published for the row fails: then with its error. -/
theorem done_operation_replayed (events more : List Event) (r : Row) (hr : r ∈ (after events).db.rows)
    (hdone : r.status = .done) (audit : Audit) (p : Request) (hp : p.operation = r.request.operation) (now : ℕ) :
    ∃ done, (after (events ++ more)).db.getById r.id = some done ∧ done.status = .done ∧
      done.request = r.request ∧ enqueueAtomic audit p now (after (events ++ more)).db =
        ((auditReplay audit p (some done)).map fun _ => .replay r.id done.landedCommitId, (after (events ++ more)).db) := by
  obtain ⟨r', hr', hlasts⟩ := (later_run (valid_after events) more).rows r hr
  have hsound := (valid_after (events ++ more)).sound
  rw [after, Run.run_append, ← after] at hsound ⊢
  have hdone' := hlasts.done hdone
  have hholds : (r'.status.holds && r'.request.operation == p.operation) = true := by
    simp [hdone', hp, hlasts.request, Status.holds]
  -- the row that holds the operation is the one that is done
  have hholder : (Run.run step (after events) more).db.holder p = some r' := by
    cases hfound : (Run.run step (after events) more).db.holder p with
    | none => exact absurd hholds (find?_eq_none.mp hfound r' hr')
    | some found =>
      have hmem := mem_of_find?_eq_some hfound
      have hsame := find?_some hfound
      simp only [Bool.and_eq_true, beq_iff_eq] at hsame hholds
      have hid := hsound.operations found hmem r' hr' (by
        simp [Db.sameOperation, hsame.1, hholds.1, hsame.2, hholds.2])
      rw [hsound.row_unique hmem hr' hid]
  have hfound := hsound.getById hr'
  rw [hlasts.id] at hfound
  refine ⟨r', hfound, hdone', hlasts.request, ?_⟩
  simp [enqueueAtomic, Db.conditionalInsert, classifyZeroRow, hholder, Row.existing, hdone', hlasts.id, auditOutcome, hfound]

/-- What was published for row 1, under another digest than that of any other request. -/
def published : Audit where
  records := ⟨[⟨operationIdOf 1, "/a".toList, 1, 1, WriterKind.text .trunkPush, some "digest".toList, some 1⟩], [], [],
    fun _ => .ok ()⟩
  requestOf := fun row => .ok ⟨operationIdOf row.id, row.request.path, .trunkPush, row.request.newId, none, false⟩

/-- A request with another commit is refused. -/
theorem done_operation_replayed_changed :
    enqueueAtomic published (pushTo "/a") 9 (after (oneWaits ++ [.markDone 1 []] ++ [.cancel 2])).db =
      (.error (.receipt (.conflict .requestChanged)), (after (oneWaits ++ [.markDone 1 []] ++ [.cancel 2])).db) := by
  let row : Row := ⟨1, pushTo "/a", .done, 2, some 2, none, none, some [], none, none, none, none⟩
  obtain ⟨done, hfound, -, -, henqueue⟩ := done_operation_replayed (oneWaits ++ [.markDone 1 []]) [.cancel 2] row
    (by decide) rfl published (pushTo "/a") rfl 9
  have hrow : (after (oneWaits ++ [.markDone 1 []] ++ [.cancel 2])).db.getById 1 = some row := by decide
  have haudit : auditReplay published (pushTo "/a") (some row) = .error (.receipt (.conflict .requestChanged)) := by
    decide +kernel
  cases hfound.symm.trans hrow
  rw [haudit] at henqueue
  exact henqueue

end PushQueue
end Mega
