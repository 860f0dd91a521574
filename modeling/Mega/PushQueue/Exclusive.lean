/-
# One writer at a time, in order

In every run of the push queue at most one row is running, and the rows that
wait come after it; an operation id is held by at most one row and a path by at
most one active push; a row that is done stays done. An enqueue adds a row only
below the depth the control row allows.

Key theorem: `queue_exclusive_fifo`.
-/
import Mega.PushQueue.Moves

namespace Mega
namespace PushQueue

open View Receipts

/-- Only an insert adds an active row, and only where there is room. -/
theorem countActive_conditionalInsert {db : Db} {p : Request} {now : ℕ} {result : Except Db.Index ℕ × Db}
    (h : db.conditionalInsert p now = some result) :
    result.2.rows = db.rows ∨ (result.2.countActive : ℤ) ≤ db.control.maxDepth := by
  unfold Db.conditionalInsert at h
  split at h
  · rename_i hcond
    simp only [Bool.and_eq_true, decide_eq_true_eq] at hcond
    rw [Option.some.injEq] at h
    subst h
    unfold Db.insert
    generalize { p with payload := (db.predecessorPayload p).getD p.payload } = p'
    cases db.violates (db.newRow p' now) with
    | some index => exact .inl rfl
    | none =>
      have hcount : (db.rows ++ [db.newRow p' now]).countP (·.status.active) = db.countActive + 1 := by
        rw [List.countP_append]
        rfl
      right
      show (((db.rows ++ [db.newRow p' now]).countP (·.status.active) : ℕ) : ℤ) ≤ db.control.maxDepth
      rw [hcount]
      have hroom := hcond.1.2
      omega
  · exact absurd h (by simp)

theorem countActive_enqueueAtomic (audit : Audit) (p : Request) (now : ℕ) (db : Db) :
    (enqueueAtomic audit p now db).2.rows = db.rows ∨
      ((enqueueAtomic audit p now db).2.countActive : ℤ) ≤ db.control.maxDepth := by
  unfold enqueueAtomic
  split
  · exact countActive_conditionalInsert ‹_›
  · exact countActive_conditionalInsert ‹_›
  · exact countActive_conditionalInsert ‹_›
  · split
    · exact .inl rfl
    · split
      · exact countActive_conditionalInsert ‹_›
      · exact countActive_conditionalInsert ‹_›
      · exact .inl rfl

theorem Sound.nodup {db : Db} (h : Sound db) : (db.rows.map Row.id).Nodup := h.sorted.imp Nat.ne_of_lt

theorem Sound.getById {db : Db} (h : Sound db) {r : Row} (hr : r ∈ db.rows) : db.getById r.id = some r :=
  Table.find?_key_of_nodup h.nodup hr

/-- **Mutual exclusion and order of the queue.** After every run, with every transaction interleaved with
every other: at most one row is running; at most one row is queued, running or done for an operation; at
most one push is active on a path; the queued rows have larger ids than the running one; a row that is done
is done after every further run; and an enqueue that adds a row leaves no more active rows than `max_depth`. -/
theorem queue_exclusive_fifo (events : List Event) :
    ((after events).db.rows.filter fun r => r.status == .running).length ≤ 1 ∧
    (∀ operation, ((after events).db.rows.filter fun r =>
      r.status.holds && r.request.operation == operation).length ≤ 1) ∧
    (∀ path, ((after events).db.rows.filter fun r =>
      r.status.active && r.request.kind == .push && r.request.path == path).length ≤ 1) ∧
    (∀ running ∈ (after events).db.rows, ∀ queued ∈ (after events).db.rows,
      running.status = .running → queued.status = .queued → running.id < queued.id) ∧
    (∀ r ∈ (after events).db.rows, r.status = .done → ∀ more,
      ((after (events ++ more)).db.getById r.id).map Row.status = some .done) ∧
    ∀ audit p now, (after (events ++ [.enqueue audit p now])).db.rows = (after events).db.rows ∨
      ((after (events ++ [.enqueue audit p now])).db.countActive : ℤ) ≤ (after events).db.control.maxDepth := by
  have hvalid := valid_after events
  have hsound := hvalid.sound
  refine ⟨?_, fun operation => ?_, fun path => ?_, hsound.fifo, fun r hr hdone more => ?_, fun audit p now => ?_⟩
  · refine hsound.running.length_filter_le_one hsound.nodup fun a b ha hb => ?_
    exact ⟨by simpa using ha, by simpa using hb⟩
  · refine hsound.operations.length_filter_le_one hsound.nodup fun a b ha hb => ?_
    simp only [Bool.and_eq_true, beq_iff_eq] at ha hb
    simp [Db.sameOperation, ha.1, hb.1, ha.2, hb.2]
  · refine hsound.pushPaths.length_filter_le_one hsound.nodup fun a b ha hb => ?_
    simp only [Bool.and_eq_true, beq_iff_eq] at ha hb
    simp [Db.samePushPath, ha.1, hb.1, ha.2, hb.2]
  · obtain ⟨r', hr', hlast⟩ := (later_run hvalid more).rows r hr
    have hfound := (valid_after (events ++ more)).sound.getById (r := r') (by
      rw [after, Run.run_append]
      exact hr')
    rw [← hlast.id, hfound, Option.map_some, hlast.done hdone]
  · have hstep : (after (events ++ [.enqueue audit p now])).db = (enqueueAtomic audit p now (after events).db).2 := by
      rw [after, Run.run_concat]
      rfl
    rw [hstep]
    exact countActive_enqueueAtomic audit p now _

end PushQueue
end Mega
