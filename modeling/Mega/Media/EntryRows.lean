/-
# What the calls do to sessions and entry rows

Rows are only ever added, by the upload of a page that has none yet. A session is
opened once and keeps its number of pages. Each call does one of four things to
the two tables, and each program makes the calls that its request allows, so an
invariant of the tables needs a case for each of the four only.

Key definitions: `TablesAfter`, `Extends`, `Op.storesPage`.
Key theorems: `tablesAfter_exec`, `extends_exec`, `only_code`.
-/
import Mega.Media.Programs

namespace Mega
namespace Media

open List View
open Proc (Only)

/-! ### The tables after a call -/

/-- The sessions and the entries after a call. -/
inductive TablesAfter (op : Op) (db after : Paging) : Prop
  | same (hentries : after.entries = db.entries) (hsessions : after.sessions = db.sessions)
  | opened (scope manifestId algorithm oid : Text) (size chunkCount pageCount : ℕ)
      (hop : op = .upsertPendingSession scope manifestId algorithm oid size chunkCount pageCount)
      (hnone : db.sessions (scope, manifestId) = none) (hentries : after.entries = db.entries)
      (hsessions : after.sessions = Function.update db.sessions (scope, manifestId)
        (some ⟨algorithm, oid, size, chunkCount, pageCount, .pending, 0⟩))
  | moved (key : Text × Text) (before row : SessionRow) (hbefore : db.sessions key = some before)
      (hcount : row.pageCount = before.pageCount)
      (hgeneration : row.sealGeneration = before.sealGeneration ∨ row.sealGeneration < 2 ^ 63)
      (hentries : after.entries = db.entries) (hsessions : after.sessions = Function.update db.sessions key (some row))
  | stored (scope manifestId : Text) (pageNo : ℤ) (rows : List ChunkIndexRow)
      (hop : op = .putPageEntries scope manifestId pageNo rows)
      (hnone : listEntriesForPage db scope manifestId pageNo = [])
      (hlengths : ∀ e ∈ rows, lengthConflict db scope manifestId e = false)
      (hentries : after.entries = db.entries ++ rows.map (ChunkIndexRow.toEntry scope manifestId pageNo))
      (hsessions : after.sessions = db.sessions)

section Calls

variable {op : Op} {db after : Paging} {scope manifestId : Text} {session : SessionRow}

theorem TablesAfter.refl (op : Op) (db : Paging) : TablesAfter op db db := .same rfl rfl

theorem tablesAfter_putPageEntries {pageNo : ℤ} {rows : List ChunkIndexRow}
    (h : putPageEntries db scope manifestId pageNo rows = .ok after) :
    TablesAfter (.putPageEntries scope manifestId pageNo rows) db after := by
  unfold putPageEntries at h
  dsimp only at h
  by_cases hexisting : listEntriesForPage db scope manifestId pageNo ≠ []
  · rw [if_pos hexisting] at h
    split_ifs at h
    cases h
    exact .refl _ _
  · rw [if_neg hexisting] at h
    by_cases hconflict : rows.any (lengthConflict db scope manifestId) = true
    · rw [if_pos hconflict] at h
      cases h
    · rw [if_neg hconflict] at h
      obtain ⟨-, h⟩ := Fallible.check_bind_eq_ok.mp h
      cases h
      refine .stored scope manifestId pageNo rows rfl (not_not.mp hexisting) ?_ rfl rfl
      intro e he
      by_contra hlength
      exact hconflict (any_eq_true.mpr ⟨e, he, by simpa using hlength⟩)

theorem tablesAfter_sealSession (h : sealSession db scope manifestId = .ok (after, session)) :
    TablesAfter op db after := by
  unfold sealSession at h
  split at h
  · cases h
  · next before hfound =>
    by_cases hstate : before.state = .sealed ∨ before.state = .finalized
    · rw [if_pos hstate] at h
      cases h
      exact .refl _ _
    · rw [if_neg hstate] at h
      split_ifs at h
      cases h
      have hgeneration : min (before.sealGeneration + 1) (2 ^ 63 - 1) < 2 ^ 63 := by omega
      exact .moved (scope, manifestId) before { before with
        state := .sealed
        sealGeneration := min (before.sealGeneration + 1) (2 ^ 63 - 1) } hfound rfl (Or.inr hgeneration) rfl rfl

theorem tablesAfter_markSessionFinalized (h : markSessionFinalized db scope manifestId = .ok (after, session)) :
    TablesAfter op db after := by
  obtain ⟨before, hfound, -, rfl, rfl⟩ := markSessionFinalized_cases h
  exact .moved (scope, manifestId) before { before with state := .finalized } hfound rfl (Or.inl rfl) rfl rfl

theorem tablesAfter_upsertPendingSession {algorithm oid : Text} {size chunkCount pageCount : ℕ}
    (h : upsertPendingSession db scope manifestId algorithm oid size chunkCount pageCount = .ok (after, session)) :
    TablesAfter (.upsertPendingSession scope manifestId algorithm oid size chunkCount pageCount) db after := by
  rcases upsertPendingSession_cases h with ⟨-, rfl⟩ | ⟨hnone, rfl, rfl⟩
  · exact .refl _ _
  · exact .opened scope manifestId algorithm oid size chunkCount pageCount rfl hnone rfl rfl

/-- The session of a completed task. -/
theorem tablesAfter_completeTask {taskId : Text} {epoch : ℕ} {task : TaskRow}
    (h : completeTask db taskId epoch = .ok (after, task)) : TablesAfter op db after := by
  unfold completeTask at h
  rcases onTask_cases db taskId (completeRow epoch) with ⟨e, he⟩ | ⟨before, new, -, -, hdone⟩
  · rw [he] at h
    cases h
  · rw [hdone] at h
    cases h
    unfold finalizeSession
    split
    · next found hfound =>
      exact .moved (task.scope, task.manifestId) found { found with state := .finalized } hfound rfl (Or.inl rfl) rfl rfl
    · exact .same rfl rfl

/-- A transaction on a task row. -/
theorem tablesAfter_onTask {taskId : Text} {change : TaskRow → Except PagingError TaskRow} {task : TaskRow}
    (h : onTask db taskId change = .ok (after, task)) : TablesAfter op db after := by
  rcases onTask_cases db taskId change with ⟨e, he⟩ | ⟨before, new, -, -, hdone⟩
  · rw [he] at h
    cases h
  · rw [hdone] at h
    cases h
    exact .same rfl rfl

theorem tablesAfter_ensureTask {uuid : Text} {task : TaskRow}
    (h : ensureTask db scope manifestId uuid = .ok (after, task)) : TablesAfter op db after := by
  rcases ensureTask_cases h with ⟨-, rfl⟩ | ⟨-, -, -, -, rfl⟩
  · exact .refl _ _
  · exact .same rfl rfl

theorem tablesAfter_commit {α : Type} {w : World} {result : Except PagingError (Paging × α)}
    (h : ∀ db a, result = .ok (db, a) → TablesAfter op w.paging db) :
    TablesAfter op w.paging (w.commit result).1.paging := by
  cases hresult : result with
  | error e => exact .refl _ _
  | ok pair => exact h pair.1 pair.2 hresult

theorem tablesAfter_perform (input : Input) (op : Op) (w : World) :
    TablesAfter op w.paging (perform input op w).1.paging := by
  cases op with
  | getSession scope manifestId =>
    rw [perform]
    cases getSession w.paging scope manifestId <;> exact .refl _ _
  | upsertPendingSession scope manifestId algorithm oid size chunkCount pageCount =>
    exact tablesAfter_commit fun db session h => tablesAfter_upsertPendingSession h
  | putPageEntries scope manifestId pageNo rows =>
    rw [perform]
    cases hput : putPageEntries w.paging scope manifestId pageNo rows with
    | error e => exact .refl _ _
    | ok db => exact tablesAfter_putPageEntries hput
  | sealSession scope manifestId => exact tablesAfter_commit fun db session h => tablesAfter_sealSession h
  | markSessionFinalized scope manifestId =>
    exact tablesAfter_commit fun db session h => tablesAfter_markSessionFinalized h
  | ensureTask scope manifestId => exact tablesAfter_commit fun db task h => tablesAfter_ensureTask h
  | claimOrRenewLease taskId owner expectedEpoch => exact tablesAfter_commit fun db task h => tablesAfter_onTask h
  | updateTaskProgress taskId epoch bytes pages stage => exact tablesAfter_commit fun db task h => tablesAfter_onTask h
  | completeTask taskId epoch => exact tablesAfter_commit fun db task h => tablesAfter_completeTask h
  | failTask taskId epoch errorCode retryable => exact tablesAfter_commit fun db task h => tablesAfter_onTask h
  | cancelTask taskId => exact tablesAfter_commit fun db task h => tablesAfter_onTask h
  | requeueFailedTask taskId => exact tablesAfter_commit fun db task h => tablesAfter_onTask h
  | ensureLfsObject oid size =>
    rw [perform, World.ensureLfs]
    split <;> exact .refl _ _
  | _ => exact .refl _ _

/-- **A call does one of four things to the sessions and the entries**, also if it is lost or its answer is. -/
theorem tablesAfter_exec (input : Input) (op : Op) (w : World) :
    TablesAfter op w.paging (exec input op w).1.paging := by
  rcases exec_cases input op w with hsame | ⟨-, heffect⟩
  · rw [hsame]
    exact .refl _ _
  · rw [heffect]
    exact tablesAfter_perform input op w

end Calls

/-! ### Rows and page counts stay -/

/-- How the tables change: a page that has rows keeps them, and a session its number of pages. -/
structure Extends (w t : World) : Prop where
  rows : ∀ scope manifestId pageNo, listEntriesForPage w.paging scope manifestId pageNo ≠ [] →
    listEntriesForPage t.paging scope manifestId pageNo = listEntriesForPage w.paging scope manifestId pageNo
  pageCount : ∀ key before, w.paging.sessions key = some before →
    ∃ after, t.paging.sessions key = some after ∧ after.pageCount = before.pageCount

theorem Extends.refl (w : World) : Extends w w := ⟨fun _ _ _ _ => rfl, fun _ before h => ⟨before, h, rfl⟩⟩

theorem Extends.trans {a b c : World} (hab : Extends a b) (hbc : Extends b c) : Extends a c where
  rows scope manifestId pageNo h := by
    have hb := hab.rows scope manifestId pageNo h
    exact (hbc.rows scope manifestId pageNo (hb ▸ h)).trans hb
  pageCount key before h := by
    obtain ⟨middle, hmiddle, hcount⟩ := hab.pageCount key before h
    obtain ⟨after, hafter, hcount'⟩ := hbc.pageCount key middle hmiddle
    exact ⟨after, hafter, hcount'.trans hcount⟩

theorem listEntriesForPage_congr {db after : Paging} (h : after.entries = db.entries) (scope manifestId : Text)
    (pageNo : ℤ) : listEntriesForPage after scope manifestId pageNo = listEntriesForPage db scope manifestId pageNo := by
  unfold listEntriesForPage
  rw [h]

theorem extends_exec (input : Input) (op : Op) (w : World) : Extends w (exec input op w).1 := by
  rcases tablesAfter_exec input op w with ⟨hentries, hsessions⟩ |
    ⟨scope, manifestId, algorithm, oid, size, chunkCount, pageCount, -, hnone, hentries, hsessions⟩ |
    ⟨key, before, row, hbefore, hcount, -, hentries, hsessions⟩ |
    ⟨scope, manifestId, pageNo, rows, -, hnone, -, hentries, hsessions⟩
  · refine ⟨fun scope manifestId pageNo _ => listEntriesForPage_congr hentries scope manifestId pageNo, ?_⟩
    intro key before h
    exact ⟨before, by rw [hsessions, h], rfl⟩
  · refine ⟨fun scope manifestId pageNo _ => listEntriesForPage_congr hentries scope manifestId pageNo, ?_⟩
    intro key before h
    have hne : key ≠ (scope, manifestId) := by
      intro heq
      rw [heq, hnone] at h
      cases h
    exact ⟨before, by rw [hsessions, Function.update_of_ne hne, h], rfl⟩
  · refine ⟨fun scope manifestId pageNo _ => listEntriesForPage_congr hentries scope manifestId pageNo, ?_⟩
    intro key' before' h
    by_cases heq : key' = key
    · subst heq
      have hsame : before' = before := Option.some.inj (h.symm.trans hbefore)
      exact ⟨row, by rw [hsessions, Function.update_self], by rw [hcount, hsame]⟩
    · exact ⟨before', by rw [hsessions, Function.update_of_ne heq, h], rfl⟩
  · refine ⟨fun _ _ _ hsome => listEntriesForPage_stored hnone hentries hsome, ?_⟩
    intro key before h
    exact ⟨before, by rw [hsessions, h], rfl⟩

/-! ### The calls of a request -/

/-- A call that stores the rows of a page. -/
def Op.storesPage : Op → Bool
  | .putPageEntries _ _ _ _ => true
  | _ => false

theorem storesPage_of_routine {op : Op} (h : op.routine = true) : op.storesPage = false := by
  cases op <;> first | rfl | cases h

section Requests

variable {ok : Op → Prop} (hok : ∀ op, op.opens = false → op.storesPage = false → ok op)

include hok

theorem only_runTaskWorker (codec : Codec) (scope manifestId taskId owner : Text) (now : ℕ) :
    Only ok (runTaskWorker codec scope manifestId taskId owner now) := by
  refine (only_ask (hok _ rfl rfl)).attempt.bind fun claimed => ?_
  split
  · trivial
  · trivial
  · refine (only_runFinalizeBody (fun op h hopens => hok op hopens (storesPage_of_routine h)) codec scope manifestId now
      fun _ _ _ _ _ => hok _ rfl rfl).attempt.bind fun result => ?_
    split
    · exact only_ask_bind (hok _ rfl rfl) fun _ => trivial
    · exact (only_ask (hok _ rfl rfl)).attempt.bind fun _ => trivial

/-- **Only a request to prepare opens a session, and only the upload of a page stores rows.** -/
theorem only_code {codec : Codec} {request : Request}
    (hupsert : ∀ m : MediaManifest, ∀ manifestId, m.id codec = .ok manifestId →
      ∀ scope algorithm oid size chunkCount pageCount,
        ok (.upsertPendingSession scope manifestId algorithm oid size chunkCount pageCount))
    (hentries : ∀ scope manifestId page now, request = .putPage scope manifestId page now →
      page.validate codec = .ok () →
        ok (.putPageEntries scope manifestId (asI32 page.pageNo) (indexRows page.entries))) :
    Only ok (code codec request) := by
  have hroutine : ∀ op : Op, op.routine = true → op.opens = false → ok op :=
    fun op h hopens => hok op hopens (storesPage_of_routine h)
  cases request with
  | prepare scope manifest now =>
    exact (only_prepareAt hroutine hupsert (fun _ _ _ => hok _ rfl rfl) _ _ _).bind fun _ => trivial
  | putPage scope manifestId page now =>
    exact (only_putPageAt hroutine (hentries scope manifestId page now rfl) _).bind fun _ => trivial
  | sealManifest scope manifestId now => exact (only_sealAt hroutine _ _ _ _).bind fun _ => trivial
  | uploadChunk scope manifestId chunkHash body now =>
    refine Only.bind ?_ fun _ => trivial
    unfold uploadChunkAt
    refine (only_membershipForPending hroutine ?_ ?_ _ _ _ _).bind fun members => ?_
    · exact fun _ _ => hok _ rfl rfl
    · exact fun _ _ _ => hok _ rfl rfl
    · exact only_uploadDeclared hroutine _ _ _ _ _
  | finalize scope manifestId now =>
    exact (only_runFinalizeBody hroutine _ _ _ _ fun _ h => by cases h).bind fun _ => trivial
  | enqueueFinalize scope manifestId owner now =>
    refine (only_enqueueFinalize hroutine _ _).bind fun row => ?_
    split
    · trivial
    · exact (only_runTaskWorker hok _ _ _ _ _ _).bind fun _ => trivial
  | renewLease taskId owner epoch => exact only_ask_bind (hok _ rfl rfl) fun _ => trivial
  | cancelTask taskId => exact only_ask_bind (hok _ rfl rfl) fun _ => trivial
  | requeueTask taskId => exact only_ask_bind (hok _ rfl rfl) fun _ => trivial
  | loadImmutableById scope manifestId => exact (only_loadImmutableById hroutine _ _ _).bind fun _ => trivial
  | loadByMedia scope oid => exact (only_loadByMedia hroutine _ _ _).bind fun _ => trivial

end Requests

end Media
end Mega
