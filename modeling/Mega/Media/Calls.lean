/-
# What the storage calls of the media service leave

Inversion lemmas for the calls: which task row a call updates and how, which
entries a page has after its upload, and that a call lost before it took effect
leaves everything as it was.

Key definitions: `Op.taskChange`, `TasksAfter`.
Key theorems: `tasksAfter_perform`, `task?_perform`, `rows_putPageEntries`,
`rows_kept_putPageEntries`.
-/
import Mega.Media.Service

namespace Mega
namespace Media

open List View

def World.task? (w : World) (taskId : Text) : Option TaskRow := w.paging.tasks.find? (·.taskId = taskId)

/-! ### What a call does to the tasks -/

/-- The task that a call updates, and how. -/
def Op.taskChange (now : ℕ) : Op → Option (Text × (TaskRow → Except PagingError TaskRow))
  | .claimOrRenewLease taskId owner expectedEpoch => some (taskId, claimRow now owner expectedEpoch)
  | .updateTaskProgress taskId epoch bytes pages stage => some (taskId, progressRow now epoch bytes pages stage)
  | .completeTask taskId epoch => some (taskId, completeRow epoch)
  | .failTask taskId epoch errorCode retryable => some (taskId, failRow epoch errorCode retryable)
  | .cancelTask taskId => some (taskId, cancelRow)
  | .requeueFailedTask taskId => some (taskId, requeueRow)
  | _ => none

/-- The task and the session a row is for. -/
def TaskRow.ident (task : TaskRow) : Text × Text × Text := (task.taskId, task.scope, task.manifestId)

/-- An update of a row leaves it the row of its task and its session. -/
theorem ident_of_taskChange (now : ℕ) (op : Op) {taskId : Text} {change : TaskRow → Except PagingError TaskRow}
    (hop : op.taskChange now = some (taskId, change)) {task new : TaskRow} (h : change task = .ok new) :
    new.ident = task.ident := by
  cases op with
  | claimOrRenewLease _ owner expectedEpoch =>
    cases hop
    unfold claimRow at h
    split at h <;> split at h <;> cases h <;> rfl
  | updateTaskProgress _ _ _ _ _ =>
    cases hop
    unfold progressRow withEpoch at h
    split at h
    · cases h
    · split at h <;> cases h
      rfl
  | completeTask _ _ =>
    cases hop
    unfold completeRow withEpoch at h
    split at h <;> cases h
    rfl
  | failTask _ _ _ _ =>
    cases hop
    unfold failRow withEpoch at h
    split at h <;> cases h
    rfl
  | cancelTask _ =>
    cases hop
    unfold cancelRow at h
    split at h <;> cases h
    rfl
  | requeueFailedTask _ =>
    cases hop
    unfold requeueRow at h
    split at h <;> cases h
    rfl
  | _ => cases hop

theorem onTask_cases (db : Paging) (taskId : Text) (change : TaskRow → Except PagingError TaskRow) :
    (∃ e, onTask db taskId change = .error e) ∨
      ∃ task new, db.tasks.find? (·.taskId = taskId) = some task ∧ change task = .ok new ∧
        onTask db taskId change =
          .ok ({ db with tasks := Table.updateKey TaskRow.taskId taskId (fun _ => new) db.tasks }, new) := by
  unfold onTask getTask
  cases htask : db.tasks.find? (·.taskId = taskId) with
  | none => exact .inl ⟨_, rfl⟩
  | some task =>
    cases hnew : change task with
    | error e =>
      refine .inl ⟨e, ?_⟩
      simp only [bind, Except.bind, hnew]
    | ok new =>
      refine .inr ⟨task, new, rfl, hnew, ?_⟩
      simp only [bind, Except.bind, hnew]

/-- The tasks after a call, which answers `ok` or not: as before, with a new row, or with one row updated. -/
inductive TasksAfter (op : Op) (now : ℕ) (ok : Bool) (before : List TaskRow) : List TaskRow → Prop
  | same : TasksAfter op now ok before before
  | added (row : TaskRow) (hfresh : ∀ task ∈ before, task.taskId ≠ row.taskId)
      (hblank : row.leaseOwner = none ∧ row.leaseEpoch = 0) :
      TasksAfter op now ok before (before ++ [row])
  | updated (taskId : Text) (change : TaskRow → Except PagingError TaskRow) (task new : TaskRow)
      (hop : op.taskChange now = some (taskId, change)) (hok : ok = true)
      (htask : before.find? (·.taskId = taskId) = some task) (hnew : change task = .ok new) :
      TasksAfter op now ok before (Table.updateKey TaskRow.taskId taskId (fun _ => new) before)

/-- A transaction that updates a task row. -/
theorem tasksAfter_onTask {op : Op} {now : ℕ} {taskId : Text} {change : TaskRow → Except PagingError TaskRow}
    (hop : op.taskChange now = some (taskId, change)) (w : World) :
    TasksAfter op now (w.commit (onTask w.paging taskId change)).2.isOk w.paging.tasks
      (w.commit (onTask w.paging taskId change)).1.paging.tasks := by
  obtain ⟨e, he⟩ | ⟨task, new, htask, hnew, hdone⟩ := onTask_cases w.paging taskId change
  · rw [he]
    exact .same
  · rw [hdone]
    exact .updated taskId change task new hop rfl htask hnew

theorem tasksAfter_completeTask {now : ℕ} (taskId : Text) (epoch : ℕ) (w : World) :
    TasksAfter (.completeTask taskId epoch) now (w.commit (completeTask w.paging taskId epoch)).2.isOk
      w.paging.tasks (w.commit (completeTask w.paging taskId epoch)).1.paging.tasks := by
  unfold completeTask
  obtain ⟨e, he⟩ | ⟨task, new, htask, hnew, hdone⟩ := onTask_cases w.paging taskId (completeRow epoch)
  · rw [he]
    exact .same
  · rw [hdone]
    have hsession : ∀ db : Paging, (finalizeSession db new.scope new.manifestId).tasks = db.tasks := by
      intro db
      unfold finalizeSession
      split <;> rfl
    simp only [bind, Except.bind, World.commit, hsession]
    exact .updated taskId (completeRow epoch) task new rfl rfl htask hnew

theorem tasksAfter_commit {α : Type} {op : Op} {now : ℕ} {w : World} {result : Except PagingError (Paging × α)}
    (h : ∀ db a, result = .ok (db, a) → TasksAfter op now true w.paging.tasks db.tasks) :
    TasksAfter op now (w.commit result).2.isOk w.paging.tasks (w.commit result).1.paging.tasks := by
  cases hresult : result with
  | error e => exact .same
  | ok pair => exact h pair.1 pair.2 hresult

/-- **A call adds a task row, or updates one as `taskChange` says**, or leaves the tasks alone. -/
theorem tasksAfter_perform (input : Input) (op : Op) (w : World) :
    TasksAfter op input.now (perform input op w).2.isOk w.paging.tasks (perform input op w).1.paging.tasks := by
  cases op with
  | claimOrRenewLease taskId owner expectedEpoch => exact tasksAfter_onTask rfl w
  | updateTaskProgress taskId epoch bytes pages stage => exact tasksAfter_onTask rfl w
  | failTask taskId epoch errorCode retryable => exact tasksAfter_onTask rfl w
  | cancelTask taskId => exact tasksAfter_onTask rfl w
  | requeueFailedTask taskId => exact tasksAfter_onTask rfl w
  | completeTask taskId epoch => exact tasksAfter_completeTask taskId epoch w
  | getSession scope manifestId =>
    rw [perform]
    cases getSession w.paging scope manifestId <;> exact .same
  | upsertPendingSession scope manifestId algorithm oid size chunkCount pageCount =>
    refine tasksAfter_commit fun db session hok => ?_
    obtain ⟨-, rfl⟩ | ⟨-, -, rfl⟩ := upsertPendingSession_cases hok
    · exact .same
    · exact .same
  | putPageEntries scope manifestId pageNo entries =>
    rw [perform]
    cases hput : putPageEntries w.paging scope manifestId pageNo entries with
    | error e => exact .same
    | ok db =>
      obtain ⟨-, -, -, rfl⟩ | ⟨-, rfl⟩ := putPageEntries_cases hput
      · exact .same
      · exact .same
  | sealSession scope manifestId =>
    refine tasksAfter_commit fun db session hok => ?_
    obtain ⟨before, -, ⟨-, -, rfl⟩ | ⟨-, -, -, -, rfl⟩⟩ := sealSession_cases hok
    · exact .same
    · exact .same
  | markSessionFinalized scope manifestId =>
    refine tasksAfter_commit fun db session hok => ?_
    obtain ⟨before, -, -, -, rfl⟩ := markSessionFinalized_cases hok
    exact .same
  | ensureTask scope manifestId =>
    refine tasksAfter_commit fun db row hok => ?_
    obtain ⟨-, rfl⟩ | ⟨hfresh, -, -, hblank, rfl⟩ := ensureTask_cases hok
    · exact .same
    · exact .added row hfresh hblank
  | ensureLfsObject oid size =>
    rw [perform, World.ensureLfs]
    split <;> exact .same
  | _ => exact .same

/-- The row of a task after a call: as before, or as the call updates it. -/
theorem task?_perform (input : Input) (op : Op) {w : World} {taskId : Text} {task : TaskRow}
    (h : w.task? taskId = some task) :
    (perform input op w).1.task? taskId = some task ∨
      ∃ change new, op.taskChange input.now = some (taskId, change) ∧ change task = .ok new ∧
        (perform input op w).2.isOk = true ∧ (perform input op w).1.task? taskId = some new := by
  have hafter := tasksAfter_perform input op w
  rw [World.task?] at h ⊢
  generalize (perform input op w).1.paging.tasks = tasks at hafter ⊢
  cases hafter with
  | same => exact .inl h
  | added row hfresh hblank =>
    rw [List.find?_append, h]
    exact .inl rfl
  | updated called change found new hop hok hfound hnew =>
    have hid : found.taskId = called := by simpa using List.find?_some hfound
    have hkeep : new.taskId = called := (congrArg Prod.fst (ident_of_taskChange _ op hop hnew)).trans hid
    rw [Table.find?_updateKey_const hkeep taskId w.paging.tasks]
    by_cases hcalled : taskId = called
    · subst hcalled
      have hsame : found = task := Option.some.inj (hfound.symm.trans h)
      rw [if_pos rfl, h]
      exact .inr ⟨change, new, hop, hsame ▸ hnew, hok, rfl⟩
    · rw [if_neg hcalled]
      exact .inl h

/-- Task ids stay unique. -/
theorem nodup_perform (input : Input) (op : Op) {w : World} (h : (w.paging.tasks.map TaskRow.taskId).Nodup) :
    ((perform input op w).1.paging.tasks.map TaskRow.taskId).Nodup := by
  have hafter := tasksAfter_perform input op w
  generalize (perform input op w).1.paging.tasks = tasks at hafter ⊢
  cases hafter with
  | same => exact h
  | added row hfresh hblank =>
    rw [map_append, nodup_append]
    refine ⟨h, nodup_singleton _, ?_⟩
    intro id hid other hother
    obtain ⟨task, htask, rfl⟩ := mem_map.mp hid
    rw [map_singleton, mem_singleton] at hother
    exact hother ▸ hfresh task htask
  | updated called change found new hop hok hfound hnew =>
    have hid : found.taskId = called := by simpa using List.find?_some hfound
    have hkeep : new.taskId = called := (congrArg Prod.fst (ident_of_taskChange _ op hop hnew)).trans hid
    rw [Table.map_updateKey_const hkeep]
    exact h

/-- A transaction changes nothing, or it leaves the tables it returned. -/
theorem commit_cases {α : Type} (w : World) (result : Except PagingError (Paging × α)) :
    (w.commit result).1 = w ∨ ∃ db a, result = .ok (db, a) ∧ (w.commit result).1 = { w with paging := db } := by
  cases result with
  | error e => exact .inl rfl
  | ok pair => exact .inr ⟨pair.1, pair.2, rfl, rfl⟩

/-! ### Calls that are lost -/

theorem exec_of_effect {input : Input} (h : ∀ e, input.fault ≠ .before e) (op : Op) (w : World) :
    (exec input op w).1 = (perform input op w).1 := by
  unfold exec
  split
  · rfl
  · rename_i e hbefore
    exact absurd hbefore (h e)
  · rfl

theorem exec_cases (input : Input) (op : Op) (w : World) : (exec input op w).1 = w ∨
    (∀ e, input.fault ≠ .before e) ∧ (exec input op w).1 = (perform input op w).1 := by
  by_cases h : ∀ e, input.fault ≠ .before e
  · exact .inr ⟨h, exec_of_effect h op w⟩
  · push Not at h
    obtain ⟨e, he⟩ := h
    rw [exec, he]
    exact .inl rfl

/-! ### The entries of a page -/

/-- Where a chunk lies in the file, and which chunk it is. -/
def EntryRow.spot (row : EntryRow) : ℕ × ℕ × Text := (row.offset, row.length, row.chunkHash)

def ChunkEntry.spot (c : ChunkEntry) : ℕ × ℕ × Text := (c.offset, c.length, c.chunkHash)

def ChunkIndexRow.spot (e : ChunkIndexRow) : ℕ × ℕ × Text := (e.offset, e.length, e.chunkHash)

theorem spot_indexRows (entries : List ChunkEntry) :
    (indexRows entries).map ChunkIndexRow.spot = entries.map ChunkEntry.spot := by
  have hcomp : (ChunkIndexRow.spot ∘ fun e : ChunkEntry × ℕ =>
      (⟨e.2, e.1.offset, e.1.length, e.1.chunkHash⟩ : ChunkIndexRow)) = ChunkEntry.spot ∘ Prod.fst := rfl
  rw [indexRows, map_map, hcomp, ← map_map, zipIdx_map_fst]

theorem pairwise_indexRows (entries : List ChunkEntry) :
    (indexRows entries).Pairwise fun a b => a.ordinal ≤ b.ordinal := by
  have hordinals : (indexRows entries).map ChunkIndexRow.ordinal = List.range entries.length := by
    rw [indexRows, map_map]
    exact (zipIdx_map_snd 0 entries).trans range_eq_range'.symm
  have hsorted : ((indexRows entries).map ChunkIndexRow.ordinal).Pairwise (· ≤ ·) := by
    rw [hordinals]
    exact pairwise_le_range
  exact pairwise_map.mp hsorted

theorem spot_of_agrees : ∀ {rows : List EntryRow} {entries : List ChunkIndexRow}, rows.length = entries.length →
    (∀ pair ∈ rows.zip entries, pair.1.agrees pair.2 = true) →
    rows.map EntryRow.spot = entries.map ChunkIndexRow.spot
  | [], [], _, _ => rfl
  | row :: rows, e :: entries, hlength, hagrees => by
    have hhead : row.agrees e = true := hagrees (row, e) (by simp)
    have htail : ∀ pair ∈ rows.zip entries, pair.1.agrees pair.2 = true :=
      fun pair hpair => hagrees pair (by simp [hpair])
    have hspot : row.spot = e.spot := by
      simp only [EntryRow.agrees, decide_eq_true_eq] at hhead
      obtain ⟨-, ho, hl, hh⟩ := hhead
      rw [EntryRow.spot, ChunkIndexRow.spot, ho, hl, hh]
    rw [map_cons, map_cons, hspot, spot_of_agrees (by simpa using hlength) htail]

section Entries

variable {db db' : Paging} {scope manifestId : Text} {pageNo : ℤ} {entries : List ChunkEntry}

/-- After the upload of a page its rows are those of its entries. -/
theorem rows_putPageEntries (h : putPageEntries db scope manifestId pageNo (indexRows entries) = .ok db') :
    (listEntriesForPage db' scope manifestId pageNo).map EntryRow.spot = entries.map ChunkEntry.spot := by
  obtain ⟨-, hlength, hagrees, rfl⟩ | ⟨hnone, rfl⟩ := putPageEntries_cases h
  · rw [spot_of_agrees hlength hagrees, spot_indexRows]
  · have hold : (db.entries.filter fun row => row.ofSession scope manifestId ∧ row.pageNo = pageNo) = [] := by
      have hlen := congrArg List.length hnone
      rw [listEntriesForPage, KeySort.length_sortBy] at hlen
      exact length_eq_zero_iff.mp hlen
    have hnew : ((indexRows entries).map (ChunkIndexRow.toEntry scope manifestId pageNo)).filter
        (fun row => row.ofSession scope manifestId ∧ row.pageNo = pageNo) =
        (indexRows entries).map (ChunkIndexRow.toEntry scope manifestId pageNo) := by
      refine filter_eq_self.mpr ?_
      intro row hrow
      obtain ⟨e, -, rfl⟩ := mem_map.mp hrow
      simp [ChunkIndexRow.toEntry, EntryRow.ofSession]
    have hsorted : ((indexRows entries).map (ChunkIndexRow.toEntry scope manifestId pageNo)).Pairwise
        fun a b => a.ordinal ≤ b.ordinal := pairwise_map.mpr (pairwise_indexRows entries)
    rw [listEntriesForPage, filter_append, hold, hnew, nil_append, KeySort.sortBy_eq_self hsorted,
      map_map, ← spot_indexRows]
    rfl

/-- Rows of one page do not change those of another. -/
theorem listEntriesForPage_stored {after : Paging} {rows : List ChunkIndexRow}
    (hnone : listEntriesForPage db scope manifestId pageNo = [])
    (hentries : after.entries = db.entries ++ rows.map (ChunkIndexRow.toEntry scope manifestId pageNo))
    {scope' manifestId' : Text} {pageNo' : ℤ} (hsome : listEntriesForPage db scope' manifestId' pageNo' ≠ []) :
    listEntriesForPage after scope' manifestId' pageNo' = listEntriesForPage db scope' manifestId' pageNo' := by
  have hother : (rows.map (ChunkIndexRow.toEntry scope manifestId pageNo)).filter
      (fun row => row.ofSession scope' manifestId' ∧ row.pageNo = pageNo') = [] := by
    refine filter_eq_nil_iff.mpr ?_
    intro row hrow hpage
    obtain ⟨e, -, rfl⟩ := mem_map.mp hrow
    obtain ⟨hsession, rfl⟩ := of_decide_eq_true hpage
    obtain ⟨rfl, rfl⟩ := of_decide_eq_true hsession
    exact hsome hnone
  unfold listEntriesForPage
  rw [hentries, filter_append, hother, append_nil]

/-- Pages that have rows keep them. -/
theorem rows_kept_putPageEntries {rows : List ChunkIndexRow}
    (h : putPageEntries db scope manifestId pageNo rows = .ok db') {scope' manifestId' : Text} {pageNo' : ℤ}
    (hrows : listEntriesForPage db scope' manifestId' pageNo' ≠ []) :
    listEntriesForPage db' scope' manifestId' pageNo' = listEntriesForPage db scope' manifestId' pageNo' := by
  obtain ⟨-, -, -, rfl⟩ | ⟨hnone, rfl⟩ := putPageEntries_cases h
  · rfl
  · exact listEntriesForPage_stored hnone rfl hrows

end Entries

end Media
end Mega
