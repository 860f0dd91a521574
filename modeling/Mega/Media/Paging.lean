/-
# The tables of media sessions, entries and finalize tasks

`jupiter/storage/media_paging_storage.rs`. A session row belongs to a scope and
a manifest id; its state goes from pending to sealed to finalized. Entry rows
hold the chunks of the uploaded pages. A task row is the finalize task of a
session: workers claim it under a lease with an epoch and write to it only with
the epoch they were given.

Each function here is one storage call, that is one transaction: it answers with
the tables after it or with an error that changes nothing. A scope stands for
its digest, `now` for the time of the call in seconds.

Key definitions: `Paging`, `putPageEntries`, `sealSession`, `claimOrRenewLease`,
`completeTask`, `failTask`, `cancelTask`, `requeueFailedTask`.
-/
import Mega.Lib.Fallible
import Mega.Lib.SortBy
import Mega.Lib.Table
import Mega.Media.Protocol

namespace Mega
namespace Media

open View Fallible

inductive SessionState where
  | pending
  | sealed
  | finalized
deriving DecidableEq

structure SessionRow where
  algorithm : Text
  oid : Text
  size : ℕ
  chunkCount : ℕ
  pageCount : ℕ
  state : SessionState
  sealGeneration : ℕ
deriving DecidableEq

/-- A row of `media_entry`. -/
structure EntryRow where
  scope : Text
  manifestId : Text
  pageNo : ℤ
  ordinal : ℕ
  offset : ℕ
  length : ℕ
  chunkHash : Text
deriving DecidableEq

structure ChunkIndexRow where
  ordinal : ℕ
  offset : ℕ
  length : ℕ
  chunkHash : Text
deriving DecidableEq

inductive TaskState where
  | pending
  | running
  | complete
  | failed
deriving DecidableEq

inductive Stage where
  | queued
  | verify
  | fallback
  | publish
  | done
  | failed
  | cancelled
deriving DecidableEq

/-- The error codes of a failed task. -/
inductive ErrorCode where
  | validationFailed
  | conflict
  | notFound
  | storageError
  | jsonError
  | queueFull
  | cancelled
deriving DecidableEq

structure TaskRow where
  taskId : Text
  scope : Text
  manifestId : Text
  leaseOwner : Option Text
  leaseEpoch : ℕ
  expiresAt : Option ℕ
  state : TaskState
  bytesVerified : ℕ
  pagesVerified : ℕ
  retryable : Bool
  errorCode : Option ErrorCode
  stage : Stage
deriving DecidableEq

structure Paging where
  /-- The row of a scope and a manifest id, which are a unique key. -/
  sessions : Text × Text → Option SessionRow
  entries : List EntryRow
  tasks : List TaskRow

/-- What a call or a request is in conflict with. -/
inductive Conflict where
  | sizeOverflow
  | chunkCountOverflow
  | entryCount
  | entryContent
  | hashLength
  | offsetOverflow
  | lengthOverflow
  | pageSet
  | leaseHeld
  | bytesOverflow
  | sessionState
  | completedTask
  | notRetryable
  | staleLease
  | pageCount
  | pageContent
  | chunkContent
  | chunkLength
  | recordId
  | recordIdentity
  | recordOid
  | lfsMetadata
  | permanentlyFailed
deriving DecidableEq

inductive PagingError where
  | conflict (why : Conflict)
  | notFound
  | staleLease
  | storage
deriving DecidableEq

def leaseTtlSecs : ℕ := 60

/-! ### Sessions and entries -/

/-- A pending session, unless there is a session. -/
def upsertPendingSession (db : Paging) (scope manifestId algorithm oid : Text) (size chunkCount pageCount : ℕ) :
    Except PagingError (Paging × SessionRow) :=
  match db.sessions (scope, manifestId) with
  | some existing => .ok (db, existing)
  | none =>
    if 2 ^ 63 ≤ size then .error (.conflict .sizeOverflow)
    else if 2 ^ 63 ≤ chunkCount then .error (.conflict .chunkCountOverflow)
    else
      let row : SessionRow := ⟨algorithm, oid, size, chunkCount, pageCount, .pending, 0⟩
      .ok ({ db with sessions := Function.update db.sessions (scope, manifestId) (some row) }, row)

def getSession (db : Paging) (scope manifestId : Text) : Except PagingError SessionRow :=
  match db.sessions (scope, manifestId) with
  | some session => .ok session
  | none => .error .notFound

def EntryRow.ofSession (scope manifestId : Text) (row : EntryRow) : Bool :=
  row.scope = scope ∧ row.manifestId = manifestId

/-- The entries of a page, by ordinal. -/
def listEntriesForPage (db : Paging) (scope manifestId : Text) (pageNo : ℤ) : List EntryRow :=
  KeySort.sortBy EntryRow.ordinal
    (db.entries.filter fun row => row.ofSession scope manifestId ∧ row.pageNo = pageNo)

def ChunkIndexRow.toEntry (scope manifestId : Text) (pageNo : ℤ) (e : ChunkIndexRow) : EntryRow :=
  ⟨scope, manifestId, pageNo, e.ordinal, e.offset, e.length, e.chunkHash⟩

/-- A stored entry agrees with an uploaded one. -/
def EntryRow.agrees (row : EntryRow) (e : ChunkIndexRow) : Bool :=
  row.ordinal = e.ordinal ∧ row.offset = e.offset ∧ row.length = e.length ∧ row.chunkHash = e.chunkHash

/-- `i64::try_from` of the offset and the length of each entry. -/
def checkEntries : List ChunkIndexRow → Except PagingError Unit
  | [] => .ok ()
  | e :: entries =>
    if 2 ^ 63 ≤ e.offset then .error (.conflict .offsetOverflow)
    else if 2 ^ 63 ≤ e.length then .error (.conflict .lengthOverflow)
    else checkEntries entries

/-- A chunk that some page holds with another length. -/
def lengthConflict (db : Paging) (scope manifestId : Text) (e : ChunkIndexRow) : Bool :=
  (db.entries.find? fun row => row.ofSession scope manifestId ∧ row.chunkHash = e.chunkHash).any
    (·.length ≠ e.length)

def putPageEntries (db : Paging) (scope manifestId : Text) (pageNo : ℤ) (entries : List ChunkIndexRow) :
    Except PagingError Paging :=
  let existing := listEntriesForPage db scope manifestId pageNo
  if existing ≠ [] then
    if existing.length ≠ entries.length then .error (.conflict .entryCount)
    else if (existing.zip entries).all fun pair => pair.1.agrees pair.2 then .ok db
    else .error (.conflict .entryContent)
  else if entries.any (lengthConflict db scope manifestId) then .error (.conflict .hashLength)
  else do
    checkEntries entries
    .ok { db with entries := db.entries ++ entries.map (ChunkIndexRow.toEntry scope manifestId pageNo) }

/-- The page numbers of a session, without repetition and sorted. -/
def pageNumbers (db : Paging) (scope manifestId : Text) : List ℤ :=
  KeySort.sortBy (fun n : ℤ => n) ((db.entries.filter (·.ofSession scope manifestId)).map EntryRow.pageNo).dedup

def setSessionState (db : Paging) (scope manifestId : Text) (session : SessionRow) : Paging :=
  { db with sessions := Function.update db.sessions (scope, manifestId) (some session) }

def sealSession (db : Paging) (scope manifestId : Text) : Except PagingError (Paging × SessionRow) :=
  match db.sessions (scope, manifestId) with
  | none => .error .notFound
  | some session =>
    if session.state = .sealed ∨ session.state = .finalized then .ok (db, session)
    else if pageNumbers db scope manifestId ≠ (List.range session.pageCount).map Int.ofNat then
      .error (.conflict .pageSet)
    else
      let session := { session with
        state := .sealed
        sealGeneration := min (session.sealGeneration + 1) (2 ^ 63 - 1) }
      .ok (setSessionState db scope manifestId session, session)

def markSessionFinalized (db : Paging) (scope manifestId : Text) : Except PagingError (Paging × SessionRow) :=
  match db.sessions (scope, manifestId) with
  | none => .error .notFound
  | some session =>
    if session.state = .finalized then .ok (db, session)
    else if session.state ≠ .sealed then .error (.conflict .sessionState)
    else
      let session := { session with state := .finalized }
      .ok (setSessionState db scope manifestId session, session)

/-! ### What these calls can do -/

section Cases

variable {db db' : Paging} {scope manifestId : Text} {session : SessionRow}

theorem upsertPendingSession_cases {algorithm oid : Text} {size chunkCount pageCount : ℕ}
    (h : upsertPendingSession db scope manifestId algorithm oid size chunkCount pageCount = .ok (db', session)) :
    (db.sessions (scope, manifestId) = some session ∧ db' = db) ∨
      (db.sessions (scope, manifestId) = none ∧
        session = ⟨algorithm, oid, size, chunkCount, pageCount, .pending, 0⟩ ∧
        db' = setSessionState db scope manifestId session) := by
  unfold upsertPendingSession at h
  split at h
  · cases h
    exact .inl ⟨‹_›, rfl⟩
  · simp only [guard_eq_ok, Except.ok.injEq, Prod.mk.injEq] at h
    obtain ⟨-, -, rfl, rfl⟩ := h
    exact .inr ⟨‹_›, rfl, rfl⟩

theorem putPageEntries_cases {pageNo : ℤ} {entries : List ChunkIndexRow}
    (h : putPageEntries db scope manifestId pageNo entries = .ok db') :
    (listEntriesForPage db scope manifestId pageNo ≠ [] ∧
        (listEntriesForPage db scope manifestId pageNo).length = entries.length ∧
        (∀ pair ∈ (listEntriesForPage db scope manifestId pageNo).zip entries, pair.1.agrees pair.2 = true) ∧
        db' = db) ∨
      (listEntriesForPage db scope manifestId pageNo = [] ∧
        db' = { db with
          entries := db.entries ++ entries.map (ChunkIndexRow.toEntry scope manifestId pageNo) }) := by
  unfold putPageEntries at h
  dsimp only at h
  split_ifs at h with hexisting hlength hagrees
  · cases h
    exact .inl ⟨hexisting, not_not.mp hlength, List.all_eq_true.mp hagrees, rfl⟩
  · obtain ⟨-, h⟩ := check_bind_eq_ok.mp h
    exact .inr ⟨not_not.mp hexisting, (Except.ok.inj h).symm⟩

theorem sealSession_cases (h : sealSession db scope manifestId = .ok (db', session)) :
    ∃ before, db.sessions (scope, manifestId) = some before ∧
      (((before.state = .sealed ∨ before.state = .finalized) ∧ session = before ∧ db' = db) ∨
        (before.state = .pending ∧ pageNumbers db scope manifestId = (List.range before.pageCount).map Int.ofNat ∧
          session.state = .sealed ∧ session.pageCount = before.pageCount ∧
          db' = setSessionState db scope manifestId session)) := by
  unfold sealSession at h
  split at h
  · cases h
  · next before hfound =>
    refine ⟨before, hfound, ?_⟩
    split_ifs at h with hstate hpages
    · cases h
      exact .inl ⟨hstate, rfl, rfl⟩
    · cases h
      refine .inr ⟨?_, not_not.mp hpages, rfl, rfl, rfl⟩
      cases hpending : before.state <;> simp [hpending] at hstate ⊢

theorem markSessionFinalized_cases (h : markSessionFinalized db scope manifestId = .ok (db', session)) :
    ∃ before, db.sessions (scope, manifestId) = some before ∧ (before.state = .sealed ∨ before.state = .finalized) ∧
      session = { before with state := .finalized } ∧
      db' = setSessionState db scope manifestId session := by
  unfold markSessionFinalized at h
  split at h
  · cases h
  · next before hfound =>
    refine ⟨before, hfound, ?_⟩
    split_ifs at h with hstate hsealed
    · cases h
      have hsame : session = { session with state := .finalized } := by rw [← hstate]
      refine ⟨.inr hstate, hsame, ?_⟩
      rw [setSessionState, ← hfound, Function.update_eq_self]
    · cases h
      exact ⟨.inl (not_not.mp hsealed), rfl, rfl⟩

end Cases

/-! ### Tasks -/

/-- The task of a session, which is created with the id `uuid` if there is none. -/
def ensureTask (db : Paging) (scope manifestId uuid : Text) : Except PagingError (Paging × TaskRow) :=
  match db.tasks.find? fun row => row.scope = scope ∧ row.manifestId = manifestId with
  | some existing => .ok (db, existing)
  | none =>
    if db.tasks.any (·.taskId = uuid) then .error .storage
    else
      let row : TaskRow := ⟨uuid, scope, manifestId, none, 0, none, .pending, 0, 0, true, none, .queued⟩
      .ok ({ db with tasks := db.tasks ++ [row] }, row)

theorem ensureTask_cases {db db' : Paging} {scope manifestId uuid : Text} {row : TaskRow}
    (h : ensureTask db scope manifestId uuid = .ok (db', row)) :
    (db.tasks.find? (fun task => task.scope = scope ∧ task.manifestId = manifestId) = some row ∧ db' = db) ∨
      ((∀ task ∈ db.tasks, task.taskId ≠ row.taskId) ∧ row.scope = scope ∧ row.manifestId = manifestId ∧
        (row.leaseOwner = none ∧ row.leaseEpoch = 0) ∧ db' = { db with tasks := db.tasks ++ [row] }) := by
  unfold ensureTask at h
  split at h
  · rename_i existing hfound
    cases h
    exact .inl ⟨hfound, rfl⟩
  · obtain ⟨hfresh, h⟩ := guard_eq_ok.mp h
    cases h
    exact .inr ⟨by simpa using hfresh, rfl, rfl, ⟨rfl, rfl⟩, rfl⟩

def getTask (db : Paging) (taskId : Text) : Except PagingError TaskRow :=
  match db.tasks.find? (·.taskId = taskId) with
  | some task => .ok task
  | none => .error .notFound

/-- A transaction that locks a task row and updates it. -/
def onTask (db : Paging) (taskId : Text) (change : TaskRow → Except PagingError TaskRow) :
    Except PagingError (Paging × TaskRow) := do
  let task ← getTask db taskId
  let updated ← change task
  .ok ({ db with tasks := Table.updateKey TaskRow.taskId taskId (fun _ => updated) db.tasks }, updated)

/-- The lease has run out, or there is none. -/
def TaskRow.expired (now : ℕ) (task : TaskRow) : Bool := task.expiresAt.all (· ≤ now)

def claimRow (now : ℕ) (owner : Text) (expectedEpoch : Option ℕ) (task : TaskRow) : Except PagingError TaskRow :=
  match expectedEpoch with
  | some epoch =>
    if task.leaseEpoch ≠ epoch then .error .staleLease
    else .ok { task with leaseOwner := some owner, expiresAt := some (now + leaseTtlSecs), state := .running }
  | none =>
    if task.leaseOwner.any (· ≠ owner) ∧ ¬ task.expired now ∧ task.state = .running then
      .error (.conflict .leaseHeld)
    else
      .ok { task with
        leaseOwner := some owner
        leaseEpoch := if task.expired now ∨ task.leaseOwner = none then min (task.leaseEpoch + 1) (2 ^ 63 - 1)
          else task.leaseEpoch
        expiresAt := some (now + leaseTtlSecs)
        state := .running }

def claimOrRenewLease (db : Paging) (now : ℕ) (taskId owner : Text) (expectedEpoch : Option ℕ) :
    Except PagingError (Paging × TaskRow) :=
  onTask db taskId (claimRow now owner expectedEpoch)

/-- An update that needs the current epoch. -/
def withEpoch (epoch : ℕ) (change : TaskRow → Except PagingError TaskRow) (task : TaskRow) :
    Except PagingError TaskRow :=
  if task.leaseEpoch ≠ epoch then .error .staleLease else change task

def progressRow (now epoch bytesVerified pagesVerified : ℕ) (stage : Stage) : TaskRow → Except PagingError TaskRow :=
  withEpoch epoch fun task =>
    if 2 ^ 63 ≤ bytesVerified then .error (.conflict .bytesOverflow)
    else .ok { task with
      bytesVerified := bytesVerified
      pagesVerified := pagesVerified
      stage := stage
      expiresAt := some (now + leaseTtlSecs) }

def updateTaskProgress (db : Paging) (now : ℕ) (taskId : Text) (epoch bytesVerified pagesVerified : ℕ)
    (stage : Stage) : Except PagingError (Paging × TaskRow) :=
  onTask db taskId (progressRow now epoch bytesVerified pagesVerified stage)

def completeRow (epoch : ℕ) : TaskRow → Except PagingError TaskRow :=
  withEpoch epoch fun task => .ok { task with state := .complete, stage := .done, expiresAt := none }

/-- The session of a completed task becomes finalized, whatever its state is. -/
def finalizeSession (db : Paging) (scope manifestId : Text) : Paging :=
  match db.sessions (scope, manifestId) with
  | some session => setSessionState db scope manifestId { session with state := .finalized }
  | none => db

/-- Completes the task and finalizes its session in the same transaction. -/
def completeTask (db : Paging) (taskId : Text) (epoch : ℕ) : Except PagingError (Paging × TaskRow) := do
  let (db, task) ← onTask db taskId (completeRow epoch)
  .ok (finalizeSession db task.scope task.manifestId, task)

def failRow (epoch : ℕ) (errorCode : ErrorCode) (retryable : Bool) : TaskRow → Except PagingError TaskRow :=
  withEpoch epoch fun task =>
    .ok { task with
      state := .failed
      stage := .failed
      errorCode := some errorCode
      retryable := retryable
      leaseOwner := none
      expiresAt := none }

def failTask (db : Paging) (taskId : Text) (epoch : ℕ) (errorCode : ErrorCode) (retryable : Bool) :
    Except PagingError (Paging × TaskRow) :=
  onTask db taskId (failRow epoch errorCode retryable)

/-- Any epoch may cancel. -/
def cancelRow (task : TaskRow) : Except PagingError TaskRow :=
  if task.state = .complete then .error (.conflict .completedTask)
  else .ok { task with
    state := .failed
    stage := .cancelled
    errorCode := some .cancelled
    retryable := false
    leaseOwner := none
    expiresAt := none }

def cancelTask (db : Paging) (taskId : Text) : Except PagingError (Paging × TaskRow) :=
  onTask db taskId cancelRow

def requeueRow (task : TaskRow) : Except PagingError TaskRow :=
  if task.state ≠ .failed ∨ ¬ task.retryable then .error (.conflict .notRetryable)
  else .ok { task with
    state := .pending
    stage := .queued
    errorCode := none
    leaseOwner := none
    expiresAt := none
    bytesVerified := 0
    pagesVerified := 0 }

def requeueFailedTask (db : Paging) (taskId : Text) : Except PagingError (Paging × TaskRow) :=
  onTask db taskId requeueRow

/-- The tasks that are queued or under way. -/
def countActiveTasks (db : Paging) : ℕ :=
  db.tasks.countP fun task => task.state = .pending ∨ task.state = .running

end Media
end Mega
