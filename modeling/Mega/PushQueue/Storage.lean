/-
# The push queue: rows, statements and transactions

A request to write the trunk is a row of `push_queue`. Rows are served in the
order of their ids, one at a time: a row is enqueued, claimed, and then done,
failed or cancelled. A writer whose base has moved requeues: its row is cancelled
and a new row, its successor, takes its place. A reaper ends what a crashed writer
left behind. Two partial unique indexes watch the inserts.

A transaction is a function on the tables that returns what the source returns
and the tables it commits; one that rolls back returns the tables it was given,
with the sequence moved on where an insert had drawn an id. The columns a
request fixes are one record, because no statement changes them. Times are
arguments. Left out: the columns for the native publication a claim observed,
`finished_at`, `updated_at`, notifications, metrics, and the repair the reaper
makes in other tables (`i3` is what it returned). The records that a replayed
request is audited against are part of its event (`Audit`).

Key definitions: `Row`, `Db`, `enqueueAtomic`, `claimForExecution`,
`completeConflictRequeue`, `reapOnce`, `waitRead`, `step`.
-/
import Mega.Receipts.Replay
import Mega.Lib.Run
import Mega.Lib.Table

namespace Mega
namespace PushQueue

open View Receipts

/-- `PushQueueStatusEnum`. -/
inductive Status where
  | queued
  | running
  | done
  | failed
  | cancelled
deriving DecidableEq

/-- Waiting or being executed. -/
def Status.active : Status → Bool
  | .queued | .running => true
  | _ => false

/-- The statuses in which a row holds its operation id. -/
def Status.holds : Status → Bool
  | .queued | .running | .done => true
  | _ => false

/-- `PushQueueFailureEnum`. -/
inductive Failure where
  | pushFailure
  | mergeFailure
  | attachFailure
  | conflict
  | queueBypassDetected
  | waitTimeout
  | claimLost
  | systemError
deriving DecidableEq

/-- `PushQueuePendingEnum`. -/
inductive Pending where
  | requeueConflict
deriving DecidableEq

/-- The columns a request fixes (`EnqueueParams`). -/
structure Request where
  kind : QueueKind
  operationId : Text
  path : Text
  oldId : Text
  newId : Text
  requester : Option Text
  payload : Text
deriving DecidableEq

/-- The key of `push_queue_operation_states`. -/
def Request.operation (p : Request) : QueueKind × Text × Text := (p.kind, p.path, p.operationId)

/-- A row of `push_queue`. -/
structure Row where
  id : ℕ
  request : Request
  status : Status := .queued
  heartbeatAt : ℕ
  startedAt : Option ℕ := none
  expectedCommitHash : Option Text := none
  expectedTreeHash : Option Text := none
  landedCommitId : Option Text := none
  failureType : Option Failure := none
  errorMessage : Option Text := none
  pendingAction : Option Pending := none
  supersededBy : Option ℕ := none
deriving DecidableEq

/-- The row of `queue_control`. -/
structure Control where
  paused : Bool := false
  hardStopped : Bool := false
  maxDepth : ℤ := 64

/-- The two tables, and the next value of the sequence of ids. -/
structure Db where
  rows : List Row := []
  control : Control := {}
  nextId : ℕ := 1

namespace Db

variable (db : Db)

def getById (id : ℕ) : Option Row := db.rows.find? (·.id == id)

def countActive : ℕ := db.rows.countP (·.status.active)

/-- `UPDATE push_queue SET … WHERE …`, with the number of rows affected. -/
def execute (guard : Row → Bool) (set : Row → Row) : ℕ × Db :=
  (db.rows.countP guard, { db with rows := db.rows.map fun r => if guard r then set r else r })

/-- An update of one row that must be in the status given; whether it was. -/
def advance (id : ℕ) (status : Status) (set : Row → Row) : Bool × Db :=
  let updated := db.execute (fun r => r.id == id && r.status == status) set
  (updated.1 == 1, updated.2)

/-! ### Inserts -/

/-- The partial unique indexes of the table. -/
inductive Index where
  | activePushPath
  | operationStates
deriving DecidableEq

/-- Both rows are in `push_queue_active_push_path`, under one key. -/
def samePushPath (a b : Row) : Bool :=
  (a.status.active && a.request.kind == .push) && (b.status.active && b.request.kind == .push) &&
    a.request.path == b.request.path

/-- Both rows are in `push_queue_operation_states`, under one key. -/
def sameOperation (a b : Row) : Bool :=
  a.status.holds && b.status.holds && a.request.operation == b.request.operation

/-- The unique index an insert of the row violates. -/
def violates (row : Row) : Option Index :=
  if db.rows.any (samePushPath row) then some .activePushPath
  else if db.rows.any (sameOperation row) then some .operationStates
  else none

/-- The row an insert of the request writes. -/
def newRow (p : Request) (now : ℕ) : Row := { id := db.nextId, request := p, heartbeatAt := now }

/-- `INSERT INTO push_queue … RETURNING id`. The sequence moves on in any case. -/
def insert (p : Request) (now : ℕ) : Except Index ℕ × Db :=
  (db.violates (db.newRow p now)).elim
    (.ok db.nextId, { db with rows := db.rows ++ [db.newRow p now], nextId := db.nextId + 1 })
    fun index => (.error index, { db with nextId := db.nextId + 1 })

end Db

/-! ### Enqueueing -/

/-- `EnqueueRejectReason`. -/
inductive RejectReason where
  | hardStopped
  | paused
  | capacityExceeded (maxDepth : ℤ)
  | activePushPathConflict

/-- `EnqueueOutcome`. -/
inductive EnqueueOutcome where
  | inserted (id : ℕ)
  | adopted (id : ℕ)
  | replay (id : ℕ) (landedCommitId : Option Text)
  | rejected (reason : RejectReason)

inductive EnqueueError where
  | uniqueConflict
  | database (index : Db.Index)
  | unclassified
  | replayRowMissing
  | receipt (error : ReceiptError)
deriving DecidableEq

/-- What a replayed request is audited against: the records, and the publication request of a row
(`PublicationRequest::from_trunk_queue`). -/
structure Audit where
  records : Records
  requestOf : Row → Except ReceiptError PublicationRequest

/-- The row that holds the operation id of the request. -/
def Db.holder (db : Db) (p : Request) : Option Row :=
  db.rows.find? fun r => r.status.holds && r.request.operation == p.operation

def Row.existing (r : Row) : EnqueueOutcome :=
  if r.status = .done then .replay r.id r.landedCommitId else .adopted r.id

/-- The payload of the latest row of the operation that ended without a successor: a retry keeps it. -/
def Db.predecessorPayload (db : Db) (p : Request) : Option Text :=
  (Table.topBy Row.id (db.rows.filter fun r => r.request.operation == p.operation &&
    (r.status == .failed || (r.status == .cancelled && r.supersededBy.isNone)))).map (·.request.payload)

/-- The conditional `INSERT … SELECT … WHERE`: `none` if the condition fails. -/
def Db.conditionalInsert (db : Db) (p : Request) (now : ℕ) : Option (Except Db.Index ℕ × Db) :=
  if !db.control.paused && !db.control.hardStopped && decide ((db.countActive : ℤ) < db.control.maxDepth) &&
      (db.holder p).isNone then
    some (db.insert { p with payload := (db.predecessorPayload p).getD p.payload } now)
  else none

/-- `classify_zero_row`. -/
def classifyZeroRow (db : Db) (p : Request) : Option EnqueueOutcome :=
  match db.holder p with
  | some r => some r.existing
  | none =>
    if db.control.hardStopped then some (.rejected .hardStopped)
    else if db.control.paused then some (.rejected .paused)
    else if db.control.maxDepth ≤ (db.countActive : ℤ) then
      some (.rejected (.capacityExceeded db.control.maxDepth))
    else if p.kind == .push &&
        db.rows.any (fun r => r.request.kind == .push && r.request.path == p.path && r.status.active) then
      some (.rejected .activePushPathConflict)
    else none

/-- The audit of a push or a merge for which there is a row: the row with the other columns of the request. -/
def auditReplay (audit : Audit) (p : Request) : Option Row → Except EnqueueError Unit
  | none => if p.kind = .attach then .ok () else .error .replayRowMissing
  | some row =>
    if p.kind = .attach then .ok ()
    else
      let candidate := { row with request := { row.request with
        oldId := p.oldId, newId := p.newId, requester := p.requester, payload := p.payload } }
      (validateQueuePublicationReplay audit.records row.id row.request.operationId row.request.path
        (audit.requestOf candidate)).mapError .receipt

/-- The outcome for a request that was not inserted. -/
def auditOutcome (audit : Audit) (p : Request) (db : Db) (outcome : EnqueueOutcome) :
    Except EnqueueError EnqueueOutcome :=
  match outcome with
  | .adopted id | .replay id _ => (auditReplay audit p (db.getById id)).map fun _ => outcome
  | _ => .ok outcome

/-- `enqueue_atomic`. -/
def enqueueAtomic (audit : Audit) (p : Request) (now : ℕ) (db : Db) : Except EnqueueError EnqueueOutcome × Db :=
  match db.conditionalInsert p now with
  | some (.ok id, db') => (.ok (.inserted id), db')
  | some (.error .activePushPath, db') => (.ok (.rejected .activePushPathConflict), db')
  | some (.error .operationStates, db') =>
    ((db'.holder p).elim (.error .uniqueConflict) fun r => (auditReplay audit p (some r)).map fun _ => r.existing, db')
  | none =>
    match classifyZeroRow db p with
    | some outcome => (auditOutcome audit p db outcome, db)
    | none =>
      -- the cause is gone since: the insert is tried once more
      match db.conditionalInsert p now with
      | some (.ok id, db') => (.ok (.inserted id), db')
      | some (.error index, db') => (.error (.database index), db')
      | none => ((classifyZeroRow db p).elim (.error .unclassified) (auditOutcome audit p db), db)

/-! ### Claiming -/

/-- What the claim's snapshot shows of the root and of the native publication. -/
structure Observation where
  rootCommit : Option Text
  rootTree : Option Text
  initialized : Bool

/-- `ClaimOutcome`. -/
inductive ClaimOutcome where
  | claimed
  | missed
  | hardStopped

inductive ClaimError where
  | ambiguous
  | notInitialized

/-- The row is queued, first of the queued rows, and no row is running. -/
def Db.claimable (db : Db) (id : ℕ) : Bool :=
  db.rows.any (fun r => r.id == id && r.status == .queued) && db.rows.all (fun r => r.status != .running) &&
    db.rows.all (fun r => r.status != .queued || decide (id ≤ r.id))

/-- `claim_for_execution`; `native` is whether native publication is enabled. -/
def claimForExecution (native : Bool) (observations : List Observation) (id now : ℕ) (db : Db) :
    Except ClaimError ClaimOutcome × Db :=
  if db.control.hardStopped then (.ok .hardStopped, db)
  else if db.claimable id then
    match observations with
    | [] => (.ok .missed, db)
    | [o] =>
      if native && !o.initialized then (.error .notInitialized, db)
      else (.ok .claimed, (db.advance id .queued fun r => { r with
        status := .running, startedAt := some now, heartbeatAt := now
        expectedCommitHash := o.rootCommit, expectedTreeHash := o.rootTree }).2)
    | _ => (.error .ambiguous, db)
  else (.ok .missed, db)

/-! ### Guarded updates -/

def touchHeartbeat (id now : ℕ) (db : Db) : Db :=
  (db.execute (·.id == id) fun r => { r with heartbeatAt := now }).2

def cancelIfQueued (id : ℕ) (db : Db) : Bool × Db :=
  db.advance id .queued fun r => { r with
    status := .cancelled, failureType := some .systemError
    errorMessage := some "cancelled by operator".toList, pendingAction := none }

def cancelStaleQueuedInTxn (cutoff : ℕ) (db : Db) : ℕ × Db :=
  db.execute (fun r => r.status == .queued && decide (r.heartbeatAt < cutoff)) fun r => { r with
    status := .cancelled, failureType := some .systemError
    errorMessage := some "heartbeat timeout".toList, pendingAction := none }

/-- `reset_running_to_queued_in_txn`: the intent of the row stays. -/
def resetRunningToQueuedInTxn (id now : ℕ) (db : Db) : Bool × Db :=
  db.advance id .running fun r => { r with
    status := .queued, startedAt := none, expectedCommitHash := none, expectedTreeHash := none
    heartbeatAt := now }

/-- `reset_running_to_queued`: the intent of the row is dropped. -/
def resetRunningToQueued (id now : ℕ) (db : Db) : Bool × Db :=
  db.advance id .running fun r => { r with
    status := .queued, startedAt := none, expectedCommitHash := none, expectedTreeHash := none
    pendingAction := none, heartbeatAt := now }

def persistRequeueConflictIntent (id : ℕ) (db : Db) : Bool × Db :=
  db.advance id .running fun r => { r with pendingAction := some .requeueConflict }

def markDoneIfRunningInTxn (id : ℕ) (landed : Text) (db : Db) : Bool × Db :=
  db.advance id .running fun r => { r with
    status := .done, landedCommitId := some landed, pendingAction := none }

def markFailedIfRunningInTxn (id : ℕ) (failure : Failure) (message : Text) (db : Db) : Bool × Db :=
  db.advance id .running fun r => { r with
    status := .failed, failureType := some failure, errorMessage := some message, pendingAction := none }

/-- `freeze_merge_for_authz`. -/
def freezeMergeForAuthz (clLink message : Text) (db : Db) : Bool × Db :=
  let frozen := db.execute
    (fun r => r.request.kind == .merge && r.request.operationId == clLink && r.status.active)
    fun r => { r with
      status := .failed, failureType := some .systemError, errorMessage := some message
      pendingAction := none }
  (decide (0 < frozen.1), frozen.2)

def setControlFlags (paused hardStopped : Option Bool) (maxDepth : Option ℤ) (db : Db) : Db :=
  { db with control := {
      paused := paused.getD db.control.paused
      hardStopped := hardStopped.getD db.control.hardStopped
      maxDepth := maxDepth.getD db.control.maxDepth } }

def setHardStoppedInTxn (hardStopped : Bool) (db : Db) : Db :=
  { db with control := { db.control with hardStopped } }

/-! ### Conflict requeue -/

inductive RequeueError where
  | notRequeueable
  | database (index : Db.Index)

/-- A row a requeue may cancel: running, with the intent to requeue, and without a successor. -/
def Row.requeueable (r : Row) : Bool :=
  r.status == .running && r.pendingAction == some .requeueConflict && r.supersededBy.isNone

/-- The first statement of a requeue. -/
def cancelForRequeue (id : ℕ) (db : Db) : ℕ × Db :=
  db.execute (fun r => r.id == id && r.requeueable) fun r => { r with
    status := .cancelled, failureType := some .conflict, pendingAction := none }

/-- `complete_conflict_requeue_in_txn`. The row is one the caller has read, at any time before. -/
def completeConflictRequeue (old : Row) (now : ℕ) (db : Db) : Except RequeueError ℕ × Db :=
  if (cancelForRequeue old.id db).1 = 0 then
    (((db.getById old.id).bind Row.supersededBy).elim (.error .notRequeueable) .ok, db)
  else
    match (cancelForRequeue old.id db).2.insert old.request now with
    | (.ok successor, db') =>
      (.ok successor, (db'.execute (·.id == old.id) fun r => { r with supersededBy := some successor }).2)
    | (.error index, db') => (.error (.database index), { db with nextId := db'.nextId })

/-! ### The reaper -/

/-- What one cycle of the reaper sees beside the tables. -/
structure ReapContext where
  now : ℕ
  lockAcquired : Bool
  heartbeatCutoff : ℕ
  graceCutoff : ℕ
  root : Option (Text × Text)
  i3 : Row → Bool

/-- `reap_running_row`. -/
def reapRunningRow (c : ReapContext) (hardStoppedAtStart : Bool) (row : Row) (db : Db) :
    Except RequeueError Db :=
  if c.root.map Prod.fst ≠ row.expectedCommitHash ∨ c.root.map Prod.snd ≠ row.expectedTreeHash then
    .ok (markFailedIfRunningInTxn row.id .queueBypassDetected "reaper expected_* baseline mismatch".toList
      (setHardStoppedInTxn true db)).2
  else if row.pendingAction = some .requeueConflict then
    (completeConflictRequeue row c.now db).1.map fun _ => (completeConflictRequeue row c.now db).2
  else if hardStoppedAtStart then .ok (resetRunningToQueuedInTxn row.id c.now db).2
  else .ok (markFailedIfRunningInTxn row.id .systemError (if c.i3 row then
    "I3 tombstone repair after Running crash".toList else "reaper terminalized Running after crash".toList) db).2

/-- The rows the cycle has listed, one after the other; one started after the cutoff is left alone. -/
def reapRows (c : ReapContext) (hardStoppedAtStart : Bool) : List Row → Db → Except RequeueError Db
  | [], db => .ok db
  | row :: rows, db =>
    if row.startedAt.any (c.graceCutoff < ·) then reapRows c hardStoppedAtStart rows db
    else (reapRunningRow c hardStoppedAtStart row db).bind (reapRows c hardStoppedAtStart rows)

/-- `reap_once`: an error rolls the whole cycle back. -/
def reapOnce (c : ReapContext) (db : Db) : Except RequeueError Db :=
  let db' := if db.control.hardStopped then db else (cancelStaleQueuedInTxn c.heartbeatCutoff db).2
  if c.lockAcquired then reapRows c db.control.hardStopped (db'.rows.filter (·.status == .running)) db'
  else .ok db'

/-! ### Waiting -/

/-- The variables of the loop of `wait_and_claim`. -/
structure Waiter where
  id : ℕ
  seenRunning : Bool
  deadline : ℕ

/-- `QueueWaitResult`, as far as reading a row decides it. -/
inductive WaitResult where
  | replayed (id : ℕ) (landedCommitId : Option Text)
  | rejected (id : ℕ) (message : Text)
  | abandoned (id : ℕ)

/-- How a round of the loop goes on after its read. -/
inductive WaitRound where
  | finished (result : WaitResult)
  | follow (waiter : Waiter)
  | claim (waiter : Waiter)

/-- A round that has not returned gives up at the deadline, unless the row was seen running; otherwise it
touches the heartbeat and tries to claim. -/
def waitOn (now : ℕ) (w : Waiter) : WaitRound :=
  if !w.seenRunning && decide (w.deadline ≤ now) then .finished (.abandoned w.id) else .claim w

/-- The read of a round of `wait_and_claim`. -/
def waitRead (timeout now : ℕ) (w : Waiter) : Option Row → WaitRound
  | none => waitOn now w
  | some row =>
    match row.status with
    | .done => .finished (.replayed w.id row.landedCommitId)
    | .failed => .finished (.rejected w.id (row.errorMessage.getD
        ("queue item ".toList ++ (toString w.id).toList ++ " terminal Failed".toList)))
    | .cancelled =>
      match row.supersededBy with
      | some successor => .follow ⟨successor, false, now + timeout⟩
      | none => .finished (.rejected w.id (row.errorMessage.getD
          ("queue item ".toList ++ (toString w.id).toList ++ " cancelled without successor".toList)))
    | .running => waitOn now { w with seenRunning := true }
    | .queued => waitOn now w

/-! ### Runs -/

/-- The tables, and the rows that somebody has read so far: an executor works on such a row. -/
structure State where
  db : Db := {}
  reads : List Row := []

/-- One committed transaction on the queue. -/
inductive Event where
  | enqueue (audit : Audit) (p : Request) (now : ℕ)
  | claim (native : Bool) (observations : List Observation) (id now : ℕ)
  | touch (id now : ℕ)
  | cancel (id : ℕ)
  | freezeMerge (clLink message : Text)
  | reset (id now : ℕ)
  | persistIntent (id : ℕ)
  | markDone (id : ℕ) (landed : Text)
  | markFailed (id : ℕ) (failure : Failure) (message : Text)
  | setFlags (paused hardStopped : Option Bool) (maxDepth : Option ℤ)
  | read (id : ℕ)
  | requeue (old : Row) (now : ℕ)
  | reap (c : ReapContext)

/-- The state with the tables a transaction commits. -/
def State.commit (s : State) (db : Db) : State := { s with db }

/-- One transaction. An executor requeues a row it has read. -/
def step (s : State) : Event → State
  | .enqueue audit p now => s.commit (enqueueAtomic audit p now s.db).2
  | .claim native observations id now => s.commit (claimForExecution native observations id now s.db).2
  | .touch id now => s.commit (touchHeartbeat id now s.db)
  | .cancel id => s.commit (cancelIfQueued id s.db).2
  | .freezeMerge clLink message => s.commit (freezeMergeForAuthz clLink message s.db).2
  | .reset id now => s.commit (resetRunningToQueued id now s.db).2
  | .persistIntent id => s.commit (persistRequeueConflictIntent id s.db).2
  | .markDone id landed => s.commit (markDoneIfRunningInTxn id landed s.db).2
  | .markFailed id failure message => s.commit (markFailedIfRunningInTxn id failure message s.db).2
  | .setFlags paused hardStopped maxDepth => s.commit (setControlFlags paused hardStopped maxDepth s.db)
  | .read id => { s with reads := s.reads ++ (s.db.getById id).toList }
  | .requeue old now =>
    if s.reads.contains old then s.commit (completeConflictRequeue old now s.db).2 else s
  | .reap c => s.commit ((reapOnce c s.db).toOption.getD s.db)

/-- The queue after the transactions, from the tables the migration creates. -/
def after (events : List Event) : State := Run.run step {} events

end PushQueue
end Mega
