/-
# Ingestion of capture events

`jupiter/storage/agent_capture_storage.rs`, `insert_events_batch`: a batch of
events of one capture session is stored in one transaction under the lock of the
session row. Events whose uid is stored are compared and skipped, the others are
inserted; a uid of the form `generation:offset` is a position of the source
stream, and the greatest new position moves the watermark of the stream. A
receipt makes a repeated batch a no-op. An error rolls the transaction back.

Fingerprints of payloads and of whole batches are parameters; computing one may
fail. Text is a list of characters, and generations and offsets, which the
source parses from digits into `i64`, are natural numbers below `2 ^ 63`.

Key definitions: `Db`, `parseEventUidParts`, `advanceSourceStream`,
`insertEventsBatch`.
-/
import Mega.Lib.Run
import Mega.Lib.Table
import Mega.View.Filter

namespace Mega
namespace Capture

open View

inductive Completeness where
  | empty
  | incomplete
  | complete
  | truncated
deriving DecidableEq

structure Session where
  id : ℕ
  deploymentId : Text
  tenantId : Text
  repoId : Text
  producerId : Text
  sessionKind : Text
  completeness : Completeness
deriving DecidableEq

structure InsertEvent (Json : Type) where
  eventUid : Text
  eventKind : Text
  nativeId : Option Text
  lifecycleSeq : Option ℤ
  payload : Json
deriving DecidableEq

/-- A row of `agent_capture_event`. -/
structure EventRow (Json Digest : Type) where
  captureId : ℕ
  eventUid : Text
  eventKind : Text
  nativeId : Option Text
  lifecycleSeq : Option ℤ
  payload : Json
  payloadFingerprint : Digest
deriving DecidableEq

/-- A row of `agent_capture_source_stream`. -/
structure StreamRow where
  captureId : ℕ
  streamKind : Text
  generation : ℕ
  byteOffset : ℕ
deriving DecidableEq

/-- A row of `agent_capture_ingest_receipt` for the operation `event.batch`. -/
structure Receipt (Digest : Type) where
  id : ℕ
  deploymentId : Text
  tenantId : Text
  producerId : Text
  captureId : ℕ
  idempotencyKey : Text
  fingerprint : Digest
  eventCount : ℕ
deriving DecidableEq

structure Db (Json Digest : Type) where
  sessions : List Session
  events : List (EventRow Json Digest)
  streams : List StreamRow
  receipts : List (Receipt Digest)

inductive CaptureError where
  | canonicalJson
  | noSession (captureId : ℕ)
  | receiptConflict (captureId : ℕ)
  | invalidCompleteness
  | uidConflict (captureId : ℕ)
  | watermarkRegression (captureId : ℕ)
deriving DecidableEq

/-- `canonical_json::fingerprint` of a payload and of the body of a batch. -/
structure Fingerprints (Json Digest : Type) where
  payload : Json → Option Digest
  batch : Text → List (InsertEvent Json) → Option Text → Option Digest

structure EventsBatchGroup where
  generation : ℕ
  newEventCount : ℕ
deriving DecidableEq

structure EventsBatchSnapshot where
  captureId : ℕ
  receiptId : ℕ
  newEventCount : ℕ
  streamKind : Text
  completeness : Completeness
  tenantId : Text
  repoPath : Text
  groups : List EventsBatchGroup
deriving DecidableEq

/-! ### Positions -/

/-- `i64::from_str` of digits. -/
def parseDigits (digits : Text) : Option ℕ :=
  if digits = [] ∨ ¬ digits.all Char.isDigit then none
  else
    let value := digits.foldl (fun n c => 10 * n + (c.toNat - '0'.toNat)) 0
    if value < 2 ^ 63 then some value else none

/-- A uid `generation:offset`, split at its first colon. -/
def parseEventUidParts (uid : Text) : Option (ℕ × ℕ) :=
  match uid.dropWhile (· ≠ ':') with
  | [] => none
  | _ :: offset => do
    let generation ← parseDigits (uid.takeWhile (· ≠ ':'))
    let offset ← parseDigits offset
    some (generation, offset)

/-- Positions in the order in which a stream grows. -/
def posLt (a b : ℕ × ℕ) : Bool := a.1 < b.1 || (a.1 == b.1 && a.2 < b.2)

/-! ### One event -/

def normalizeStoredEventKind (kind : Text) : Text :=
  if ["message", "tool", "tool_call", "tool_result", "thinking", "system"].any (·.toList = kind) then kind
  else "unknown".toList

/-- `by_generation`, sorted by generation. -/
def bump (generation : ℕ) : List EventsBatchGroup → List EventsBatchGroup
  | [] => [⟨generation, 1⟩]
  | group :: groups =>
    if generation < group.generation then ⟨generation, 1⟩ :: group :: groups
    else if generation = group.generation then ⟨generation, group.newEventCount + 1⟩ :: groups
    else group :: bump generation groups

/-- What the loop over the events has done so far. -/
structure Progress (Json Digest : Type) where
  events : List (EventRow Json Digest)
  watermark : Option (ℕ × ℕ)
  byGeneration : List EventsBatchGroup

variable {Json Digest : Type} [DecidableEq Digest]

def toRow (captureId : ℕ) (event : InsertEvent Json) (fingerprint : Digest) : EventRow Json Digest :=
  ⟨captureId, event.eventUid, normalizeStoredEventKind event.eventKind, event.nativeId, event.lifecycleSeq,
    event.payload, fingerprint⟩

/-- The greater of the watermark so far and a new position. -/
def raise (watermark : Option (ℕ × ℕ)) (pos : ℕ × ℕ) : ℕ × ℕ :=
  match watermark with
  | some w => if posLt pos w then w else pos
  | none => pos

def insertEvent (fp : Fingerprints Json Digest) (captureId : ℕ) (progress : Progress Json Digest)
    (event : InsertEvent Json) : Except CaptureError (Progress Json Digest) :=
  match fp.payload event.payload with
  | none => .error .canonicalJson
  | some fingerprint =>
    match progress.events.find? (fun row => row.captureId = captureId ∧ row.eventUid = event.eventUid) with
    | some existing =>
      if existing.payloadFingerprint = fingerprint then .ok progress else .error (.uidConflict captureId)
    | none =>
      let events := progress.events ++ [toRow captureId event fingerprint]
      match parseEventUidParts event.eventUid with
      | some pos => .ok ⟨events, some (raise progress.watermark pos), bump pos.1 progress.byGeneration⟩
      | none => .ok ⟨events, progress.watermark, bump 0 progress.byGeneration⟩

def insertEvents (fp : Fingerprints Json Digest) (captureId : ℕ) :
    List (InsertEvent Json) → Progress Json Digest → Except CaptureError (Progress Json Digest)
  | [], progress => .ok progress
  | event :: events, progress => do
    let progress ← insertEvent fp captureId progress event
    insertEvents fp captureId events progress

/-! ### The watermark -/

/-- The row with the greatest generation. -/
def currentStream (streams : List StreamRow) (captureId : ℕ) (streamKind : Text) : Option StreamRow :=
  Table.topBy StreamRow.generation
    (streams.filter fun row => row.captureId = captureId ∧ row.streamKind = streamKind)

def StreamRow.key (row : StreamRow) : ℕ × Text × ℕ := (row.captureId, row.streamKind, row.generation)

/-- `advance_source_stream_txn`, in a transaction that has locked the session. -/
def advanceSourceStream (streams : List StreamRow) (captureId : ℕ) (streamKind : Text) (pos : ℕ × ℕ) :
    Except CaptureError (List StreamRow) :=
  match currentStream streams captureId streamKind with
  | some current =>
    if posLt pos (current.generation, current.byteOffset) then .error (.watermarkRegression captureId)
    else if pos.1 = current.generation then
      if current.byteOffset < pos.2 then
        .ok (Table.updateKey StreamRow.key current.key (fun row => { row with byteOffset := pos.2 }) streams)
      else .ok streams
    else .ok (streams ++ [⟨captureId, streamKind, pos.1, pos.2⟩])
  | none => .ok (streams ++ [⟨captureId, streamKind, pos.1, pos.2⟩])

/-- A batch moves the watermark if it stored a position. -/
def advanceBy (streams : List StreamRow) (captureId : ℕ) (streamKind : Text) :
    Option (ℕ × ℕ) → Except CaptureError (List StreamRow)
  | some pos => advanceSourceStream streams captureId streamKind pos
  | none => .ok streams

/-! ### One batch -/

/-- A call of `insert_events_batch`; `receiptId` is the id that the database generates. -/
structure Call (Json : Type) where
  captureId : ℕ
  batchId : Text
  events : List (InsertEvent Json)
  completeness : Option Text
  streamKind : Text
  receiptId : ℕ

/-- The completeness that a request may ask for. -/
def requested (completeness : Text) : Option Completeness :=
  if completeness = "incomplete".toList then some .incomplete
  else if completeness = "complete".toList then some .complete
  else none

/-- The completeness of the session after a batch. -/
def nextCompleteness (current : Completeness) (completeness : Option Text) (noEvents : Bool) : Completeness :=
  match completeness.bind requested, current with
  | some next, .empty => next
  | some next, .incomplete => next
  | _, .empty => if noEvents then .empty else .incomplete
  | _, current => current

/-- `receipt_by_scope` for the operation `event.batch`. -/
def receiptByScope (receipts : List (Receipt Digest)) (session : Session) (batchId : Text) :
    Option (Receipt Digest) :=
  receipts.find? fun receipt => receipt.deploymentId = session.deploymentId ∧
    receipt.tenantId = session.tenantId ∧ receipt.producerId = session.producerId ∧
    receipt.captureId = session.id ∧ receipt.idempotencyKey = batchId

def eventsBatchSnapshot (session : Session) (receiptId : ℕ) (groups : List EventsBatchGroup) :
    EventsBatchSnapshot :=
  ⟨session.id, receiptId, (groups.map EventsBatchGroup.newEventCount).sum, session.sessionKind,
    session.completeness, session.tenantId, session.repoId, groups⟩

/-- A batch without a receipt. -/
def insertNewBatch (fp : Fingerprints Json Digest) (db : Db Json Digest) (session : Session) (call : Call Json)
    (fingerprint : Digest) : Except CaptureError (EventsBatchSnapshot × Db Json Digest) :=
  if (call.completeness.map requested) = some none then .error .invalidCompleteness
  else do
    let progress ← insertEvents fp call.captureId call.events ⟨db.events, none, []⟩
    let streams ← advanceBy db.streams call.captureId call.streamKind progress.watermark
    let session := { session with
      completeness := nextCompleteness session.completeness call.completeness call.events.isEmpty }
    let sessions := Table.updateKey Session.id session.id (fun row => { row with
      completeness := session.completeness }) db.sessions
    let receipt : Receipt Digest := ⟨call.receiptId, session.deploymentId, session.tenantId,
      session.producerId, session.id, call.batchId, fingerprint, call.events.length⟩
    .ok (eventsBatchSnapshot session call.receiptId progress.byGeneration,
      ⟨sessions, progress.events, streams, db.receipts ++ [receipt]⟩)

/-- `insert_events_batch`: what is reported and the tables after the commit. -/
def insertEventsBatch (fp : Fingerprints Json Digest) (db : Db Json Digest) (call : Call Json) :
    Except CaptureError (EventsBatchSnapshot × Db Json Digest) :=
  match fp.batch call.batchId call.events call.completeness with
  | none => .error .canonicalJson
  | some fingerprint =>
    match db.sessions.find? (·.id = call.captureId) with
    | none => .error (.noSession call.captureId)
    | some session =>
      match receiptByScope db.receipts session call.batchId with
      | some existing =>
        if existing.fingerprint = fingerprint then .ok (eventsBatchSnapshot session existing.id [], db)
        else .error (.receiptConflict call.captureId)
      | none => insertNewBatch fp db session call fingerprint

/-- The tables after a call; an error rolls back. -/
def step (fp : Fingerprints Json Digest) (db : Db Json Digest) (call : Call Json) : Db Json Digest :=
  match insertEventsBatch fp db call with
  | .ok result => result.2
  | .error _ => db

end Capture
end Mega
