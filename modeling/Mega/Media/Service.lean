/-
# The media service as programs over its stores

`ceres/lfs/media/{service,finalize,publication}.rs`. Each request is a program
over the storage calls of the paging tables, the objects of the object store,
the table of LFS objects and the membership cache. A call is atomic, and it may
fail before or after it took effect. Requests run in any interleaving.

The answers of the timers, of the cancel channel and of the temporary file are
the calls `poll`. A request to finalize goes on as the worker it spawns, with an
owner name and a start time of its own. The store is typed: an object is the value whose JSON encoding
the source writes. Page objects carry their page number in the key.

Key definitions: `World`, `Op`, `exec`, `Request`, `code`, `run`.
-/
import Mega.Lib.Firsts
import Mega.Lib.Interleave
import Mega.Media.Paging

namespace Mega
namespace Media

open View

/-! ### The stores -/

/-- The keys of the object store: the media objects of a scope, and LFS objects. -/
inductive Key where
  | pending (scope manifestId : Text)
  | chunk (scope chunkHash : Text)
  | manifest (scope mediaOid : Text)
  | finalized (scope manifestId : Text)
  | page (scope manifestId : Text) (pageNo : ℕ)
  | lfs (oid : Text)
deriving DecidableEq

/-- What is stored under a key. -/
abbrev Key.Value : Key → Type
  | .pending _ _ => PendingSession
  | .chunk _ _ => Bytes
  | .manifest _ _ => ManifestResponse
  | .finalized _ _ => ManifestResponse
  | .page _ _ _ => ManifestPage
  | .lfs _ => Bytes

/-- The length of an object; that of an LFS object is not looked at. -/
def Key.size (codec : Codec) : (key : Key) → key.Value → ℕ
  | .pending _ _, session => codec.pendingSize session
  | .chunk _ _, body => List.length body
  | .manifest _ _, response => codec.responseSize response
  | .finalized _ _, response => codec.responseSize response
  | .page _ _ _, stored => codec.pageSize stored
  | .lfs _, body => List.length body

structure MembershipRecord where
  /-- The declared chunks; a later entry of a hash replaces an earlier one. -/
  lengths : List (Text × ℕ)
  pendingCreatedAt : Option ℕ
deriving DecidableEq

def MembershipRecord.lengthOf (record : MembershipRecord) (chunkHash : Text) : Option ℕ :=
  (record.lengths.reverse.find? (·.1 = chunkHash)).map Prod.snd

structure World where
  paging : Paging
  objects : (key : Key) → Option key.Value
  lfsObjects : Text → Option ℕ
  membership : Text × Text → Option MembershipRecord

/-- Nothing is stored yet. -/
def World.empty : World := ⟨⟨fun _ => none, [], []⟩, fun _ => none, fun _ => none, fun _ => none⟩

/-! ### Errors -/

inductive MediaError where
  | invalid (why : Invalid)
  | notFound
  | conflict (why : Conflict)
  | storage
  | io
  | json
  | tooManyRequests
deriving DecidableEq

/-- Why a call failed; `interrupted` is a cancellation, a deadline or a timeout, `io` the temporary file. -/
inductive OpError where
  | paging (e : PagingError)
  | notFound
  | store
  | lfsMetadata
  | interrupted
  | io
deriving DecidableEq

/-- `map_paging`, `map_store` and `map_db`. -/
def mapError : OpError → MediaError
  | .paging (.conflict why) => .conflict why
  | .paging .notFound => .notFound
  | .paging .staleLease => .conflict .staleLease
  | .paging .storage => .storage
  | .notFound => .notFound
  | .store => .storage
  | .lfsMetadata => .conflict .lfsMetadata
  | .interrupted => .invalid .deadline
  | .io => .io

def classifyFinalizeError : MediaError → ErrorCode × Bool
  | .invalid _ => (.validationFailed, false)
  | .conflict _ => (.conflict, true)
  | .notFound => (.notFound, true)
  | .storage => (.storageError, true)
  | .io => (.storageError, true)
  | .json => (.jsonError, false)
  | .tooManyRequests => (.queueFull, true)

/-! ### Calls -/

inductive Op where
  | getSession (scope manifestId : Text)
  | upsertPendingSession (scope manifestId algorithm oid : Text) (size chunkCount pageCount : ℕ)
  | putPageEntries (scope manifestId : Text) (pageNo : ℤ) (entries : List ChunkIndexRow)
  | sealSession (scope manifestId : Text)
  | listEntriesForPage (scope manifestId : Text) (pageNo : ℤ)
  | markSessionFinalized (scope manifestId : Text)
  | ensureTask (scope manifestId : Text)
  | claimOrRenewLease (taskId owner : Text) (expectedEpoch : Option ℕ)
  | updateTaskProgress (taskId : Text) (epoch bytesVerified pagesVerified : ℕ) (stage : Stage)
  | completeTask (taskId : Text) (epoch : ℕ)
  | failTask (taskId : Text) (epoch : ℕ) (errorCode : ErrorCode) (retryable : Bool)
  | cancelTask (taskId : Text)
  | requeueFailedTask (taskId : Text)
  | countActiveTasks
  | objectExists (key : Key)
  | readObject (key : Key)
  | putObject (key : Key) (value : key.Value)
  | ensureLfsObject (oid : Text) (size : ℕ)
  | membershipGet (scope manifestId : Text)
  | membershipInsert (scope manifestId : Text) (record : MembershipRecord)
  | poll

abbrev Op.Val : Op → Type
  | .getSession _ _ => SessionRow
  | .upsertPendingSession _ _ _ _ _ _ _ => SessionRow
  | .putPageEntries _ _ _ _ => Unit
  | .sealSession _ _ => SessionRow
  | .listEntriesForPage _ _ _ => List EntryRow
  | .markSessionFinalized _ _ => SessionRow
  | .ensureTask _ _ => TaskRow
  | .claimOrRenewLease _ _ _ => TaskRow
  | .updateTaskProgress _ _ _ _ _ => TaskRow
  | .completeTask _ _ => TaskRow
  | .failTask _ _ _ _ => TaskRow
  | .cancelTask _ => TaskRow
  | .requeueFailedTask _ => TaskRow
  | .countActiveTasks => ℕ
  | .objectExists _ => Bool
  | .readObject key => key.Value
  | .putObject _ _ => Unit
  | .ensureLfsObject _ _ => Unit
  | .membershipGet _ _ => Option MembershipRecord
  | .membershipInsert _ _ _ => Unit
  | .poll => Bool

abbrev Op.Res (op : Op) : Type := Except OpError op.Val

inductive Fault where
  | none
  /-- The call fails and has done nothing. -/
  | before (e : OpError)
  /-- The call fails and has done what it does. -/
  | after (e : OpError)
deriving DecidableEq

/-- What a call finds outside: the time, a fresh id, whether the cache still holds a record, what the timer
for the lease says, and a fault. -/
structure Input where
  now : ℕ
  uuid : Text
  cached : Bool
  renewDue : Bool
  fault : Fault
deriving DecidableEq

/-- The result of a transaction on the paging tables. -/
def World.commit {α : Type} (w : World) : Except PagingError (Paging × α) → World × Except OpError α
  | .ok (paging, a) => ({ w with paging := paging }, .ok a)
  | .error e => (w, .error (.paging e))

def World.ensureLfs (w : World) (oid : Text) (size : ℕ) : World × Except OpError Unit :=
  match w.lfsObjects oid with
  | some stored => (w, if stored = size then .ok () else .error .lfsMetadata)
  | none => ({ w with lfsObjects := Function.update w.lfsObjects oid (some size) }, .ok ())

/-- A call without faults. -/
def perform (input : Input) : (op : Op) → World → World × op.Res
  | .getSession scope manifestId, w =>
    w.commit ((getSession w.paging scope manifestId).map fun session => (w.paging, session))
  | .upsertPendingSession scope manifestId algorithm oid size chunkCount pageCount, w =>
    w.commit (upsertPendingSession w.paging scope manifestId algorithm oid size chunkCount pageCount)
  | .putPageEntries scope manifestId pageNo entries, w =>
    w.commit ((putPageEntries w.paging scope manifestId pageNo entries).map fun db => (db, ()))
  | .sealSession scope manifestId, w => w.commit (sealSession w.paging scope manifestId)
  | .listEntriesForPage scope manifestId pageNo, w => (w, .ok (listEntriesForPage w.paging scope manifestId pageNo))
  | .markSessionFinalized scope manifestId, w => w.commit (markSessionFinalized w.paging scope manifestId)
  | .ensureTask scope manifestId, w => w.commit (ensureTask w.paging scope manifestId input.uuid)
  | .claimOrRenewLease taskId owner expectedEpoch, w =>
    w.commit (claimOrRenewLease w.paging input.now taskId owner expectedEpoch)
  | .updateTaskProgress taskId epoch bytesVerified pagesVerified stage, w =>
    w.commit (updateTaskProgress w.paging input.now taskId epoch bytesVerified pagesVerified stage)
  | .completeTask taskId epoch, w => w.commit (completeTask w.paging taskId epoch)
  | .failTask taskId epoch errorCode retryable, w => w.commit (failTask w.paging taskId epoch errorCode retryable)
  | .cancelTask taskId, w => w.commit (cancelTask w.paging taskId)
  | .requeueFailedTask taskId, w => w.commit (requeueFailedTask w.paging taskId)
  | .countActiveTasks, w => (w, .ok (countActiveTasks w.paging))
  | .objectExists key, w => (w, .ok (w.objects key).isSome)
  | .readObject key, w =>
    (w, match w.objects key with
      | some value => .ok value
      | none => .error .notFound)
  | .putObject key value, w => ({ w with objects := Function.update w.objects key (some value) }, .ok ())
  | .ensureLfsObject oid size, w => w.ensureLfs oid size
  | .membershipGet scope manifestId, w =>
    (w, .ok (if input.cached then w.membership (scope, manifestId) else none))
  | .membershipInsert scope manifestId record, w =>
    ({ w with membership := Function.update w.membership (scope, manifestId) (some record) }, .ok ())
  | .poll, w => (w, .ok input.renewDue)

def exec (input : Input) (op : Op) (w : World) : World × op.Res :=
  match input.fault with
  | .none => perform input op w
  | .before e => (w, .error e)
  | .after e => ((perform input op w).1, .error e)

/-! ### Programs -/

abbrev Code := Proc Op Op.Res MediaError

/-- A call whose error ends the program. -/
def ask (op : Op) : Code op.Val :=
  .call op fun
    | .ok value => .ret value
    | .error e => .fail (mapError e)

def check {α : Type} : Except Invalid α → Code α
  | .ok a => .ret a
  | .error why => .fail (.invalid why)

def isKeyToken (s : Text) : Bool := s ≠ [] ∧ s.all fun c => c.isAlphanum ∨ c = '-' ∨ c = '_'

/-- `scope_key`: the object id must be a token. -/
def scopeKey (objectId : Text) (key : Key) : Code Key := do
  Proc.require (isKeyToken objectId) (.invalid .objectId)
  pure key

/-- The id of a page object is the manifest id with a suffix that is a token. -/
def pageKey (scope manifestId : Text) (pageNo : ℕ) : Code Key := do
  Proc.require (manifestId.all fun c => c.isAlphanum ∨ c = '-' ∨ c = '_') (.invalid .objectId)
  pure (.page scope manifestId pageNo)

def pendingTtlSecs : ℕ := 24 * 60 * 60

def isExpired (createdAtUnix now : ℕ) : Bool := now - createdAtUnix ≥ pendingTtlSecs

variable (codec : Codec)

/-- `read_bytes`: an object that is not too long. -/
def readBytes (key : Key) (max : ℕ) : Code key.Value := do
  let value ← ask (.readObject key)
  Proc.require (key.size codec value ≤ max) (.invalid .envelope)
  pure value

/-- `read_existing_chunk`: an object that is too long is a conflict. -/
def readExistingChunk (scope chunkHash : Text) : Code Bytes := do
  let body : Bytes ← ask (.readObject (.chunk scope chunkHash))
  Proc.require (body.length ≤ maxSize) (.conflict .chunkContent)
  pure body

def loadPending (scope manifestId : Text) : Code PendingSession :=
  readBytes codec (.pending scope manifestId) maxEnvelopeSize

def requireActivePending (scope manifestId : Text) (now : ℕ) : Code PendingSession := do
  let _ ← scopeKey manifestId (.pending scope manifestId)
  let session ← loadPending codec scope manifestId
  Proc.require (¬ isExpired session.createdAtUnix now) (.invalid .expired)
  pure session

def requireSealedSession (scope manifestId : Text) : Code SessionRow := do
  let session : SessionRow ← ask (.getSession scope manifestId)
  Proc.require (session.state = .sealed ∨ session.state = .finalized) (.invalid .notSealed)
  pure session

/-! #### Prepare, pages, seal, chunks -/

/-- The hashes in the list that have no object, each looked up once. -/
def missingChunks (scope : Text) : List Text → Code (List Text)
  | [] => pure []
  | hash :: hashes => do
    let _ ← scopeKey hash (.chunk scope hash)
    let found : Bool ← ask (.objectExists (.chunk scope hash))
    let missing ← missingChunks scope hashes
    pure (if found then missing else hash :: missing)

/-- When the pending session was created: an object that has not expired keeps its time. -/
def pendingCreatedAt (scope manifestId : Text) (now : ℕ) : Code ℕ := do
  let loaded : Except MediaError PendingSession ← (loadPending codec scope manifestId).attempt
  match loaded with
  | .ok existing => pure (if isExpired existing.createdAtUnix now then now else existing.createdAtUnix)
  | .error .notFound => pure now
  | .error e => .fail e

def prepareAt (scope : Text) (manifest : MediaManifest) (now : ℕ) : Code (Text × List Text) := do
  check (manifest.validate codec)
  let manifest := { manifest with fallbackOid := some manifest.mediaOid }
  let manifestId ← check (manifest.id codec)
  let pages ← check (splitPages codec manifest.chunks)
  Proc.require (pages.length < 2 ^ 31) (.invalid .pageCount)
  let _ ← ask (.upsertPendingSession scope manifestId manifest.algorithm manifest.mediaOid manifest.mediaSize
    manifest.chunks.length pages.length)
  let _ ← scopeKey manifestId (.pending scope manifestId)
  let createdAtUnix ← pendingCreatedAt codec scope manifestId now
  let session : PendingSession := ⟨createdAtUnix, manifest⟩
  Proc.require (codec.pendingSize session ≤ maxEnvelopeSize) (.invalid .envelope)
  let _ ← ask (.putObject (.pending scope manifestId) session)
  let missing ← missingChunks scope (Firsts.firsts [] (manifest.chunks.map ChunkEntry.chunkHash))
  pure (manifestId, missing)

/-- `as i32` of a page number. -/
def asI32 (n : ℕ) : ℤ := if n % 2 ^ 32 < 2 ^ 31 then (n % 2 ^ 32 : ℕ) else (n % 2 ^ 32 : ℕ) - 2 ^ 32

theorem asI32_of_lt {n : ℕ} (h : n < 2 ^ 31) : asI32 n = n := by
  have hmod : n % 2 ^ 32 = n := Nat.mod_eq_of_lt (by omega)
  rw [asI32, hmod, if_pos h]

def indexRows (entries : List ChunkEntry) : List ChunkIndexRow :=
  entries.zipIdx.map fun e => ⟨e.2, e.1.offset, e.1.length, e.1.chunkHash⟩

/-- What `put_page_at` does once the page number has passed. -/
def storePage (scope manifestId : Text) (page : ManifestPage) : Code Unit := do
  let _ ← ask (.putPageEntries scope manifestId (asI32 page.pageNo) (indexRows page.entries))
  let _ ← pageKey scope manifestId page.pageNo
  Proc.require (codec.pageSize page ≤ maxEnvelopeSize) (.invalid .envelope)
  let _ ← ask (.putObject (.page scope manifestId page.pageNo) page)
  pure ()

def putPageAt (scope manifestId : Text) (page : ManifestPage) (now : ℕ) : Code Unit := do
  check (page.validate codec)
  let _ ← requireActivePending codec scope manifestId now
  let session : SessionRow ← ask (.getSession scope manifestId)
  Proc.require (session.state = .pending) (.conflict .sessionState)
  Proc.require (asI32 page.pageNo < session.pageCount) (.invalid .pageOutOfRange)
  storePage codec scope manifestId page

/-- The loop of `seal_at` over the expected pages, from the page `pageNo` on. -/
def comparePages (scope manifestId : Text) : ℕ → List (List ChunkEntry) → Code Unit
  | _, [] => pure ()
  | pageNo, entries :: pages => do
    let _ ← pageKey scope manifestId pageNo
    let stored : ManifestPage ← readBytes codec (.page scope manifestId pageNo) maxEnvelopeSize
    Proc.require (stored.pageNo = pageNo ∧ stored.entries = entries) (.conflict .pageContent)
    comparePages scope manifestId (pageNo + 1) pages

def sealAt (scope manifestId : Text) (now : ℕ) : Code SessionRow := do
  let pending ← requireActivePending codec scope manifestId now
  let expected ← check (splitPages codec pending.manifest.chunks)
  let session : SessionRow ← ask (.getSession scope manifestId)
  Proc.require (expected.length = session.pageCount) (.conflict .pageCount)
  comparePages codec scope manifestId 0 expected
  ask (.sealSession scope manifestId)

def membershipForPending (scope manifestId : Text) (now : ℕ) : Code MembershipRecord := do
  let cached : Option MembershipRecord ← ask (.membershipGet scope manifestId)
  match cached with
  | some ⟨lengths, some created⟩ =>
    Proc.require (¬ isExpired created now) (.invalid .expired)
    pure ⟨lengths, some created⟩
  | _ =>
    let session ← requireActivePending codec scope manifestId now
    let record : MembershipRecord :=
      ⟨session.manifest.chunks.map fun c => (c.chunkHash, c.length), some session.createdAtUnix⟩
    let _ ← ask (.membershipInsert scope manifestId record)
    pure record

/-- What `upload_chunk_at` does once it knows the members. -/
def uploadDeclared (scope chunkHash : Text) (body : Bytes) (members : MembershipRecord) : Code Unit := do
  Proc.require (members.lengthOf chunkHash).isSome (.invalid .notDeclared)
  Proc.require (members.lengthOf chunkHash = some body.length) (.invalid .chunkLength)
  Proc.require (body.length ≤ maxSize) (.invalid .chunkTooLarge)
  Proc.require (codec.sha256 body = chunkHash) (.invalid .chunkContent)
  let _ ← scopeKey chunkHash (.chunk scope chunkHash)
  let found : Bool ← ask (.objectExists (.chunk scope chunkHash))
  if found then
    let existing ← readExistingChunk scope chunkHash
    Proc.require (codec.sha256 existing = chunkHash) (.conflict .chunkContent)
  else
    let _ ← ask (.putObject (.chunk scope chunkHash) body)
    pure ()

def uploadChunkAt (scope manifestId chunkHash : Text) (body : Bytes) (now : ℕ) : Code Unit := do
  let members ← membershipForPending codec scope manifestId now
  uploadDeclared codec scope chunkHash body members

/-! #### Finalize -/

/-- The task that a finalize body reports its progress to. -/
structure ProgressHandle where
  taskId : Text
  epoch : ℕ
deriving DecidableEq

def report (progress : Option ProgressHandle) (bytesVerified pagesVerified : ℕ) (stage : Stage) : Code Unit :=
  match progress with
  | some p => do
    let _ ← ask (.updateTaskProgress p.taskId p.epoch bytesVerified pagesVerified stage)
    pure ()
  | none => pure ()

def readChunkForEntry (scope chunkHash : Text) (expectedLength : ℕ) : Code Bytes := do
  let _ ← scopeKey chunkHash (.chunk scope chunkHash)
  let body ← readExistingChunk scope chunkHash
  Proc.require (body.length = expectedLength) (.invalid .chunkLength)
  Proc.require (codec.sha256 body = chunkHash) (.invalid .chunkContent)
  pure body

/-- The entries of one page: where they end and all that was written so far. -/
def rebuildEntries (scope : Text) (mediaSize : ℕ) (progress : Option ProgressHandle) (pageNo : ℕ) :
    List EntryRow → ℕ → Bytes → Code (ℕ × Bytes)
  | [], offset, written => pure (offset, written)
  | entry :: entries, offset, written => do
    let _ ← ask .poll
    Proc.require (entry.offset = offset) (.invalid .coverage)
    Proc.require (offset + entry.length < 2 ^ 64) (.invalid .offsetOverflow)
    Proc.require (offset + entry.length ≤ mediaSize) (.invalid .coverageOverflow)
    let body ← readChunkForEntry codec scope entry.chunkHash entry.length
    let renewDue : Bool ← ask .poll
    report (if renewDue then progress else none) (offset + entry.length) (pageNo + 1) .verify
    rebuildEntries scope mediaSize progress pageNo entries (offset + entry.length) (written ++ body)

/-- The loop over the pages `pageNo`, `pageNo + 1`, … -/
def rebuildPages (scope manifestId : Text) (mediaSize : ℕ) (progress : Option ProgressHandle) :
    ℕ → ℕ → ℕ → Bytes → Code (ℕ × Bytes)
  | 0, _, offset, written => pure (offset, written)
  | pages + 1, pageNo, offset, written => do
    let _ ← ask .poll
    let entries : List EntryRow ← ask (.listEntriesForPage scope manifestId pageNo)
    let (offset, written) ← rebuildEntries codec scope mediaSize progress pageNo entries offset written
    report progress offset (pageNo + 1) .verify
    rebuildPages scope manifestId mediaSize progress pages (pageNo + 1) offset written

def rebuildAndVerify (scope manifestId : Text) (manifest : MediaManifest) (pageCount : ℕ)
    (progress : Option ProgressHandle) : Code Bytes := do
  let (offset, written) ← rebuildPages codec scope manifestId manifest.mediaSize progress pageCount 0 0 []
  let _ ← ask .poll
  Proc.require (offset = manifest.mediaSize ∧ written.length = manifest.mediaSize) (.invalid .incomplete)
  Proc.require (codec.sha256 written = manifest.mediaOid) (.invalid .digest)
  pure written

def canonicalIdentityEquiv (a b : ManifestResponse) : Bool :=
  a.manifestId = b.manifestId ∧ a.manifest.identity = b.manifest.identity

/-- The stored record of the layout: one that is there must have the same identity. -/
def putImmutableIdentity (scope manifestId : Text) (response : ManifestResponse) :
    Code (ManifestResponse × Bool) := do
  let found : Bool ← ask (.objectExists (.finalized scope manifestId))
  if found then
    let parsed : ManifestResponse ← readBytes codec (.finalized scope manifestId) maxEnvelopeSize
    Proc.require (canonicalIdentityEquiv parsed response) (.conflict .recordIdentity)
    pure (parsed, false)
  else
    let _ ← ask (.putObject (.finalized scope manifestId) response)
    let parsed : ManifestResponse ← readBytes codec (.finalized scope manifestId) maxEnvelopeSize
    Proc.require (canonicalIdentityEquiv parsed response) (.conflict .recordIdentity)
    pure (parsed, true)

def putByMedia (scope : Text) (identity : ManifestResponse) : Code Unit := do
  let _ ← scopeKey identity.manifest.mediaOid (.manifest scope identity.manifest.mediaOid)
  Proc.require (codec.responseSize identity ≤ maxEnvelopeSize) (.invalid .envelope)
  let _ ← ask (.putObject (.manifest scope identity.manifest.mediaOid) identity)
  pure ()

/-- The fallback object, unless one is there. -/
def putFallbackObject (mediaOid : Text) (written : Bytes) : Code Unit := do
  let found : Bool ← ask (.objectExists (.lfs mediaOid))
  if found then pure ()
  else
    let _ ← ask (.putObject (.lfs mediaOid) written)
    pure ()

def putFallbackIdempotent (manifest : MediaManifest) (written : Bytes) : Code Unit := do
  putFallbackObject manifest.mediaOid written
  let _ ← ask (.ensureLfsObject manifest.mediaOid manifest.mediaSize)
  let found : Bool ← ask (.objectExists (.lfs manifest.mediaOid))
  Proc.require found .notFound

def publishFinalizedRecords (scope manifestId : Text) (manifest : MediaManifest) : Code ManifestResponse := do
  let response : ManifestResponse := ⟨manifestId, manifest⟩
  Proc.require (codec.responseSize response ≤ maxEnvelopeSize) (.invalid .envelope)
  let _ ← scopeKey manifestId (.finalized scope manifestId)
  let (identity, _) ← putImmutableIdentity codec scope manifestId response
  let _ ← ask (.markSessionFinalized scope manifestId)
  putByMedia codec scope identity
  pure identity

def publishVerifiedLayout (scope manifestId : Text) (manifest : MediaManifest) (written : Bytes) :
    Code ManifestResponse := do
  putFallbackIdempotent manifest written
  publishFinalizedRecords codec scope manifestId manifest

def runFinalizeBody (scope manifestId : Text) (now : ℕ) (progress : Option ProgressHandle) :
    Code ManifestResponse := do
  let sealed ← requireSealedSession scope manifestId
  let pending ← requireActivePending codec scope manifestId now
  let manifest := pending.manifest
  let expectedId ← check (manifest.id codec)
  Proc.require (expectedId = manifestId) (.invalid .manifestId)
  Proc.require (manifest.fallbackOid = some manifest.mediaOid) (.invalid .fallbackOid)
  let _ ← ask .poll
  let written ← rebuildAndVerify codec scope manifestId manifest sealed.pageCount progress
  let _ ← ask .poll
  report progress manifest.mediaSize sealed.pageCount .fallback
  let _ ← ask .poll
  report progress manifest.mediaSize sealed.pageCount .publish
  publishVerifiedLayout codec scope manifestId manifest written

def maxQueuedFinalize : ℕ := 128

/-- A failed task is queued again if it may be retried. -/
def requeueIfFailed (task : TaskRow) : Code TaskRow :=
  if task.state = .failed then do
    Proc.require task.retryable (.conflict .permanentlyFailed)
    ask (.requeueFailedTask task.taskId)
  else pure task

/-- The count includes a task that is pending. -/
def checkQueue (task : TaskRow) : Code TaskRow :=
  if task.state = .pending then do
    let active : ℕ ← ask .countActiveTasks
    Proc.require (active ≤ maxQueuedFinalize) .tooManyRequests
    pure task
  else pure task

/-- Makes sure that there is a task and that it may run. -/
def enqueueFinalize (scope manifestId : Text) : Code TaskRow := do
  let _ ← requireSealedSession scope manifestId
  let task : TaskRow ← ask (.ensureTask scope manifestId)
  if task.state = .complete then pure task
  else
    let task ← requeueIfFailed task
    checkQueue task

/-- A worker that finds the lease held ends without a word. -/
def runTaskWorker (scope manifestId taskId owner : Text) (now : ℕ) : Code Unit := do
  let claimed : Except MediaError TaskRow ← (ask (.claimOrRenewLease taskId owner none)).attempt
  match claimed with
  | .error (.conflict .leaseHeld) => pure ()
  | .error e => .fail e
  | .ok task =>
    let result : Except MediaError ManifestResponse ←
      (runFinalizeBody codec scope manifestId now (some ⟨taskId, task.leaseEpoch⟩)).attempt
    match result with
    | .ok _ => do
      let _ ← ask (.completeTask taskId task.leaseEpoch)
      pure ()
    | .error e =>
      let _ : Except MediaError TaskRow ← (ask (.failTask taskId task.leaseEpoch
        (classifyFinalizeError e).1 (classifyFinalizeError e).2)).attempt
      .fail e

/-! #### Loads -/

def loadImmutableById (scope manifestId : Text) : Code ManifestResponse := do
  let session : SessionRow ← ask (.getSession scope manifestId)
  Proc.require (session.state = .finalized) .notFound
  let _ ← scopeKey manifestId (.finalized scope manifestId)
  let parsed : ManifestResponse ← readBytes codec (.finalized scope manifestId) maxEnvelopeSize
  Proc.require (parsed.manifestId = manifestId) (.conflict .recordId)
  let expected ← check (parsed.manifest.id codec)
  Proc.require (expected = manifestId) (.conflict .recordIdentity)
  pure parsed

def loadByMedia (scope oid : Text) : Code ManifestResponse := do
  let _ ← scopeKey oid (.manifest scope oid)
  let parsed : ManifestResponse ← readBytes codec (.manifest scope oid) maxEnvelopeSize
  let session : SessionRow ← ask (.getSession scope parsed.manifestId)
  Proc.require (session.state = .finalized) .notFound
  Proc.require (parsed.manifest.mediaOid = oid) (.conflict .recordOid)
  pure parsed

/-! ### Requests -/

inductive Request where
  | prepare (scope : Text) (manifest : MediaManifest) (now : ℕ)
  | putPage (scope manifestId : Text) (page : ManifestPage) (now : ℕ)
  | sealManifest (scope manifestId : Text) (now : ℕ)
  | uploadChunk (scope manifestId chunkHash : Text) (body : Bytes) (now : ℕ)
  | finalize (scope manifestId : Text) (now : ℕ)
  | enqueueFinalize (scope manifestId owner : Text) (now : ℕ)
  | renewLease (taskId owner : Text) (epoch : ℕ)
  | cancelTask (taskId : Text)
  | requeueTask (taskId : Text)
  | loadImmutableById (scope manifestId : Text)
  | loadByMedia (scope oid : Text)
deriving DecidableEq

inductive Answer where
  | done
  | prepared (manifestId : Text) (missing : List Text)
  | session (row : SessionRow)
  | task (row : TaskRow)
  | manifest (response : ManifestResponse)
deriving DecidableEq

def code : Request → Code Answer
  | .prepare scope manifest now => do
    let (manifestId, missing) ← prepareAt codec scope manifest now
    pure (.prepared manifestId missing)
  | .putPage scope manifestId page now => do
    putPageAt codec scope manifestId page now
    pure .done
  | .sealManifest scope manifestId now => do
    let row ← sealAt codec scope manifestId now
    pure (.session row)
  | .uploadChunk scope manifestId chunkHash body now => do
    uploadChunkAt codec scope manifestId chunkHash body now
    pure .done
  | .finalize scope manifestId now => do
    let response ← runFinalizeBody codec scope manifestId now none
    pure (.manifest response)
  | .enqueueFinalize scope manifestId owner now => do
    let row ← enqueueFinalize scope manifestId
    if row.state = .complete then pure (.task row)
    else
      -- The caller has its answer; the worker that was spawned goes on.
      runTaskWorker codec scope manifestId row.taskId owner now
      pure (.task row)
  | .renewLease taskId owner epoch => do
    let row : TaskRow ← ask (.claimOrRenewLease taskId owner (some epoch))
    pure (.task row)
  | .cancelTask taskId => do
    let row : TaskRow ← ask (.cancelTask taskId)
    pure (.task row)
  | .requeueTask taskId => do
    let row : TaskRow ← ask (.requeueFailedTask taskId)
    pure (.task row)
  | .loadImmutableById scope manifestId => do
    let response ← loadImmutableById codec scope manifestId
    pure (.manifest response)
  | .loadByMedia scope oid => do
    let response ← loadByMedia codec scope oid
    pure (.manifest response)

abbrev System := Pool World Op Op.Res MediaError Answer Request
abbrev Event := Pool.Event Request Input

/-- The service before any request. -/
def System.empty : System := ⟨World.empty, []⟩

/-- Any number of requests, in any interleaving. -/
def run (system : System) (events : List Event) : System := Run.run (Pool.step exec (code codec)) system events

def plainInput : Input := ⟨0, "task".toList, true, false, .none⟩

/-- The program at the position `thread` makes some calls. -/
def calls (thread n : ℕ) : List Event := List.replicate n (.advance thread plainInput)

def served (request : Request) (thread n : ℕ) : List Event := .start request :: calls thread n

end Media
end Mega
