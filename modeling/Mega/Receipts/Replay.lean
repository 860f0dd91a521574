/-
# Auditing a replayed request

`validate_queue_publication_replay_in_txn` of `jupiter/storage/mst2_publication_storage.rs`:
a request that the queue has a row for already is compared with what was recorded
for the row, a publication with its outbox or a receipt that there was nothing to do.

The audit of a native publication is a parameter.

Key definitions: `Records`, `validateQueuePublicationReplay`.
-/
import Mega.Receipts.Request

namespace Mega
namespace Receipts

open View

/-- A row of `mst2_publication`. -/
structure Receipt where
  operationId : Text
  namespace_ : Text
  sequence : ℕ
  writerEpoch : ℕ
  writerKind : Text
  requestDigest : Option Text
  requestDigestVersion : Option ℕ

/-- A row of `mst2_publication_outbox`. -/
structure Outbox where
  operationId : Text
  namespace_ : Text
  sequence : ℕ

/-- A row of `mst2_queue_noop_receipt`. -/
structure NoopReceipt where
  operationId : Text
  namespace_ : Text
  writerEpoch : ℕ
  writerKind : Text
  requestDigest : Text
  requestDigestVersion : ℕ

/-- What an audit reads. -/
structure Records where
  receipts : List Receipt
  outbox : List Outbox
  noops : List NoopReceipt
  /-- `validate_native_historical_receipt_in_txn` -/
  historical : Receipt → Except ReceiptError Unit

inductive RecordedOperation where
  | publication (receipt : Receipt)
  | noop (receipt : NoopReceipt)

variable (records : Records)

def findCommittedOperation (operationId : Text) : Except ReceiptError (Option RecordedOperation) :=
  match records.receipts.find? (·.operationId = operationId), records.noops.find? (·.operationId = operationId) with
  | some _, some _ => .error (.integrity .bothReceipts)
  | some receipt, none => .ok (some (.publication receipt))
  | none, some receipt => .ok (some (.noop receipt))
  | none, none => .ok none

/-- A receipt from before there were digests. -/
def Receipt.legacy (receipt : Receipt) : Bool :=
  receipt.requestDigestVersion ≠ some Receipts.requestDigestVersion ∨ receipt.requestDigest.isNone

def rejectLegacyQueueReceipt (legacyId path : Text) : Except ReceiptError Unit :=
  match records.receipts.find? fun receipt => receipt.operationId = legacyId ∧ receipt.namespace_ = path with
  | some receipt => if receipt.legacy then .error (.legacyReceipt legacyId) else .ok ()
  | none => .ok ()

def validateCommittedPublication (request : PublicationRequest) (receipt : Receipt) : Except ReceiptError Unit :=
  if receipt.namespace_ ≠ request.namespace_ then .error (.conflict .anotherNamespace)
  else if receipt.legacy then .error (.legacyReceipt request.operationId)
  else if receipt.writerKind ≠ request.writerKind.text ∨ receipt.writerEpoch ≠ writerEpoch ∨
      receipt.requestDigest ≠ some request.requestDigest then .error (.conflict .requestChanged)
  else
    match records.outbox.find? (·.operationId = request.operationId) with
    | none => .error (.integrity .outboxMissing)
    | some outbox =>
      if outbox.namespace_ ≠ receipt.namespace_ ∨ outbox.sequence ≠ receipt.sequence then
        .error (.integrity .outboxMismatch)
      else .ok ()

def validateCommittedOperation (request : PublicationRequest) : RecordedOperation → Except ReceiptError Unit
  | .publication receipt => validateCommittedPublication records request receipt
  | .noop receipt =>
    if receipt.namespace_ ≠ request.namespace_ ∨ receipt.writerKind ≠ request.writerKind.text ∨
        receipt.writerEpoch ≠ writerEpoch ∨ ¬ request.isNoop ∨ receipt.requestDigest ≠ request.requestDigest then
      .error (.conflict .requestChanged)
    else if receipt.requestDigestVersion ≠ requestDigestVersion then .error (.legacyReceipt request.operationId)
    else if records.outbox.any (·.operationId = request.operationId) then .error (.integrity .noopOutbox)
    else .ok ()

/-- `validate_queue_publication_replay_in_txn`, for a row with this id, operation id, path and request. -/
def validateQueuePublicationReplay (id : ℕ) (operationId path : Text)
    (request : Except ReceiptError PublicationRequest) : Except ReceiptError Unit := do
  match ← findCommittedOperation records (operationIdOf id) with
  | none => rejectLegacyQueueReceipt records operationId path
  | some existing =>
    let request ← request
    if let .publication receipt := existing then records.historical receipt
    validateCommittedOperation records request existing

end Receipts
end Mega
