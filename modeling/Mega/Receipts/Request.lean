/-
# Publication requests

The request part of `jupiter/storage/mst2_publication_storage.rs`: a request is
made from a row of the push queue, and its digest is the SHA-256 of an encoding
of the row. Each field stands after its length and JSON is written with its
structure, so the encoding determines the row: rows with one digest are one row.

A JSON number is its text, and the fields of an object stand in the order of
their keys, as the map of the source keeps them. SHA-256 in hex is a parameter,
and so is the check of the path, which another crate does.

Key definitions: `Json`, `hashJson`, `QueueRow`, `requestBytes`,
`fromTrunkQueue`.
Key theorems: `frontOn_hashJson`, `requestBytes_injective`.
-/
import Mega.Lib.Fallible
import Mega.Lib.PrefixCode
import Mega.View.Filter

namespace Mega
namespace Receipts

open List View PrefixCode

/-! ### Fields and JSON -/

/-- The bytes of a string. -/
def bytesOf (s : Text) : List UInt8 := (String.ofList s).toByteArray.data.toList

theorem bytesOf_injective : Function.Injective bytesOf := by
  intro a b h
  have hdata : (String.ofList a).toByteArray = (String.ofList b).toByteArray :=
    ByteArray.ext (Array.toList_inj.mp h)
  exact String.ofList_injective (String.toByteArray_inj.mp hdata)

/-- `hash_field`: the bytes after their length. -/
def hashField (s : Text) : List UInt8 := sized (bytesOf s)

/-- The length of a string, as of any collection, fits in 64 bits. -/
def FitsText (s : Text) : Prop := (bytesOf s).length < 2 ^ 64

instance : DecidablePred FitsText := fun s => inferInstanceAs (Decidable ((bytesOf s).length < 2 ^ 64))

theorem frontOn_hashField : FrontOn FitsText hashField := by
  intro a b s t ha hb h
  obtain ⟨hbytes, hst⟩ := frontOn_sized _ _ s t ha hb h
  exact ⟨bytesOf_injective hbytes, hst⟩

inductive Json where
  | null
  | bool (value : Bool)
  | number (text : Text)
  | string (value : Text)
  | array (items : List Json)
  | object (fields : List (Text × Json))

mutual

def hashJson : Json → List UInt8
  | .null => [0]
  | .bool value => [1, if value then 1 else 0]
  | .number text => 2 :: hashField text
  | .string value => 3 :: hashField value
  | .array items => 4 :: (leBytes 8 items.length ++ hashItems items)
  | .object fields => 5 :: (leBytes 8 fields.length ++ hashFields fields)

def hashItems : List Json → List UInt8
  | [] => []
  | item :: items => hashJson item ++ hashItems items

def hashFields : List (Text × Json) → List UInt8
  | [] => []
  | (key, value) :: fields => hashField key ++ (hashJson value ++ hashFields fields)

end

mutual

/-- All lengths fit in 64 bits, and the keys of an object are sorted and distinct. -/
def Json.Fits : Json → Prop
  | .null => True
  | .bool _ => True
  | .number text => FitsText text
  | .string value => FitsText value
  | .array items => items.length < 2 ^ 64 ∧ FitsItems items
  | .object fields => fields.length < 2 ^ 64 ∧ (fields.map Prod.fst).Pairwise (· < ·) ∧ FitsFields fields

def FitsItems : List Json → Prop
  | [] => True
  | item :: items => item.Fits ∧ FitsItems items

def FitsFields : List (Text × Json) → Prop
  | [] => True
  | (key, value) :: fields => FitsText key ∧ value.Fits ∧ FitsFields fields

end

mutual

/-- **The encoding of a JSON value can be read off the front.** -/
theorem frontOn_hashJson : ∀ (a b : Json) (s t : List UInt8), a.Fits → b.Fits →
    hashJson a ++ s = hashJson b ++ t → a = b ∧ s = t
  | .null, b, s, t, _, _, h => by
    cases b <;> simp_all [hashJson]
  | .bool value, b, s, t, _, _, h => by
    cases b with
    | bool other =>
      simp only [hashJson, cons_append, List.cons.injEq, true_and, nil_append] at h
      cases value <;> cases other <;> simp_all
    | _ => simp [hashJson] at h
  | .number text, b, s, t, ha, hb, h => by
    cases b with
    | number other =>
      simp only [hashJson, cons_append, List.cons.injEq, true_and] at h
      obtain ⟨rfl, hst⟩ := frontOn_hashField _ _ s t ha hb h
      exact ⟨rfl, hst⟩
    | _ => simp [hashJson] at h
  | .string value, b, s, t, ha, hb, h => by
    cases b with
    | string other =>
      simp only [hashJson, cons_append, List.cons.injEq, true_and] at h
      obtain ⟨rfl, hst⟩ := frontOn_hashField _ _ s t ha hb h
      exact ⟨rfl, hst⟩
    | _ => simp [hashJson] at h
  | .array items, b, s, t, ha, hb, h => by
    cases b with
    | array others =>
      simp only [hashJson, cons_append, List.cons.injEq, true_and, append_assoc] at h
      obtain ⟨hlength, hrest⟩ := frontOn_leBytes 8 _ _ _ _ (by have := ha.1; omega) (by have := hb.1; omega) h
      obtain ⟨rfl, hst⟩ := front_hashItems items others s t hlength ha.2 hb.2 hrest
      exact ⟨rfl, hst⟩
    | _ => simp [hashJson] at h
  | .object fields, b, s, t, ha, hb, h => by
    cases b with
    | object others =>
      simp only [hashJson, cons_append, List.cons.injEq, true_and, append_assoc] at h
      obtain ⟨hlength, hrest⟩ := frontOn_leBytes 8 _ _ _ _ (by have := ha.1; omega) (by have := hb.1; omega) h
      obtain ⟨rfl, hst⟩ := front_hashFields fields others s t hlength ha.2.2 hb.2.2 hrest
      exact ⟨rfl, hst⟩
    | _ => simp [hashJson] at h

theorem front_hashItems : ∀ (as bs : List Json) (s t : List UInt8), as.length = bs.length →
    FitsItems as → FitsItems bs → hashItems as ++ s = hashItems bs ++ t → as = bs ∧ s = t
  | [], [], s, t, _, _, _, h => ⟨rfl, h⟩
  | a :: as, b :: bs, s, t, hlength, ha, hb, h => by
    simp only [hashItems, append_assoc] at h
    obtain ⟨rfl, hrest⟩ := frontOn_hashJson a b _ _ ha.1 hb.1 h
    obtain ⟨rfl, hst⟩ := front_hashItems as bs s t (by simpa using hlength) ha.2 hb.2 hrest
    exact ⟨rfl, hst⟩

theorem front_hashFields : ∀ (as bs : List (Text × Json)) (s t : List UInt8), as.length = bs.length →
    FitsFields as → FitsFields bs → hashFields as ++ s = hashFields bs ++ t → as = bs ∧ s = t
  | [], [], s, t, _, _, _, h => ⟨rfl, h⟩
  | (key, value) :: as, (key', value') :: bs, s, t, hlength, ha, hb, h => by
    simp only [hashFields, append_assoc] at h
    obtain ⟨rfl, hvalue⟩ := frontOn_hashField _ _ _ _ ha.1 hb.1 h
    obtain ⟨rfl, hrest⟩ := frontOn_hashJson value value' _ _ ha.2.1 hb.2.1 hvalue
    obtain ⟨rfl, hst⟩ := front_hashFields as bs s t (by simpa using hlength) ha.2.2 hb.2.2 hrest
    exact ⟨rfl, hst⟩

end

/-- `serde_json::Value::get` of a key. -/
def Json.get (key : Text) : Json → Option Json
  | .object fields => (fields.find? (·.1 = key)).map Prod.snd
  | _ => none

/-- `as_u64` of a number is zero. -/
def Json.isZero : Json → Bool
  | .number text => text = ['0']
  | _ => false

/-! ### Requests -/

/-- `PushQueueKindEnum`. -/
inductive QueueKind where
  | push
  | merge
  | attach
deriving DecidableEq

/-- The columns of a row of the push queue that make up a request, but for the payload. -/
@[ext] structure RowColumns where
  id : ℤ
  kind : QueueKind
  operationId : Text
  path : Text
  oldId : Text
  newId : Text
  requester : Option Text
  fitsOperation : FitsText operationId
  fitsPath : FitsText path
  fitsOld : FitsText oldId
  fitsNew : FitsText newId
  fitsRequester : ∀ actor, requester = some actor → FitsText actor

structure QueueRow extends RowColumns where
  payload : Json
  fitsPayload : payload.Fits

inductive WriterKind where
  | trunkPush
  | trunkMergeStub
deriving DecidableEq

def WriterKind.text : WriterKind → Text
  | .trunkPush => "trunk_push".toList
  | .trunkMergeStub => "trunk_merge_stub".toList

def requestDigestVersion : ℕ := 1
def writerEpoch : ℕ := 1
def megaBranchName : Text := "refs/heads/main".toList

/-- `mst2:trunk-queue:` and the id of the row. -/
def operationIdOf (id : ℤ) : Text := "mst2:trunk-queue:".toList ++ (toString id).toList

/-- `request_hasher`: what is hashed first. -/
def requestHasher (operationId path : Text) (kind : WriterKind) : List UInt8 :=
  bytesOf "mega.mst2.trunk-queue-request".toList ++ [0] ++ leBytes 4 requestDigestVersion ++
    leBytes 8 writerEpoch ++ (hashField operationId ++ (hashField path ++ hashField kind.text))

/-- A byte that says whether there is a requester, and the requester. -/
def hashRequester : Option Text → List UInt8
  | none => [0]
  | some actor => 1 :: hashField actor

/-- All that is hashed. -/
def requestBytes (row : QueueRow) (kind : WriterKind) : List UInt8 :=
  requestHasher (operationIdOf row.id) row.path kind ++ (hashField row.operationId ++ (hashField megaBranchName ++
    (hashField row.oldId ++ (hashField row.newId ++ (hashRequester row.requester ++ hashJson row.payload)))))

inductive ConflictReason where
  | anotherNamespace
  | requestChanged
deriving DecidableEq

inductive IntegrityReason where
  | queueIdentity
  | scope
  | attach
  | outboxMissing
  | outboxMismatch
  | bothReceipts
  | noopOutbox
deriving DecidableEq

/-- `PublicationReceiptError`. -/
inductive ReceiptError where
  | conflict (why : ConflictReason)
  | legacyReceipt (operationId : Text)
  | integrity (why : IntegrityReason)
deriving DecidableEq

structure PublicationRequest where
  operationId : Text
  namespace_ : Text
  writerKind : WriterKind
  requestDigest : Text
  legacyOperationId : Option Text
  isNoop : Bool
deriving DecidableEq

/-- The writer of a row; an attach has none. -/
def QueueRow.writerKind (row : QueueRow) : Except ReceiptError WriterKind :=
  match row.kind with
  | .push => .ok .trunkPush
  | .merge => .ok .trunkMergeStub
  | .attach => .error (.integrity .attach)

/-- A push that changes nothing. -/
def QueueRow.isNoop (row : QueueRow) : Bool :=
  row.kind = .push ∧ row.oldId = row.newId ∧ (row.payload.get "n".toList).any Json.isZero

section Requests

variable (validScope : Text → Bool) (sha256 : List UInt8 → Text)

def requestDigest (row : QueueRow) (kind : WriterKind) : Text :=
  "sha256:".toList ++ sha256 (requestBytes row kind)

/-- `PublicationRequest::from_trunk_queue`. -/
def fromTrunkQueue (row : QueueRow) : Except ReceiptError PublicationRequest :=
  if row.id ≤ 0 ∨ row.operationId = [] then .error (.integrity .queueIdentity)
  else if ¬ validScope row.path then .error (.integrity .scope)
  else do
    let kind ← row.writerKind
    .ok {
      operationId := operationIdOf row.id
      namespace_ := row.path
      writerKind := kind
      requestDigest := requestDigest sha256 row kind
      legacyOperationId := some row.operationId
      isNoop := row.isNoop }

end Requests

/-! ### The digest determines the row -/

theorem frontOn_hashRequester (a b : Option Text) (s t : List UInt8)
    (ha : ∀ actor, a = some actor → FitsText actor) (hb : ∀ actor, b = some actor → FitsText actor)
    (h : hashRequester a ++ s = hashRequester b ++ t) : a = b ∧ s = t := by
  cases a with
  | none =>
    cases b with
    | none => exact ⟨rfl, by simpa [hashRequester] using h⟩
    | some other => simp [hashRequester] at h
  | some actor =>
    cases b with
    | none => simp [hashRequester] at h
    | some other =>
      simp only [hashRequester, cons_append, List.cons.injEq, true_and] at h
      obtain ⟨rfl, hst⟩ := frontOn_hashField _ _ s t (ha _ rfl) (hb _ rfl) h
      exact ⟨rfl, hst⟩

theorem WriterKind.fitsText (kind : WriterKind) : FitsText kind.text := by
  cases kind <;> · unfold FitsText; decide +kernel

/-- The kind of the row, which its writer shows. -/
theorem kind_of_writerKind {row row' : QueueRow} {kind : WriterKind} (h : row.writerKind = .ok kind)
    (h' : row'.writerKind = .ok kind) : row.kind = row'.kind := by
  have hsame : row.writerKind = row'.writerKind := h.trans h'.symm
  unfold QueueRow.writerKind at hsame
  cases hkind : row.kind <;> cases hkind' : row'.kind <;> simp_all

/-- **Rows of one id with one encoding are the same row.** -/
theorem requestBytes_injective {row row' : QueueRow} {kind kind' : WriterKind} (hid : row.id = row'.id)
    (hkind : row.writerKind = .ok kind) (hkind' : row'.writerKind = .ok kind')
    (h : requestBytes row kind = requestBytes row' kind') : row = row' := by
  simp only [requestBytes, requestHasher, hid, append_assoc, append_cancel_left_eq] at h
  obtain ⟨hpath, h⟩ := frontOn_hashField _ _ _ _ row.fitsPath row'.fitsPath h
  obtain ⟨htext, h⟩ := frontOn_hashField _ _ _ _ kind.fitsText kind'.fitsText h
  obtain ⟨hoperation, h⟩ := frontOn_hashField _ _ _ _ row.fitsOperation row'.fitsOperation h
  rw [append_cancel_left_eq] at h
  obtain ⟨hold, h⟩ := frontOn_hashField _ _ _ _ row.fitsOld row'.fitsOld h
  obtain ⟨hnew, h⟩ := frontOn_hashField _ _ _ _ row.fitsNew row'.fitsNew h
  obtain ⟨hrequester, h⟩ := frontOn_hashRequester _ _ _ _ row.fitsRequester row'.fitsRequester h
  have hpayload : row.payload = row'.payload :=
    (frontOn_hashJson _ _ [] [] row.fitsPayload row'.fitsPayload (by rw [h])).1
  have hwriter : kind = kind' := by cases kind <;> cases kind' <;> first | rfl | exact absurd htext (by decide)
  subst hwriter
  have hrow := kind_of_writerKind hkind hkind'
  obtain ⟨⟨⟩⟩ := row
  obtain ⟨⟨⟩⟩ := row'
  simp only at hid hpath hoperation hold hnew hrequester hpayload hrow
  subst hid hpath hoperation hold hnew hrequester hpayload hrow
  rfl

theorem fromTrunkQueue_eq_ok {validScope : Text → Bool} {sha256 : List UInt8 → Text} {row : QueueRow}
    {request : PublicationRequest} (h : fromTrunkQueue validScope sha256 row = .ok request) :
    ∃ kind, row.writerKind = .ok kind ∧ request = {
      operationId := operationIdOf row.id
      namespace_ := row.path
      writerKind := kind
      requestDigest := requestDigest sha256 row kind
      legacyOperationId := some row.operationId
      isNoop := row.isNoop } := by
  unfold fromTrunkQueue at h
  rw [Fallible.guard_eq_ok, Fallible.guard_eq_ok, Fallible.bind_eq_ok] at h
  obtain ⟨-, -, kind, hkind, h⟩ := h
  exact ⟨kind, hkind, (Except.ok.inj h).symm⟩

end Receipts
end Mega
