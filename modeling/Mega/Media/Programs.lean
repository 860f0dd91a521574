/-
# Which calls the programs of the media service make

Most calls of the programs are routine: they touch neither the lease of a task
nor the membership cache, and they write neither a pending session nor the
entries of a page. The lemmas say which calls each program makes, for any
property that all routine calls have.

Key definition: `Op.routine`.
Key theorems: `only_prepareAt`, `only_uploadDeclared`, `only_runFinalizeBody`.
-/
import Mega.Lib.Phases
import Mega.Media.Calls

namespace Mega
namespace Media

open View
open Proc (Only)

variable {progress : Option ProgressHandle}

/-- A call that touches neither a lease nor the membership cache, and writes neither a pending session nor
the entries of a page. -/
def Op.routine : Op → Bool
  | .claimOrRenewLease _ _ _ => false
  | .updateTaskProgress _ _ _ _ _ => false
  | .completeTask _ _ => false
  | .failTask _ _ _ _ => false
  | .membershipGet _ _ => false
  | .membershipInsert _ _ _ => false
  | .putPageEntries _ _ _ _ => false
  | .putObject (.pending _ _) _ => false
  | _ => true

/-- A call that opens a session. -/
def Op.opens : Op → Bool
  | .upsertPendingSession _ _ _ _ _ _ _ => true
  | _ => false

section Programs

variable {ok : Op → Prop}

theorem only_ask {op : Op} (h : ok op) : Only ok (ask op) := by
  refine ⟨h, ?_⟩
  intro r
  cases r <;> trivial

theorem only_check {α : Type} (x : Except Invalid α) : Only ok (check x) := by
  cases x <;> trivial

/-- What follows a check of a value. -/
theorem only_check_bind {α β : Type} {x : Except Invalid α} {f : α → Code β} (hf : ∀ a, x = .ok a → Only ok (f a)) :
    Only ok (check x >>= f) := by
  cases x with
  | ok a => exact hf a rfl
  | error why => trivial

/-- What follows a call. -/
theorem only_ask_bind {α : Type} {op : Op} {f : op.Val → Code α} (h : ok op) (hf : ∀ value, Only ok (f value)) :
    Only ok (ask op >>= f) :=
  (only_ask h).bind hf

/-- What follows a check. -/
theorem only_require_bind {c : Prop} [Decidable c] {e : MediaError} {α : Type} {f : Unit → Code α}
    (hf : Only ok (f ())) : Only ok (Proc.require c e >>= f) :=
  (Only.require c e).bind fun _ => hf

theorem only_scopeKey (objectId : Text) (key : Key) : Only ok (scopeKey objectId key) :=
  only_require_bind trivial

theorem only_pageKey (scope manifestId : Text) (pageNo : ℕ) :
    Only ok (pageKey scope manifestId pageNo) :=
  only_require_bind trivial

/-- Reports to the handle, if there is one, satisfy `ok`. -/
def Reports (ok : Op → Prop) (progress : Option ProgressHandle) : Prop :=
  ∀ handle, progress = some handle → ∀ bytes pages stage,
    ok (.updateTaskProgress handle.taskId handle.epoch bytes pages stage)

theorem only_report (hp : Reports ok progress) (bytes pages : ℕ) (stage : Stage) :
    Only ok (report progress bytes pages stage) := by
  cases progress with
  | none => trivial
  | some handle =>
    exact (only_ask (hp handle rfl bytes pages stage)).bind fun _ => trivial

variable (hok : ∀ op, op.routine = true → op.opens = false → ok op)

include hok

theorem only_readBytes (codec : Codec) (key : Key) (max : ℕ) : Only ok (readBytes codec key max) := by
  refine only_ask_bind (hok _ rfl rfl) fun value => ?_
  exact only_require_bind trivial

theorem only_readExistingChunk (scope chunkHash : Text) :
    Only ok (readExistingChunk scope chunkHash) := by
  refine only_ask_bind (hok _ rfl rfl) fun body => ?_
  exact only_require_bind trivial

theorem only_requireActivePending (codec : Codec) (scope manifestId : Text) (now : ℕ) :
    Only ok (requireActivePending codec scope manifestId now) := by
  refine (only_scopeKey _ _).bind fun _ => ?_
  refine (only_readBytes hok _ _ _).bind fun session => ?_
  exact only_require_bind trivial

theorem only_requireSealedSession (scope manifestId : Text) :
    Only ok (requireSealedSession scope manifestId) := by
  refine only_ask_bind (hok _ rfl rfl) fun session => ?_
  exact only_require_bind trivial

theorem only_missingChunks (scope : Text) : ∀ hashes, Only ok (missingChunks scope hashes)
  | [] => trivial
  | hash :: hashes => by
    refine (only_scopeKey _ _).bind fun _ => ?_
    refine only_ask_bind (hok _ rfl rfl) fun found => ?_
    exact (only_missingChunks scope hashes).bind fun _ => trivial

theorem only_pendingCreatedAt (codec : Codec) (scope manifestId : Text) (now : ℕ) :
    Only ok (pendingCreatedAt codec scope manifestId now) := by
  refine (only_readBytes hok _ _ _).attempt.bind fun loaded => ?_
  split <;> trivial

theorem only_prepareAt {codec : Codec}
    (hupsert : ∀ m : MediaManifest, ∀ manifestId, m.id codec = .ok manifestId →
      ∀ scope algorithm oid size chunkCount pageCount,
        ok (.upsertPendingSession scope manifestId algorithm oid size chunkCount pageCount))
    (hput : ∀ scope manifestId session, ok (.putObject (.pending scope manifestId) session))
    (scope : Text) (manifest : MediaManifest) (now : ℕ) :
    Only ok (prepareAt codec scope manifest now) := by
  refine (only_check _).bind fun _ => ?_
  refine only_check_bind fun manifestId hid => ?_
  refine (only_check _).bind fun pages => ?_
  refine only_require_bind ?_
  refine (only_ask (hupsert _ _ hid _ _ _ _ _ _)).bind fun _ => ?_
  refine (only_scopeKey _ _).bind fun _ => ?_
  refine (only_pendingCreatedAt hok _ _ _ _).bind fun created => ?_
  refine only_require_bind ?_
  refine (only_ask (hput _ _ _)).bind fun _ => ?_
  exact (only_missingChunks hok _ _).bind fun _ => trivial

theorem only_putPageAt {codec : Codec} {scope manifestId : Text} {page : ManifestPage}
    (hentries : page.validate codec = .ok () →
      ok (.putPageEntries scope manifestId (asI32 page.pageNo) (indexRows page.entries)))
    (now : ℕ) : Only ok (putPageAt codec scope manifestId page now) := by
  refine only_check_bind fun _ hvalid => ?_
  refine (only_requireActivePending hok _ _ _ _).bind fun _ => ?_
  refine only_ask_bind (hok _ rfl rfl) fun session => ?_
  refine only_require_bind ?_
  refine only_require_bind ?_
  refine (only_ask (hentries hvalid)).bind fun _ => ?_
  refine (only_pageKey _ _ _).bind fun _ => ?_
  refine only_require_bind ?_
  exact only_ask_bind (hok _ rfl rfl) fun _ => trivial

theorem only_comparePages (codec : Codec) (scope manifestId : Text) : ∀ pages pageNo,
    Only ok (comparePages codec scope manifestId pageNo pages)
  | [], _ => trivial
  | entries :: pages, pageNo => by
    refine (only_pageKey _ _ _).bind fun _ => ?_
    refine (only_readBytes hok _ _ _).bind fun stored => ?_
    refine only_require_bind ?_
    exact only_comparePages codec scope manifestId pages (pageNo + 1)

theorem only_sealAt (codec : Codec) (scope manifestId : Text) (now : ℕ) :
    Only ok (sealAt codec scope manifestId now) := by
  refine (only_requireActivePending hok _ _ _ _).bind fun pending => ?_
  refine (only_check _).bind fun expected => ?_
  refine only_ask_bind (hok _ rfl rfl) fun session => ?_
  refine only_require_bind ?_
  refine (only_comparePages hok _ _ _ _ _).bind fun _ => ?_
  exact only_ask (hok _ rfl rfl)

theorem only_uploadDeclared (codec : Codec) (scope chunkHash : Text) (body : Bytes) (members : MembershipRecord) :
    Only ok (uploadDeclared codec scope chunkHash body members) := by
  refine only_require_bind ?_
  refine only_require_bind ?_
  refine only_require_bind ?_
  refine only_require_bind ?_
  refine (only_scopeKey _ _).bind fun _ => ?_
  refine only_ask_bind (hok _ rfl rfl) fun found => ?_
  split
  · exact (only_readExistingChunk hok _ _).bind fun _ => Only.require _ _
  · exact only_ask_bind (hok _ rfl rfl) fun _ => trivial

theorem only_membershipForPending (hget : ∀ scope manifestId, ok (.membershipGet scope manifestId))
    (hinsert : ∀ scope manifestId record, ok (.membershipInsert scope manifestId record)) (codec : Codec)
    (scope manifestId : Text) (now : ℕ) : Only ok (membershipForPending codec scope manifestId now) := by
  refine (only_ask (hget _ _)).bind fun cached => ?_
  split
  · exact only_require_bind trivial
  · refine (only_requireActivePending hok _ _ _ _).bind fun session => ?_
    exact (only_ask (hinsert _ _ _)).bind fun _ => trivial

theorem only_readChunkForEntry (codec : Codec) (scope chunkHash : Text) (length : ℕ) :
    Only ok (readChunkForEntry codec scope chunkHash length) := by
  refine (only_scopeKey _ _).bind fun _ => ?_
  refine (only_readExistingChunk hok _ _).bind fun body => ?_
  refine only_require_bind ?_
  exact only_require_bind trivial

theorem only_rebuildEntries (codec : Codec) (scope : Text) (mediaSize : ℕ) (hp : Reports ok progress) (pageNo : ℕ) :
    ∀ entries offset written,
    Only ok (rebuildEntries codec scope mediaSize progress pageNo entries offset written)
  | [], _, _ => trivial
  | entry :: entries, offset, written => by
    refine only_ask_bind (hok _ rfl rfl) fun _ => ?_
    refine only_require_bind ?_
    refine only_require_bind ?_
    refine only_require_bind ?_
    refine (only_readChunkForEntry hok _ _ _ _).bind fun body => ?_
    refine only_ask_bind (hok _ rfl rfl) fun renewDue => ?_
    have hdue : Reports ok (if renewDue then progress else none) := by
      intro handle hhandle
      cases renewDue with
      | true => exact hp handle hhandle
      | false => cases hhandle
    refine (only_report hdue _ _ _).bind fun _ => ?_
    exact only_rebuildEntries codec scope mediaSize hp pageNo entries _ _

theorem only_rebuildPages (codec : Codec) (scope manifestId : Text) (mediaSize : ℕ) (hp : Reports ok progress) :
    ∀ pages pageNo offset written,
    Only ok (rebuildPages codec scope manifestId mediaSize progress pages pageNo offset written)
  | 0, _, _, _ => trivial
  | pages + 1, pageNo, offset, written => by
    refine only_ask_bind (hok _ rfl rfl) fun _ => ?_
    refine only_ask_bind (hok _ rfl rfl) fun entries => ?_
    refine (only_rebuildEntries hok codec scope mediaSize hp pageNo _ _ _).bind fun rebuilt => ?_
    refine (only_report hp _ _ _).bind fun _ => ?_
    exact only_rebuildPages codec scope manifestId mediaSize hp pages (pageNo + 1) _ _

theorem only_publishVerifiedLayout (codec : Codec) (scope manifestId : Text) (manifest : MediaManifest)
    (written : Bytes) : Only ok (publishVerifiedLayout codec scope manifestId manifest written) := by
  have hfallback : Only ok (putFallbackIdempotent manifest written) := by
    have hobject : Only ok (putFallbackObject manifest.mediaOid written) := by
      refine only_ask_bind (hok _ rfl rfl) fun found => ?_
      split
      · trivial
      · exact only_ask_bind (hok _ rfl rfl) fun _ => trivial
    refine hobject.bind fun _ => ?_
    refine only_ask_bind (hok _ rfl rfl) fun _ => ?_
    exact (only_ask (hok _ rfl rfl)).bind fun _ => Only.require _ _
  have hidentity : ∀ response, Only ok (putImmutableIdentity codec scope manifestId response) := by
    intro response
    refine only_ask_bind (hok _ rfl rfl) fun found => ?_
    split
    · refine (only_readBytes hok _ _ _).bind fun parsed => ?_
      exact only_require_bind trivial
    · refine only_ask_bind (hok _ rfl rfl) fun _ => ?_
      refine (only_readBytes hok _ _ _).bind fun parsed => ?_
      exact only_require_bind trivial
  have hmedia : ∀ identity, Only ok (putByMedia codec scope identity) := by
    intro identity
    refine (only_scopeKey _ _).bind fun _ => ?_
    refine only_require_bind ?_
    exact only_ask_bind (hok _ rfl rfl) fun _ => trivial
  refine hfallback.bind fun _ => ?_
  refine only_require_bind ?_
  refine (only_scopeKey _ _).bind fun _ => ?_
  refine (hidentity _).bind fun stored => ?_
  refine only_ask_bind (hok _ rfl rfl) fun _ => ?_
  exact (hmedia _).bind fun _ => trivial

/-- The body does nothing but routine calls and reports to its handle. -/
theorem only_runFinalizeBody (codec : Codec) (scope manifestId : Text) (now : ℕ) (hp : Reports ok progress) :
    Only ok (runFinalizeBody codec scope manifestId now progress) := by
  refine (only_requireSealedSession hok _ _).bind fun session => ?_
  refine (only_requireActivePending hok _ _ _ _).bind fun pending => ?_
  refine (only_check _).bind fun expectedId => ?_
  refine only_require_bind ?_
  refine only_require_bind ?_
  refine only_ask_bind (hok _ rfl rfl) fun _ => ?_
  have hverify : Only ok
      (rebuildAndVerify codec scope manifestId pending.manifest session.pageCount progress) := by
    refine (only_rebuildPages hok codec scope manifestId _ hp _ _ _ _).bind fun rebuilt => ?_
    refine only_ask_bind (hok _ rfl rfl) fun _ => ?_
    refine only_require_bind ?_
    exact only_require_bind trivial
  refine hverify.bind fun written => ?_
  refine only_ask_bind (hok _ rfl rfl) fun _ => ?_
  refine (only_report hp _ _ _).bind fun _ => ?_
  refine only_ask_bind (hok _ rfl rfl) fun _ => ?_
  refine (only_report hp _ _ _).bind fun _ => ?_
  exact only_publishVerifiedLayout hok _ _ _ _ _

theorem only_enqueueFinalize (scope manifestId : Text) :
    Only ok (enqueueFinalize scope manifestId) := by
  have hrequeue : ∀ task, Only ok (requeueIfFailed task) := by
    intro task
    unfold requeueIfFailed
    split
    · exact only_require_bind (only_ask (hok _ rfl rfl))
    · trivial
  have hqueue : ∀ task, Only ok (checkQueue task) := by
    intro task
    unfold checkQueue
    split
    · refine only_ask_bind (hok _ rfl rfl) fun active => ?_
      exact only_require_bind trivial
    · trivial
  refine (only_requireSealedSession hok _ _).bind fun _ => ?_
  refine only_ask_bind (hok _ rfl rfl) fun task => ?_
  split
  · trivial
  · exact (hrequeue task).bind fun _ => hqueue _

theorem only_loadImmutableById (codec : Codec) (scope manifestId : Text) :
    Only ok (loadImmutableById codec scope manifestId) := by
  refine only_ask_bind (hok _ rfl rfl) fun session => ?_
  refine only_require_bind ?_
  refine (only_scopeKey _ _).bind fun _ => ?_
  refine (only_readBytes hok _ _ _).bind fun parsed => ?_
  refine only_require_bind ?_
  refine (only_check _).bind fun expected => ?_
  exact only_require_bind trivial

theorem only_loadByMedia (codec : Codec) (scope oid : Text) : Only ok (loadByMedia codec scope oid) := by
  refine (only_scopeKey _ _).bind fun _ => ?_
  refine (only_readBytes hok _ _ _).bind fun parsed => ?_
  refine only_ask_bind (hok _ rfl rfl) fun session => ?_
  refine only_require_bind ?_
  exact only_require_bind trivial

end Programs

end Media
end Mega
