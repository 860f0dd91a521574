/-
# Published media are what their manifests say

A manifest that can be loaded was verified from its stored chunks. Its id is
checked when it is prepared, its pages are compared with the chunks it lists when
it is sealed, and finalize reads the chunks through the rows of these pages. What
ties these stages together, whatever fails or runs in between, is that nothing of
it changes: a chunk object has the hash it is stored under, the rows of a page
stay once there are any, and a session only goes forward. `Sound` says what holds
of the stores at all times and `Grows` how any call changes them.

Key definitions: `Complete`, `Sound`, `Grows`, `Guard`, `Learned`.
Key theorems: `exec_sound`, `keeps_runFinalizeBody`, `published_media_intact`.
-/
import Mega.Media.Calls
import Mega.Media.PageSplit

namespace Mega
namespace Media

open List View

variable {pageNo : ℤ} {m : MediaManifest} {session : SessionRow} {taskId : Text} {input : Input} {op : Op}
  {task : TaskRow}

/-! ### What holds of the stores -/

def World.rows (w : World) (scope manifestId : Text) (pageNo : ℤ) : List EntryRow :=
  listEntriesForPage w.paging scope manifestId pageNo

/-- The rows of a page are those of the entries. -/
def Indexed (w : World) (scope manifestId : Text) (pageNo : ℤ) (entries : List ChunkEntry) : Prop :=
  entries ≠ [] ∧ (w.rows scope manifestId pageNo).map EntryRow.spot = entries.map ChunkEntry.spot

/-- The chunks are stored with these bodies. -/
def Stored (w : World) (scope : Text) (hashes : List Text) (bodies : List Bytes) : Prop :=
  List.Forall₂ (fun hash body => w.objects (.chunk scope hash) = some body) hashes bodies

/-- The chunks that are uploaded in a history. -/
def uploaded (events : List Event) : List Bytes :=
  events.filterMap fun
    | .start (.uploadChunk _ _ _ body _) => some body
    | _ => none

/-- The identities of the manifests that are prepared in a history. -/
def prepared (events : List Event) : List Identity :=
  events.filterMap fun
    | .start (.prepare _ manifest _) => some manifest.identity
    | _ => none

variable (codec : Codec) (events : List Event)

/-- In the history no two chunks have one hash, and no two manifests one id. -/
class CollisionFree : Prop where
  chunk : ∀ a ∈ uploaded events, ∀ b ∈ uploaded events, codec.sha256 a = codec.sha256 b → a = b
  identity : ∀ a ∈ prepared events, ∀ b ∈ prepared events,
    codec.sha256 (codec.identityBytes a) = codec.sha256 (codec.identityBytes b) → a = b

/-- The stored chunks of the manifest, in order, make up the file it is for. -/
def Complete (w : World) (scope : Text) (m : MediaManifest) : Prop :=
  ∃ bodies, Stored w scope (m.chunks.map ChunkEntry.chunkHash) bodies ∧
    bodies.flatten.length = m.mediaSize ∧ codec.sha256 bodies.flatten = m.mediaOid

/-- The manifest was prepared under this id. -/
def PreparedAs (manifestId : Text) (m : MediaManifest) : Prop :=
  m.id codec = .ok manifestId ∧ m.identity ∈ prepared events

/-- The pages of a manifest with this id. -/
def PagesOf (manifestId : Text) (pages : List (List ChunkEntry)) : Prop :=
  ∃ m : MediaManifest, PreparedAs codec events manifestId m ∧ splitPages codec m.chunks = .ok pages ∧
    pages.length < 2 ^ 31

/-- Every page has its rows. -/
def AllIndexed (w : World) (scope manifestId : Text) (pages : List (List ChunkEntry)) : Prop :=
  ∀ (i : ℕ) entries, pages[i]? = some entries → Indexed w scope manifestId i entries

/-- What holds of an object. -/
def GoodObject (w : World) : (key : Key) → key.Value → Prop
  | .pending _ manifestId, session => PreparedAs codec events manifestId session.manifest
  | .page scope manifestId n, page => Indexed w scope manifestId (asI32 n) page.entries
  | .chunk _ hash, body => codec.sha256 body = hash ∧ body ∈ uploaded events
  | .finalized scope manifestId, r =>
    r.manifestId = manifestId ∧ r.manifest.id codec = .ok manifestId ∧ Complete codec w scope r.manifest
  | .manifest scope oid, r =>
    r.manifest.mediaOid = oid ∧ r.manifest.id codec = .ok r.manifestId ∧ Complete codec w scope r.manifest
  | .lfs _, _ => True

/-- What holds of a session row. -/
def GoodSession (w : World) (scope manifestId : Text) (session : SessionRow) : Prop :=
  ∃ pages, PagesOf codec events manifestId pages ∧ session.pageCount = pages.length ∧
    (session.state ≠ .pending → AllIndexed w scope manifestId pages)

structure Sound (w : World) : Prop where
  object : ∀ key value, w.objects key = some value → GoodObject codec events w key value
  session : ∀ scope manifestId session, w.paging.sessions (scope, manifestId) = some session →
    GoodSession codec events w scope manifestId session
  tasks : (w.paging.tasks.map TaskRow.taskId).Nodup

/-- How the stores change: chunks, rows of pages, sessions and tasks stay what they are. -/
structure Grows (w t : World) : Prop where
  chunk : ∀ scope hash body, w.objects (.chunk scope hash) = some body → t.objects (.chunk scope hash) = some body
  rows : ∀ scope manifestId pageNo, w.rows scope manifestId pageNo ≠ [] →
    t.rows scope manifestId pageNo = w.rows scope manifestId pageNo
  session : ∀ key before, w.paging.sessions key = some before → ∃ after, t.paging.sessions key = some after ∧
    after.pageCount = before.pageCount ∧ (before.state ≠ .pending → after.state ≠ .pending) ∧
      (before.state = .finalized → after.state = .finalized)
  task : ∀ taskId before, w.task? taskId = some before →
    ∃ after, t.task? taskId = some after ∧ after.ident = before.ident

theorem Grows.refl (w : World) : Grows w w :=
  ⟨fun _ _ _ h => h, fun _ _ _ _ => rfl, fun _ before h => ⟨before, h, rfl, fun h => h, fun h => h⟩,
    fun _ before h => ⟨before, h, rfl⟩⟩

theorem Grows.trans {a b c : World} (hab : Grows a b) (hbc : Grows b c) : Grows a c where
  chunk scope hash body h := hbc.chunk scope hash body (hab.chunk scope hash body h)
  rows scope manifestId pageNo h := by
    have hb := hab.rows scope manifestId pageNo h
    exact (hbc.rows scope manifestId pageNo (hb ▸ h)).trans hb
  session key before h := by
    obtain ⟨middle, hmiddle, hcount, hpending, hfinal⟩ := hab.session key before h
    obtain ⟨after, hafter, hcount', hpending', hfinal'⟩ := hbc.session key middle hmiddle
    exact ⟨after, hafter, hcount'.trans hcount, fun h => hpending' (hpending h), fun h => hfinal' (hfinal h)⟩
  task taskId before h := by
    obtain ⟨middle, hmiddle, hident⟩ := hab.task taskId before h
    obtain ⟨after, hafter, hident'⟩ := hbc.task taskId middle hmiddle
    exact ⟨after, hafter, hident'.trans hident⟩

section Later

variable {codec events} {w t : World} {scope manifestId : Text}

theorem Indexed.later {entries : List ChunkEntry} (h : Indexed w scope manifestId pageNo entries)
    (hgrows : Grows w t) : Indexed t scope manifestId pageNo entries := by
  refine ⟨h.1, ?_⟩
  have hne : w.rows scope manifestId pageNo ≠ [] := by
    intro hnil
    have hspots := h.2
    rw [hnil, map_nil] at hspots
    exact h.1 (map_eq_nil_iff.mp hspots.symm)
  rw [hgrows.rows scope manifestId pageNo hne]
  exact h.2

theorem AllIndexed.later {pages : List (List ChunkEntry)} (h : AllIndexed w scope manifestId pages)
    (hgrows : Grows w t) : AllIndexed t scope manifestId pages :=
  fun i entries hentries => (h i entries hentries).later hgrows

theorem Stored.later {hashes : List Text} {bodies : List Bytes} (h : Stored w scope hashes bodies)
    (hgrows : Grows w t) : Stored t scope hashes bodies :=
  h.imp fun hash body => hgrows.chunk scope hash body

theorem Complete.later (h : Complete codec w scope m) (hgrows : Grows w t) : Complete codec t scope m := by
  obtain ⟨bodies, hstored, hrest⟩ := h
  exact ⟨bodies, hstored.later hgrows, hrest⟩

theorem GoodObject.later (hgrows : Grows w t) :
    ∀ {key : Key} {value : key.Value}, GoodObject codec events w key value → GoodObject codec events t key value
  | .pending _ _, _, h => h
  | .page _ _ _, _, h => Indexed.later h hgrows
  | .chunk _ _, _, h => h
  | .finalized _ _, _, h => ⟨h.1, h.2.1, h.2.2.later hgrows⟩
  | .manifest _ _, _, h => ⟨h.1, h.2.1, h.2.2.later hgrows⟩
  | .lfs _, _, _ => trivial

theorem GoodSession.later (h : GoodSession codec events w scope manifestId session) (hgrows : Grows w t) :
    GoodSession codec events t scope manifestId session := by
  obtain ⟨pages, hpages, hcount, hindexed⟩ := h
  exact ⟨pages, hpages, hcount, fun hstate => (hindexed hstate).later hgrows⟩

/-- The stores stay sound if what is new in them is good. -/
theorem Sound.next (h : Sound codec events w) (hgrows : Grows w t)
    (hobject : ∀ key value, t.objects key = some value →
      w.objects key = some value ∨ GoodObject codec events t key value)
    (hsession : ∀ scope manifestId session, t.paging.sessions (scope, manifestId) = some session →
      w.paging.sessions (scope, manifestId) = some session ∨ GoodSession codec events t scope manifestId session)
    (htasks : (t.paging.tasks.map TaskRow.taskId).Nodup) : Sound codec events t where
  object key value hvalue := by
    obtain hold | hnew := hobject key value hvalue
    · exact (h.object key value hold).later hgrows
    · exact hnew
  session scope manifestId session hrow := by
    obtain hold | hnew := hsession scope manifestId session hrow
    · exact (h.session scope manifestId session hold).later hgrows
    · exact hnew
  tasks := htasks

/-- A session that is sealed stays so. -/
theorem Grows.sealed (hgrows : Grows w t) (h : w.paging.sessions (scope, manifestId) = some session)
    (hstate : session.state ≠ .pending) :
    ∃ after, t.paging.sessions (scope, manifestId) = some after ∧ after.pageCount = session.pageCount ∧
      after.state ≠ .pending := by
  obtain ⟨after, hafter, hcount, hpending, -⟩ := hgrows.session _ _ h
  exact ⟨after, hafter, hcount, hpending hstate⟩

theorem Grows.finalized (hgrows : Grows w t) (h : w.paging.sessions (scope, manifestId) = some session)
    (hstate : session.state = .finalized) :
    ∃ after, t.paging.sessions (scope, manifestId) = some after ∧ after.state = .finalized := by
  obtain ⟨after, hafter, -, -, hfinal⟩ := hgrows.session _ _ h
  exact ⟨after, hafter, hfinal hstate⟩

end Later

/-! ### What a call needs and what its answer tells -/

/-- What must hold for a call to keep the stores sound. -/
def Guard (w : World) : Op → Prop
  | .upsertPendingSession _ manifestId _ _ _ _ pageCount =>
    ∃ pages, PagesOf codec events manifestId pages ∧ pageCount = pages.length
  | .sealSession scope manifestId => ∃ pages, PagesOf codec events manifestId pages ∧ AllIndexed w scope manifestId pages
  | .completeTask taskId _ => ∀ task, w.task? taskId = some task →
    ∃ session, w.paging.sessions (task.scope, task.manifestId) = some session ∧ session.state = .finalized
  | .putObject key value => GoodObject codec events w key value
  | _ => True

/-- What holds when a call has answered with a value. -/
def Learned (w : World) : (op : Op) → op.Val → Prop
  | .getSession scope manifestId, session => w.paging.sessions (scope, manifestId) = some session
  | .putPageEntries scope manifestId pageNo rows, _ => ∀ entries, rows = indexRows entries → entries ≠ [] →
    Indexed w scope manifestId pageNo entries
  | .listEntriesForPage scope manifestId pageNo, rows => rows = w.rows scope manifestId pageNo
  | .markSessionFinalized scope manifestId, _ =>
    ∃ session, w.paging.sessions (scope, manifestId) = some session ∧ session.state = .finalized
  | .ensureTask scope manifestId, task => ∃ row, w.task? task.taskId = some row ∧
    row.scope = scope ∧ row.manifestId = manifestId
  | .requeueFailedTask taskId, task => task.taskId = taskId
  | .readObject key, value => w.objects key = some value
  | _, _ => True

/-- Where a call may lead: the stores are sound still and have changed as `Grows` says. -/
structure Next (w t : World) : Prop where
  sound : Sound codec events t
  grows : Grows w t

section Calls

variable {codec events} {w : World}

theorem task_kept_perform (input : Input) (op : Op) {before : TaskRow} (h : w.task? taskId = some before) :
    ∃ after, (perform input op w).1.task? taskId = some after ∧ after.ident = before.ident := by
  obtain hsame | ⟨change, new, hop, hnew, -, hafter⟩ := task?_perform input op h
  · exact ⟨before, hsame, rfl⟩
  · exact ⟨new, hafter, ident_of_taskChange _ op hop hnew⟩

/-- A call that changes no chunk, no entry and no session. -/
theorem grows_of_same
    (hobjects : ∀ scope hash, (perform input op w).1.objects (.chunk scope hash) = w.objects (.chunk scope hash))
    (hentries : (perform input op w).1.paging.entries = w.paging.entries)
    (hsessions : (perform input op w).1.paging.sessions = w.paging.sessions) :
    Grows w (perform input op w).1 where
  chunk scope hash body h := (hobjects scope hash).trans h
  rows scope manifestId pageNo _ := by rw [World.rows, World.rows, listEntriesForPage, hentries, ← listEntriesForPage]
  session key before h := ⟨before, by rw [hsessions, h], rfl, fun h => h, fun h => h⟩
  task _ _ h := task_kept_perform input op h

/-- Such a call that changes no object keeps the stores sound. -/
theorem sound_of_same (h : Sound codec events w) (hobjects : (perform input op w).1.objects = w.objects)
    (hentries : (perform input op w).1.paging.entries = w.paging.entries)
    (hsessions : (perform input op w).1.paging.sessions = w.paging.sessions) :
    Next codec events w (perform input op w).1 := by
  have hgrows : Grows w (perform input op w).1 :=
    grows_of_same (fun _ _ => by rw [hobjects]) hentries hsessions
  refine ⟨h.next hgrows ?_ ?_ (nodup_perform input op h.tasks), hgrows⟩
  · intro key value hvalue
    rw [hobjects] at hvalue
    exact .inl hvalue
  · intro scope manifestId session hrow
    rw [hsessions] at hrow
    exact .inl hrow

theorem sound_of_unchanged (h : Sound codec events w) (hworld : (perform input op w).1 = w) :
    Next codec events w (perform input op w).1 := by
  rw [hworld]
  exact ⟨h, Grows.refl w⟩

/-- A call that changes the tables only, where the rows of pages stay and sessions go on. -/
theorem sound_of_paging (h : Sound codec events w) {db : Paging}
    (hworld : (perform input op w).1 = { w with paging := db })
    (hrows : ∀ scope manifestId pageNo, w.rows scope manifestId pageNo ≠ [] →
      listEntriesForPage db scope manifestId pageNo = w.rows scope manifestId pageNo)
    (hsessions : ∀ key before, w.paging.sessions key = some before → ∃ after, db.sessions key = some after ∧
      after.pageCount = before.pageCount ∧ (before.state ≠ .pending → after.state ≠ .pending) ∧
        (before.state = .finalized → after.state = .finalized))
    (hgood : ∀ scope manifestId session, db.sessions (scope, manifestId) = some session →
      w.paging.sessions (scope, manifestId) = some session ∨ GoodSession codec events w scope manifestId session) :
    Next codec events w (perform input op w).1 := by
  have htasks := nodup_perform input op h.tasks
  have hgrows : Grows w (perform input op w).1 := by
    refine ⟨?_, ?_, ?_, fun _ _ htask => task_kept_perform input op htask⟩ <;> rw [hworld]
    · exact fun _ _ _ hbody => hbody
    · exact hrows
    · exact hsessions
  refine ⟨h.next hgrows ?_ ?_ htasks, hgrows⟩
  · rw [hworld]
    exact fun _ _ hvalue => .inl hvalue
  · intro scope manifestId session hrow
    refine (hgood scope manifestId session ?_).imp_right fun hnew => hnew.later hgrows
    rwa [hworld] at hrow

/-- The upload of the entries of a page. -/
theorem sound_of_entries (h : Sound codec events w) {scope manifestId : Text} {rows : List ChunkIndexRow} {db : Paging}
    (hput : putPageEntries w.paging scope manifestId pageNo rows = .ok db)
    (hworld : (perform input op w).1 = { w with paging := db }) : Next codec events w (perform input op w).1 := by
  have hsessions : db.sessions = w.paging.sessions := by
    obtain ⟨-, -, -, rfl⟩ | ⟨-, rfl⟩ := putPageEntries_cases hput
    · rfl
    · rfl
  refine sound_of_paging h hworld (fun _ _ _ hrows => rows_kept_putPageEntries hput hrows) ?_ ?_ <;> rw [hsessions]
  · exact fun _ before hrow => ⟨before, hrow, rfl, fun h => h, fun h => h⟩
  · exact fun _ _ _ hrow => .inl hrow

/-- A call that changes the tasks only. -/
theorem sound_of_tasks (h : Sound codec events w) {tasks : List TaskRow}
    (hworld : (perform input op w).1 = { w with paging := { w.paging with tasks := tasks } }) :
    Next codec events w (perform input op w).1 :=
  sound_of_same h (by rw [hworld]) (by rw [hworld]) (by rw [hworld])

/-- A call that updates a task row. -/
theorem sound_of_onTask (h : Sound codec events w) {change : TaskRow → Except PagingError TaskRow}
    (hworld : (perform input op w).1 = (w.commit (onTask w.paging taskId change)).1) :
    Next codec events w (perform input op w).1 := by
  obtain ⟨e, he⟩ | ⟨task, new, -, -, hdone⟩ := onTask_cases w.paging taskId change
  · rw [he] at hworld
    exact sound_of_unchanged h hworld
  · rw [hdone] at hworld
    exact sound_of_tasks h hworld

/-- The completion of a task whose session is finalized changes the tasks only. -/
theorem completeTask_of_finalized {epoch : ℕ} {db : Paging} (hguard : Guard codec events w (.completeTask taskId epoch))
    (hresult : completeTask w.paging taskId epoch = .ok (db, task)) :
    ∃ tasks, db = { w.paging with tasks := tasks } := by
  unfold completeTask at hresult
  obtain ⟨e, he⟩ | ⟨before, new, hbefore, hnew, hdone⟩ := onTask_cases w.paging taskId (completeRow epoch)
  · rw [he] at hresult
    cases hresult
  · rw [hdone] at hresult
    cases hresult
    obtain ⟨session, hsession, hstate⟩ := hguard before hbefore
    have hident : task.ident = before.ident := ident_of_taskChange 0 (.completeTask taskId epoch) rfl hnew
    have hscope : task.scope = before.scope := congrArg (fun i => i.2.1) hident
    have hmanifest : task.manifestId = before.manifestId := congrArg (fun i => i.2.2) hident
    have hsame : { session with state := .finalized } = session := by rw [← hstate]
    refine ⟨Table.updateKey TaskRow.taskId taskId (fun _ => task) w.paging.tasks, ?_⟩
    simp only [finalizeSession, hscope, hmanifest, hsession, setSessionState, hsame]
    rw [← hsession, Function.update_eq_self]

/-- A good object may be written over what is there. -/
theorem sound_of_put [CollisionFree codec events] (h : Sound codec events w) {key : Key} {value : key.Value}
    (hgood : GoodObject codec events w key value) :
    Next codec events w (perform input (.putObject key value) w).1 := by
  have hother : ∀ other, other ≠ key →
      (perform input (.putObject key value) w).1.objects other = w.objects other := fun other hne =>
    Function.update_of_ne hne _ _
  have hsame : (perform input (.putObject key value) w).1.objects key = some value := Function.update_self _ _ _
  have hgrows : Grows w (perform input (.putObject key value) w).1 := by
    refine ⟨?_, fun _ _ _ _ => rfl, fun _ before h => ⟨before, h, rfl, fun h => h, fun h => h⟩,
      fun _ before h => ⟨before, h, rfl⟩⟩
    intro scope hash body hbody
    by_cases hkey : Key.chunk scope hash = key
    · subst hkey
      obtain ⟨hstored, hold⟩ : codec.sha256 body = hash ∧ _ := h.object _ _ hbody
      obtain ⟨hnew, hvalue⟩ : codec.sha256 value = hash ∧ _ := hgood
      rw [hsame, CollisionFree.chunk _ hvalue _ hold (hnew.trans hstored.symm)]
    · rw [hother _ hkey]
      exact hbody
  refine ⟨h.next hgrows ?_ (fun _ _ _ hrow => .inl hrow) h.tasks, hgrows⟩
  intro other stored hstored
  by_cases hkey : other = key
  · subst hkey
    cases hsame.symm.trans hstored
    exact .inr (hgood.later hgrows)
  · rw [hother _ hkey] at hstored
    exact .inl hstored

/-- A call that writes a session row which goes on from the one before. -/
theorem sound_of_session (h : Sound codec events w) {scope manifestId : Text} {new : SessionRow}
    (hworld : (perform input op w).1 = { w with paging := setSessionState w.paging scope manifestId new })
    (hbefore : ∀ before, w.paging.sessions (scope, manifestId) = some before →
      new.pageCount = before.pageCount ∧ (before.state ≠ .pending → new.state ≠ .pending) ∧
        (before.state = .finalized → new.state = .finalized)) (hgood : GoodSession codec events w scope manifestId new) :
    Next codec events w (perform input op w).1 := by
  have hsessions : ∀ key, (setSessionState w.paging scope manifestId new).sessions key =
      if key = (scope, manifestId) then some new else w.paging.sessions key :=
    fun key => Function.update_apply _ _ _ _
  refine sound_of_paging h hworld (fun _ _ _ _ => rfl) ?_ ?_
  · intro key before hrow
    rw [hsessions]
    split_ifs with hkey
    · exact ⟨new, rfl, hbefore before (hkey ▸ hrow)⟩
    · exact ⟨before, hrow, rfl, fun h => h, fun h => h⟩
  · intro scope' manifestId' session hrow
    rw [hsessions] at hrow
    split_ifs at hrow with hkey
    · cases hkey
      cases hrow
      exact .inr hgood
    · exact .inl hrow

end Calls

section Identity

variable {codec events} [CollisionFree codec events]

/-- An id belongs to one identity. -/
theorem PreparedAs.identity_eq {m' : MediaManifest} {manifestId : Text} (h : PreparedAs codec events manifestId m)
    (h' : PreparedAs codec events manifestId m') : m.identity = m'.identity := by
  have hsame := (id_eq_ok h.1).2.trans (id_eq_ok h'.1).2.symm
  exact CollisionFree.identity _ h.2 _ h'.2 hsame

theorem pagesOf_unique {manifestId : Text} {pages pages' : List (List ChunkEntry)}
    (h : PagesOf codec events manifestId pages) (h' : PagesOf codec events manifestId pages') : pages = pages' := by
  obtain ⟨m, hid, hsplit, -⟩ := h
  obtain ⟨m', hid', hsplit', -⟩ := h'
  have hchunks : m.chunks = m'.chunks := congrArg Identity.chunks (hid.identity_eq hid')
  rw [hchunks, hsplit'] at hsplit
  exact (Except.ok.inj hsplit).symm

/-- **A call whose guard holds keeps the stores sound** and changes them as `Grows` says. -/
theorem perform_sound {w : World} (h : Sound codec events w) (input : Input) (op : Op) (hguard : Guard codec events w op) :
    Next codec events w (perform input op w).1 := by
  cases op with
  | getSession scope manifestId =>
    have hworld : (perform input (.getSession scope manifestId) w).1 = w := by
      rw [perform]
      cases getSession w.paging scope manifestId <;> rfl
    exact sound_of_unchanged h hworld
  | upsertPendingSession scope manifestId algorithm oid size chunkCount pageCount =>
    obtain hworld | ⟨db, session, hresult, hworld⟩ := commit_cases w
      (upsertPendingSession w.paging scope manifestId algorithm oid size chunkCount pageCount)
    · exact sound_of_unchanged h hworld
    · obtain ⟨-, rfl⟩ | ⟨hnone, hrow, rfl⟩ := upsertPendingSession_cases hresult
      · exact sound_of_unchanged h hworld
      · obtain ⟨pages, hpages, hcount⟩ := hguard
        refine sound_of_session h hworld ?_ ⟨pages, hpages, ?_, ?_⟩
        · intro before hbefore
          rw [hnone] at hbefore
          cases hbefore
        · rw [hrow]
          exact hcount
        · intro hstate
          rw [hrow] at hstate
          exact absurd rfl hstate
  | putPageEntries scope manifestId pageNo rows =>
    obtain hworld | ⟨db, result, hresult, hworld⟩ := commit_cases w
      ((putPageEntries w.paging scope manifestId pageNo rows).map fun db => (db, ()))
    · exact sound_of_unchanged h hworld
    · cases hput : putPageEntries w.paging scope manifestId pageNo rows with
      | error e => simp [hput, Except.map] at hresult
      | ok db' =>
        simp only [hput, Except.map, Except.ok.injEq, Prod.mk.injEq] at hresult
        rw [← hresult.1] at hworld
        exact sound_of_entries h hput hworld
  | sealSession scope manifestId =>
    obtain hworld | ⟨db, session, hresult, hworld⟩ := commit_cases w (sealSession w.paging scope manifestId)
    · exact sound_of_unchanged h hworld
    · obtain ⟨before, hbefore, ⟨-, -, rfl⟩ | ⟨hpending, -, hstate, hcount, rfl⟩⟩ := sealSession_cases hresult
      · exact sound_of_unchanged h hworld
      · obtain ⟨pages, hpages, hindexed⟩ := hguard
        obtain ⟨pages', hpages', hcount', -⟩ := h.session scope manifestId before hbefore
        have hsame : pages = pages' := pagesOf_unique hpages hpages'
        refine sound_of_session h hworld ?_ ⟨pages, hpages, ?_, fun _ => hindexed⟩
        · intro before' hbefore'
          cases hbefore.symm.trans hbefore'
          refine ⟨hcount, fun _ => ?_, fun hfinal => ?_⟩
          · rw [hstate]
            simp
          · rw [hpending] at hfinal
            cases hfinal
        · rw [hcount, hcount', hsame]
  | markSessionFinalized scope manifestId =>
    obtain hworld | ⟨db, session, hresult, hworld⟩ := commit_cases w (markSessionFinalized w.paging scope manifestId)
    · exact sound_of_unchanged h hworld
    · obtain ⟨before, hbefore, hstate, hsession, rfl⟩ := markSessionFinalized_cases hresult
      obtain ⟨pages, hpages, hcount, hindexed⟩ := h.session scope manifestId before hbefore
      have hsealed : before.state ≠ .pending := by
        obtain hs | hs := hstate <;> simp [hs]
      refine sound_of_session h hworld ?_ ⟨pages, hpages, ?_, fun _ => hindexed hsealed⟩
      · intro before' hbefore'
        cases hbefore.symm.trans hbefore'
        rw [hsession]
        exact ⟨rfl, fun _ => by simp, fun _ => rfl⟩
      · rw [hsession]
        exact hcount
  | completeTask taskId epoch =>
    obtain hworld | ⟨db, task, hresult, hworld⟩ := commit_cases w (completeTask w.paging taskId epoch)
    · exact sound_of_unchanged h hworld
    · obtain ⟨tasks, rfl⟩ := completeTask_of_finalized hguard hresult
      exact sound_of_tasks h hworld
  | putObject key value => exact sound_of_put h hguard
  | ensureTask scope manifestId =>
    obtain hworld | ⟨db, task, hresult, hworld⟩ := commit_cases w (ensureTask w.paging scope manifestId input.uuid)
    · exact sound_of_unchanged h hworld
    · obtain ⟨-, rfl⟩ | ⟨-, -, -, -, rfl⟩ := ensureTask_cases hresult
      · exact sound_of_unchanged h hworld
      · exact sound_of_tasks h hworld
  | claimOrRenewLease taskId owner expectedEpoch => exact sound_of_onTask h rfl
  | updateTaskProgress taskId epoch bytes pages stage => exact sound_of_onTask h rfl
  | failTask taskId epoch errorCode retryable => exact sound_of_onTask h rfl
  | cancelTask taskId => exact sound_of_onTask h rfl
  | requeueFailedTask taskId => exact sound_of_onTask h rfl
  | ensureLfsObject oid size =>
    refine sound_of_same h ?_ ?_ ?_ <;>
    · rw [perform, World.ensureLfs]
      split <;> rfl
  | membershipInsert scope manifestId record => exact sound_of_same h rfl rfl rfl
  | _ => exact sound_of_unchanged h rfl

end Identity

section Answers

variable {codec events} {w : World}

theorem commit_eq_ok {α : Type} {w : World} {result : Except PagingError (Paging × α)} {a : α}
    (h : (w.commit result).2 = .ok a) : ∃ db, result = .ok (db, a) ∧ (w.commit result).1 = { w with paging := db } := by
  cases result with
  | error e => cases h
  | ok pair =>
    cases h
    exact ⟨pair.1, rfl, rfl⟩

theorem learned_getSession {scope manifestId : Text}
    (hanswer : (w.commit ((getSession w.paging scope manifestId).map fun session => (w.paging, session))).2 =
      .ok session) :
    (w.commit ((getSession w.paging scope manifestId).map fun session => (w.paging, session))).1.paging.sessions
      (scope, manifestId) = some session := by
  obtain ⟨db, hresult, hworld⟩ := commit_eq_ok hanswer
  rw [hworld]
  unfold getSession at hresult
  cases hfound : w.paging.sessions (scope, manifestId) with
  | none =>
    rw [hfound] at hresult
    cases hresult
  | some found =>
    rw [hfound] at hresult
    cases hresult
    exact hfound

theorem learned_putPageEntries {scope manifestId : Text} {entries : List ChunkEntry} {answer : Unit}
    (hne : entries ≠ [])
    (hanswer : (w.commit ((putPageEntries w.paging scope manifestId pageNo (indexRows entries)).map
      fun db => (db, ()))).2 = .ok answer) :
    Indexed (w.commit ((putPageEntries w.paging scope manifestId pageNo (indexRows entries)).map
      fun db => (db, ()))).1 scope manifestId pageNo entries := by
  obtain ⟨db, hresult, hworld⟩ := commit_eq_ok hanswer
  rw [hworld]
  cases hput : putPageEntries w.paging scope manifestId pageNo (indexRows entries) with
  | error e =>
    rw [hput] at hresult
    cases hresult
  | ok db' =>
    rw [hput] at hresult
    cases hresult
    exact ⟨hne, rows_putPageEntries hput⟩

theorem learned_ensureTask (h : Sound codec events w) {scope manifestId uuid : Text}
    (hanswer : (w.commit (ensureTask w.paging scope manifestId uuid)).2 = .ok task) :
    ∃ row, (w.commit (ensureTask w.paging scope manifestId uuid)).1.task? task.taskId = some row ∧
      row.scope = scope ∧ row.manifestId = manifestId := by
  obtain ⟨db, hresult, hworld⟩ := commit_eq_ok hanswer
  rw [hworld]
  obtain ⟨hfound, rfl⟩ | ⟨hfresh, hscope, hmanifest, -, rfl⟩ := ensureTask_cases hresult
  · have hsession := List.find?_some hfound
    simp only [decide_eq_true_eq] at hsession
    refine ⟨task, ?_, hsession⟩
    exact Table.find?_key_of_nodup h.tasks (mem_of_find?_eq_some hfound)
  · refine ⟨task, ?_, hscope, hmanifest⟩
    have hnone : w.paging.tasks.find? (·.taskId = task.taskId) = none := by
      refine List.find?_eq_none.mpr fun row hrow => ?_
      simpa using hfresh row hrow
    rw [World.task?, List.find?_append, hnone]
    simp

theorem learned_onTask (now : ℕ) (op : Op) {change : TaskRow → Except PagingError TaskRow}
    (hop : op.taskChange now = some (taskId, change))
    (hanswer : (w.commit (onTask w.paging taskId change)).2 = .ok task) : task.taskId = taskId := by
  obtain ⟨db, hresult, -⟩ := commit_eq_ok hanswer
  obtain ⟨e, he⟩ | ⟨before, new, hbefore, hnew, hdone⟩ := onTask_cases w.paging taskId change
  · rw [he] at hresult
    cases hresult
  · rw [hdone] at hresult
    cases hresult
    have hid : before.taskId = taskId := by simpa using List.find?_some hbefore
    exact (congrArg Prod.fst (ident_of_taskChange now op hop hnew)).trans hid

/-- An answer tells what `Learned` says. -/
theorem perform_learned (h : Sound codec events w) (input : Input) (op : Op) {value : op.Val}
    (hanswer : (perform input op w).2 = .ok value) : Learned (perform input op w).1 op value := by
  cases op with
  | getSession scope manifestId => exact learned_getSession hanswer
  | putPageEntries scope manifestId pageNo rows =>
    rintro entries rfl hne
    exact learned_putPageEntries hne hanswer
  | listEntriesForPage scope manifestId pageNo => exact (Except.ok.inj hanswer).symm
  | markSessionFinalized scope manifestId =>
    obtain ⟨db, hresult, hworld⟩ := commit_eq_ok hanswer
    obtain ⟨before, -, -, hsession, rfl⟩ := markSessionFinalized_cases hresult
    refine ⟨value, ?_, ?_⟩
    · rw [perform, hworld]
      exact Function.update_self _ _ _
    · rw [hsession]
  | ensureTask scope manifestId => exact learned_ensureTask h hanswer
  | requeueFailedTask taskId => exact learned_onTask 0 (.requeueFailedTask taskId) rfl hanswer
  | readObject key =>
    rw [perform] at hanswer ⊢
    cases hfound : w.objects key with
    | none =>
      rw [hfound] at hanswer
      cases hanswer
    | some found =>
      rw [hfound] at hanswer
      cases hanswer
      exact hfound
  | _ => trivial

end Answers

/-! ### Programs -/

/-- The program keeps the stores sound, and a value it returns satisfies `Q`. -/
def Keeps {α : Type} (Q : α → World → Prop) (x : Code α) (w : World) : Prop :=
  Proc.Safe exec (Sound codec events) Grows Q (fun _ _ => True) x w

/-! #### Goals -/

/-- The session is finalized. -/
def FinalizedAt (scope manifestId : Text) (w : World) : Prop :=
  ∃ session, w.paging.sessions (scope, manifestId) = some session ∧ session.state = .finalized

theorem FinalizedAt.later {scope manifestId : Text} {w t : World} (h : FinalizedAt scope manifestId w)
    (hgrows : Grows w t) : FinalizedAt scope manifestId t := by
  obtain ⟨session, hsession, hstate⟩ := h
  exact hgrows.finalized hsession hstate

/-- What a manifest that was loaded for an id says. -/
def LoadedById (scope manifestId : Text) (r : ManifestResponse) (w : World) : Prop :=
  r.manifestId = manifestId ∧ r.manifest.id codec = .ok manifestId ∧ FinalizedAt scope manifestId w ∧
    Complete codec w scope r.manifest

/-- What a manifest that was loaded for a media file says. -/
def LoadedByMedia (scope oid : Text) (r : ManifestResponse) (w : World) : Prop :=
  r.manifest.mediaOid = oid ∧ r.manifest.id codec = .ok r.manifestId ∧ FinalizedAt scope r.manifestId w ∧
    Complete codec w scope r.manifest

variable {codec} in
theorem LoadedById.later {scope manifestId : Text} {r : ManifestResponse} {w t : World}
    (h : LoadedById codec scope manifestId r w) (hgrows : Grows w t) : LoadedById codec scope manifestId r t :=
  ⟨h.1, h.2.1, h.2.2.1.later hgrows, h.2.2.2.later hgrows⟩

variable {codec} in
theorem LoadedByMedia.later {scope oid : Text} {r : ManifestResponse} {w t : World}
    (h : LoadedByMedia codec scope oid r w) (hgrows : Grows w t) : LoadedByMedia codec scope oid r t :=
  ⟨h.1, h.2.1, h.2.2.1.later hgrows, h.2.2.2.later hgrows⟩

/-- What the answer to a request promises. -/
def Promise : Request → Answer → World → Prop
  | .loadImmutableById scope manifestId, .manifest r, w => LoadedById codec scope manifestId r w
  | .loadByMedia scope oid, .manifest r, w => LoadedByMedia codec scope oid r w
  | _, _, _ => True

section Rules

variable {codec events} {α β : Type} {Q : α → World → Prop} {R : β → World → Prop} {w : World}

theorem Keeps.ret {a : α} (h : ∀ t, Grows w t → Sound codec events t → Q a t) : Keeps codec events Q (.ret a) w := h

theorem Keeps.done {a : α} : Keeps codec events (fun _ _ => True) (.ret a) w := fun _ _ _ => trivial

theorem Keeps.fail {e : MediaError} : Keeps codec events Q (.fail e) w := fun _ _ _ => trivial

theorem Keeps.bind {x : Code α} {f : α → Code β} (hw : Sound codec events w) (hx : Keeps codec events Q x w)
    (hf : ∀ a t, Grows w t → Sound codec events t → Q a t → Keeps codec events R (f a) t) : Keeps codec events R (x >>= f) w :=
  Proc.Safe.bind Grows.refl (fun _ _ _ => Grows.trans) hw hx hf

theorem Keeps.conseq {Q' : α → World → Prop} {x : Code α} (h : Keeps codec events Q x w)
    (hQ : ∀ a t, Grows w t → Sound codec events t → Q a t → Q' a t) : Keeps codec events Q' x w :=
  Proc.Safe.conseq (fun _ _ _ hab hbc => hab.trans hbc) h hQ fun _ _ _ _ _ => trivial

theorem Keeps.require {c : Prop} [Decidable c] {e : MediaError} {f : Unit → Code β} (h : c → Keeps codec events R (f ()) w) :
    Keeps codec events R (Proc.require c e >>= f) w := by
  unfold Proc.require
  split
  · exact h ‹c›
  · exact .fail

theorem Keeps.check {result : Except Invalid α} {f : α → Code β}
    (h : ∀ a, result = .ok a → Keeps codec events R (f a) w) : Keeps codec events R (check result >>= f) w := by
  cases result with
  | ok a => exact h a rfl
  | error why => exact .fail

theorem Keeps.scopeKey {objectId : Text} {key : Key} {f : Key → Code β} (h : Keeps codec events R (f key) w) :
    Keeps codec events R (scopeKey objectId key >>= f) w := by
  unfold Media.scopeKey Proc.require
  split
  · exact h
  · exact .fail

theorem Keeps.pageKey {scope manifestId : Text} {pageNo : ℕ} {f : Key → Code β}
    (h : Keeps codec events R (f (.page scope manifestId pageNo)) w) :
    Keeps codec events R (pageKey scope manifestId pageNo >>= f) w := by
  unfold Media.pageKey Proc.require
  split
  · exact h
  · exact .fail

end Rules

section Programs

variable {codec events} [CollisionFree codec events] {w : World}

/-- **A call whose guard holds, with faults.** -/
theorem exec_sound (h : Sound codec events w) (input : Input) (op : Op) (hguard : Guard codec events w op) :
    Sound codec events (exec input op w).1 ∧ Grows w (exec input op w).1 ∧
      ∀ value, (exec input op w).2 = .ok value → Learned (exec input op w).1 op value := by
  obtain ⟨hsound, hgrows⟩ := perform_sound h input op hguard
  unfold exec
  split
  · exact ⟨hsound, hgrows, fun value hanswer => perform_learned h input op hanswer⟩
  · exact ⟨h, Grows.refl w, fun value hanswer => by cases hanswer⟩
  · exact ⟨hsound, hgrows, fun value hanswer => by cases hanswer⟩

theorem Keeps.ask {β : Type} {R : β → World → Prop} {f : op.Val → Code β}
    (hguard : ∀ t, Grows w t → Sound codec events t → Guard codec events t op)
    (hf : ∀ value t, Grows w t → Sound codec events t → Learned t op value → Keeps codec events R (f value) t) :
    Keeps codec events R (ask op >>= f) w := by
  intro t hgrows ht input
  obtain ⟨hsound, hstep, hlearned⟩ := exec_sound ht input op (hguard t hgrows ht)
  refine ⟨hsound, hstep, ?_⟩
  cases hanswer : (exec input op t).2 with
  | error e => exact Keeps.fail
  | ok value => exact hf value _ (hgrows.trans hstep) hsound (hlearned value hanswer)

/-- A call that ends a program. -/
theorem Keeps.ask_last {Q : op.Val → World → Prop}
    (hguard : ∀ t, Grows w t → Sound codec events t → Guard codec events t op)
    (hQ : ∀ value t, Grows w t → Sound codec events t → Learned t op value → ∀ u, Grows t u → Sound codec events u → Q value u) :
    Keeps codec events Q (Media.ask op) w := by
  intro t hgrows ht input
  obtain ⟨hsound, hstep, hlearned⟩ := exec_sound ht input op (hguard t hgrows ht)
  refine ⟨hsound, hstep, ?_⟩
  cases hanswer : (exec input op t).2 with
  | error e => exact Keeps.fail
  | ok value => exact hQ value _ (hgrows.trans hstep) hsound (hlearned value hanswer)

omit [CollisionFree codec events] in
/-- A program whose value is only passed on. -/
theorem Keeps.answer {α β : Type} {g : α → β} {x : Code α} {Q : α → World → Prop} (hw : Sound codec events w)
    (hx : Keeps codec events Q x w) : Keeps codec events (fun _ _ => True) (x >>= fun a => .ret (g a)) w :=
  .bind hw hx fun _ _ _ _ _ => .done

/-! #### Reads -/

theorem keeps_readBytes (key : Key) (max : ℕ) :
    Keeps codec events (fun value t => GoodObject codec events t key value) (readBytes codec key max) w := by
  refine .ask (fun _ _ _ => trivial) fun value t _ ht hvalue => ?_
  refine .require fun _ => .ret fun u hgrows _ => ?_
  exact (ht.object key value hvalue).later hgrows

theorem keeps_readExistingChunk (scope hash : Text) :
    Keeps codec events (fun body t => t.objects (.chunk scope hash) = some body) (readExistingChunk scope hash) w := by
  refine .ask (fun _ _ _ => trivial) fun body t _ _ hbody => ?_
  exact .require fun _ => .ret fun u hgrows _ => hgrows.chunk scope hash body hbody

theorem keeps_requireActivePending (hw : Sound codec events w) (scope manifestId : Text) (now : ℕ) :
    Keeps codec events (fun session _ => PreparedAs codec events manifestId session.manifest)
      (requireActivePending codec scope manifestId now) w := by
  refine .scopeKey (.bind hw (keeps_readBytes _ _) fun session t _ _ hid => ?_)
  exact .require fun _ => .ret fun _ _ _ => hid

/-- A sealed session and its pages. -/
def SealedAt (scope manifestId : Text) (pageCount : ℕ) (w : World) : Prop :=
  ∃ session, w.paging.sessions (scope, manifestId) = some session ∧ session.pageCount = pageCount ∧
    session.state ≠ .pending

theorem SealedAt.later {scope manifestId : Text} {pageCount : ℕ} {w t : World}
    (h : SealedAt scope manifestId pageCount w) (hgrows : Grows w t) : SealedAt scope manifestId pageCount t := by
  obtain ⟨session, hsession, rfl, hstate⟩ := h
  exact hgrows.sealed hsession hstate

theorem keeps_requireSealedSession (scope manifestId : Text) :
    Keeps codec events (fun session t => SealedAt scope manifestId session.pageCount t)
      (requireSealedSession scope manifestId) w := by
  refine .ask (fun _ _ _ => trivial) fun session t _ _ hsession => ?_
  refine .require fun hstate => .ret fun u hgrows _ => ?_
  have hsealed : session.state ≠ .pending := by
    obtain hs | hs := hstate <;> simp [hs]
  exact SealedAt.later ⟨session, hsession, rfl, hsealed⟩ hgrows

/-! #### Prepare, pages, seal, chunks -/

theorem keeps_missingChunks (scope : Text) : ∀ {w : World} (hashes : List Text),
    Sound codec events w → Keeps codec events (fun _ _ => True) (missingChunks scope hashes) w
  | _, [], _ => .done
  | w, hash :: hashes, _ => by
    refine .scopeKey (.ask (fun _ _ _ => trivial) fun found t _ ht _ => ?_)
    exact .answer ht (keeps_missingChunks scope hashes ht)

theorem keeps_pendingCreatedAt (hw : Sound codec events w) (scope manifestId : Text) (now : ℕ) :
    Keeps codec events (fun _ _ => True) (pendingCreatedAt codec scope manifestId now) w := by
  have hload : Keeps codec events (fun _ _ => True) (loadPending codec scope manifestId).attempt w :=
    Proc.Safe.attempt ((keeps_readBytes _ _).conseq fun _ _ _ _ _ => trivial)
  refine .bind hw hload fun loaded t _ _ _ => ?_
  cases loaded with
  | ok existing => exact .done
  | error e => cases e <;> first | exact .fail | exact .done

theorem keeps_prepareAt (scope : Text) {manifest : MediaManifest} (now : ℕ)
    (hmem : manifest.identity ∈ prepared events) :
    Keeps codec events (fun _ _ => True) (prepareAt codec scope manifest now) w := by
  refine .check fun _ _ => .check fun manifestId hid => .check fun pages hpages => ?_
  refine .require fun hlength => .ask ?_ fun session t _ ht _ => ?_
  · intro t _ _
    exact ⟨pages, ⟨_, ⟨hid, hmem⟩, hpages, hlength⟩, rfl⟩
  refine .scopeKey (.bind ht (keeps_pendingCreatedAt ht scope manifestId now) ?_)
  intro createdAt u _ _ _
  refine .require fun _ => .ask (fun _ _ _ => ⟨hid, hmem⟩) fun _ v _ hv _ => ?_
  exact .answer hv (keeps_missingChunks scope _ hv)

theorem keeps_putPageAt (hw : Sound codec events w) (scope manifestId : Text) (page : ManifestPage) (now : ℕ) :
    Keeps codec events (fun _ _ => True) (putPageAt codec scope manifestId page now) w := by
  refine .check fun _ hvalid => ?_
  have hne := entries_ne_nil_of_validate hvalid
  refine .bind hw (keeps_requireActivePending hw scope manifestId now) fun _ t _ _ _ => ?_
  refine .ask (fun _ _ _ => trivial) fun session u _ _ _ => ?_
  refine .require fun _ => .require fun _ => ?_
  refine .ask (fun _ _ _ => trivial) fun _ v _ _ hrows => ?_
  have hindexed := hrows page.entries rfl hne
  refine .pageKey (.require fun _ => .ask ?_ fun _ _ _ _ _ => ?_)
  · intro x hgrows _
    exact hindexed.later hgrows
  · exact .done

/-- The comparison of the page objects with the pages from `pageNo` on. -/
theorem keeps_comparePages (scope manifestId : Text) : ∀ {w : World} (pageNo : ℕ) (pages : List (List ChunkEntry)),
    Sound codec events w → pageNo + pages.length < 2 ^ 31 →
    Keeps codec events (fun _ t => ∀ i entries, pages[i]? = some entries →
      Indexed t scope manifestId (pageNo + i : ℕ) entries) (comparePages codec scope manifestId pageNo pages) w
  | _, _, [], _, _ => .ret fun _ _ _ i entries hentries => by simp at hentries
  | w, pageNo, page :: pages, hw, hlength => by
    rw [length_cons] at hlength
    refine .pageKey (.bind hw (keeps_readBytes (.page scope manifestId pageNo) _) ?_)
    intro stored t _ ht hstored
    refine .require fun hsame => ?_
    have hfirst : Indexed t scope manifestId pageNo page := by
      have hindexed : Indexed t scope manifestId (asI32 pageNo) stored.entries := hstored
      rwa [hsame.2, asI32_of_lt (by omega)] at hindexed
    have hrest := keeps_comparePages scope manifestId (pageNo + 1) pages ht (by omega)
    refine hrest.conseq fun _ u hgrows _ hpages i entries hentries => ?_
    cases i with
    | zero =>
      rw [List.getElem?_cons_zero, Option.some.injEq] at hentries
      rw [← hentries]
      exact hfirst.later hgrows
    | succ i =>
      rw [List.getElem?_cons_succ] at hentries
      have hindexed := hpages i entries hentries
      rwa [show pageNo + 1 + i = pageNo + (i + 1) by omega] at hindexed

theorem keeps_sealAt (hw : Sound codec events w) (scope manifestId : Text) (now : ℕ) :
    Keeps codec events (fun _ _ => True) (sealAt codec scope manifestId now) w := by
  refine .bind hw (keeps_requireActivePending hw scope manifestId now) fun pending t _ _ hid => ?_
  refine .check fun expected hexpected => ?_
  refine .ask (fun _ _ _ => trivial) fun session u _ hu hsession => ?_
  refine .require fun hcount => ?_
  obtain ⟨pages, hpages, hlength, -⟩ := hu.session scope manifestId session hsession
  have hfits : expected.length < 2 ^ 31 := by
    obtain ⟨m, -, -, hlt⟩ := hpages
    rwa [← hlength, ← hcount] at hlt
  refine .bind hu (keeps_comparePages scope manifestId 0 expected hu (by omega)) ?_
  intro _ v _ _ hindexed
  refine .ask_last ?_ fun _ _ _ _ _ _ _ _ => trivial
  intro x hgrows _
  refine ⟨expected, ⟨pending.manifest, hid, hexpected, hfits⟩, ?_⟩
  intro i entries hentries
  have hpage := hindexed i entries hentries
  rw [Nat.zero_add] at hpage
  exact hpage.later hgrows

theorem keeps_membershipForPending (scope manifestId : Text) (now : ℕ) :
    Keeps codec events (fun _ _ => True) (membershipForPending codec scope manifestId now) w := by
  have hload : ∀ t, Sound codec events t → Keeps codec events (fun _ _ => True) (do
      let session ← requireActivePending codec scope manifestId now
      let record : MembershipRecord :=
        ⟨session.manifest.chunks.map fun c => (c.chunkHash, c.length), some session.createdAtUnix⟩
      let _ ← Media.ask (.membershipInsert scope manifestId record)
      pure record) t := by
    intro t ht
    refine .bind ht (keeps_requireActivePending ht scope manifestId now) fun session u _ _ _ => ?_
    exact .ask (fun _ _ _ => trivial) fun _ _ _ _ _ => .done
  refine .ask (fun _ _ _ => trivial) fun cached t _ ht _ => ?_
  cases cached with
  | none => exact hload t ht
  | some record =>
    cases hcreated : record.pendingCreatedAt with
    | none =>
      cases record
      cases hcreated
      exact hload t ht
    | some created =>
      cases record
      cases hcreated
      exact .require fun _ => .done

theorem keeps_uploadChunkAt (hw : Sound codec events w) (scope manifestId hash : Text) {body : Bytes} (now : ℕ)
    (hmem : body ∈ uploaded events) :
    Keeps codec events (fun _ _ => True) (uploadChunkAt codec scope manifestId hash body now) w := by
  refine .bind hw (keeps_membershipForPending scope manifestId now) fun members t _ _ _ => ?_
  refine .require fun _ => .require fun _ => .require fun _ => .require fun hbody => ?_
  refine .scopeKey (.ask (fun _ _ _ => trivial) fun found u _ hu _ => ?_)
  split
  · refine .bind hu (keeps_readExistingChunk scope hash) fun existing v _ _ _ => ?_
    unfold Proc.require
    split
    · exact .done
    · exact .fail
  · exact .ask (fun _ _ _ => ⟨hbody, hmem⟩) fun _ _ _ _ _ => .done

/-! #### Finalize -/

theorem keeps_report (progress : Option ProgressHandle) (bytes pages : ℕ) (stage : Stage) :
    Keeps codec events (fun _ _ => True) (report progress bytes pages stage) w := by
  cases progress with
  | none => exact .done
  | some p =>
    exact .ask (fun _ _ _ => trivial) fun _ _ _ _ _ => .done

theorem keeps_readChunkForEntry (hw : Sound codec events w) (scope hash : Text) (length : ℕ) :
    Keeps codec events (fun body t => t.objects (.chunk scope hash) = some body)
      (readChunkForEntry codec scope hash length) w := by
  refine .scopeKey (.bind hw (keeps_readExistingChunk scope hash) fun body t _ _ hbody => ?_)
  refine .require fun _ => .require fun _ => .ret fun u hgrows _ => ?_
  exact hgrows.chunk scope hash body hbody

/-- What is written for the entries of a page are their stored chunks. -/
theorem keeps_rebuildEntries (scope : Text) (mediaSize : ℕ) (progress : Option ProgressHandle) (pageNo : ℕ) :
    ∀ {w : World} (entries : List EntryRow) (offset : ℕ) (written : Bytes), Sound codec events w →
      Keeps codec events (fun result t => ∃ bodies, Stored t scope (entries.map EntryRow.chunkHash) bodies ∧
          result.2 = written ++ bodies.flatten)
        (rebuildEntries codec scope mediaSize progress pageNo entries offset written) w
  | _, [], offset, written, _ => .ret fun _ _ _ => ⟨[], List.Forall₂.nil, by simp⟩
  | w, entry :: entries, offset, written, _ => by
    refine .ask (fun _ _ _ => trivial) fun _ t _ ht _ => ?_
    refine .require fun _ => .require fun _ => .require fun _ => ?_
    refine .bind ht (keeps_readChunkForEntry ht scope entry.chunkHash entry.length) ?_
    intro body u _ _ hbody
    refine .ask (fun _ _ _ => trivial) fun renewDue v huv hv _ => ?_
    refine .bind hv (keeps_report _ _ _ _) fun _ x hvx hx _ => ?_
    have hrest := keeps_rebuildEntries scope mediaSize progress pageNo entries (offset + entry.length)
      (written ++ body) hx
    refine hrest.conseq fun result y hxy _ hresult => ?_
    obtain ⟨bodies, hstored, hwritten⟩ := hresult
    have hfirst := ((huv.trans hvx).trans hxy).chunk _ _ _ hbody
    refine ⟨body :: bodies, List.Forall₂.cons hfirst hstored, ?_⟩
    rw [hwritten, flatten_cons, append_assoc]

theorem chunkHash_of_indexed {scope manifestId : Text} {entries : List ChunkEntry}
    (h : Indexed w scope manifestId pageNo entries) :
    (w.rows scope manifestId pageNo).map EntryRow.chunkHash = entries.map ChunkEntry.chunkHash := by
  have hspots := congrArg (List.map fun spot : ℕ × ℕ × Text => spot.2.2) h.2
  rwa [map_map, map_map] at hspots

theorem Stored.append {scope : Text} {hashes hashes' : List Text} {bodies bodies' : List Bytes}
    (h : Stored w scope hashes bodies) (h' : Stored w scope hashes' bodies') :
    Stored w scope (hashes ++ hashes') (bodies ++ bodies') :=
  rel_append h h'

/-- What is written for the pages from `pageNo` on are the stored chunks of their entries. -/
theorem keeps_rebuildPages (scope manifestId : Text) (mediaSize : ℕ) (progress : Option ProgressHandle) :
    ∀ {w : World} (pages : List (List ChunkEntry)) (pageNo offset : ℕ) (written : Bytes), Sound codec events w →
      (∀ (i : ℕ) entries, pages[i]? = some entries → Indexed w scope manifestId (pageNo + i : ℕ) entries) →
      Keeps codec events (fun result t => ∃ bodies,
          Stored t scope (pages.flatten.map ChunkEntry.chunkHash) bodies ∧ result.2 = written ++ bodies.flatten)
        (rebuildPages codec scope manifestId mediaSize progress pages.length pageNo offset written) w
  | _, [], _, _, _, _, _ => .ret fun _ _ _ => ⟨[], List.Forall₂.nil, by simp⟩
  | w, page :: pages, pageNo, offset, written, _, hindexed => by
    refine .ask (fun _ _ _ => trivial) fun _ t hwt _ _ => ?_
    refine .ask (fun _ _ _ => trivial) fun rows u htu hu hrows => ?_
    refine .bind hu (keeps_rebuildEntries scope mediaSize progress pageNo rows offset written hu) ?_
    intro result v huv hv hresult
    obtain ⟨bodies, hstored, hwritten⟩ := hresult
    refine .bind hv (keeps_report _ _ _ _) fun _ x hvx hx _ => ?_
    have hpage : Indexed u scope manifestId pageNo page :=
      (hindexed 0 page rfl).later (hwt.trans htu)
    have hhashes : rows.map EntryRow.chunkHash = page.map ChunkEntry.chunkHash := by
      rw [hrows]
      exact chunkHash_of_indexed hpage
    have hrestIndexed : ∀ (i : ℕ) entries, pages[i]? = some entries →
        Indexed x scope manifestId (pageNo + 1 + i : ℕ) entries := by
      intro i entries hentries
      have hi := hindexed (i + 1) entries (by rwa [List.getElem?_cons_succ])
      rw [show pageNo + (i + 1) = pageNo + 1 + i by omega] at hi
      exact hi.later (((hwt.trans htu).trans huv).trans hvx)
    have hrest := keeps_rebuildPages scope manifestId mediaSize progress pages (pageNo + 1) result.1 result.2 hx
      hrestIndexed
    refine hrest.conseq fun result' y hxy _ hresult' => ?_
    obtain ⟨bodies', hstored', hwritten'⟩ := hresult'
    rw [hhashes] at hstored
    refine ⟨bodies ++ bodies', ?_, ?_⟩
    · rw [flatten_cons, map_append]
      exact (hstored.later (hvx.trans hxy)).append hstored'
    · rw [hwritten', hwritten, flatten_append, append_assoc]

/-- **What finalize verifies.** The stored chunks of the manifest make up its file. -/
theorem keeps_rebuildAndVerify (hw : Sound codec events w) {scope manifestId : Text}
    (hid : PreparedAs codec events manifestId m) {pageCount : ℕ} (hsealed : SealedAt scope manifestId pageCount w)
    (progress : Option ProgressHandle) :
    Keeps codec events (fun _ t => Complete codec t scope m)
      (rebuildAndVerify codec scope manifestId m pageCount progress) w := by
  obtain ⟨session, hsession, rfl, hstate⟩ := hsealed
  obtain ⟨pages, ⟨m', hid', hsplit, -⟩, hcount, hindexed⟩ := hw.session scope manifestId session hsession
  have hchunks : pages.flatten = m.chunks := by
    rw [flatten_splitPages hsplit]
    exact congrArg Identity.chunks (hid'.identity_eq hid)
  rw [hcount]
  have hall : ∀ (i : ℕ) entries, pages[i]? = some entries → Indexed w scope manifestId (0 + i : ℕ) entries := by
    intro i entries hentries
    rw [Nat.zero_add]
    exact hindexed hstate i entries hentries
  refine .bind hw (keeps_rebuildPages scope manifestId m.mediaSize progress pages 0 0 [] hw hall) ?_
  intro result t _ _ hresult
  obtain ⟨bodies, hstored, hwritten⟩ := hresult
  rw [hchunks] at hstored
  rw [nil_append] at hwritten
  refine .ask (fun _ _ _ => trivial) fun _ u htu _ _ => ?_
  refine .require fun hsize => .require fun hdigest => .ret fun v huv _ => ?_
  refine ⟨bodies, (hstored.later htu).later huv, ?_, ?_⟩
  · rw [← hwritten]
    exact hsize.2
  · rw [← hwritten]
    exact hdigest

/-- The record that is stored for a manifest, which was verified. -/
theorem keeps_putImmutableIdentity {scope manifestId : Text} (hid : m.id codec = .ok manifestId)
    (hcomplete : Complete codec w scope m) :
    Keeps codec events (fun result t => GoodObject codec events t (.finalized scope manifestId) result.1)
      (putImmutableIdentity codec scope manifestId ⟨manifestId, m⟩) w := by
  have hread : ∀ t, Sound codec events t → ∀ fresh : Bool,
      Keeps codec events (fun result t => GoodObject codec events t (.finalized scope manifestId) result.1) (do
        let parsed : ManifestResponse ← readBytes codec (.finalized scope manifestId) maxEnvelopeSize
        Proc.require (canonicalIdentityEquiv parsed ⟨manifestId, m⟩) (.conflict .recordIdentity)
        pure (parsed, fresh)) t := by
    intro t ht fresh
    refine .bind ht (keeps_readBytes (.finalized scope manifestId) _) fun parsed u _ _ hgood => ?_
    exact .require fun _ => .ret fun v hgrows _ => GoodObject.later hgrows hgood
  refine .ask (fun _ _ _ => trivial) fun found t hwt ht _ => ?_
  split
  · exact hread t ht false
  · refine .ask ?_ fun _ u _ hu _ => hread u hu true
    intro u htu _
    exact ⟨rfl, hid, hcomplete.later (hwt.trans htu)⟩

theorem keeps_putFallbackIdempotent (hw : Sound codec events w) (m : MediaManifest) (written : Bytes) :
    Keeps codec events (fun _ _ => True) (putFallbackIdempotent m written) w := by
  have hobject : Keeps codec events (fun _ _ => True) (putFallbackObject m.mediaOid written) w := by
    refine .ask (fun _ _ _ => trivial) fun found t _ _ _ => ?_
    split
    · exact .done
    · exact .ask (fun _ _ _ => trivial) fun _ _ _ _ _ => .done
  refine .bind hw hobject fun _ t _ _ _ => ?_
  refine .ask (fun _ _ _ => trivial) fun _ u _ _ _ => ?_
  refine .ask (fun _ _ _ => trivial) fun found v _ _ _ => ?_
  unfold Proc.require
  split
  · exact .done
  · exact .fail

theorem keeps_publishVerifiedLayout (hw : Sound codec events w) {scope manifestId : Text}
    (hid : m.id codec = .ok manifestId) (hcomplete : Complete codec w scope m) (written : Bytes) :
    Keeps codec events (fun _ t => FinalizedAt scope manifestId t)
      (publishVerifiedLayout codec scope manifestId m written) w := by
  refine .bind hw (keeps_putFallbackIdempotent hw m written) fun _ t hwt ht _ => ?_
  refine .require fun _ => .scopeKey ?_
  refine .bind ht (keeps_putImmutableIdentity hid (hcomplete.later hwt)) ?_
  intro result u _ _ hgood
  refine .ask (fun _ _ _ => trivial) fun _ v huv hv hfinal => ?_
  have hbyMedia : Keeps codec events (fun _ _ => True) (putByMedia codec scope result.1) v := by
    refine .scopeKey (.require fun _ => .ask ?_ fun _ _ _ _ _ => ?_)
    · intro x hvx _
      obtain ⟨hrecord, hrecordId, hrecordComplete⟩ := hgood
      refine ⟨rfl, ?_, hrecordComplete.later (huv.trans hvx)⟩
      rw [hrecord]
      exact hrecordId
    · exact .done
  refine .bind hv hbyMedia fun _ x hvx _ _ => ?_
  exact .ret fun y hxy _ => FinalizedAt.later hfinal (hvx.trans hxy)

/-- **Finalize publishes only what it verified**, and leaves the session finalized. -/
theorem keeps_runFinalizeBody (hw : Sound codec events w) (scope manifestId : Text) (now : ℕ)
    (progress : Option ProgressHandle) :
    Keeps codec events (fun _ t => FinalizedAt scope manifestId t)
      (runFinalizeBody codec scope manifestId now progress) w := by
  refine .bind hw (keeps_requireSealedSession scope manifestId) fun sealed t _ ht hsealed => ?_
  refine .bind ht (keeps_requireActivePending ht scope manifestId now) fun pending u htu hu hid => ?_
  refine .check fun expectedId _ => .require fun _ => .require fun _ => ?_
  refine .ask (fun _ _ _ => trivial) fun _ v huv hv _ => ?_
  have hsealed' := hsealed.later (htu.trans huv)
  refine .bind hv (keeps_rebuildAndVerify hv hid hsealed' progress) fun written x _ hx hcomplete => ?_
  refine .ask (fun _ _ _ => trivial) fun _ a hxa ha _ => ?_
  refine .bind ha (keeps_report _ _ _ _) fun _ b hab _ _ => ?_
  refine .ask (fun _ _ _ => trivial) fun _ c hbc hc _ => ?_
  refine .bind hc (keeps_report _ _ _ _) fun _ d hcd hd _ => ?_
  have hcomplete' := hcomplete.later (((hxa.trans hab).trans hbc).trans hcd)
  exact keeps_publishVerifiedLayout hd hid.1 hcomplete' written

/-- The task belongs to the session. -/
def TaskOf (taskId scope manifestId : Text) (w : World) : Prop :=
  ∃ row, w.task? taskId = some row ∧ row.scope = scope ∧ row.manifestId = manifestId

theorem TaskOf.later {scope manifestId : Text} {w t : World} (h : TaskOf taskId scope manifestId w)
    (hgrows : Grows w t) : TaskOf taskId scope manifestId t := by
  obtain ⟨row, hrow, rfl, rfl⟩ := h
  obtain ⟨after, hafter, hident⟩ := hgrows.task taskId row hrow
  exact ⟨after, hafter, congrArg (fun i => i.2.1) hident, congrArg (fun i => i.2.2) hident⟩

theorem keeps_requeueIfFailed {scope manifestId : Text} (htask : TaskOf task.taskId scope manifestId w) :
    Keeps codec events (fun task t => TaskOf task.taskId scope manifestId t) (requeueIfFailed task) w := by
  unfold requeueIfFailed
  split
  · refine .require fun _ => .ask_last (fun _ _ _ => trivial) ?_
    intro requeued t hwt _ hid u htu _
    have hsame : TaskRow.taskId requeued = task.taskId := hid
    rw [hsame]
    exact htask.later (hwt.trans htu)
  · exact .ret fun t hwt _ => htask.later hwt

theorem keeps_enqueueFinalize (hw : Sound codec events w) (scope manifestId : Text) :
    Keeps codec events (fun task t => TaskOf task.taskId scope manifestId t) (enqueueFinalize scope manifestId) w := by
  refine .bind hw (keeps_requireSealedSession scope manifestId) fun _ t _ _ _ => ?_
  refine .ask (fun _ _ _ => trivial) fun task u _ hu htask => ?_
  split
  · exact .ret fun v huv _ => TaskOf.later htask huv
  · refine .bind hu (keeps_requeueIfFailed htask) fun task' v _ _ htask' => ?_
    unfold checkQueue
    split
    · refine .ask (fun _ _ _ => trivial) fun (active : ℕ) x hvx _ _ => ?_
      exact .require fun _ => .ret fun y hxy _ => htask'.later (hvx.trans hxy)
    · exact .ret fun y hxy _ => htask'.later hxy

theorem keeps_runTaskWorker (hw : Sound codec events w) {scope manifestId : Text}
    (htask : TaskOf taskId scope manifestId w) (owner : Text) (now : ℕ) :
    Keeps codec events (fun _ _ => True) (runTaskWorker codec scope manifestId taskId owner now) w := by
  have hclaim : Keeps codec events (fun _ _ => True)
      (ask (.claimOrRenewLease taskId owner none)).attempt w :=
    Proc.Safe.attempt (Keeps.ask_last (fun _ _ _ => trivial) fun _ _ _ _ _ _ _ _ => trivial)
  refine .bind hw hclaim fun claimed t hwt ht _ => ?_
  cases claimed with
  | error e =>
    cases e with
    | conflict why => cases why <;> first | exact .fail | exact .done
    | _ => exact .fail
  | ok task =>
    have hbody : Keeps codec events (fun result t => ∀ response, result = .ok response → FinalizedAt scope manifestId t)
        (runFinalizeBody codec scope manifestId now (some ⟨taskId, task.leaseEpoch⟩)).attempt t := by
      refine Proc.Safe.attempt (Proc.Safe.conseq (fun _ _ _ hab hbc => hab.trans hbc)
        (keeps_runFinalizeBody ht scope manifestId now (some ⟨taskId, task.leaseEpoch⟩)) ?_ ?_)
      · exact fun _ _ _ _ hfinal _ _ => hfinal
      · exact fun _ _ _ _ _ _ hok => by cases hok
    refine .bind ht hbody fun result u htu hu hresult => ?_
    cases result with
    | ok response =>
      refine .ask ?_ fun _ _ _ _ _ => .done
      intro v huv _ row hrow
      obtain ⟨row', hrow', hscope, hmanifest⟩ := htask.later ((hwt.trans htu).trans huv)
      cases hrow.symm.trans hrow'
      rw [hscope, hmanifest]
      exact (hresult response rfl).later huv
    | error e =>
      have hfail : Keeps codec events (fun _ _ => True) (ask (.failTask taskId task.leaseEpoch
          (classifyFinalizeError e).1 (classifyFinalizeError e).2)).attempt u :=
        Proc.Safe.attempt (Keeps.ask_last (fun _ _ _ => trivial) fun _ _ _ _ _ _ _ _ => trivial)
      exact .bind hu hfail fun _ _ _ _ _ => .fail

/-! #### Loads -/

theorem keeps_loadImmutableById (scope manifestId : Text) :
    Keeps codec events (fun r t => LoadedById codec scope manifestId r t) (loadImmutableById codec scope manifestId) w := by
  refine .ask (fun _ _ _ => trivial) fun session t _ ht hsession => ?_
  refine .require fun hstate => .scopeKey ?_
  refine .bind ht (keeps_readBytes (.finalized scope manifestId) _) fun r u htu _ hgood => ?_
  refine .require fun _ => .check fun expected _ => .require fun _ => .ret fun v huv _ => ?_
  obtain ⟨hrecord, hid, hcomplete⟩ := hgood
  have hfinal : FinalizedAt scope manifestId t := ⟨session, hsession, hstate⟩
  exact ⟨hrecord, hid, hfinal.later (htu.trans huv), hcomplete.later huv⟩

theorem keeps_loadByMedia (hw : Sound codec events w) (scope oid : Text) :
    Keeps codec events (fun r t => LoadedByMedia codec scope oid r t) (loadByMedia codec scope oid) w := by
  refine .scopeKey (.bind hw (keeps_readBytes (.manifest scope oid) _) ?_)
  intro r t _ _ hgood
  refine .ask (fun _ _ _ => trivial) fun session u htu _ hsession => ?_
  refine .require fun hstate => .require fun _ => .ret fun v huv _ => ?_
  obtain ⟨hoid, hid, hcomplete⟩ := hgood
  have hfinal : FinalizedAt scope r.manifestId u := ⟨session, hsession, hstate⟩
  exact ⟨hoid, hid, hfinal.later huv, hcomplete.later (htu.trans huv)⟩

/-! ### The service -/

theorem keeps_code (hw : Sound codec events w) {request : Request} (hmem : .start request ∈ events) :
    Keeps codec events (Promise codec request) (code codec request) w := by
  cases request with
  | prepare scope manifest now =>
    exact .answer hw (keeps_prepareAt scope now (mem_filterMap.mpr ⟨_, hmem, rfl⟩))
  | putPage scope manifestId page now =>
    exact .answer hw (keeps_putPageAt hw scope manifestId page now)
  | sealManifest scope manifestId now =>
    exact .answer hw (keeps_sealAt hw scope manifestId now)
  | uploadChunk scope manifestId hash body now =>
    exact .answer hw (keeps_uploadChunkAt hw scope manifestId hash now (mem_filterMap.mpr ⟨_, hmem, rfl⟩))
  | finalize scope manifestId now =>
    exact .answer hw (keeps_runFinalizeBody hw scope manifestId now none)
  | enqueueFinalize scope manifestId owner now =>
    refine .bind hw (keeps_enqueueFinalize hw scope manifestId) fun task t _ ht htask => ?_
    split
    · exact .done
    · exact .answer ht (keeps_runTaskWorker ht htask owner now)
  | renewLease taskId owner epoch =>
    exact .ask (fun _ _ _ => trivial) fun _ _ _ _ _ => .done
  | cancelTask taskId =>
    exact .ask (fun _ _ _ => trivial) fun _ _ _ _ _ => .done
  | requeueTask taskId =>
    exact .ask (fun _ _ _ => trivial) fun _ _ _ _ _ => .done
  | loadImmutableById scope manifestId =>
    refine .bind hw (keeps_loadImmutableById scope manifestId) fun r t _ _ hloaded => ?_
    exact .ret fun u htu _ => hloaded.later htu
  | loadByMedia scope oid =>
    refine .bind hw (keeps_loadByMedia hw scope oid) fun r t _ _ hloaded => ?_
    exact .ret fun u htu _ => hloaded.later htu

omit [CollisionFree codec events] in
theorem sound_empty : Sound codec events World.empty where
  object key value h := by cases h
  session scope manifestId session h := by cases h
  tasks := nodup_nil

/-- In every history the service is safe, and what comes later changes the stores as `Grows` says. -/
theorem safe_run {before more : List Event} (hevents : events = before ++ more) :
    Pool.Safe exec (Sound codec events) Grows (Promise codec) (run codec System.empty events) ∧
      Grows (run codec System.empty before).shared (run codec System.empty events).shared := by
  have htrans : ∀ a b c, Grows a b → Grows b c → Grows a c := fun _ _ _ hab hbc => hab.trans hbc
  have hstart : Pool.Safe exec (Sound codec events) Grows (Promise codec) System.empty :=
    ⟨sound_empty, fun thread hthread => by cases hthread⟩
  have hbefore := hstart.run_rel Grows.refl htrans fun request (hmem : .start request ∈ before) w hw =>
    keeps_code hw (hevents ▸ mem_append_left _ hmem)
  have hmore := hbefore.1.run_rel Grows.refl htrans fun request (hmem : .start request ∈ more) w hw =>
    keeps_code hw (hevents ▸ mem_append_right _ hmem)
  rw [← Run.run_append, ← hevents] at hmore
  exact hmore

omit [CollisionFree codec events] in
/-- **Published media are intact.** In every history of requests, with storage faults at any call and any
interleaving, in which no two chunks have one hash and no two manifests one id: a manifest that a load returns has
the id it was loaded for (or the id recorded for the media file) and belongs to a finalized session, and its stored
chunks, in order, are `mediaSize` bytes whose SHA-256 is `mediaOid`. -/
theorem published_media_intact (events : List Event) (hfree : CollisionFree codec events) :
    (∀ scope manifestId r, ⟨.loadImmutableById scope manifestId, .ret (.manifest r)⟩ ∈
        (run codec System.empty events).threads →
      r.manifestId = manifestId ∧ r.manifest.id codec = .ok manifestId ∧
        FinalizedAt scope manifestId (run codec System.empty events).shared ∧
        Complete codec (run codec System.empty events).shared scope r.manifest) ∧
    (∀ scope oid r, ⟨.loadByMedia scope oid, .ret (.manifest r)⟩ ∈ (run codec System.empty events).threads →
      r.manifest.mediaOid = oid ∧ r.manifest.id codec = .ok r.manifestId ∧
        FinalizedAt scope r.manifestId (run codec System.empty events).shared ∧
        Complete codec (run codec System.empty events).shared scope r.manifest) := by
  have hsafe : Pool.Safe exec (Sound codec events) Grows (Promise codec) (run codec System.empty events) :=
    (safe_run (append_nil events).symm).1
  refine ⟨?_, ?_⟩
  · intro scope manifestId r hthread
    exact hsafe.goal_of_ret Grows.refl hthread
  · intro scope oid r hthread
    exact hsafe.goal_of_ret Grows.refl hthread

omit [CollisionFree codec events] in
/-- **What is stored stays.** In every history without collisions, whatever comes after its first part: a chunk keeps
its bytes and a page its rows, a sealed session is never open again, and a finalized one stays finalized. -/
theorem stored_media_lasts (events more : List Event) (hfree : CollisionFree codec (events ++ more)) :
    Grows (run codec System.empty events).shared (run codec System.empty (events ++ more)).shared :=
  (safe_run rfl).2

end Programs

/-! ### A file of two chunks -/

section TwoChunks

def longChunk : Bytes := 1 :: List.replicate (minSize - 1) 0
def shortChunk : Bytes := [2, 7]

def twoChunks : MediaManifest where
  version := manifestVersion
  algorithm := chunkAlgorithm
  hashAlgorithm := Media.hashAlgorithm
  mediaOid := nameEnding 'c'
  mediaSize := minSize + 2
  chunks := [⟨0, minSize, nameEnding 'a', minSize, compressionNone, none⟩,
    ⟨minSize, 2, nameEnding 'b', 2, compressionNone, none⟩]
  createdBy := ⟨[], [], []⟩
  fallbackOid := none

/-- A file of two chunks is prepared, its page and its chunks are uploaded and it is sealed. -/
def sealedEvents : List Event :=
  served (.prepare [] twoChunks 0) 0 5 ++ served (.putPage [] (nameEnding 'd') ⟨0, twoChunks.chunks⟩ 0) 1 4 ++
    served (.uploadChunk [] (nameEnding 'd') (nameEnding 'a') longChunk 0) 2 5 ++
    served (.uploadChunk [] (nameEnding 'd') (nameEnding 'b') shortChunk 0) 3 3 ++
    served (.sealManifest [] (nameEnding 'd') 0) 4 4

/-- Then it is finalized and loaded. -/
def loadedEvents : List Event :=
  sealedEvents ++ (served (.finalize [] (nameEnding 'd') 0) 5 30 ++ served (.loadImmutableById [] (nameEnding 'd')) 6 2)

theorem collisionFree_loadedEvents : CollisionFree sampleCodec loadedEvents where
  chunk := by
    have huploaded : uploaded loadedEvents = [longChunk, shortChunk] := by
      simp [uploaded, loadedEvents, sealedEvents, served, calls, -reduceReplicate]
    have hne : sampleSha longChunk ≠ sampleSha shortChunk := by decide +kernel
    rw [huploaded]
    simp [sampleCodec, Codec.canonical, hne, hne.symm]
  identity := by
    have hprepared : prepared loadedEvents = [twoChunks.identity] := by
      simp [prepared, loadedEvents, sealedEvents, served, calls, -reduceReplicate]
    simp [hprepared]

/-- The load returns the manifest of the file, whose chunks are stored. -/
theorem published_media_twoChunks :
    ∃ r, ⟨.loadImmutableById [] (nameEnding 'd'), .ret (.manifest r)⟩ ∈
        (run sampleCodec System.empty loadedEvents).threads ∧ r.manifest.chunks = twoChunks.chunks ∧
      Complete sampleCodec (run sampleCodec System.empty loadedEvents).shared [] r.manifest := by
  have hthread : ⟨.loadImmutableById [] (nameEnding 'd'),
      .ret (.manifest ⟨nameEnding 'd', { twoChunks with fallbackOid := some twoChunks.mediaOid }⟩)⟩ ∈
      (run sampleCodec System.empty loadedEvents).threads :=
    Pool.mem_threads_of_value? 6 (by decide +kernel)
  have hintact := published_media_intact loadedEvents collisionFree_loadedEvents
  exact ⟨_, hthread, rfl, (hintact.1 _ _ _ hthread).2.2.2⟩

theorem stored_media_lasts_twoChunks :
    ((run sampleCodec System.empty sealedEvents).shared.rows [] (nameEnding 'd') 0).length = 2 ∧
      (run sampleCodec System.empty sealedEvents).shared.objects (.chunk [] (nameEnding 'b')) = some shortChunk ∧
      Grows (run sampleCodec System.empty sealedEvents).shared (run sampleCodec System.empty loadedEvents).shared :=
  ⟨by decide +kernel, by decide +kernel, stored_media_lasts _ _ collisionFree_loadedEvents⟩

end TwoChunks

end Media
end Mega
