/-
# What a transaction does to the push queue

Every transaction is a sequence of moves of six kinds: the control row or the
sequence changes, rows settle, a row is claimed, a row is inserted, a cancelled
row is given its successor. A row that settles keeps its request and its
successor, and its status goes where `Status.settles` says. From the moves alone
the table is sound: ids grow, the unique indexes hold, one row at most is
running and the queued rows come after it, and a superseded row is cancelled
with its successor in the table. This needs what an executor has read to be
known: the requests of rows never change.

Key definitions: `Move`, `Sound`, `Later`, `Known`, `Valid`.
Key theorems: `Sound.move`, `Later.of_move`, `moves_requeue`, `moves_reapOnce`,
`moves_step`, `valid_after`.
-/
import Mega.PushQueue.Storage

namespace Mega
namespace PushQueue

open List Relation

variable {a : Status} {r r' : Row} {id : ℕ} {db db' : Db} {change : Row → Row}

/-! ### Moves -/

/-- Where the status of a row may go without a claim. -/
def Status.settles : Status → Status → Bool
  | .running, _ => true
  | .queued, s => s == .queued || s == .failed || s == .cancelled
  | a, b => a == b

theorem Status.holds_of_settles {b : Status} (h : a.settles b = true) (hb : b.holds = true) : a.holds = true := by
  cases a <;> cases b <;> simp_all [settles, holds]

theorem Status.active_of_settles {b : Status} (h : a.settles b = true) (hb : b.active = true) : a.active = true := by
  cases a <;> cases b <;> simp_all [settles, active]

theorem Status.running_of_settles (h : a.settles .running = true) : a = .running := by
  cases a <;> simp_all [settles]

theorem Status.of_settles_queued (h : a.settles .queued = true) : a = .queued ∨ a = .running := by
  cases a <;> simp_all [settles]

theorem Status.settles_self (a : Status) : a.settles a = true := by cases a <;> rfl

/-- A row after an update that keeps what the indexes see, or leaves the indexes. -/
structure Keeps (r r' : Row) : Prop where
  id : r'.id = r.id
  request : r'.request = r.request
  holds : r'.status.holds = true → r.status.holds = true
  active : r'.status.active = true → r.status.active = true

/-- A row after an update other than a claim. -/
structure Settles (r r' : Row) : Prop where
  id : r'.id = r.id
  request : r'.request = r.request
  superseded : r'.supersededBy = r.supersededBy
  status : r.status.settles r'.status = true

theorem Settles.keeps (h : Settles r r') : Keeps r r' :=
  ⟨h.id, h.request, Status.holds_of_settles h.status, Status.active_of_settles h.status⟩

/-- A row after the claim of the row with an id. -/
structure Claims (head : ℕ) (r r' : Row) : Prop where
  id : r'.id = r.id
  request : r'.request = r.request
  superseded : r'.supersededBy = r.supersededBy
  status : r'.status = r.status ∨ r.id = head ∧ r.status = .queued ∧ r'.status = .running

theorem Claims.keeps (h : Claims id r r') : Keeps r r' := by
  refine ⟨h.id, h.request, ?_, ?_⟩
  · rcases h.status with heq | ⟨-, hq, -⟩
    · exact fun hr => heq ▸ hr
    · exact fun _ => by rw [hq]; rfl
  · rcases h.status with heq | ⟨-, hq, -⟩
    · exact fun hr => heq ▸ hr
    · exact fun _ => by rw [hq]; rfl

/-- The update of a row that gives it its successor. -/
def supersede (id successor : ℕ) (r : Row) : Row :=
  if r.id == id then { r with supersededBy := some successor } else r

/-- One statement on the queue that took effect. -/
inductive Move : Db → Db → Prop where
  | control (db : Db) (c : Control) : Move db { db with control := c }
  | skip (db : Db) : Move db { db with nextId := db.nextId + 1 }
  | update (db : Db) (change : Row → Row) (h : ∀ r ∈ db.rows, Settles r (change r)) :
    Move db { db with rows := db.rows.map change }
  | claim (db : Db) (id : ℕ) (change : Row → Row) (hidle : ∀ r ∈ db.rows, r.status ≠ .running)
    (hfirst : ∀ r ∈ db.rows, r.status = .queued → id ≤ r.id) (h : ∀ r ∈ db.rows, Claims id r (change r)) :
    Move db { db with rows := db.rows.map change }
  | insert (db : Db) (p : Request) (now : ℕ) (hfree : db.violates (db.newRow p now) = none) :
    Move db { db with rows := db.rows ++ [db.newRow p now], nextId := db.nextId + 1 }
  | supersede (db : Db) (id successor : ℕ) (hlt : id < successor)
    (hold : ∀ r ∈ db.rows, r.id = id → r.status = .cancelled ∧ r.supersededBy = none)
    (hsucc : ∀ r ∈ db.rows, r.id = id → ∃ r' ∈ db.rows, r'.id = successor ∧ r'.request = r.request) :
    Move db { db with rows := db.rows.map (supersede id successor) }

abbrev Moves : Db → Db → Prop := ReflTransGen Move

/-! ### Sound tables -/

def bothRunning (a b : Row) : Prop := a.status = .running ∧ b.status = .running

/-- What holds of the tables after every transaction. -/
structure Sound (db : Db) : Prop where
  sorted : (db.rows.map Row.id).Pairwise (· < ·)
  fresh : ∀ r ∈ db.rows, r.id < db.nextId
  running : Table.KeyedBy Row.id bothRunning db.rows
  operations : Table.KeyedBy Row.id (fun a b => Db.sameOperation a b = true) db.rows
  pushPaths : Table.KeyedBy Row.id (fun a b => Db.samePushPath a b = true) db.rows
  fifo : ∀ r ∈ db.rows, ∀ r' ∈ db.rows, r.status = .running → r'.status = .queued → r.id < r'.id
  superseded : ∀ r ∈ db.rows, ∀ successor, r.supersededBy = some successor →
    r.status = .cancelled ∧ r.id < successor ∧
      ∃ r' ∈ db.rows, r'.id = successor ∧ r'.request = r.request

theorem Sound.row_unique (h : Sound db) (hr : r ∈ db.rows) (hr' : r' ∈ db.rows) (hid : r.id = r'.id) : r = r' :=
  inj_on_of_nodup_map (h.sorted.imp Nat.ne_of_lt) hr hr' hid

theorem sameOperation_of_keeps {a b a' b' : Row} (ha : Keeps a a') (hb : Keeps b b')
    (h : Db.sameOperation a' b' = true) : Db.sameOperation a b = true := by
  simp only [Db.sameOperation, Bool.and_eq_true, ha.request, hb.request] at h ⊢
  exact ⟨⟨ha.holds h.1.1, hb.holds h.1.2⟩, h.2⟩

theorem samePushPath_of_keeps {a b a' b' : Row} (ha : Keeps a a') (hb : Keeps b b')
    (h : Db.samePushPath a' b' = true) : Db.samePushPath a b = true := by
  simp only [Db.samePushPath, Bool.and_eq_true, ha.request, hb.request] at h ⊢
  exact ⟨⟨⟨ha.active h.1.1.1, h.1.1.2⟩, ⟨hb.active h.1.2.1, h.1.2.2⟩⟩, h.2⟩

theorem sameOperation_comm (a b : Row) (h : Db.sameOperation a b = true) : Db.sameOperation b a = true := by
  simp only [Db.sameOperation, Bool.and_eq_true, beq_iff_eq] at h ⊢
  exact ⟨⟨h.1.2, h.1.1⟩, h.2.symm⟩

theorem samePushPath_comm (a b : Row) (h : Db.samePushPath a b = true) : Db.samePushPath b a = true := by
  simp only [Db.samePushPath, Bool.and_eq_true, beq_iff_eq] at h ⊢
  exact ⟨⟨h.1.2, h.1.1⟩, h.2.symm⟩

/-- An update of every row that keeps ids, requests and the indexes. What it does to the running row and
to the successors is for the update to say. -/
theorem Sound.map (h : Sound db) (hkeep : ∀ r ∈ db.rows, Keeps r (change r))
    (hrunning : Table.KeyedBy Row.id bothRunning (db.rows.map change))
    (hfifo : ∀ r ∈ db.rows, ∀ r' ∈ db.rows, (change r).status = .running → (change r').status = .queued →
      r.id < r'.id)
    (hsup : ∀ r ∈ db.rows, ∀ successor, (change r).supersededBy = some successor →
      (change r).status = .cancelled ∧ r.id < successor ∧
        ∃ r' ∈ db.rows, r'.id = successor ∧ r'.request = r.request) :
    Sound { db with rows := db.rows.map change } where
  sorted := by
    have hids : (db.rows.map change).map Row.id = db.rows.map Row.id := by
      rw [List.map_map]
      exact List.map_congr_left fun r hr => (hkeep r hr).id
    rw [hids]
    exact h.sorted
  fresh := by
    intro r' hr'
    obtain ⟨r, hr, rfl⟩ := mem_map.mp hr'
    rw [(hkeep r hr).id]
    exact h.fresh r hr
  running := hrunning
  operations := h.operations.map (fun r hr => (hkeep r hr).id) fun a ha b hb =>
    sameOperation_of_keeps (hkeep a ha) (hkeep b hb)
  pushPaths := h.pushPaths.map (fun r hr => (hkeep r hr).id) fun a ha b hb =>
    samePushPath_of_keeps (hkeep a ha) (hkeep b hb)
  fifo := by
    intro a' ha' b' hb' hrun hq
    obtain ⟨a, ha, rfl⟩ := mem_map.mp ha'
    obtain ⟨b, hb, rfl⟩ := mem_map.mp hb'
    rw [(hkeep a ha).id, (hkeep b hb).id]
    exact hfifo a ha b hb hrun hq
  superseded := by
    intro a' ha' successor hsome
    obtain ⟨a, ha, rfl⟩ := mem_map.mp ha'
    obtain ⟨hcancelled, hlt, b, hb, hid, hreq⟩ := hsup a ha successor hsome
    refine ⟨hcancelled, by rw [(hkeep a ha).id]; exact hlt, change b, mem_map_of_mem hb, ?_, ?_⟩
    · rw [(hkeep b hb).id, hid]
    · rw [(hkeep b hb).request, hreq, (hkeep a ha).request]

theorem Sound.update (h : Sound db) (hset : ∀ r ∈ db.rows, Settles r (change r)) :
    Sound { db with rows := db.rows.map change } := by
  have hrun : ∀ r ∈ db.rows, (change r).status = .running → r.status = .running := fun r hr heq =>
    Status.running_of_settles (heq ▸ (hset r hr).status)
  refine h.map (fun r hr => (hset r hr).keeps) ?_ ?_ ?_
  · exact h.running.map (fun r hr => (hset r hr).id) fun a ha b hb hab =>
      ⟨hrun a ha hab.1, hrun b hb hab.2⟩
  · intro a ha b hb harun hbq
    have hb' := (hset b hb).status
    rw [hbq] at hb'
    rcases Status.of_settles_queued hb' with hq | hr
    · exact h.fifo a ha b hb (hrun a ha harun) hq
    · -- the running row itself was reset, so it is not the row that is running now
      obtain rfl := h.row_unique ha hb (h.running a ha b hb ⟨hrun a ha harun, hr⟩)
      rw [hbq] at harun
      cases harun
  · intro a ha successor hsome
    rw [(hset a ha).superseded] at hsome
    obtain ⟨hcancelled, hlt, hsucc⟩ := h.superseded a ha successor hsome
    refine ⟨?_, hlt, hsucc⟩
    have hstatus := (hset a ha).status
    generalize (change a).status = s at hstatus ⊢
    cases s <;> simp_all [Status.settles]

theorem Sound.claim (h : Sound db) (hidle : ∀ r ∈ db.rows, r.status ≠ .running)
    (hfirst : ∀ r ∈ db.rows, r.status = .queued → id ≤ r.id) (hclaim : ∀ r ∈ db.rows, Claims id r (change r)) :
    Sound { db with rows := db.rows.map change } := by
  have hrun : ∀ r ∈ db.rows, (change r).status = .running → r.id = id := fun r hr heq => by
    rcases (hclaim r hr).status with hsame | hclaimed
    · exact absurd (hsame ▸ heq) (hidle r hr)
    · exact hclaimed.1
  refine h.map (fun r hr => (hclaim r hr).keeps) ?_ ?_ ?_
  · intro a' ha' b' hb' hab
    obtain ⟨a, ha, rfl⟩ := mem_map.mp ha'
    obtain ⟨b, hb, rfl⟩ := mem_map.mp hb'
    rw [(hclaim a ha).id, (hclaim b hb).id, hrun a ha hab.1, hrun b hb hab.2]
  · intro a ha b hb harun hbq
    have hb' : b.status = .queued := by
      rcases (hclaim b hb).status with hsame | ⟨-, -, hbrun⟩
      · exact hsame ▸ hbq
      · rw [hbq] at hbrun
        cases hbrun
    rw [hrun a ha harun]
    refine lt_of_le_of_ne (hfirst b hb hb') fun heq => ?_
    obtain rfl := h.row_unique ha hb (by rw [hrun a ha harun, heq])
    rw [hbq] at harun
    cases harun
  · intro a ha successor hsome
    rw [(hclaim a ha).superseded] at hsome
    obtain ⟨hcancelled, hlt, hsucc⟩ := h.superseded a ha successor hsome
    refine ⟨?_, hlt, hsucc⟩
    rcases (hclaim a ha).status with hsame | ⟨-, hq, -⟩
    · rw [hsame, hcancelled]
    · rw [hcancelled] at hq
      cases hq

theorem Sound.supersede (h : Sound db) {successor : ℕ} (hlt : id < successor)
    (hold : ∀ r ∈ db.rows, r.id = id → r.status = .cancelled ∧ r.supersededBy = none)
    (hsucc : ∀ r ∈ db.rows, r.id = id → ∃ r' ∈ db.rows, r'.id = successor ∧ r'.request = r.request) :
    Sound { db with rows := db.rows.map (PushQueue.supersede id successor) } := by
  have hstatus : ∀ r, (PushQueue.supersede id successor r).status = r.status := fun r => by
    unfold PushQueue.supersede
    split <;> rfl
  refine h.map (fun r _ => ?_) ?_ ?_ ?_
  · unfold PushQueue.supersede
    split <;> exact ⟨rfl, rfl, fun hr => hr, fun hr => hr⟩
  · refine h.running.map (fun r _ => ?_) fun a _ b _ hab => ?_
    · unfold PushQueue.supersede
      split <;> rfl
    · exact ⟨hstatus a ▸ hab.1, hstatus b ▸ hab.2⟩
  · intro a ha b hb harun hbq
    exact h.fifo a ha b hb (hstatus a ▸ harun) (hstatus b ▸ hbq)
  · intro a ha n hsome
    rw [hstatus]
    unfold PushQueue.supersede at hsome
    split at hsome
    · rename_i hid
      obtain rfl : successor = n := by simpa using hsome
      rw [beq_iff_eq] at hid
      exact ⟨(hold a ha hid).1, hid ▸ hlt, hsucc a ha hid⟩
    · exact h.superseded a ha n hsome

theorem violates_eq_none {row : Row} (h : db.violates row = none) :
    (∀ r ∈ db.rows, ¬Db.samePushPath row r = true) ∧ ∀ r ∈ db.rows, ¬Db.sameOperation row r = true := by
  unfold Db.violates at h
  split at h
  · simp at h
  · rename_i hpath
    split at h
    · simp at h
    · rename_i hop
      exact ⟨by simpa using hpath, by simpa using hop⟩

theorem Sound.insert (h : Sound db) {p : Request} {now : ℕ} (hfree : db.violates (db.newRow p now) = none) :
    Sound { db with rows := db.rows ++ [db.newRow p now], nextId := db.nextId + 1 } := by
  obtain ⟨hpath, hop⟩ := violates_eq_none hfree
  have hmem : ∀ {r}, r ∈ db.rows ++ [db.newRow p now] → r ∈ db.rows ∨ r = db.newRow p now := fun hr => by
    simpa using hr
  constructor
  · show ((db.rows ++ [db.newRow p now]).map Row.id).Pairwise (· < ·)
    rw [map_append, pairwise_append]
    refine ⟨h.sorted, pairwise_singleton _ _, ?_⟩
    intro a ha b hb
    obtain ⟨r, hr, rfl⟩ := mem_map.mp ha
    obtain rfl := mem_singleton.mp hb
    exact h.fresh r hr
  · intro r hr
    rcases hmem hr with hr | rfl
    · exact Nat.lt_succ_of_lt (h.fresh r hr)
    · exact Nat.lt_succ_self _
  · refine h.running.concat (fun a b hab => ⟨hab.2, hab.1⟩) fun a _ hab => ?_
    exact absurd hab.1 (by simp [Db.newRow])
  · exact h.operations.concat sameOperation_comm hop
  · exact h.pushPaths.concat samePushPath_comm hpath
  · intro a ha b hb harun hbq
    rcases hmem ha with ha | rfl
    · rcases hmem hb with hb | rfl
      · exact h.fifo a ha b hb harun hbq
      · exact h.fresh a ha
    · simp [Db.newRow] at harun
  · intro a ha successor hsome
    rcases hmem ha with ha | rfl
    · obtain ⟨hcancelled, hlt, r', hr', hsucc⟩ := h.superseded a ha successor hsome
      exact ⟨hcancelled, hlt, r', mem_append_left _ hr', hsucc⟩
    · simp [Db.newRow] at hsome

/-- **Every move keeps the tables sound.** -/
theorem Sound.move (h : Sound db) (hmove : Move db db') : Sound db' := by
  cases hmove with
  | control c => exact ⟨h.sorted, h.fresh, h.running, h.operations, h.pushPaths, h.fifo, h.superseded⟩
  | skip =>
    exact ⟨h.sorted, fun r hr => Nat.lt_succ_of_lt (h.fresh r hr), h.running, h.operations, h.pushPaths,
      h.fifo, h.superseded⟩
  | update change hset => exact h.update hset
  | claim id change hidle hfirst hclaim => exact h.claim hidle hfirst hclaim
  | insert p now hfree => exact h.insert hfree
  | supersede id successor hlt hold hsucc => exact h.supersede hlt hold hsucc

theorem Sound.moves (h : Sound db) (hmoves : Moves db db') : Sound db' := by
  induction hmoves with
  | refl => exact h
  | tail _ hmove ih => exact ih.move hmove

/-! ### What a row keeps for good -/

/-- A row as it is found again later: a row that is done stays done, a successor stays the successor. -/
structure Lasts (r r' : Row) : Prop where
  id : r'.id = r.id
  request : r'.request = r.request
  done : r.status = .done → r'.status = .done
  superseded : ∀ successor, r.supersededBy = some successor → r'.supersededBy = some successor

/-- The later tables: no row is lost, and new rows have ids of their own. -/
structure Later (db db' : Db) : Prop where
  rows : ∀ r ∈ db.rows, ∃ r' ∈ db'.rows, Lasts r r'
  nextId : db.nextId ≤ db'.nextId
  length : db.rows.length ≤ db'.rows.length
  known : ∀ r' ∈ db'.rows, db.nextId ≤ r'.id ∨ ∃ r ∈ db.rows, Lasts r r'

theorem Lasts.refl (r : Row) : Lasts r r := ⟨rfl, rfl, fun h => h, fun _ h => h⟩

theorem Lasts.trans {a b c : Row} (h : Lasts a b) (h' : Lasts b c) : Lasts a c :=
  ⟨h'.id.trans h.id, h'.request.trans h.request, fun hd => h'.done (h.done hd),
    fun s hs => h'.superseded s (h.superseded s hs)⟩

theorem Later.refl (db : Db) : Later db db :=
  ⟨fun r hr => ⟨r, hr, .refl r⟩, le_rfl, le_rfl, fun r hr => .inr ⟨r, hr, .refl r⟩⟩

theorem Later.trans {a b c : Db} (h : Later a b) (h' : Later b c) : Later a c where
  rows := by
    intro r hr
    obtain ⟨r', hr', hlast⟩ := h.rows r hr
    obtain ⟨r'', hr'', hlast'⟩ := h'.rows r' hr'
    exact ⟨r'', hr'', hlast.trans hlast'⟩
  nextId := h.nextId.trans h'.nextId
  length := h.length.trans h'.length
  known := by
    intro r'' hr''
    rcases h'.known r'' hr'' with hnew | ⟨r', hr', hlast'⟩
    · exact .inl (h.nextId.trans hnew)
    · rcases h.known r' hr' with hnew | ⟨r, hr, hlast⟩
      · exact .inl (hlast'.id ▸ hnew)
      · exact .inr ⟨r, hr, hlast.trans hlast'⟩

theorem Later.map (h : ∀ r ∈ db.rows, Lasts r (change r)) :
    Later db { db with rows := db.rows.map change } where
  rows r hr := ⟨change r, mem_map_of_mem hr, h r hr⟩
  nextId := le_rfl
  length := by simp
  known r' hr' := by
    obtain ⟨r, hr, rfl⟩ := mem_map.mp hr'
    exact .inr ⟨r, hr, h r hr⟩

theorem Later.of_move (hmove : Move db db') : Later db db' := by
  cases hmove with
  | control c => exact ⟨(Later.refl db).rows, le_rfl, le_rfl, (Later.refl db).known⟩
  | skip => exact ⟨(Later.refl db).rows, Nat.le_succ _, le_rfl, (Later.refl db).known⟩
  | update change hset =>
    refine .map fun r hr => ⟨(hset r hr).id, (hset r hr).request, fun hdone => ?_, fun s hs => ?_⟩
    · have hstatus := (hset r hr).status
      generalize (change r).status = s at hstatus ⊢
      cases s <;> simp_all [Status.settles]
    · rw [(hset r hr).superseded, hs]
  | claim id change hidle hfirst hclaim =>
    refine .map fun r hr => ⟨(hclaim r hr).id, (hclaim r hr).request, fun hdone => ?_, fun s hs => ?_⟩
    · rcases (hclaim r hr).status with hsame | ⟨-, hq, -⟩
      · rw [hsame, hdone]
      · rw [hdone] at hq
        cases hq
    · rw [(hclaim r hr).superseded, hs]
  | insert p now hfree =>
    refine ⟨fun r hr => ⟨r, mem_append_left _ hr, .refl r⟩, Nat.le_succ _, by simp, fun r hr => ?_⟩
    rcases mem_append.mp hr with hr | hr
    · exact .inr ⟨r, hr, .refl r⟩
    · exact .inl (by rw [mem_singleton.mp hr]; exact le_rfl)
  | supersede id successor hlt hold hsucc =>
    refine .map fun r hr => ?_
    unfold supersede
    split
    · rename_i hid
      refine ⟨rfl, rfl, fun hdone => hdone, fun s hs => ?_⟩
      rw [(hold r hr (by simpa using hid)).2] at hs
      simp at hs
    · exact .refl r

theorem Later.of_moves (hmoves : Moves db db') : Later db db' := by
  induction hmoves with
  | refl => exact .refl db
  | tail _ hmove ih => exact ih.trans (.of_move hmove)

/-- A row somebody has read: what it fixes is what the table has under its id. -/
structure Known (db : Db) (old : Row) : Prop where
  fresh : old.id < db.nextId
  lasts : ∀ r ∈ db.rows, r.id = old.id → Lasts old r
  mem : ∃ r ∈ db.rows, r.id = old.id

theorem Known.later {old : Row} (h : Known db old) (hlater : Later db db') : Known db' old where
  fresh := h.fresh.trans_le hlater.nextId
  lasts := by
    intro r' hr' hid
    rcases hlater.known r' hr' with hnew | ⟨r, hr, hlast⟩
    · exact absurd (hid ▸ hnew) (Nat.not_le_of_lt h.fresh)
    · exact (h.lasts r hr (hlast.id ▸ hid)).trans hlast
  mem := by
    obtain ⟨r, hr, hid⟩ := h.mem
    obtain ⟨r', hr', hlast⟩ := hlater.rows r hr
    exact ⟨r', hr', hlast.id.trans hid⟩

theorem Sound.known (h : Sound db) (hr : r ∈ db.rows) : Known db r :=
  ⟨h.fresh r hr, fun _ hr' hid => h.row_unique hr hr' hid.symm ▸ .refl r, r, hr, rfl⟩

/-! ### Transactions are moves -/

theorem move_execute {guard : Row → Bool} {set : Row → Row} (h : ∀ r, guard r = true → Settles r (set r)) :
    Move db (db.execute guard set).2 := by
  refine .update db (fun r => if guard r then set r else r) fun r _ => ?_
  split
  · exact h r ‹_›
  · exact ⟨rfl, rfl, rfl, Status.settles_self _⟩

/-- An update of a row in a status is a move if the status may settle where the update takes it. -/
theorem move_advance {status : Status} {set : Row → Row} (h : ∀ r, r.status = status → Settles r (set r)) :
    Move db (db.advance id status set).2 := by
  refine move_execute fun r hr => h r ?_
  rw [Bool.and_eq_true, beq_iff_eq, beq_iff_eq] at hr
  exact hr.2

theorem moves_insert {p : Request} {now : ℕ} : Moves db (db.insert p now).2 := by
  unfold Db.insert
  cases hfree : db.violates (db.newRow p now) with
  | none => exact .single (.insert db p now hfree)
  | some index => exact .single (.skip db)

theorem moves_conditionalInsert {p : Request} {now : ℕ} {result : Except Db.Index ℕ × Db}
    (h : db.conditionalInsert p now = some result) : Moves db result.2 := by
  unfold Db.conditionalInsert at h
  split at h
  · rw [Option.some.injEq] at h
    exact h ▸ moves_insert
  · simp at h

theorem moves_enqueueAtomic (audit : Audit) (p : Request) (now : ℕ) (db : Db) :
    Moves db (enqueueAtomic audit p now db).2 := by
  unfold enqueueAtomic
  split
  · exact moves_conditionalInsert ‹_›
  · exact moves_conditionalInsert ‹_›
  · exact moves_conditionalInsert ‹_›
  · split
    · exact .refl
    · split
      · exact moves_conditionalInsert ‹_›
      · exact moves_conditionalInsert ‹_›
      · exact .refl

theorem moves_claimForExecution (native : Bool) (observations : List Observation) (id now : ℕ) (db : Db) :
    Moves db (claimForExecution native observations id now db).2 := by
  unfold claimForExecution
  split
  · exact .refl
  split
  · rename_i hclaimable
    simp only [Db.claimable, Bool.and_eq_true, all_eq_true, bne_iff_ne, Bool.or_eq_true,
      decide_eq_true_eq] at hclaimable
    split
    · exact .refl
    · split
      · exact .refl
      · refine .single (.claim db id _ hclaimable.1.2 (fun r hr hq => ?_) fun r _ => ?_)
        · exact (hclaimable.2 r hr).resolve_left fun hne => hne hq
        · split
          · rename_i hguard
            rw [Bool.and_eq_true, beq_iff_eq, beq_iff_eq] at hguard
            exact ⟨rfl, rfl, rfl, .inr ⟨hguard.1, hguard.2, rfl⟩⟩
          · exact ⟨rfl, rfl, rfl, .inl rfl⟩
    · exact .refl
  · exact .refl

theorem move_touchHeartbeat (id now : ℕ) (db : Db) : Move db (touchHeartbeat id now db) :=
  move_execute fun _ _ => ⟨rfl, rfl, rfl, Status.settles_self _⟩

theorem move_cancelIfQueued (id : ℕ) (db : Db) : Move db (cancelIfQueued id db).2 :=
  move_advance fun _ h => ⟨rfl, rfl, rfl, by rw [h]; rfl⟩

theorem move_cancelStaleQueuedInTxn (cutoff : ℕ) (db : Db) : Move db (cancelStaleQueuedInTxn cutoff db).2 := by
  refine move_execute fun r hr => ⟨rfl, rfl, rfl, ?_⟩
  rw [Bool.and_eq_true, beq_iff_eq] at hr
  rw [hr.1]
  rfl

theorem move_resetRunningToQueuedInTxn (id now : ℕ) (db : Db) :
    Move db (resetRunningToQueuedInTxn id now db).2 :=
  move_advance fun _ h => ⟨rfl, rfl, rfl, by rw [h]; rfl⟩

theorem move_resetRunningToQueued (id now : ℕ) (db : Db) : Move db (resetRunningToQueued id now db).2 :=
  move_advance fun _ h => ⟨rfl, rfl, rfl, by rw [h]; rfl⟩

theorem move_persistRequeueConflictIntent (id : ℕ) (db : Db) :
    Move db (persistRequeueConflictIntent id db).2 :=
  move_advance fun _ _ => ⟨rfl, rfl, rfl, Status.settles_self _⟩

theorem move_markDoneIfRunningInTxn (id : ℕ) (landed : View.Text) (db : Db) :
    Move db (markDoneIfRunningInTxn id landed db).2 :=
  move_advance fun _ h => ⟨rfl, rfl, rfl, by rw [h]; rfl⟩

theorem move_markFailedIfRunningInTxn (id : ℕ) (failure : Failure) (message : View.Text) (db : Db) :
    Move db (markFailedIfRunningInTxn id failure message db).2 :=
  move_advance fun _ h => ⟨rfl, rfl, rfl, by rw [h]; rfl⟩

theorem move_freezeMergeForAuthz (clLink message : View.Text) (db : Db) :
    Move db (freezeMergeForAuthz clLink message db).2 := by
  refine move_execute fun r hr => ⟨rfl, rfl, rfl, ?_⟩
  generalize r.status = s at hr ⊢
  cases s <;> simp_all [Status.active, Status.settles]

theorem move_cancelForRequeue (id : ℕ) (db : Db) : Move db (cancelForRequeue id db).2 := by
  refine move_execute fun r hr => ⟨rfl, rfl, rfl, ?_⟩
  simp only [Row.requeueable, Bool.and_eq_true, beq_iff_eq] at hr
  rw [hr.2.1.1]
  rfl

/-- If a row was cancelled, it is the one row with the id. -/
theorem cancelForRequeue_row (hsound : Sound db) (hcount : (cancelForRequeue id db).1 ≠ 0)
    (hr' : r' ∈ (cancelForRequeue id db).2.rows) (hid : r'.id = id) :
    r'.status = .cancelled ∧ r'.supersededBy = none ∧ ∃ r ∈ db.rows, r.id = id ∧ r'.request = r.request := by
  obtain ⟨r₀, hr₀, hguard⟩ := countP_pos_iff.mp (Nat.pos_of_ne_zero hcount)
  obtain ⟨r, hr, rfl⟩ := mem_map.mp hr'
  have hrid : r.id = id := by
    rw [← hid]
    split <;> rfl
  have hguard' := hguard
  simp only [Row.requeueable, Bool.and_eq_true, beq_iff_eq, Option.isNone_iff_eq_none] at hguard'
  obtain rfl := hsound.row_unique hr hr₀ (hrid.trans hguard'.1.symm)
  rw [if_pos hguard]
  exact ⟨rfl, hguard'.2.2, r, hr, hrid, rfl⟩

/-- What a requeue can do: nothing but read, or draw an id and fail, or cancel, insert and supersede. -/
theorem requeue_cases (old : Row) (now : ℕ) (db : Db) :
    ((cancelForRequeue old.id db).1 = 0 ∧ completeConflictRequeue old now db =
        (((db.getById old.id).bind Row.supersededBy).elim (.error .notRequeueable) .ok, db)) ∨
      (∃ index, completeConflictRequeue old now db =
        (.error (.database index), { db with nextId := db.nextId + 1 })) ∨
      ((cancelForRequeue old.id db).1 ≠ 0 ∧
        ∃ db₁, db₁ = (cancelForRequeue old.id db).2 ∧ db₁.violates (db₁.newRow old.request now) = none ∧
          completeConflictRequeue old now db = (.ok db₁.nextId, { db₁ with
            rows := (db₁.rows ++ [db₁.newRow old.request now]).map (supersede old.id db₁.nextId)
            nextId := db₁.nextId + 1 })) := by
  unfold completeConflictRequeue
  by_cases hcount : (cancelForRequeue old.id db).1 = 0
  · exact .inl ⟨hcount, if_pos hcount⟩
  · rw [if_neg hcount]
    unfold Db.insert
    cases hfree : (cancelForRequeue old.id db).2.violates ((cancelForRequeue old.id db).2.newRow old.request now)
    · exact .inr (.inr ⟨hcount, _, rfl, hfree, rfl⟩)
    · exact .inr (.inl ⟨_, rfl⟩)

theorem moves_requeue {old : Row} (hsound : Sound db) (hknown : Known db old) (now : ℕ) :
    Moves db (completeConflictRequeue old now db).2 := by
  obtain ⟨-, heq⟩ | ⟨index, heq⟩ | ⟨hcount, db₁, hdb₁, hfree, heq⟩ := requeue_cases old now db
  · rw [heq]
  · rw [heq]
    exact .single (.skip db)
  rw [heq]
  have hmove : Move db db₁ := hdb₁ ▸ move_cancelForRequeue old.id db
  have hfresh : old.id < db₁.nextId := hdb₁ ▸ hknown.fresh
  have hold : ∀ r ∈ db₁.rows, r.id = old.id →
      r.status = .cancelled ∧ r.supersededBy = none ∧ r.request = old.request := by
    intro r hr hid
    obtain ⟨hcancelled, hnone, r₀, hr₀, hid₀, hrequest⟩ := cancelForRequeue_row hsound hcount (hdb₁ ▸ hr) hid
    exact ⟨hcancelled, hnone, hrequest.trans (hknown.lasts r₀ hr₀ hid₀).request⟩
  refine .tail (.tail (.single hmove) (.insert db₁ old.request now hfree)) ?_
  refine .supersede _ old.id db₁.nextId hfresh (fun r hr hid => ?_) fun r hr hid => ?_
  · rcases mem_append.mp hr with hr | hr
    · exact ⟨(hold r hr hid).1, (hold r hr hid).2.1⟩
    · rw [mem_singleton.mp hr] at hid
      exact absurd hid (Nat.ne_of_gt hfresh)
  · refine ⟨db₁.newRow old.request now, mem_append_right _ (mem_singleton_self _), rfl, ?_⟩
    rcases mem_append.mp hr with hr | hr
    · exact (hold r hr hid).2.2.symm
    · rw [mem_singleton.mp hr]

/-! ### The reaper -/

theorem moves_reapRunningRow {c : ReapContext} {hardStopped : Bool} {row : Row} (hsound : Sound db)
    (hknown : Known db row) (h : reapRunningRow c hardStopped row db = .ok db') : Moves db db' := by
  unfold reapRunningRow at h
  split at h
  · obtain rfl := Except.ok.inj h
    exact .tail (.single (.control db _)) (move_markFailedIfRunningInTxn _ _ _ _)
  split at h
  · have heq : db' = (completeConflictRequeue row c.now db).2 := by
      generalize completeConflictRequeue row c.now db = result at h ⊢
      obtain ⟨_ | _, _⟩ := result
      · simp [Except.map] at h
      · exact (Except.ok.inj h).symm
    exact heq ▸ moves_requeue hsound hknown c.now
  split at h
  · obtain rfl := Except.ok.inj h
    exact .single (move_resetRunningToQueuedInTxn _ _ _)
  · obtain rfl := Except.ok.inj h
    exact .single (move_markFailedIfRunningInTxn _ _ _ _)

theorem moves_reapRows {c : ReapContext} {hardStopped : Bool} : ∀ {rows : List Row} {db db' : Db},
    Sound db → (∀ row ∈ rows, Known db row) → reapRows c hardStopped rows db = .ok db' → Moves db db'
  | [], db, db', _, _, h => by
    obtain rfl := Except.ok.inj h
    exact .refl
  | row :: rows, db, db', hsound, hknown, h => by
    rw [reapRows] at h
    split at h
    · exact moves_reapRows hsound (fun r hr => hknown r (mem_cons_of_mem _ hr)) h
    · cases hrow : reapRunningRow c hardStopped row db with
      | error e => simp [hrow, Except.bind] at h
      | ok db₁ =>
        rw [hrow] at h
        have hmoves := moves_reapRunningRow hsound (hknown row mem_cons_self) hrow
        exact hmoves.trans (moves_reapRows (hsound.moves hmoves)
          (fun r hr => (hknown r (mem_cons_of_mem _ hr)).later (.of_moves hmoves)) h)

theorem moves_reapOnce {c : ReapContext} (hsound : Sound db) (h : reapOnce c db = .ok db') : Moves db db' := by
  unfold reapOnce at h
  have hstale : Moves db (if db.control.hardStopped then db
      else (cancelStaleQueuedInTxn c.heartbeatCutoff db).2) := by
    split
    · exact .refl
    · exact .single (move_cancelStaleQueuedInTxn _ _)
  generalize (if db.control.hardStopped then db
    else (cancelStaleQueuedInTxn c.heartbeatCutoff db).2) = db₁ at h hstale
  split at h
  · exact hstale.trans (moves_reapRows (hsound.moves hstale)
      (fun row hrow => (hsound.moves hstale).known (mem_of_mem_filter hrow)) h)
  · obtain rfl := Except.ok.inj h
    exact hstale

/-! ### Runs -/

/-- What holds after every transaction: the tables are sound, and what was read is known. -/
structure Valid (s : State) : Prop where
  sound : Sound s.db
  reads : ∀ old ∈ s.reads, Known s.db old

theorem valid_initial : Valid {} :=
  ⟨⟨.nil, by simp, by simp [Table.KeyedBy], by simp [Table.KeyedBy], by simp [Table.KeyedBy], by simp, by simp⟩,
    by simp⟩

theorem Valid.commit {s : State} (h : Valid s) (hmoves : Moves s.db db) : Valid (s.commit db) :=
  ⟨h.sound.moves hmoves, fun old hold => (h.reads old hold).later (.of_moves hmoves)⟩

/-- What one transaction does: it moves the tables. -/
theorem moves_step {s : State} (h : Valid s) (e : Event) : Moves s.db (step s e).db := by
  cases e with
  | enqueue audit p now => exact moves_enqueueAtomic audit p now s.db
  | claim native observations id now => exact moves_claimForExecution native observations id now s.db
  | touch id now => exact .single (move_touchHeartbeat id now s.db)
  | cancel id => exact .single (move_cancelIfQueued id s.db)
  | freezeMerge clLink message => exact .single (move_freezeMergeForAuthz clLink message s.db)
  | reset id now => exact .single (move_resetRunningToQueued id now s.db)
  | persistIntent id => exact .single (move_persistRequeueConflictIntent id s.db)
  | markDone id landed => exact .single (move_markDoneIfRunningInTxn id landed s.db)
  | markFailed id failure message => exact .single (move_markFailedIfRunningInTxn id failure message s.db)
  | setFlags paused hardStopped maxDepth => exact .single (.control s.db _)
  | read id => exact .refl
  | requeue old now =>
    unfold step
    dsimp only
    split
    · rename_i hread
      exact moves_requeue h.sound (h.reads old (by simpa using hread)) now
    · exact .refl
  | reap c =>
    show Moves s.db ((reapOnce c s.db).toOption.getD s.db)
    cases hreap : reapOnce c s.db with
    | error e => exact .refl
    | ok db => exact moves_reapOnce h.sound hreap

theorem valid_step (s : State) (e : Event) (h : Valid s) : Valid (step s e) := by
  have hmoves := moves_step h e
  refine ⟨h.sound.moves hmoves, fun old hold => ?_⟩
  have hread : old ∈ s.reads ∨ old ∈ s.db.rows := by
    cases e with
    | read id =>
      rcases mem_append.mp hold with hold | hold
      · exact .inl hold
      · exact .inr (mem_of_find?_eq_some (Option.mem_toList.mp hold))
    | requeue old' now =>
      unfold step at hold
      dsimp only at hold
      split at hold <;> exact .inl hold
    | _ => exact .inl hold
  rcases hread with hread | hmem
  · exact (h.reads old hread).later (.of_moves hmoves)
  · exact (h.sound.known hmem).later (.of_moves hmoves)

/-- **After every run the tables are sound.** -/
theorem valid_after (events : List Event) : Valid (after events) :=
  Run.run_invariant valid_step events valid_initial

/-- No row is lost or changes what it keeps for good, in any run from a valid state. -/
theorem later_run {s : State} (h : Valid s) (events : List Event) : Later s.db (Run.run step s events).db :=
  @Run.run_relation _ _ step Valid (fun a b => Later a.db b.db) (fun s => .refl s.db)
    (fun hab hbc => hab.trans hbc) valid_step (fun _ e hs => .of_moves (moves_step hs e)) s events h

end PushQueue
end Mega
