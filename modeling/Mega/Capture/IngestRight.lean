/-
# What ingestion keeps

Under its session lock, a batch only adds: event rows and receipts are appended,
the watermark of a stream goes up, and the session becomes more complete. So a
run of batches only adds, an accepted batch finds its receipt whenever it is
repeated, and the watermark of a stream is at least every position that a batch
of this stream stored.

Key definitions: `Keyed`, `watermark`, `Grown`.
Key theorems: `advanceSourceStream_ok`, `insertEvents_ok`, `insertNewBatch_ok`,
`grown_run`, `ingestion_monotone_and_idempotent`.
-/
import Mega.Capture.Ingest
import Mega.Lib.Fallible

namespace Mega
namespace Capture

open List View Fallible

/-! ### Positions -/

/-- Positions in the order in which a stream grows. -/
def PosLe (a b : ℕ × ℕ) : Prop := a.1 < b.1 ∨ (a.1 = b.1 ∧ a.2 ≤ b.2)

theorem posLe_refl (a : ℕ × ℕ) : PosLe a a := .inr ⟨rfl, le_refl _⟩

theorem PosLe.trans {a b c : ℕ × ℕ} (hab : PosLe a b) (hbc : PosLe b c) : PosLe a c := by
  unfold PosLe at *
  omega

theorem posLt_iff {a b : ℕ × ℕ} : posLt a b = true ↔ ¬ PosLe b a := by
  simp only [posLt, Bool.or_eq_true, decide_eq_true_eq, Bool.and_eq_true, beq_iff_eq, PosLe]
  omega

theorem posLe_of_not_posLt {a b : ℕ × ℕ} (h : ¬ posLt a b = true) : PosLe b a := not_not.mp (mt posLt_iff.mpr h)

theorem posLe_total (a b : ℕ × ℕ) : PosLe a b ∨ PosLe b a := by
  unfold PosLe
  omega

theorem posLe_raise (watermark : Option (ℕ × ℕ)) (pos : ℕ × ℕ) :
    PosLe pos (raise watermark pos) ∧ ∀ w, watermark = some w → PosLe w (raise watermark pos) := by
  cases watermark with
  | none => exact ⟨posLe_refl pos, by simp⟩
  | some w =>
    simp only [raise, Option.some.injEq, forall_eq']
    split_ifs with hlt
    · exact ⟨(posLe_total _ _).resolve_right (posLt_iff.mp hlt), posLe_refl w⟩
    · exact ⟨posLe_refl pos, posLe_of_not_posLt hlt⟩

/-- A watermark that may not be set yet is at least a position. -/
def Reached (watermark : Option (ℕ × ℕ)) (pos : ℕ × ℕ) : Prop := ∃ w, watermark = some w ∧ PosLe pos w

theorem Reached.trans {watermark watermark' : Option (ℕ × ℕ)} {pos : ℕ × ℕ} (h : Reached watermark pos)
    (hup : ∀ w, watermark = some w → Reached watermark' w) : Reached watermark' pos := by
  obtain ⟨w, hw, hle⟩ := h
  obtain ⟨w', hw', hle'⟩ := hup w hw
  exact ⟨w', hw', hle.trans hle'⟩

/-! ### The events of a batch -/

section Events

variable {Json Digest : Type}
variable {captureId : ℕ} {fp : Fingerprints Json Digest} {db : Db Json Digest}

/-- What the unique key of the event rows is made of. -/
def EventRow.key (row : EventRow Json Digest) : ℕ × Text := (row.captureId, row.eventUid)

/-- How the loop over the events may have gone on: `new` are the rows it inserted. -/
structure Inserted (captureId : ℕ) (new : List (EventRow Json Digest)) (progress progress' : Progress Json Digest) :
    Prop where
  events : progress'.events = progress.events ++ new
  owned : ∀ row ∈ new, row.captureId = captureId
  nodup : (progress.events.map EventRow.key).Nodup → (progress'.events.map EventRow.key).Nodup
  watermark : ∀ w, progress.watermark = some w → Reached progress'.watermark w
  covers : ∀ row ∈ new, ∀ pos, parseEventUidParts row.eventUid = some pos → Reached progress'.watermark pos
  counted : (progress'.byGeneration.map EventsBatchGroup.newEventCount).sum =
    (progress.byGeneration.map EventsBatchGroup.newEventCount).sum + new.length

theorem inserted_refl (captureId : ℕ) (progress : Progress Json Digest) :
    Inserted captureId [] progress progress := by
  constructor
  case watermark => exact fun w hw => ⟨w, hw, posLe_refl w⟩
  all_goals simp

theorem Inserted.trans {new more : List (EventRow Json Digest)} {a b c : Progress Json Digest}
    (hab : Inserted captureId new a b) (hbc : Inserted captureId more b c) :
    Inserted captureId (new ++ more) a c := by
  constructor
  case events => rw [hbc.events, hab.events, append_assoc]
  case owned => exact fun row hrow => (mem_append.mp hrow).elim (hab.owned row) (hbc.owned row)
  case nodup => exact fun h => hbc.nodup (hab.nodup h)
  case watermark => exact fun w hw => (hab.watermark w hw).trans hbc.watermark
  case covers =>
    intro row hrow pos hpos
    obtain hrow | hrow := mem_append.mp hrow
    · exact (hab.covers row hrow pos hpos).trans hbc.watermark
    · exact hbc.covers row hrow pos hpos
  case counted => rw [hbc.counted, hab.counted, length_append, Nat.add_assoc]

theorem sum_bump (generation : ℕ) : ∀ groups : List EventsBatchGroup,
    ((bump generation groups).map EventsBatchGroup.newEventCount).sum =
      (groups.map EventsBatchGroup.newEventCount).sum + 1
  | [] => rfl
  | group :: groups => by
    have ih := sum_bump generation groups
    unfold bump
    split_ifs <;> simp only [map_cons, sum_cons] <;> omega

theorem nodup_concat_row {rows : List (EventRow Json Digest)} {row : EventRow Json Digest}
    (hnodup : (rows.map EventRow.key).Nodup) (hfresh : ∀ r ∈ rows, r.key ≠ row.key) :
    ((rows ++ [row]).map EventRow.key).Nodup := by
  rw [← concat_eq_append, map_concat]
  exact hnodup.concat fun h => (mem_map.mp h).elim fun r hr => hfresh r hr.1 hr.2

variable [DecidableEq Digest]

theorem insertEvent_ok {progress progress' : Progress Json Digest} {event : InsertEvent Json}
    (h : insertEvent fp captureId progress event = .ok progress') :
    ∃ new, Inserted captureId new progress progress' := by
  unfold insertEvent at h
  cases hfp : fp.payload event.payload with
  | none => simp [hfp] at h
  | some fingerprint =>
    simp only [hfp] at h
    split at h
    · -- the uid is stored: the row stays as it is
      split at h
      · obtain rfl := Except.ok.inj h
        exact ⟨[], inserted_refl captureId progress⟩
      · simp at h
    · rename_i hnone
      have hfresh : ∀ r ∈ progress.events, r.key ≠ (toRow captureId event fingerprint).key := by
        intro r hr heq
        have hmiss := List.find?_eq_none.mp hnone r hr
        simp only [EventRow.key, toRow, Prod.mk.injEq] at heq
        simp [heq.1, heq.2] at hmiss
      have hone : ∀ watermark generation, (∀ w, progress.watermark = some w → Reached watermark w) →
          (∀ pos, parseEventUidParts event.eventUid = some pos → Reached watermark pos) →
          Inserted captureId [toRow captureId event fingerprint] progress
            ⟨progress.events ++ [toRow captureId event fingerprint], watermark,
              bump generation progress.byGeneration⟩ := fun watermark generation hup hcovers =>
        ⟨rfl, by simp [toRow], fun hn => nodup_concat_row hn hfresh, hup, by simpa [toRow] using hcovers,
          sum_bump generation progress.byGeneration⟩
      refine ⟨[toRow captureId event fingerprint], ?_⟩
      cases hpos : parseEventUidParts event.eventUid with
      | none =>
        simp only [hpos] at h
        obtain rfl := Except.ok.inj h
        exact hone _ 0 (fun w hw => ⟨w, hw, posLe_refl w⟩) (by simp [hpos])
      | some pos =>
        simp only [hpos] at h
        obtain rfl := Except.ok.inj h
        obtain ⟨hnew, hold⟩ := posLe_raise progress.watermark pos
        refine hone _ pos.1 (fun w hw => ⟨_, rfl, hold w hw⟩) fun pos' hpos' => ?_
        obtain rfl := Option.some_injective _ (hpos.symm.trans hpos')
        exact ⟨_, rfl, hnew⟩

theorem insertEvents_ok :
    ∀ {events : List (InsertEvent Json)} {progress progress' : Progress Json Digest},
      insertEvents fp captureId events progress = .ok progress' → ∃ new, Inserted captureId new progress progress'
  | [], progress, progress', h => by
    obtain rfl := Except.ok.inj h
    exact ⟨[], inserted_refl captureId progress⟩
  | event :: events, progress, progress', h => by
    obtain ⟨middle, hmiddle, h⟩ := bind_eq_ok.mp h
    obtain ⟨new, hnew⟩ := insertEvent_ok hmiddle
    obtain ⟨more, hmore⟩ := insertEvents_ok h
    exact ⟨new ++ more, hnew.trans hmore⟩

end Events

/-! ### Watermarks -/

/-- The watermark of a stream. -/
def watermarkOf (streams : List StreamRow) (captureId : ℕ) (streamKind : Text) : Option (ℕ × ℕ) :=
  (currentStream streams captureId streamKind).map fun row => (row.generation, row.byteOffset)

theorem currentStream_mem {streams : List StreamRow} {streamKind : Text} {row : StreamRow}
    (h : currentStream streams captureId streamKind = some row) :
    row.captureId = captureId ∧ row.streamKind = streamKind := by
  simpa using (mem_filter.mp (Table.topBy_mem h).1).2

/-- A new row of another stream, or with a greater generation. -/
theorem currentStream_concat {streams : List StreamRow} (row : StreamRow) (captureId : ℕ) (streamKind : Text)
    (htop : ∀ r, currentStream streams row.captureId row.streamKind = some r → r.generation < row.generation) :
    currentStream (streams ++ [row]) captureId streamKind =
      if row.captureId = captureId ∧ row.streamKind = streamKind then some row
      else currentStream streams captureId streamKind := by
  unfold currentStream
  rw [filter_append]
  by_cases hsame : row.captureId = captureId ∧ row.streamKind = streamKind
  · obtain ⟨rfl, rfl⟩ := hsame
    simp only [and_self, if_true, filter_cons, decide_true, filter_nil]
    apply Table.topBy_concat
    intro r hr
    set rows := streams.filter fun r => r.captureId = row.captureId ∧ r.streamKind = row.streamKind with hrows
    cases hbest : Table.topBy StreamRow.generation rows with
    | none =>
      have hsome : (Table.topBy StreamRow.generation rows).isSome = true := by
        rw [Table.isSome_topBy]
        exact ne_nil_of_mem hr
      simp [hbest] at hsome
    | some best =>
      have hle := (Table.topBy_mem hbest).2 r hr
      have hlt := htop best (by rw [currentStream, ← hrows]; exact hbest)
      omega
  · rw [if_neg hsame]
    simp only [filter_cons, hsame, decide_false, Bool.false_eq_true, if_false, filter_nil,
      append_nil]

/-- Raising the offset of one row. -/
theorem currentStream_update (streams : List StreamRow) (key : ℕ × Text × ℕ) (offset captureId : ℕ)
    (streamKind : Text) :
    currentStream (Table.updateKey StreamRow.key key (fun row => { row with byteOffset := offset }) streams)
        captureId streamKind =
      (currentStream streams captureId streamKind).map fun row =>
        if row.key = key then { row with byteOffset := offset } else row := by
  unfold currentStream Table.updateKey
  rw [filter_map]
  have hsame : ((fun row : StreamRow => decide (row.captureId = captureId ∧ row.streamKind = streamKind)) ∘
      fun row => if row.key = key then { row with byteOffset := offset } else row) =
      fun row => decide (row.captureId = captureId ∧ row.streamKind = streamKind) := by
    funext row
    simp only [Function.comp_apply]
    split <;> rfl
  rw [hsame]
  apply Table.topBy_map
  intro row
  split <;> rfl

/-- **The watermark goes to the position**, which is at least where it was; other watermarks stay. -/
theorem advanceSourceStream_ok {streams streams' : List StreamRow} {streamKind : Text} {pos : ℕ × ℕ}
    (h : advanceSourceStream streams captureId streamKind pos = .ok streams') :
    watermarkOf streams' captureId streamKind = some pos ∧
    (∀ w, watermarkOf streams captureId streamKind = some w → PosLe w pos) ∧
    ∀ captureId' streamKind', ¬ (captureId = captureId' ∧ streamKind = streamKind') →
      watermarkOf streams' captureId' streamKind' = watermarkOf streams captureId' streamKind' := by
  unfold advanceSourceStream at h
  have hconcat : (∀ r, currentStream streams captureId streamKind = some r → r.generation < pos.1) →
      ∀ captureId' streamKind',
        watermarkOf (streams ++ [⟨captureId, streamKind, pos.1, pos.2⟩]) captureId' streamKind' =
          if captureId = captureId' ∧ streamKind = streamKind' then some pos
          else watermarkOf streams captureId' streamKind' := by
    intro htop captureId' streamKind'
    have hrow := currentStream_concat ⟨captureId, streamKind, pos.1, pos.2⟩ captureId' streamKind' htop
    unfold watermarkOf
    rw [hrow]
    split <;> rfl
  -- a row for a new generation
  have hnext : (∀ r, currentStream streams captureId streamKind = some r → r.generation < pos.1) →
      watermarkOf (streams ++ [⟨captureId, streamKind, pos.1, pos.2⟩]) captureId streamKind = some pos ∧
      ∀ captureId' streamKind', ¬ (captureId = captureId' ∧ streamKind = streamKind') →
        watermarkOf (streams ++ [⟨captureId, streamKind, pos.1, pos.2⟩]) captureId' streamKind' =
          watermarkOf streams captureId' streamKind' := fun htop =>
    ⟨by simp [hconcat htop], fun _ _ hother => by rw [hconcat htop, if_neg hother]⟩
  cases hcurrent : currentStream streams captureId streamKind with
  | none =>
    simp only [hcurrent] at h
    obtain rfl := Except.ok.inj h
    obtain ⟨hpos, hothers⟩ := hnext (by simp [hcurrent])
    exact ⟨hpos, by simp [watermarkOf, hcurrent], hothers⟩
  | some current =>
    simp only [hcurrent, guard_eq_ok] at h
    obtain ⟨hregress, h⟩ := h
    have hle := posLe_of_not_posLt hregress
    have hold : ∀ w, watermarkOf streams captureId streamKind = some w → PosLe w pos := by
      simpa [watermarkOf, hcurrent] using hle
    simp only [PosLe] at hle
    split_ifs at h with hgeneration hoffset <;> obtain rfl := Except.ok.inj h
    · refine ⟨?_, hold, fun captureId' streamKind' hother => ?_⟩
      · rw [watermarkOf, currentStream_update, hcurrent]
        simp [← hgeneration]
      · unfold watermarkOf
        rw [currentStream_update]
        cases hrow : currentStream streams captureId' streamKind' with
        | none => rfl
        | some row =>
          have hkey : row.key ≠ current.key := by
            obtain ⟨rfl, rfl⟩ := currentStream_mem hcurrent
            obtain ⟨rfl, rfl⟩ := currentStream_mem hrow
            simp only [StreamRow.key, ne_eq, Prod.mk.injEq]
            exact fun hkey => hother ⟨hkey.1.symm, hkey.2.1.symm⟩
          simp [hkey]
    · refine ⟨?_, hold, fun _ _ _ => rfl⟩
      have hsame : current.byteOffset = pos.2 := by omega
      simp only [watermarkOf, hcurrent, Option.map_some, hsame, ← hgeneration]
    · obtain ⟨hpos, hothers⟩ := hnext fun r hr => by
        obtain rfl := Option.some_injective _ (hcurrent.symm.trans hr)
        omega
      exact ⟨hpos, hold, hothers⟩

/-- A batch moves no watermark but the one of its stream, and that one to its greatest new position. -/
theorem advanceBy_ok {streams streams' : List StreamRow} {streamKind : Text} {pos : Option (ℕ × ℕ)}
    (h : advanceBy streams captureId streamKind pos = .ok streams') :
    (∀ captureId' streamKind' w, watermarkOf streams captureId' streamKind' = some w →
      Reached (watermarkOf streams' captureId' streamKind') w) ∧
    ∀ p, pos = some p → watermarkOf streams' captureId streamKind = some p := by
  cases pos with
  | none =>
    obtain rfl := Except.ok.inj h
    exact ⟨fun _ _ w hw => ⟨w, hw, posLe_refl w⟩, by simp⟩
  | some pos =>
    obtain ⟨hpos, hup, hother⟩ := advanceSourceStream_ok h
    refine ⟨fun captureId' streamKind' w hw => ?_, fun p hp => Option.some_injective _ hp ▸ hpos⟩
    by_cases hsame : captureId = captureId' ∧ streamKind = streamKind'
    · obtain ⟨rfl, rfl⟩ := hsame
      exact ⟨pos, hpos, hup w hw⟩
    · exact ⟨w, (hother captureId' streamKind' hsame).trans hw, posLe_refl w⟩

/-! ### Sessions -/

/-- A session becomes more complete, in the order empty, incomplete, complete; nothing else changes. -/
def Completeness.Advances (a b : Completeness) : Prop :=
  a = b ∨ (a = .empty ∧ (b = .incomplete ∨ b = .complete)) ∨ (a = .incomplete ∧ b = .complete)

theorem Completeness.Advances.trans {a b c : Completeness} (hab : a.Advances b) (hbc : b.Advances c) :
    a.Advances c := by
  unfold Completeness.Advances at *
  cases a <;> cases b <;> cases c <;> simp_all

theorem advances_nextCompleteness (current : Completeness) (completeness : Option Text) (noEvents : Bool) :
    current.Advances (nextCompleteness current completeness noEvents) := by
  have hrequested : ∀ {text next}, requested text = some next → next = .incomplete ∨ next = .complete := by
    intro text next h
    unfold requested at h
    split_ifs at h <;> obtain rfl := Option.some_injective _ h <;> simp
  unfold nextCompleteness Completeness.Advances
  cases hnext : completeness.bind requested with
  | none => cases current <;> cases noEvents <;> simp
  | some next =>
    obtain ⟨text, -, htext⟩ := Option.bind_eq_some_iff.mp hnext
    cases current <;> simp [hrequested htext]
    obtain rfl | rfl := hrequested htext <;> simp

/-- The session rows before and after. -/
def Session.Advances (a b : Session) : Prop :=
  b = { a with completeness := b.completeness } ∧ a.completeness.Advances b.completeness

theorem Session.advances_refl (a : Session) : a.Advances a := ⟨rfl, .inl rfl⟩

theorem Session.Advances.trans {a b c : Session} (hab : a.Advances b) (hbc : b.Advances c) : a.Advances c := by
  refine ⟨?_, hab.2.trans hbc.2⟩
  rw [hbc.1, hab.1]

/-! ### One batch -/

section Batch

variable {Json Digest : Type}

/-- The primary key of the sessions and the unique key of the events hold. -/
structure Keyed (db : Db Json Digest) : Prop where
  sessions : (db.sessions.map Session.id).Nodup
  events : (db.events.map EventRow.key).Nodup

/-- The watermark of a stream of a capture. -/
def watermark (db : Db Json Digest) (captureId : ℕ) (streamKind : Text) : Option (ℕ × ℕ) :=
  watermarkOf db.streams captureId streamKind

/-- What ingestion does to the tables: no event row and no receipt is changed or removed, sessions only
become more complete, and no watermark goes down. -/
structure Grown (db db' : Db Json Digest) : Prop where
  events : db.events <+: db'.events
  receipts : db.receipts <+: db'.receipts
  sessions : List.Forall₂ Session.Advances db.sessions db'.sessions
  watermarks : ∀ captureId streamKind w, watermark db captureId streamKind = some w →
    Reached (watermark db' captureId streamKind) w

theorem grown_refl (db : Db Json Digest) : Grown db db :=
  ⟨prefix_rfl, prefix_rfl, forall₂_same.mpr fun s _ => s.advances_refl,
    fun _ _ w hw => ⟨w, hw, posLe_refl w⟩⟩

theorem Grown.trans {a b c : Db Json Digest} (hab : Grown a b) (hbc : Grown b c) : Grown a c := by
  constructor
  case events => exact hab.events.trans hbc.events
  case receipts => exact hab.receipts.trans hbc.receipts
  case sessions => exact Table.forall₂_trans (fun _ _ _ h h' => h.trans h') hab.sessions hbc.sessions
  case watermarks =>
    exact fun captureId streamKind w hw =>
      (hab.watermarks captureId streamKind w hw).trans (hbc.watermarks captureId streamKind)

variable [DecidableEq Digest]

/-- What a batch without a receipt does when it is accepted. -/
structure Stored (call : Call Json) (session : Session) (fingerprint : Digest) (db db' : Db Json Digest) : Prop where
  keyed : Keyed db'
  grown : Grown db db'
  covers : ∀ row ∈ db'.events, row ∉ db.events → ∀ pos, parseEventUidParts row.eventUid = some pos →
    Reached (watermark db' call.captureId call.streamKind) pos
  receipt : ∃ receipt, db'.receipts = db.receipts ++ [receipt] ∧ receipt.fingerprint = fingerprint ∧
    receiptByScope [receipt] session call.batchId = some receipt

theorem insertNewBatch_ok {db' : Db Json Digest} {session : Session} {call : Call Json} {fingerprint : Digest}
    {snapshot : EventsBatchSnapshot} (hdb : Keyed db) (hsession : session ∈ db.sessions)
    (h : insertNewBatch fp db session call fingerprint = .ok (snapshot, db')) :
    Stored call session fingerprint db db' := by
  simp only [insertNewBatch, guard_eq_ok, bind_eq_ok, Except.ok.injEq, Prod.mk.injEq] at h
  obtain ⟨-, progress, hprogress, streams, hstreams, h⟩ := h
  obtain ⟨new, hnew⟩ := insertEvents_ok hprogress
  obtain ⟨-, rfl⟩ := h
  have hmarks := advanceBy_ok hstreams
  have hsessions : ∀ row ∈ db.sessions, row.id = session.id → row = session :=
    fun row hrow hid => inj_on_of_nodup_map hdb.sessions hrow hsession hid
  constructor
  case keyed =>
    constructor
    · rw [Table.map_updateKey (by intro row; rfl)]
      exact hdb.sessions
    · exact hnew.nodup hdb.events
  case grown =>
    constructor
    case events => exact ⟨new, hnew.events.symm⟩
    case receipts => exact prefix_append _ _
    case sessions =>
      refine Table.forall₂_updateKey Session.advances_refl fun row hrow hid => ⟨rfl, ?_⟩
      rw [hsessions row hrow hid]
      exact advances_nextCompleteness _ _ _
    case watermarks => exact hmarks.1
  case covers =>
    intro row hrow hold pos hpos
    obtain hrow | hrow := mem_append.mp (hnew.events ▸ hrow)
    · exact absurd hrow hold
    · obtain ⟨w, hw, hle⟩ := hnew.covers row hrow pos hpos
      exact ⟨w, hmarks.2 w hw, hle⟩
  case receipt =>
    refine ⟨_, rfl, rfl, ?_⟩
    simp [receiptByScope]

/-- An accepted call: its receipt was there, or it is there now. -/
theorem insertEventsBatch_ok {db' : Db Json Digest} {call : Call Json} {snapshot : EventsBatchSnapshot}
    (hdb : Keyed db) (h : insertEventsBatch fp db call = .ok (snapshot, db')) :
    ∃ fingerprint session, fp.batch call.batchId call.events call.completeness = some fingerprint ∧
      db.sessions.find? (·.id = call.captureId) = some session ∧
      ((db' = db ∧ ∃ receipt, receiptByScope db.receipts session call.batchId = some receipt ∧
          receipt.fingerprint = fingerprint) ∨
        (receiptByScope db.receipts session call.batchId = none ∧
          Stored call session fingerprint db db')) := by
  unfold insertEventsBatch at h
  split at h
  · simp at h
  rename_i fingerprint hfp
  split at h
  · simp at h
  rename_i session hsession
  refine ⟨fingerprint, session, hfp, hsession, ?_⟩
  split at h
  · rename_i receipt hreceipt
    split_ifs at h with hsame
    simp only [Except.ok.injEq, Prod.mk.injEq] at h
    exact .inl ⟨h.2.symm, receipt, hreceipt, hsame⟩
  · rename_i hnone
    exact .inr ⟨hnone, insertNewBatch_ok hdb (mem_of_find?_eq_some hsession) h⟩

/-- One call keeps the keys, and only adds. -/
theorem step_grown (fp : Fingerprints Json Digest) (db : Db Json Digest) (call : Call Json) (hdb : Keyed db) :
    Keyed (step fp db call) ∧ Grown db (step fp db call) := by
  unfold step
  split
  · rename_i result hok
    obtain ⟨fingerprint, session, -, -, ⟨hsame, -⟩ | ⟨-, hstored⟩⟩ :=
      insertEventsBatch_ok hdb (show insertEventsBatch fp db call = .ok (result.1, result.2) from hok)
    · rw [hsame]
      exact ⟨hdb, grown_refl db⟩
    · exact ⟨hstored.keyed, hstored.grown⟩
  · exact ⟨hdb, grown_refl db⟩

theorem keyed_run (fp : Fingerprints Json Digest) (calls : List (Call Json)) (hdb : Keyed db) :
    Keyed (Run.run (step fp) db calls) :=
  Run.run_invariant (fun db call h => (step_grown fp db call h).1) calls hdb

theorem grown_run (fp : Fingerprints Json Digest) (calls : List (Call Json)) (hdb : Keyed db) :
    Grown db (Run.run (step fp) db calls) :=
  Run.run_relation grown_refl Grown.trans (fun db call h => (step_grown fp db call h).1)
    (fun db call h => (step_grown fp db call h).2) calls hdb

/-! ### Repeating a call -/

omit [DecidableEq Digest] in
/-- A receipt stays the one that its scope finds. -/
theorem receiptByScope_grown {receipts receipts' : List (Receipt Digest)} {session session' : Session}
    {batchId : Text} {receipt : Receipt Digest} (hreceipts : receipts <+: receipts')
    (hsession : session.Advances session') (h : receiptByScope receipts session batchId = some receipt) :
    receiptByScope receipts' session' batchId = some receipt := by
  obtain ⟨more, rfl⟩ := hreceipts
  unfold receiptByScope at *
  rw [hsession.1, List.find?_append, h]
  rfl

/-- A call whose receipt is there reports nothing new and changes nothing. -/
theorem insertEventsBatch_repeat {call : Call Json} {session : Session} {fingerprint : Digest}
    {receipt : Receipt Digest} (hfp : fp.batch call.batchId call.events call.completeness = some fingerprint)
    (hsession : db.sessions.find? (·.id = call.captureId) = some session)
    (hreceipt : receiptByScope db.receipts session call.batchId = some receipt)
    (hsame : receipt.fingerprint = fingerprint) (receiptId : ℕ) :
    ∃ snapshot, insertEventsBatch fp db { call with receiptId := receiptId } = .ok (snapshot, db) ∧
      snapshot.newEventCount = 0 := by
  refine ⟨eventsBatchSnapshot session receipt.id [], ?_, rfl⟩
  simp [insertEventsBatch, hfp, hsession, hreceipt, hsame]

/-- **Ingestion is monotone and idempotent.** Take any calls, one more, and any calls after it. If the one
is rejected, it changes nothing. If it is accepted, there is one row for each uid from then on, no event
row is changed or removed, sessions only become more complete and no watermark goes down; the watermark of
its stream stays at least every position that it stored; and repeated at the end, it reports no new events
and changes nothing. -/
theorem ingestion_monotone_and_idempotent (fp : Fingerprints Json Digest) {db : Db Json Digest} (hdb : Keyed db)
    (before : List (Call Json)) (call : Call Json) (after : List (Call Json)) :
    Grown db (Run.run (step fp) db before) ∧
    (∀ e, insertEventsBatch fp (Run.run (step fp) db before) call = .error e →
      step fp (Run.run (step fp) db before) call = Run.run (step fp) db before) ∧
    ∀ snapshot db', insertEventsBatch fp (Run.run (step fp) db before) call = .ok (snapshot, db') →
      step fp (Run.run (step fp) db before) call = db' ∧
      ((Run.run (step fp) db' after).events.map EventRow.key).Nodup ∧
      Grown (Run.run (step fp) db before) db' ∧ Grown db' (Run.run (step fp) db' after) ∧
      (∀ row ∈ db'.events, row ∉ (Run.run (step fp) db before).events →
        ∀ pos, parseEventUidParts row.eventUid = some pos →
          Reached (watermark (Run.run (step fp) db' after) call.captureId call.streamKind) pos) ∧
      ∀ receiptId, ∃ snapshot', insertEventsBatch fp (Run.run (step fp) db' after)
          { call with receiptId := receiptId } = .ok (snapshot', Run.run (step fp) db' after) ∧
        snapshot'.newEventCount = 0 := by
  set db₁ := Run.run (step fp) db before with hdb₁
  have hkeyed₁ : Keyed db₁ := keyed_run fp before hdb
  refine ⟨grown_run fp before hdb, fun e he => by unfold step; rw [he], fun snapshot db₂ hok => ?_⟩
  have hstep : step fp db₁ call = db₂ := by unfold step; rw [hok]
  obtain ⟨hkeyed₂, hgrown₂⟩ := hstep ▸ step_grown fp db₁ call hkeyed₁
  have hkeyed₃ := keyed_run fp after hkeyed₂
  have hgrown₃ := grown_run fp after hkeyed₂
  refine ⟨hstep, hkeyed₃.events, hgrown₂, hgrown₃, ?_, fun receiptId => ?_⟩
  · intro row hrow hold pos hpos
    obtain ⟨fingerprint, session, -, -, ⟨hsame, -⟩ | ⟨-, hstored⟩⟩ := insertEventsBatch_ok hkeyed₁ hok
    · exact absurd (hsame ▸ hrow) hold
    · exact (hstored.covers row hrow hold pos hpos).trans (hgrown₃.watermarks _ _)
  · obtain ⟨fingerprint, session, hfp, hsession, hcases⟩ := insertEventsBatch_ok hkeyed₁ hok
    -- the receipt is there after the call, and it stays
    have hreceipt : ∃ receipt, receiptByScope db₂.receipts session call.batchId = some receipt ∧
        receipt.fingerprint = fingerprint := by
      obtain ⟨rfl, receipt, hreceipt, hsame⟩ | ⟨hnone, hstored⟩ := hcases
      · exact ⟨receipt, hreceipt, hsame⟩
      · obtain ⟨receipt, happend, hsame, hfind⟩ := hstored.receipt
        refine ⟨receipt, ?_, hsame⟩
        unfold receiptByScope at *
        rw [happend, List.find?_append, hnone, Option.none_or]
        exact hfind
    obtain ⟨receipt, hreceipt, hsame⟩ := hreceipt
    obtain ⟨session', hsession', hadvances⟩ := Table.forall₂_find?
      (fun a b hab => by rw [hab.1])
      (Table.forall₂_trans (fun _ _ _ h h' => h.trans h') hgrown₂.sessions hgrown₃.sessions) hsession
    exact insertEventsBatch_repeat hfp hsession' (receiptByScope_grown hgrown₃.receipts hadvances hreceipt)
      hsame receiptId

/-- A session that has stored nothing yet. -/
def oneSession : Db ℕ ℕ := ⟨[⟨7, [], [], [], [], [], .empty⟩], [], [], []⟩

def plainFingerprints : Fingerprints ℕ ℕ := ⟨some, fun _ events _ => some events.length⟩

/-- Two events, one of them with a position. -/
def twoEvents : Call ℕ :=
  ⟨7, "batch".toList, [⟨"3:10".toList, "tool".toList, none, none, 0⟩, ⟨"note".toList, "other".toList, none, none, 1⟩],
    some "complete".toList, "jsonl".toList, 1⟩

theorem ingestion_of_twoEvents : Keyed oneSession ∧ ∃ snapshot db',
    insertEventsBatch plainFingerprints oneSession twoEvents = .ok (snapshot, db') ∧
    snapshot.newEventCount = 2 ∧ watermark db' 7 "jsonl".toList = some (3, 10) ∧ Grown oneSession db' := by
  have hkeyed : Keyed oneSession := ⟨by decide, by decide⟩
  refine ⟨hkeyed, _, _, rfl, by decide, by decide, ?_⟩
  exact ((ingestion_monotone_and_idempotent plainFingerprints hkeyed [] twoEvents []).2.2 _ _ rfl).2.2.1

/-- The new events that a call reports; a rejected call reports none. -/
def newEvents (fp : Fingerprints Json Digest) (db : Db Json Digest) (call : Call Json) : ℕ :=
  ((insertEventsBatch fp db call).toOption.map (·.1.newEventCount)).getD 0

/-- What the calls of a run report together. -/
def reported (fp : Fingerprints Json Digest) : Db Json Digest → List (Call Json) → ℕ
  | _, [] => 0
  | db, call :: calls => newEvents fp db call + reported fp (step fp db call) calls

theorem length_step (fp : Fingerprints Json Digest) (db : Db Json Digest) (call : Call Json) :
    (step fp db call).events.length = db.events.length + newEvents fp db call := by
  unfold step newEvents
  cases hcall : insertEventsBatch fp db call with
  | error e => rfl
  | ok result =>
    unfold insertEventsBatch at hcall
    split at hcall
    · cases hcall
    split at hcall
    · cases hcall
    split at hcall
    · split_ifs at hcall
      cases hcall
      rfl
    · simp only [insertNewBatch, guard_eq_ok, bind_eq_ok, Except.ok.injEq] at hcall
      obtain ⟨-, progress, hprogress, streams, -, rfl⟩ := hcall
      obtain ⟨new, hnew⟩ := insertEvents_ok hprogress
      show progress.events.length = _ + (progress.byGeneration.map EventsBatchGroup.newEventCount).sum
      rw [hnew.counted, hnew.events, length_append]
      simp

/-- **The reported counts add up** to the event rows, over every sequence of accepted, repeated and rejected calls. -/
theorem reported_counts_add_up (fp : Fingerprints Json Digest) : ∀ (calls : List (Call Json)) (db : Db Json Digest),
    (Run.run (step fp) db calls).events.length = db.events.length + reported fp db calls
  | [], _ => rfl
  | call :: calls, db => by
    rw [Run.run_cons, reported_counts_add_up fp calls, length_step, reported, Nat.add_assoc]

end Batch

end Capture
end Mega
