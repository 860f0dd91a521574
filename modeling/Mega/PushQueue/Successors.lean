/-
# Chains of conflict requeues

A requeue cancels a row and inserts its successor with the same request. So the
successors of a row have ever larger ids and the chain of them ends. A requeue
is tried by the executor, by an executor that was taken for dead, and by the
reaper; the guard of its first statement lets one of them through, and the
others find the successor that is there. The loop of `wait_and_claim` goes from
a cancelled row to its successor: it does so at most as often as there are rows.

Key definitions: `followRounds`, `Followed`.
Key theorem: `requeue_chains_faithful`.
-/
import Mega.PushQueue.Exclusive

namespace Mega
namespace PushQueue

open List

/-! ### The chain of a row -/

/-- From every row the successors end, and their ids grow. -/
theorem Sound.exists_chain {db : Db} (h : Sound db) {r : Row} (hr : r ∈ db.rows) :
    ∃ path : List Row, (∀ r' ∈ path, r' ∈ db.rows) ∧
      (r :: path).IsChain (fun a b => a.supersededBy = some b.id ∧ a.id < b.id) ∧
      ∀ last ∈ (r :: path).getLast?, last.supersededBy = none := by
  -- by induction on how many ids are left above the id of the row
  induction hleft : db.nextId - r.id using Nat.strong_induction_on generalizing r with
  | _ left ih =>
    cases hsome : r.supersededBy with
    | none => exact ⟨[], by simp, isChain_singleton _, by simpa using hsome⟩
    | some successor =>
      obtain ⟨-, hlt, r', hr', rfl, -⟩ := h.superseded r hr successor hsome
      have hfresh := h.fresh r' hr'
      obtain ⟨path, hmem, hchain, hlast⟩ := ih (db.nextId - r'.id) (by omega) hr' rfl
      refine ⟨r' :: path, ?_, isChain_cons_cons.mpr ⟨⟨hsome, hlt⟩, hchain⟩, ?_⟩
      · exact fun x hx => (mem_cons.mp hx).elim (fun heq => heq ▸ hr') (hmem x)
      · rw [List.getLast?_cons_cons]
        exact hlast

/-! ### A second requeue -/

/-- A row that has a successor is left alone: the requeue answers with the successor. -/
theorem requeue_of_superseded {db : Db} (h : Sound db) {r : Row} (hr : r ∈ db.rows) {successor : ℕ}
    (hsome : r.supersededBy = some successor) {old : Row} (hid : old.id = r.id) (now : ℕ) :
    completeConflictRequeue old now db = (.ok successor, db) := by
  have hcount : (cancelForRequeue old.id db).1 = 0 := by
    refine countP_eq_zero.mpr fun r' hr' hguard => ?_
    rw [Bool.and_eq_true, beq_iff_eq, hid] at hguard
    obtain rfl := h.row_unique hr' hr hguard.1
    simp [Row.requeueable, hsome] at hguard
  rw [completeConflictRequeue, if_pos hcount, hid, h.getById hr, Option.bind_some, hsome]
  rfl

/-- A requeue that answers with a successor leaves the row with it. -/
theorem superseded_of_requeue {db db' : Db} {old : Row} {now successor : ℕ}
    (h : completeConflictRequeue old now db = (.ok successor, db')) :
    ∃ r ∈ db'.rows, r.id = old.id ∧ r.supersededBy = some successor := by
  obtain ⟨-, heq⟩ | ⟨index, heq⟩ | ⟨hcount, db₁, hdb₁, -, heq⟩ := requeue_cases old now db
  · rw [heq, Prod.mk.injEq] at h
    obtain ⟨hsucc, rfl⟩ := h
    cases hfound : db.getById old.id with
    | none => exact absurd hsucc (by simp [hfound])
    | some r =>
      refine ⟨r, mem_of_find?_eq_some hfound, by simpa using List.find?_some hfound, ?_⟩
      rw [hfound, Option.bind_some] at hsucc
      cases hsome : r.supersededBy with
      | none => exact absurd hsucc (by simp [hsome])
      | some n => simpa [hsome] using hsucc
  · exact absurd (heq.symm.trans h) (by simp)
  · obtain ⟨r, hr, hguard⟩ := countP_pos_iff.mp (Nat.pos_of_ne_zero hcount)
    rw [Bool.and_eq_true, beq_iff_eq] at hguard
    obtain ⟨r₁, hr₁, hlast⟩ := (Later.of_move (move_cancelForRequeue old.id db)).rows r hr
    rw [← hdb₁] at hr₁
    have hid₁ : r₁.id = old.id := hlast.id.trans hguard.1
    rw [heq, Prod.mk.injEq, Except.ok.injEq] at h
    obtain ⟨rfl, rfl⟩ := h
    refine ⟨_, mem_map_of_mem (mem_append_left _ hr₁), ?_, ?_⟩
    · simp [supersede, hid₁]
    · simp [supersede, hid₁]

/-! ### The loop that follows successors -/

/-- The rounds of `wait_and_claim` in one state of the tables, up to the first that does not follow a
successor; at most the number given. -/
def followRounds (timeout now : ℕ) (db : Db) : ℕ → Waiter → WaitRound
  | 0, w => waitRead timeout now w (db.getById w.id)
  | rounds + 1, w =>
    match waitRead timeout now w (db.getById w.id) with
    | .follow w' => followRounds timeout now db rounds w'
    | round => round

theorem waitOn_ne_follow (now : ℕ) (w w' : Waiter) : waitOn now w ≠ .follow w' := by
  unfold waitOn
  split <;> simp

/-- The loop follows where a cancelled row names its successor. -/
theorem waitRead_eq_follow {timeout now : ℕ} {w w' : Waiter} {row : Option Row}
    (h : waitRead timeout now w row = .follow w') : ∃ r, row = some r ∧ r.supersededBy = some w'.id := by
  cases row with
  | none => exact absurd h (waitOn_ne_follow now w w')
  | some r =>
    refine ⟨r, rfl, ?_⟩
    cases hstatus : r.status <;> simp only [waitRead, hstatus] at h
    case done | failed => exact absurd h (by simp)
    case queued | running => exact absurd h (waitOn_ne_follow _ _ _)
    case cancelled =>
      cases hsome : r.supersededBy with
      | none => exact absurd h (by simp [hsome])
      | some successor =>
        rw [hsome, WaitRound.follow.injEq] at h
        rw [← h]

/-- A round that follows goes to a row with a larger id. -/
theorem Sound.follow {db : Db} (h : Sound db) {timeout now : ℕ} {w w' : Waiter}
    (hround : waitRead timeout now w (db.getById w.id) = .follow w') :
    w.id < w'.id ∧ ∃ r ∈ db.rows, r.id = w'.id := by
  obtain ⟨r, hfound, hsome⟩ := waitRead_eq_follow hround
  have hid : r.id = w.id := by simpa using List.find?_some hfound
  obtain ⟨-, hlt, r', hr', hid', -⟩ := h.superseded r (mem_of_find?_eq_some hfound) _ hsome
  exact ⟨hid ▸ hlt, r', hr', hid'⟩

/-- Fewer ids lie above a row of the table than above an id below it. -/
theorem countP_above_lt {rows : List Row} {r : Row} (hr : r ∈ rows) {id : ℕ} (hlt : id < r.id) :
    rows.countP (fun x => r.id < x.id) < rows.countP (fun x => id < x.id) := by
  have hmono : ∀ part : List Row, part.countP (fun x => r.id < x.id) ≤ part.countP (fun x => id < x.id) :=
    fun part => countP_mono_left fun x _ hx => by
      simp only [decide_eq_true_eq] at hx ⊢
      omega
  obtain ⟨before, later, rfl⟩ := append_of_mem hr
  have hbefore := hmono before
  have hlater := hmono later
  rw [countP_append, countP_append, countP_cons_of_neg (by simp),
    countP_cons_of_pos (by simpa using hlt)]
  omega

theorem Sound.followRounds_ne_follow {db : Db} (h : Sound db) (timeout now : ℕ) :
    ∀ (rounds : ℕ) (w : Waiter), db.rows.countP (fun r => w.id < r.id) ≤ rounds →
      ∀ w', followRounds timeout now db rounds w ≠ .follow w'
  | 0, w, hle, w', hround => by
    obtain ⟨hlt, r, hr, hid⟩ := h.follow hround
    have hpos : 0 < db.rows.countP (fun r => w.id < r.id) :=
      countP_pos_iff.mpr ⟨r, hr, by simpa [hid] using hlt⟩
    omega
  | rounds + 1, w, hle, w', hround => by
    unfold followRounds at hround
    split at hround
    · rename_i next hnext
      obtain ⟨hlt, r, hr, hid⟩ := h.follow hnext
      refine h.followRounds_ne_follow timeout now rounds next ?_ w' hround
      -- the row of the successor counts for the waiter before, and not for the next one
      have hless := countP_above_lt hr (hid ▸ hlt)
      rw [hid] at hless
      omega
    · rename_i hother
      exact hother w' hround

/-- The loop has read a row, at whatever time, and has gone from it to another. -/
def Followed (r r' : Row) : Prop :=
  ∃ timeout now w w', w.id = r.id ∧ waitRead timeout now w (some r) = .follow w' ∧ w'.id = r'.id

/-- Rows read at any times and followed one after the other are different rows of the table. -/
theorem Valid.followed {s : State} (h : Valid s) {path : List Row} (hread : ∀ r ∈ path, r ∈ s.reads)
    (hchain : path.IsChain Followed) :
    (path.map Row.id).Pairwise (· < ·) ∧ path.length ≤ s.db.rows.length := by
  have hlt : ∀ a ∈ path, ∀ b, Followed a b → a.id < b.id := by
    rintro a ha b ⟨timeout, now, w, w', -, hround, hid⟩
    obtain ⟨r, hr, hsome⟩ := waitRead_eq_follow hround
    obtain rfl := Option.some.inj hr
    obtain ⟨r, hr, hrid⟩ := (h.reads a (hread a ha)).mem
    have hlast := (h.reads a (hread a ha)).lasts r hr hrid
    have hbelow := (h.sound.superseded r hr _ (hlast.superseded _ hsome)).2.1
    rwa [hrid, hid] at hbelow
  have hpair : (path.map Row.id).Pairwise (· < ·) := by
    rw [← isChain_iff_pairwise, isChain_map]
    exact hchain.imp_of_mem_imp fun a b ha _ hab => hlt a ha b hab
  refine ⟨hpair, ?_⟩
  have hsub : path.map Row.id ⊆ s.db.rows.map Row.id := by
    intro id hid
    obtain ⟨r, hr, rfl⟩ := mem_map.mp hid
    obtain ⟨r', hr', hid'⟩ := (h.reads r (hread r hr)).mem
    exact hid' ▸ mem_map_of_mem hr'
  simpa using (subperm_of_subset (hpair.imp Nat.ne_of_lt) hsub).length_le

/-- **Chains of requeues end and keep the request.** After every run: from every row the successors have
growing ids and come to an end; a row with a successor is cancelled, exactly one row is the successor, and
it has the same request; once a requeue of a row a caller has read or sees in the table answers with a
successor, every requeue of that row after any further run answers the same and changes nothing; and the
loop of `wait_and_claim` leaves its following rounds, after at most as many as there are rows, whether the
tables rest or change between its reads. -/
theorem requeue_chains_faithful (events : List Event) :
    (∀ r ∈ (after events).db.rows, ∃ path : List Row, (∀ r' ∈ path, r' ∈ (after events).db.rows) ∧
      (r :: path).IsChain (fun a b => a.supersededBy = some b.id ∧ a.id < b.id) ∧
      ∀ last ∈ (r :: path).getLast?, last.supersededBy = none) ∧
    (∀ r ∈ (after events).db.rows, ∀ successor, r.supersededBy = some successor → r.status = .cancelled ∧
      ∃ r', (after events).db.rows.filter (fun x => x.id = successor) = [r'] ∧ r'.request = r.request) ∧
    (∀ old, old ∈ (after events).reads ∨ old ∈ (after events).db.rows → ∀ now successor db',
      completeConflictRequeue old now (after events).db = (.ok successor, db') →
      ∀ (more : List Event) (again : Row) (now' : ℕ), again.id = old.id →
        completeConflictRequeue again now' (Run.run step ((after events).commit db') more).db =
          (.ok successor, (Run.run step ((after events).commit db') more).db)) ∧
    (∀ timeout now w w',
      followRounds timeout now (after events).db (after events).db.rows.length w ≠ .follow w') ∧
    ∀ path : List Row, (∀ r ∈ path, r ∈ (after events).reads) → path.IsChain Followed →
      (path.map Row.id).Pairwise (· < ·) ∧ path.length ≤ (after events).db.rows.length := by
  have hvalid := valid_after events
  have hsound := hvalid.sound
  refine ⟨fun r hr => hsound.exists_chain hr, ?_, ?_, ?_, fun path => hvalid.followed⟩
  · intro r hr successor hsome
    obtain ⟨hcancelled, -, r', hr', rfl, hrequest⟩ := hsound.superseded r hr successor hsome
    exact ⟨hcancelled, r', Table.filter_key_of_nodup hsound.nodup hr', hrequest⟩
  · intro old hold now successor db' hrequeue more again now' hid
    have hknown : Known (after events).db old := hold.elim (hvalid.reads old) hsound.known
    have hmoves : Moves (after events).db db' := by
      have hmoves := moves_requeue hsound hknown now
      rwa [hrequeue] at hmoves
    have hafter : Valid ((after events).commit db') := hvalid.commit hmoves
    obtain ⟨r, hr, hrid, hsome⟩ := superseded_of_requeue hrequeue
    obtain ⟨r', hr', hlast⟩ := (later_run hafter more).rows r hr
    exact requeue_of_superseded (Run.run_invariant valid_step more hafter).sound hr'
      (hlast.superseded successor hsome) (by rw [hid, hlast.id, hrid]) now'
  · exact fun timeout now w => hsound.followRounds_ne_follow timeout now _ w countP_le_length

end PushQueue
end Mega
