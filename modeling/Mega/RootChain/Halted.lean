/-
# The halt predicate and the classifier

`ROOT_CHAIN_HALTED_SQL` of `jupiter/storage/view_root_chain.rs` is the condition
under which readers treat the root chain as halted. It is the decision of
`classify_anchor` written a second time, as one SQL expression; here both are
written down over the raw tables and compared.

The raw tables are what the columns allow: counts and positions of either sign,
a scanned row whose first parent does not go with its parent count, and a
commit whose `parents_id` is JSON but no array. Reading the parent count of such
a commit, or of one with more parents than a `smallint` holds, is an error of
the database, and so of `classify_anchor`; the SQL only asks whether the commit
is there.

Key definitions: `Raw.Tables`, `Raw.rootChainHaltedSql`, `Raw.classifyAnchor`.
Key theorems: `Raw.halted_iff_discontinuous`, `discontinuous_toRaw_iff`.
-/
import Mega.Lib.Sql
import Mega.RootChain.Storage

namespace Mega
namespace RootChain
namespace Raw

/-- A row of `mega_view_root_chain_scan`. -/
structure ScanRow (Oid : Type) where
  pos : ℤ
  commitId : Oid
  treeId : Oid
  parentCount : ℤ
  firstParent : Option Oid

/-- A row of `mega_view_root_chain`. -/
structure ChainRow (Oid : Type) where
  seq : ℤ
  commitId : Oid
  treeId : Oid

/-- A row of `mega_commit`. The parents are `none` if the JSON is no array, and `NULL` in the array is `none`. -/
structure CommitRow (Oid : Type) where
  commitId : Oid
  tree : Oid
  parents : Option (List (Option Oid))

/-- The tables, with their primary keys. -/
structure Tables (Oid : Type) where
  rootChain : List (ChainRow Oid)
  scan : List (ScanRow Oid)
  commits : List (CommitRow Oid)
  seqKey : (rootChain.map ChainRow.seq).Nodup
  posKey : (scan.map ScanRow.pos).Nodup

inductive ScanState (Oid : Type) where
  | connected (tail : Option (ChainRow Oid))
  | scanMore (firstParent : Oid)
  | discontinuous (discontinuity : Discontinuity Oid)

/-- Why the database refuses to read the parents of a commit. -/
inductive DbError where
  /-- "cannot get array length of a non-array" -/
  | notAnArray
  /-- "smallint out of range" -/
  | outOfRange

section Code

variable {Oid : Type} [DecidableEq Oid]

/-- `ROOT_CHAIN_HALTED_SQL`. -/
def rootChainHaltedSql (db : Tables Oid) : Sql.Truth :=
  Sql.coalesce
    ((Sql.deepest ScanRow.pos db.scan).bind fun scan =>
      Sql.caseWhen
        [(Sql.existsRow db.rootChain fun chain => Sql.eq (some chain.commitId) (some scan.commitId),
          Sql.not (Sql.existsRow db.rootChain fun tail =>
            Sql.and (Sql.eq (some tail.commitId) (some scan.commitId))
              (Sql.eq (some tail.seq) (Sql.maxOf ChainRow.seq db.rootChain)))),
          (Sql.eq (some scan.parentCount) (some 0), Sql.existsRow db.rootChain fun _ => some true),
          (Sql.gt (some scan.parentCount) (some 1), some true),
          (Sql.not (Sql.existsRow db.commits fun parent => Sql.eq (some parent.commitId) scan.firstParent), some true)]
        (some false))
    (some false)

def scanAnchor (db : Tables Oid) : Option (ScanRow Oid) := Sql.deepest ScanRow.pos db.scan

def chainTail (db : Tables Oid) : Option (ChainRow Oid) := Sql.deepest ChainRow.seq db.rootChain

def commitRow (db : Tables Oid) (commitId : Oid) : Except DbError (Option (ScanRow Oid)) :=
  match db.commits.find? fun commit => commit.commitId = commitId with
  | none => .ok none
  | some commit =>
    match commit.parents with
    | none => .error .notAnArray
    | some parents =>
      if parents.length ≥ 2 ^ 15 then .error .outOfRange
      else .ok (some ⟨0, commit.commitId, commit.tree, parents.length, parents.head?.join⟩)

def classifyAnchor (db : Tables Oid) (anchor : ScanRow Oid) : Except DbError (ScanState Oid) := do
  let chainRow := db.rootChain.find? fun row => row.commitId = anchor.commitId
  let tail := chainTail db
  if chainRow.isSome then
    if tail.any fun tail => tail.commitId = anchor.commitId then return .connected tail
    else if anchor.pos = 1 then return .discontinuous ⟨.rolledBack, anchor.commitId⟩
    else return .discontinuous ⟨.forked, anchor.commitId⟩
  else if anchor.parentCount = 0 then
    match tail with
    | none => return .connected none
    | some _ => return .discontinuous ⟨.unrelatedHistory, anchor.commitId⟩
  else if anchor.parentCount > 1 then return .discontinuous ⟨.multiParent, anchor.commitId⟩
  else
    match anchor.firstParent with
    | none => return .discontinuous ⟨.missingFirstParent, anchor.commitId⟩
    | some firstParent =>
      if (← commitRow db firstParent).isNone then return .discontinuous ⟨.missingFirstParent, anchor.commitId⟩
      else return .scanMore firstParent

end Code

/-! ### The two agree -/

section Agree

variable {Oid : Type} [DecidableEq Oid]

/-- The classifier finds the chain at the anchor discontinuous. -/
def Discontinuous (db : Tables Oid) (anchor : ScanRow Oid) : Prop :=
  ∃ discontinuity, classifyAnchor db anchor = .ok (.discontinuous discontinuity)

theorem exists_eq_iff {α : Type} {rows : List α} {column : α → Oid} {value : Option Oid} :
    (∃ row ∈ rows, Sql.isTrue (Sql.eq (some (column row)) value) = true) ↔
      ∃ row ∈ rows, some (column row) = value := by
  refine exists_congr fun row => and_congr_right fun _ => ?_
  rw [Sql.isTrue_eq]
  constructor
  · rintro ⟨x, hx, hvalue⟩
    exact hx.trans hvalue.symm
  · intro hvalue
    exact ⟨column row, rfl, hvalue.symm⟩

/-- A row with the greatest sequence number is the tail. -/
theorem exists_max_iff (db : Tables Oid) (commitId : Oid) :
    (∃ row ∈ db.rootChain, Sql.isTrue (Sql.and (Sql.eq (some row.commitId) (some commitId))
      (Sql.eq (some row.seq) (Sql.maxOf ChainRow.seq db.rootChain))) = true) ↔
    ∃ tail, chainTail db = some tail ∧ tail.commitId = commitId := by
  constructor
  · rintro ⟨row, hrow, htrue⟩
    obtain ⟨hcommit, hmax⟩ := Sql.isTrue_and.mp htrue
    obtain ⟨_, hrowCommit, hcommit⟩ := (Sql.isTrue_eq _ _).mp hcommit
    obtain ⟨_, hrowSeq, hmax⟩ := (Sql.isTrue_eq _ _).mp hmax
    obtain ⟨tail, htail, hseq⟩ := Option.map_eq_some_iff.mp hmax
    have hsame : tail.seq = row.seq := hseq.trans (Option.some.inj hrowSeq).symm
    have hle : ∀ other ∈ db.rootChain, other.seq ≤ row.seq := by
      intro other hother
      rw [← hsame]
      exact List.le_of_mem_argmax hother htail
    refine ⟨row, Sql.deepest_unique db.seqKey hrow hle, ?_⟩
    exact Option.some.inj (hrowCommit.trans hcommit.symm)
  · rintro ⟨tail, htail, hcommit⟩
    have hmax : Sql.maxOf ChainRow.seq db.rootChain = some tail.seq := congrArg (Option.map ChainRow.seq) htail
    refine ⟨tail, List.argmax_mem htail, Sql.isTrue_and.mpr ⟨?_, ?_⟩⟩
    · exact (Sql.isTrue_eq _ _).mpr ⟨commitId, congrArg some hcommit, rfl⟩
    · exact (Sql.isTrue_eq _ _).mpr ⟨tail.seq, rfl, hmax⟩

omit [DecidableEq Oid] in
theorem chainTail_eq_none {db : Tables Oid} : chainTail db = none ↔ db.rootChain = [] := List.argmax_eq_none

/-- The first parent cannot be looked up, or the look-up finds nothing. -/
theorem commitRow_eq_none {db : Tables Oid} {commitId : Oid} :
    commitRow db commitId = .ok none ↔ ¬ ∃ row ∈ db.commits, some row.commitId = some commitId := by
  unfold commitRow
  cases hfind : db.commits.find? fun commit => commit.commitId = commitId with
  | none =>
    have hnone := List.find?_eq_none.mp hfind
    refine ⟨fun _ => ?_, fun _ => rfl⟩
    rintro ⟨row, hrow, hcommit⟩
    exact hnone row hrow (decide_eq_true (Option.some.inj hcommit))
  | some commit =>
    have hmem := List.mem_of_find?_eq_some hfind
    have hcommit : commit.commitId = commitId := by simpa using List.find?_some hfind
    have hthere : ∃ row ∈ db.commits, some row.commitId = some commitId := ⟨commit, hmem, congrArg some hcommit⟩
    refine ⟨?_, fun h => absurd hthere h⟩
    intro hnone
    dsimp only at hnone
    split at hnone
    · cases hnone
    · split at hnone <;> cases hnone

theorem isSome_chainRow {db : Tables Oid} {commitId : Oid} :
    (db.rootChain.find? fun row => row.commitId = commitId).isSome = true ↔
      ∃ row ∈ db.rootChain, some row.commitId = some commitId := by
  simp

/-- When the classifier answers `Discontinuous`, one condition for each of its branches. -/
theorem discontinuous_iff (db : Tables Oid) (anchor : ScanRow Oid) :
    Discontinuous db anchor ↔
      if ∃ row ∈ db.rootChain, some row.commitId = some anchor.commitId then
        ¬ ∃ tail, chainTail db = some tail ∧ tail.commitId = anchor.commitId
      else if anchor.parentCount = 0 then ∃ row, row ∈ db.rootChain
      else if anchor.parentCount > 1 then True
      else ¬ ∃ row ∈ db.commits, some row.commitId = anchor.firstParent := by
  unfold Discontinuous classifyAnchor
  by_cases hchain : ∃ row ∈ db.rootChain, some row.commitId = some anchor.commitId
  · rw [if_pos hchain]
    simp only [isSome_chainRow.mpr hchain, if_true]
    have hany : ((chainTail db).any fun tail => tail.commitId = anchor.commitId) = true ↔
        ∃ tail, chainTail db = some tail ∧ tail.commitId = anchor.commitId := by
      cases chainTail db <;> simp
    rw [← hany]
    cases (chainTail db).any fun tail => tail.commitId = anchor.commitId with
    | true => simp [pure, Except.pure]
    | false => by_cases hpos : anchor.pos = 1 <;> simp [hpos, pure, Except.pure]
  · have hnot : (db.rootChain.find? fun row => row.commitId = anchor.commitId).isSome = false :=
      Bool.eq_false_iff.mpr fun h => hchain (isSome_chainRow.mp h)
    rw [if_neg hchain]
    simp only [hnot, Bool.false_eq_true, if_false]
    by_cases hzero : anchor.parentCount = 0
    · rw [if_pos hzero, if_pos hzero]
      cases htail : chainTail db with
      | none => simp [chainTail_eq_none.mp htail, pure, Except.pure]
      | some tail =>
        have hmem : tail ∈ db.rootChain := List.argmax_mem htail
        simpa [pure, Except.pure] using ⟨tail, hmem⟩
    rw [if_neg hzero, if_neg hzero]
    by_cases hmany : anchor.parentCount > 1
    · rw [if_pos hmany, if_pos hmany]
      simp [pure, Except.pure]
    rw [if_neg hmany, if_neg hmany]
    cases hparent : anchor.firstParent with
    | none => simp [pure, Except.pure]
    | some firstParent =>
      rw [← commitRow_eq_none]
      cases hrow : commitRow db firstParent with
      | error e => simp [hrow, bind, Except.bind]
      | ok row => cases row <;> simp [hrow, bind, Except.bind, pure, Except.pure]

/-- **The SQL predicate is the classifier's decision**, whatever the tables hold. -/
theorem halted_iff_discontinuous (db : Tables Oid) :
    rootChainHaltedSql db = some true ↔ ∃ anchor, scanAnchor db = some anchor ∧ Discontinuous db anchor := by
  rw [rootChainHaltedSql, Sql.coalesce_false, scanAnchor, Option.bind_eq_some_iff]
  refine exists_congr fun anchor => and_congr_right fun _ => ?_
  rw [discontinuous_iff]
  simp only [Sql.caseWhen, Sql.isTrue_existsRow, exists_eq_iff]
  split
  · rw [Sql.not_existsRow, exists_max_iff]
  have hzero : Sql.isTrue (Sql.eq (some anchor.parentCount) (some 0)) = true ↔ anchor.parentCount = 0 := by
    simp [Sql.eq, Sql.compare, Sql.isTrue_some]
  have hmany : Sql.isTrue (Sql.gt (some anchor.parentCount) (some 1)) = true ↔ anchor.parentCount > 1 := by
    simp [Sql.gt, Sql.compare, Sql.isTrue_some]
  have hany : Sql.existsRow db.rootChain (fun _ => some true) = some true ↔ ∃ row, row ∈ db.rootChain := by
    rw [← Sql.isTrue_iff, Sql.isTrue_existsRow]
    simp [Sql.isTrue_some]
  have hmissing : Sql.isTrue (Sql.not (Sql.existsRow db.commits fun parent =>
      Sql.eq (some parent.commitId) anchor.firstParent)) = true ↔
      ¬ ∃ row ∈ db.commits, some row.commitId = anchor.firstParent := by
    rw [Sql.isTrue_iff, Sql.not_existsRow, exists_eq_iff]
  by_cases hcount : anchor.parentCount = 0
  · rw [if_pos (hzero.mpr hcount), if_pos hcount, hany]
  rw [if_neg (mt hzero.mp hcount), if_neg hcount]
  by_cases hparents : anchor.parentCount > 1
  · rw [if_pos (hmany.mpr hparents), if_pos hparents]
    exact iff_of_true rfl trivial
  rw [if_neg (mt hmany.mp hparents), if_neg hparents, ← hmissing]
  split
  · rename_i htrue
    exact iff_of_true rfl htrue
  · rename_i hfalse
    exact iff_of_false (by decide) hfalse

end Agree

end Raw

/-! ### The tables of the chain's own model -/

section Db

variable {Oid : Type} [DecidableEq Oid]

def ScanRow.toRaw (row : ScanRow Oid) : Raw.ScanRow Oid :=
  ⟨row.pos, row.commitId, row.treeId, row.parentCount, row.firstParent⟩

def ChainRow.toRaw (row : ChainRow Oid) : Raw.ChainRow Oid := ⟨row.seq, row.commitId, row.treeId⟩

section Keys

variable {α β : Type} {key : α → ℕ} {rawKey : β → ℤ} {toRaw : α → β} {rows : List α}

theorem nodup_toRaw (hkey : ∀ row, rawKey (toRaw row) = key row) (h : (rows.map key).Nodup) :
    ((rows.map toRaw).map rawKey).Nodup := by
  have hcast : rawKey ∘ toRaw = (fun n : ℕ => (n : ℤ)) ∘ key := funext hkey
  rw [List.map_map, hcast, ← List.map_map]
  exact h.map Nat.cast_injective

/-- The row on top is the one with the greatest key. -/
theorem deepest_toRaw (hkey : ∀ row, rawKey (toRaw row) = key row) (h : (rows.map key).Nodup) :
    Sql.deepest rawKey (rows.map toRaw) = (Table.topBy key rows).map toRaw := by
  cases htop : Table.topBy key rows with
  | none =>
    have hempty : rows = [] := by simpa [htop] using (@Table.isSome_topBy _ key rows).not
    rw [hempty]
    rfl
  | some top =>
    obtain ⟨hmem, hle⟩ := Table.topBy_mem htop
    refine Sql.deepest_unique (nodup_toRaw hkey h) (List.mem_map_of_mem hmem) ?_
    intro raw hraw
    obtain ⟨row, hrow, rfl⟩ := List.mem_map.mp hraw
    rw [hkey, hkey]
    exact Nat.cast_le.mpr (hle row hrow)

end Keys

/-- The raw tables of a database whose positions and sequence numbers are keys. -/
def Db.toRaw (db : Db Oid) (hseq : (db.rootChain.map ChainRow.seq).Nodup) (hpos : (db.scan.map ScanRow.pos).Nodup) :
    Raw.Tables Oid where
  rootChain := db.rootChain.map ChainRow.toRaw
  scan := db.scan.map ScanRow.toRaw
  commits := db.commits.map fun commit => ⟨commit.1, commit.2.tree, some (commit.2.parents.map some)⟩
  seqKey := nodup_toRaw (fun _ => rfl) hseq
  posKey := nodup_toRaw (fun _ => rfl) hpos

variable {db : Db Oid} {hseq : (db.rootChain.map ChainRow.seq).Nodup} {hpos : (db.scan.map ScanRow.pos).Nodup}

omit [DecidableEq Oid] in
theorem scanAnchor_toRaw : Raw.scanAnchor (db.toRaw hseq hpos) = (scanAnchor db).map ScanRow.toRaw :=
  deepest_toRaw (fun _ => rfl) hpos

omit [DecidableEq Oid] in
theorem chainTail_toRaw : Raw.chainTail (db.toRaw hseq hpos) = (chainTail db).map ChainRow.toRaw :=
  deepest_toRaw (fun _ => rfl) hseq

/-- **The classifier of the chain's own model** finds the same anchors discontinuous. -/
theorem discontinuous_toRaw_iff (anchor : ScanRow Oid) :
    Raw.Discontinuous (db.toRaw hseq hpos) anchor.toRaw ↔
      ∃ discontinuity, classifyAnchor db anchor = .discontinuous discontinuity := by
  have hchained : (∃ row ∈ (db.toRaw hseq hpos).rootChain, some row.commitId = some anchor.toRaw.commitId) ↔
      inChain db anchor.commitId = true := by
    simp [Db.toRaw, inChain, ChainRow.toRaw, ScanRow.toRaw]
  have htail : (∃ tail, Raw.chainTail (db.toRaw hseq hpos) = some tail ∧ tail.commitId = anchor.toRaw.commitId) ↔
      ∃ tail, chainTail db = some tail ∧ tail.commitId = anchor.commitId := by
    rw [chainTail_toRaw]
    simp [ChainRow.toRaw, ScanRow.toRaw]
  have hrows : (∃ row, row ∈ (db.toRaw hseq hpos).rootChain) ↔ chainTail db ≠ none := by
    rw [Option.ne_none_iff_isSome, chainTail, Table.isSome_topBy]
    simp [Db.toRaw, List.eq_nil_iff_forall_not_mem]
  have hparent : (∃ row ∈ (db.toRaw hseq hpos).commits, some row.commitId = anchor.toRaw.firstParent) ↔
      ∃ parent, anchor.firstParent = some parent ∧ (commitRow db parent).isNone = false := by
    cases hfirst : anchor.firstParent with
    | none => simp [ScanRow.toRaw, hfirst]
    | some parent =>
      have hlookup : (commitRow db parent).isSome = true ↔ ∃ commit, (parent, commit) ∈ db.commits := by
        rw [commitRow, Option.isSome_map, List.lookup_isSome_iff]
        simp
      simp [ScanRow.toRaw, hfirst, hlookup, Db.toRaw]
  have hzero : anchor.toRaw.parentCount = 0 ↔ anchor.parentCount = 0 := Nat.cast_eq_zero
  have hmany : anchor.toRaw.parentCount > 1 ↔ anchor.parentCount > 1 := Nat.one_lt_cast
  rw [Raw.discontinuous_iff, htail, hrows, hparent]
  unfold classifyAnchor
  dsimp only
  by_cases hin : inChain db anchor.commitId = true
  · rw [if_pos (hchained.mpr hin), if_pos hin]
    cases chainTail db with
    | none => by_cases hfirst : anchor.pos = 1 <;> simp [hfirst]
    | some tail =>
      by_cases hsame : tail.commitId = anchor.commitId
      · simp [hsame]
      · by_cases hfirst : anchor.pos = 1 <;> simp [hsame, hfirst]
  rw [if_neg (mt hchained.mp hin), if_neg hin]
  by_cases hcount : anchor.parentCount = 0
  · rw [if_pos (hzero.mpr hcount), if_pos hcount]
    cases chainTail db <;> simp
  rw [if_neg (mt hzero.mp hcount), if_neg hcount]
  by_cases hparents : anchor.parentCount > 1
  · rw [if_pos (hmany.mpr hparents), if_pos hparents]
    simp
  rw [if_neg (mt hmany.mp hparents), if_neg hparents]
  cases anchor.firstParent with
  | none => simp
  | some parent => cases hrow : (commitRow db parent).isNone <;> simp [hrow]

end Db

end RootChain
end Mega
