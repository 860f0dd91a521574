/-
# Extending the root chain

`jupiter/storage/view_root_chain.rs`: the table `mega_view_root_chain` numbers
the commits of the main branch from the first one. `extend_root_chain` brings it
up to main in a loop of transactions. It walks main's first parents downwards
into `mega_view_root_chain_scan` until it meets the end of the chain, or the first
commit, and then moves the scanned rows into the chain, oldest first, a segment at
a time. A single new commit is appended directly.

One iteration of the loop is one transaction under the root-chain lock, so calls
take turns iteration by iteration; main may move and commits may be added in
between. The scan stays in its table when a call ends, and the next call goes on
from its deepest row.

Key definitions: `Db`, `classifyAnchor`, `scanFirstParents`, `insertSegment`,
`extendIteration`, `extendRootChainInner`, `Event`, `step`.
-/
import Mega.Lib.SortBy
import Mega.Lib.Table

namespace Mega
namespace RootChain

open Table

/-- A row of `mega_commit`. -/
structure CommitRow (Oid : Type) where
  tree : Oid
  parents : List Oid
deriving DecidableEq

inductive DiscontinuityReason where
  | rolledBack
  | forked
  | unrelatedHistory
  | multiParent
  | missingFirstParent
  | rowConflict
deriving DecidableEq

inductive RootChainOutcome where
  | caughtUp
  | notCaughtUp
  | discontinuous (reason : DiscontinuityReason)
deriving DecidableEq

/-- A row of `mega_view_root_chain_scan`. -/
structure ScanRow (Oid : Type) where
  pos : ℕ
  commitId : Oid
  treeId : Oid
  parentCount : ℕ
  firstParent : Option Oid
deriving DecidableEq

/-- A row of `mega_view_root_chain`. -/
structure ChainRow (Oid : Type) where
  seq : ℕ
  commitId : Oid
  treeId : Oid
deriving DecidableEq

/-- A scanned row on its way into the chain. -/
structure RootChainRow (Oid : Type) where
  scanPos : ℕ
  row : ChainRow Oid
deriving DecidableEq

structure Discontinuity (Oid : Type) where
  reason : DiscontinuityReason
  commitId : Oid
deriving DecidableEq

inductive ScanState (Oid : Type) where
  | connected (tail : Option (ChainRow Oid))
  | scanMore (firstParent : Oid)
  | discontinuous (discontinuity : Discontinuity Oid)

inductive RootChainError (Oid : Type) where
  /-- "root-chain batch and segment sizes must be non-zero" -/
  | zeroSizes
  /-- "main root ref is missing" -/
  | mainRefMissing
  /-- "main root commit … is missing" -/
  | mainCommitMissing (commitId : Oid)
  /-- "root-chain conflict query returned a row outside the segment" -/
  | conflictOutsideSegment
deriving DecidableEq

/-- The tables the code reads and writes. -/
structure Db (Oid : Type) where
  commits : List (Oid × CommitRow Oid)
  /-- `ref_commit_hash` of the main branch at `/`. -/
  main : Option Oid
  rootChain : List (ChainRow Oid)
  scan : List (ScanRow Oid)

section Code

variable {Oid : Type} [DecidableEq Oid]

def scanAnchor (db : Db Oid) : Option (ScanRow Oid) := topBy (·.pos) db.scan

def chainTail (db : Db Oid) : Option (ChainRow Oid) := topBy (·.seq) db.rootChain

def commitRow (db : Db Oid) (commitId : Oid) : Option (ScanRow Oid) :=
  (db.commits.lookup commitId).map fun commit =>
    ⟨0, commitId, commit.tree, commit.parents.length, commit.parents.head?⟩

def mainRoot (db : Db Oid) : Except (RootChainError Oid) (ScanRow Oid) :=
  match db.main with
  | none => .error .mainRefMissing
  | some commitId =>
    match commitRow db commitId with
    | none => .error (.mainCommitMissing commitId)
    | some row => .ok { row with pos := 1 }

def inChain (db : Db Oid) (commitId : Oid) : Bool := db.rootChain.any fun row => row.commitId == commitId

def classifyAnchor (db : Db Oid) (anchor : ScanRow Oid) : ScanState Oid :=
  let tail := chainTail db
  if inChain db anchor.commitId then
    match tail with
    | some tail =>
      if tail.commitId = anchor.commitId then .connected (some tail)
      else if anchor.pos = 1 then .discontinuous ⟨.rolledBack, anchor.commitId⟩
      else .discontinuous ⟨.forked, anchor.commitId⟩
    | none =>
      if anchor.pos = 1 then .discontinuous ⟨.rolledBack, anchor.commitId⟩
      else .discontinuous ⟨.forked, anchor.commitId⟩
  else if anchor.parentCount = 0 then
    match tail with
    | none => .connected none
    | some _ => .discontinuous ⟨.unrelatedHistory, anchor.commitId⟩
  else if anchor.parentCount > 1 then .discontinuous ⟨.multiParent, anchor.commitId⟩
  else
    match anchor.firstParent with
    | none => .discontinuous ⟨.missingFirstParent, anchor.commitId⟩
    | some firstParent =>
      if (commitRow db firstParent).isNone then .discontinuous ⟨.missingFirstParent, anchor.commitId⟩
      else .scanMore firstParent

/-- The recursive query: first parents from the given commit on, at most
`limit` of them, not beyond a commit of the chain or one without exactly one
parent. -/
def scanFirstParents (db : Db Oid) : ℕ → Oid → List (ScanRow Oid)
  | 0, _ => []
  | limit + 1, commitId =>
    match commitRow db commitId with
    | none => []
    | some row =>
      row ::
        match row.firstParent with
        | some next =>
          if row.parentCount = 1 ∧ inChain db row.commitId = false then scanFirstParents db limit next else []
        | none => []

/-- The rows with their positions, from `firstPos` on. -/
def positioned (firstPos : ℕ) (rows : List (ScanRow Oid)) : List (ScanRow Oid) :=
  rows.mapIdx fun offset row => { row with pos := firstPos + offset }

/-- `pos` is the primary key of the scan table. -/
def scanConflict (a b : ScanRow Oid) : Bool := a.pos == b.pos

def insertScanRows (firstPos : ℕ) (rows : List (ScanRow Oid)) (db : Db Oid) : Db Oid :=
  { db with scan := insertAllIgnore scanConflict db.scan (positioned firstPos rows) }

/-- The rows that come next in the chain, oldest first, with their numbers. -/
def segmentRows (db : Db Oid) (anchor : ScanRow Oid) (tail : Option (ChainRow Oid)) (limit : ℕ) :
    List (RootChainRow Oid) :=
  let rows := db.scan.filter fun row => if tail.isNone then row.pos ≤ anchor.pos else row.pos < anchor.pos
  ((KeySort.sortBy (·.pos) rows).reverse.take limit).map fun row =>
    let seq := match tail with
      | some tail => tail.seq + (anchor.pos - row.pos)
      | none => anchor.pos - row.pos + 1
    ⟨row.pos, seq, row.commitId, row.treeId⟩

/-- `seq` is the primary key of the chain, and `commit_id` is unique. -/
def chainConflict (a b : ChainRow Oid) : Bool := a.seq == b.seq || a.commitId == b.commitId

/-- Inserts a segment; rows that are there already must be the same rows. -/
def insertSegment (db : Db Oid) (rows : List (RootChainRow Oid)) :
    Except (RootChainError Oid) (Option (Discontinuity Oid)) × Db Oid :=
  let rootChain := insertAllIgnore chainConflict db.rootChain (rows.map (·.row))
  let db' := { db with rootChain }
  if rootChain.length - db.rootChain.length = rows.length then (.ok none, db')
  else
    let existing := rootChain.filter fun row => rows.any fun r => chainConflict r.row row
    match existing.find? fun row =>
      !rows.any fun r => r.row.seq == row.seq && r.row.commitId == row.commitId with
    | none => (.ok none, db')
    | some row =>
      match rows.find? fun r => chainConflict r.row row with
      | none => (.error .conflictOutsideSegment, db')
      | some r => (.ok (some ⟨.rowConflict, r.row.commitId⟩), db')

def exhausted (remaining : Option ℕ) : Bool := remaining == some 0

def consume (remaining : Option ℕ) (count : ℕ) : Option ℕ := remaining.map (· - count)

/-- How an iteration of the loop ends. -/
inductive Iteration (Oid : Type) where
  | finished (result : Except (RootChainError Oid) RootChainOutcome)
  | again (remaining : Option ℕ)

/-- The fast path: main is the one commit after the tail. -/
def directAppend (db : Db Oid) (remaining : Option ℕ) (root : ScanRow Oid) : Option (Db Oid) :=
  match chainTail db with
  | none => none
  | some tail =>
    if remaining = none ∧ root.parentCount = 1 ∧ root.firstParent = some tail.commitId ∧
        (commitRow db tail.commitId).isSome then
      let rootChain := insertIgnore chainConflict db.rootChain ⟨tail.seq + 1, root.commitId, root.treeId⟩
      if rootChain.length = db.rootChain.length + 1 then some { db with rootChain } else none
    else none

/-- Nothing is scanned: compare main with the chain. -/
def startScan (db : Db Oid) (remaining : Option ℕ) : Iteration Oid × Db Oid :=
  match mainRoot db with
  | .error e => (.finished (.error e), db)
  | .ok root =>
    if (chainTail db).any fun tail => tail.commitId == root.commitId then (.finished (.ok .caughtUp), db)
    else
      match directAppend db remaining root with
      | some db' => (.finished (.ok .caughtUp), db')
      | none =>
        if exhausted remaining then (.finished (.ok .notCaughtUp), db)
        else (.again (consume remaining 1), insertScanRows 1 [root] db)

/-- The scan has not met the chain: scan deeper. -/
def scanDeeper (db : Db Oid) (remaining : Option ℕ) (batchSize : ℕ) (anchor : ScanRow Oid) (firstParent : Oid) :
    Iteration Oid × Db Oid :=
  if exhausted remaining then (.finished (.ok .notCaughtUp), db)
  else
    let take := remaining.elim batchSize fun left => min left batchSize
    match scanFirstParents db take firstParent with
    | [] => (.finished (.ok (.discontinuous .missingFirstParent)), db)
    | rows => (.again (consume remaining rows.length), insertScanRows (anchor.pos + 1) rows db)

/-- The scan has met the chain: move a segment over. -/
def drainScan (db : Db Oid) (remaining : Option ℕ) (segmentLimit : ℕ) (anchor : ScanRow Oid)
    (tail : Option (ChainRow Oid)) : Iteration Oid × Db Oid :=
  if exhausted remaining then (.finished (.ok .notCaughtUp), db)
  else
    let take := remaining.elim segmentLimit fun left => min left segmentLimit
    let rows := segmentRows db anchor tail take
    match (rows.map (·.scanPos)).min? with
    | none => (.finished (.ok .caughtUp), { db with scan := [] })
    | some lowestScanPos =>
      match insertSegment db rows with
      | (.error e, _) => (.finished (.error e), db)
      | (.ok (some discontinuity), _) => (.finished (.ok (.discontinuous discontinuity.reason)), db)
      | (.ok none, db') =>
        if lowestScanPos = 1 then (.finished (.ok .caughtUp), { db' with scan := [] })
        else
          (.again (consume remaining rows.length),
            { db' with scan := db'.scan.filter fun row => row.pos ≤ lowestScanPos })

/-- One transaction of `extend_root_chain_inner`. A rollback leaves the tables
as they were. -/
def extendIteration (db : Db Oid) (remaining : Option ℕ) (batchSize segmentLimit : ℕ) :
    Iteration Oid × Db Oid :=
  match scanAnchor db with
  | none => startScan db remaining
  | some anchor =>
    match classifyAnchor db anchor with
    | .discontinuous discontinuity => (.finished (.ok (.discontinuous discontinuity.reason)), db)
    | .scanMore firstParent => scanDeeper db remaining batchSize anchor firstParent
    | .connected tail => drainScan db remaining segmentLimit anchor tail

/-- An iteration of a call with these arguments; `locked` says whether it got
the root-chain lock. -/
def runIteration (db : Db Oid) (locked : Bool) (remaining : Option ℕ) (batchSize segmentLimit : ℕ) :
    Iteration Oid × Db Oid :=
  if batchSize = 0 ∨ segmentLimit = 0 then (.finished (.error .zeroSizes), db)
  else if locked then extendIteration db remaining batchSize segmentLimit
  else (.finished (.ok .notCaughtUp), db)

/-- The loop of `extend_root_chain_inner`. `locks` says which of its iterations
get the lock, and `fuel` bounds how many there are: `none` if more are needed. -/
def extendRootChainInner (batchSize segmentLimit : ℕ) :
    ℕ → (ℕ → Bool) → Db Oid → Option ℕ → Option (Except (RootChainError Oid) RootChainOutcome × Db Oid)
  | 0, _, _, _ => none
  | fuel + 1, locks, db, remaining =>
    match runIteration db (locks 0) remaining batchSize segmentLimit with
    | (.finished result, db') => some (result, db')
    | (.again remaining', db') =>
      extendRootChainInner batchSize segmentLimit fuel (fun i => locks (i + 1)) db' remaining'

/-- The arguments of a call of `extend_root_chain`, and the locks it gets. -/
structure Call where
  budget : Option ℕ
  batchSize : ℕ
  segmentLimit : ℕ
  locks : ℕ → Bool

def Call.run (call : Call) (fuel : ℕ) (db : Db Oid) :
    Option (Except (RootChainError Oid) RootChainOutcome × Db Oid) :=
  extendRootChainInner call.batchSize call.segmentLimit fuel call.locks db call.budget

/-- The tables after a sequence of calls. -/
def afterCalls (fuel : ℕ) : Db Oid → List Call → Option (Db Oid)
  | db, [] => some db
  | db, call :: calls => (call.run fuel db).bind fun answer => afterCalls fuel answer.2 calls

/-! ### The system -/

/-- What can happen to the tables, one transaction at a time. -/
inductive Event (Oid : Type) where
  | moveMain (commitId : Option Oid)
  | appendCommit (commitId : Oid) (commit : CommitRow Oid)
  | iterate (locked : Bool) (remaining : Option ℕ) (batchSize segmentLimit : ℕ)

def step (db : Db Oid) : Event Oid → Db Oid
  | .moveMain commitId => { db with main := commitId }
  | .appendCommit commitId commit =>
    if (db.commits.lookup commitId).isSome then db
    else { db with commits := (commitId, commit) :: db.commits }
  | .iterate locked remaining batchSize segmentLimit =>
    (runIteration db locked remaining batchSize segmentLimit).2

def run (db : Db Oid) (events : List (Event Oid)) : Db Oid := events.foldl step db

end Code

end RootChain
end Mega
