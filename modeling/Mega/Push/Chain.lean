/-
# Push chains

`ceres/pack/push_chain.rs`: what a pushed pack means. `PushChain::resolve` walks
the first parents of the ref update's new tip as long as the pack carries them,
and takes from that path the increment of the push and its base.
`PushChain::validate` then checks the increment, and counts the commits of an
open change list below its base. A push whose pack brings no commit to a known
tip has no such path: `PushChain::from_known_tip` walks the stored first parents
from the tip to the ref's old commit instead.

They read the commits from storage after the pack is unpacked into it. Which of
the pack's commits were not stored before is given to `resolve` as
`new_commit_ids`: only a push that introduces its own tip has an increment that
is a part of the path.

The loops recurse on what their bounds leave: commits of the pack that the path
has not used, or commits that the limit still allows.

Key definitions: `resolve`, `walkPack`, `fromKnownTip`, `walkKnown`, `validate`,
`walkHistory`, `receive`, `receiveKnownTip`.
-/
import Mathlib

namespace Mega
namespace Push

/-- A branch command of the push. -/
structure RefCommand (Oid : Type) where
  refName : String
  oldId : Oid
  newId : Oid
deriving DecidableEq

structure Commit (Oid : Type) where
  id : Oid
  parentCommitIds : List Oid
deriving DecidableEq

/-- A row of `mega_commit`. -/
structure CommitModel (Oid : Type) where
  commitId : Oid
  /-- `parents_id`, if it is a list of texts. -/
  parentsId : Option (List Oid)
  /-- Whether the ids are of the hash kind in use, and signatures and body are there. -/
  native : Bool
deriving DecidableEq

/-- An open change list. -/
structure Cl (Oid : Type) where
  link : String
  fromHash : Oid
deriving DecidableEq

/-- The rejections, with the values their texts name. -/
inductive PushError (Oid : Type) where
  /-- `MegaError::OrphanChain` -/
  | orphanChain
  /-- "invalid native commit parents" -/
  | invalidParents
  /-- "invalid native commit identity", "… signature", "missing native commit body" -/
  | invalidCommit
  /-- "receive-pack got an empty pack for … but new_id … is not a known commit" -/
  | emptyPack (refName : String) (newId : Oid)
  /-- "push commit … for … was not found in storage after unpack" -/
  | tipNotStored (newId : Oid) (refName : String)
  /-- "the pack does not contain the ref update target … for …" -/
  | targetNotInPack (tipId : Oid) (refName : String)
  /-- "push chain contains merge commit … (… parents)" -/
  | mergeCommit (commitId : Oid) (parents : ℕ)
  /-- "push introduces more than … commits in one chain" -/
  | tooManyCommits (maxCommits : ℕ)
  /-- "pack carries more than … already-known commits along the chain for …" -/
  | tooManyKnown (maxCommits : ℕ) (refName : String)
  /-- "push chain contains a cycle below commit …" -/
  | cycleBelow (tipId : Oid)
  /-- "push chain is broken: commit … (parent of …) was carried by the pack but is missing from storage" -/
  | carriedNotStored (parentId childId : Oid)
  /-- "the pack contains … commit(s) outside the ref update's chain for … (e.g. …)" -/
  | outsideChain (count : ℕ) (refName : String) (first : Oid)
  /-- "push chain base … for … is not a known commit" -/
  | unknownBase (fork : Oid) (refName : String)
  /-- "push chain tip … does not match the ref update new_id … for …" -/
  | tipMismatch (tipId newId : Oid) (refName : String)
  /-- "push chain is broken: the increment starts at …, not the tip …" -/
  | incrementStart (commitId tipId : Oid)
  /-- "push chain contains a cycle at commit …" -/
  | cycleAt (commitId : Oid)
  /-- "push chain is broken: commit … is not linked to the next chain commit by its first parent" -/
  | notLinked (commitId : Oid)
  /-- "push chain is broken: base … is not on the first-parent chain of tip …" -/
  | baseNotOnChain (base tipId : Oid)
  /-- "push chain is broken: commit … is missing from storage" -/
  | historyNotStored (commitId : Oid)
  /-- "push chain is broken: corrupt parents_id for commit …" -/
  | corruptParents (commitId : Oid)
  /-- "updating CL … would exceed the …-commit cumulative limit (… → …)" -/
  | clTooLong (link : String) (maxCommits : ℕ) (fromHash tipId : Oid)
  /-- "push chain is broken: commit … has no parent, but the chain never reached base …" -/
  | historyEnded (commitId fromHash : Oid)
  /-- "known-tip chain expected new_id … but tip is …" -/
  | knownTipMismatch (newId tipId : Oid)
  /-- "push chain from … never reached old_id …" -/
  | neverReached (newId oldId : Oid)
  /-- "push chain is broken: commit … (parent of …) is missing from storage" -/
  | parentNotStored (parentId childId : Oid)
  /-- "trunk Noop bridge expected a known tip for …" -/
  | noKnownTip (newId : Oid)
deriving DecidableEq

structure PushChain (Oid : Type) where
  base : Oid
  tip : Commit Oid
  /-- The commits to be checked, tip first. -/
  orderedCommits : List (Commit Oid)
deriving DecidableEq

inductive PushChainResolution (Oid : Type) where
  | chain (chain : PushChain Oid)
  /-- "push contained no new commit objects and … is already known" -/
  | noop (newId : Oid)
deriving DecidableEq

section Code

variable {Oid : Type} [DecidableEq Oid]

def getCommitByHash (storage : List (CommitModel Oid)) (hash : Oid) : Option (CommitModel Oid) :=
  storage.find? fun model => model.commitId == hash

def commitFromMegaModel (model : CommitModel Oid) : Except (PushError Oid) (Commit Oid) :=
  match model.parentsId with
  | none => .error .invalidParents
  | some parents => if model.native then .ok ⟨model.commitId, parents⟩ else .error .invalidCommit

/-! ### Resolving -/

/-- The budgets of the walk. A push that introduces its tip has one for new
commits and one for known ones; otherwise the whole path has one. -/
def walkBudget (cmd : RefCommand Oid) (maxCommits : ℕ) (tipIsNew parentIsNew : Bool)
    (pathLen newLen knownLen : ℕ) : Except (PushError Oid) (ℕ × ℕ) :=
  if tipIsNew then
    if parentIsNew then
      if newLen ≥ maxCommits then .error (.tooManyCommits maxCommits) else .ok (newLen + 1, knownLen)
    else if knownLen ≥ maxCommits then .error (.tooManyKnown maxCommits cmd.refName)
    else .ok (newLen, knownLen + 1)
  else if pathLen ≥ maxCommits then .error (.tooManyCommits maxCommits)
  else .ok (newLen, knownLen)

/-- Reads a commit that the pack carries. `claimed` commits must not be merges. -/
def readCarried (storage : List (CommitModel Oid)) (childId parentId : Oid) (claimed : Bool) :
    Except (PushError Oid) (Commit Oid) := do
  match getCommitByHash storage parentId with
  | none => .error (.carriedNotStored parentId childId)
  | some model =>
    let parent ← commitFromMegaModel model
    if claimed ∧ parent.parentCommitIds.length > 1 then
      .error (.mergeCommit parentId parent.parentCommitIds.length)
    else .ok parent

/-- The walk down the first parents that the pack carries. Answers the path below
`current` and the first parent outside the pack, if the path does not end in a
commit without parents. -/
def walkPack (cmd : RefCommand Oid) (packCommitIds newCommitIds : List Oid) (tipId : Oid)
    (storage : List (CommitModel Oid)) (maxCommits : ℕ) :
    (left pathLen newLen knownLen : ℕ) → Commit Oid →
    Except (PushError Oid) (List (Commit Oid) × Option Oid)
  | left, pathLen, newLen, knownLen, current =>
    match current.parentCommitIds.head? with
    | none => .ok ([], none)
    | some parentId =>
      if parentId ∉ packCommitIds then .ok ([], some parentId)
      else do
        let tipIsNew := decide (tipId ∈ newCommitIds)
        let parentIsNew := decide (parentId ∈ newCommitIds)
        let lens ← walkBudget cmd maxCommits tipIsNew parentIsNew pathLen newLen knownLen
        match left with
        | 0 => .error (.cycleBelow tipId)
        | left + 1 =>
          let parent ← readCarried storage current.id parentId (if tipIsNew then parentIsNew else true)
          let below ← walkPack cmd packCommitIds newCommitIds tipId storage maxCommits
            left (pathLen + 1) lens.1 lens.2 parent
          .ok (parent :: below.1, below.2)

/-- The commits of the pack that are not on the path. -/
def junk (packCommitIds : List Oid) (path : List (Commit Oid)) : List Oid :=
  packCommitIds.filter fun id => id ∉ path.map (·.id)

/-- The increment and its fork point: of a push that introduces its tip, the new
commits above the first known one; otherwise the whole path. -/
def increment (newCommitIds : List Oid) (tipId : Oid) (path : List (Commit Oid)) (walkStop : Option Oid) :
    List (Commit Oid) × Option Oid :=
  if tipId ∈ newCommitIds then
    match path.findIdx? fun commit => commit.id ∉ newCommitIds with
    | some i => (path.take i, path[i]?.map (·.id))
    | none => (path, walkStop)
  else (path, walkStop)

/-- The base: the ref's old commit, or for a new branch the fork point. -/
def resolveBase (isProtocolZeroId : Oid → Bool) (cmd : RefCommand Oid) (storage : List (CommitModel Oid))
    (fork : Option Oid) : Except (PushError Oid) Oid :=
  if isProtocolZeroId cmd.oldId = false then .ok cmd.oldId
  else
    match fork with
    | none => .error .orphanChain
    | some fork =>
      if (getCommitByHash storage fork).isNone then .error (.unknownBase fork cmd.refName) else .ok fork

/-- Sets of ids are lists, in the order the code iterates over them. -/
def resolve (isProtocolZeroId : Oid → Bool) (cmd : RefCommand Oid) (packCommitIds newCommitIds : List Oid)
    (tipCommit : Option (Commit Oid)) (storage : List (CommitModel Oid)) (maxCommits : ℕ) :
    Except (PushError Oid) (PushChainResolution Oid) :=
  match packCommitIds.isEmpty, tipCommit with
  | true, some _ => .ok (.noop cmd.newId)
  | true, none => .error (.emptyPack cmd.refName cmd.newId)
  | false, none => .error (.tipNotStored cmd.newId cmd.refName)
  | false, some tip =>
    if tip.id ∉ packCommitIds then .error (.targetNotInPack tip.id cmd.refName)
    else if tip.parentCommitIds.length > 1 then .error (.mergeCommit tip.id tip.parentCommitIds.length)
    else do
      let walked ← walkPack cmd packCommitIds newCommitIds tip.id storage maxCommits
        (packCommitIds.length - 1) 1 1 0 tip
      let path := tip :: walked.1
      match junk packCommitIds path with
      | first :: others => .error (.outsideChain (1 + others.length) cmd.refName first)
      | [] =>
        let inc := increment newCommitIds tip.id path walked.2
        let base ← resolveBase isProtocolZeroId cmd storage inc.2
        .ok (.chain ⟨base, tip, inc.1⟩)

/-! ### A known tip -/

/-- The walk from a known tip down its first parents to the old commit. Answers
the path below `current`; `room` commits fit, `current` included. -/
def walkKnown (isProtocolZeroId : Oid → Bool) (cmd : RefCommand Oid) (storage : List (CommitModel Oid))
    (maxCommits : ℕ) : (room : ℕ) → Commit Oid → Except (PushError Oid) (List (Commit Oid))
  | 0, _ => .error (.tooManyCommits maxCommits)
  | room + 1, current =>
    match current.parentCommitIds.head? with
    | none =>
      if isProtocolZeroId cmd.oldId then .error .orphanChain else .error (.neverReached cmd.newId cmd.oldId)
    | some parentId =>
      if parentId = cmd.oldId then .ok []
      else
        match getCommitByHash storage parentId with
        | none => .error (.parentNotStored parentId current.id)
        | some model => do
          let parent ← commitFromMegaModel model
          let below ← walkKnown isProtocolZeroId cmd storage maxCommits room parent
          .ok (parent :: below)

/-- The chain of a push whose pack brings nothing new. -/
def fromKnownTip (isProtocolZeroId : Oid → Bool) (cmd : RefCommand Oid) (tip : Commit Oid)
    (storage : List (CommitModel Oid)) (maxCommits : ℕ) : Except (PushError Oid) (PushChain Oid) :=
  if cmd.newId ≠ tip.id then .error (.knownTipMismatch cmd.newId tip.id)
  else if cmd.oldId = cmd.newId then .ok ⟨cmd.oldId, tip, [tip]⟩
  else do
    let below ← walkKnown isProtocolZeroId cmd storage maxCommits maxCommits tip
    .ok ⟨cmd.oldId, tip, tip :: below⟩

/-! ### Validating -/

/-- The increment: every commit has one parent, the next commit or the base. -/
def checkIncrement (base tipId : Oid) : (idx : ℕ) → (visited : List Oid) → List (Commit Oid) →
    Except (PushError Oid) Unit
  | _, _, [] => .ok ()
  | idx, visited, commit :: rest =>
    if idx = 0 ∧ commit.id ≠ tipId then .error (.incrementStart commit.id tipId)
    else if commit.id ∈ visited then .error (.cycleAt commit.id)
    else if commit.parentCommitIds.length > 1 then
      .error (.mergeCommit commit.id commit.parentCommitIds.length)
    else
      match rest.head? with
      | some next =>
        if commit.parentCommitIds.head? ≠ some next.id then .error (.notLinked commit.id)
        else checkIncrement base tipId (idx + 1) (commit.id :: visited) rest
      | none =>
        if commit.parentCommitIds.head? ≠ some base then .error (.baseNotOnChain base tipId)
        else checkIncrement base tipId (idx + 1) (commit.id :: visited) rest

/-- The history of a change list, from the base of the push down to its
`from_hash`; `room` commits fit below the limit. -/
def walkHistory (storage : List (CommitModel Oid)) (cl : Cl Oid) (tipId : Oid) (maxCommits : ℕ) :
    (room : ℕ) → (visited : List Oid) → Oid → Except (PushError Oid) Unit
  | room, visited, current =>
    if current = cl.fromHash then .ok ()
    else if current ∈ visited then .error (.cycleAt current)
    else
      match getCommitByHash storage current with
      | none => .error (.historyNotStored current)
      | some model =>
        match model.parentsId with
        | none => .error (.corruptParents current)
        | some parents =>
          match room with
          | 0 => .error (.clTooLong cl.link maxCommits cl.fromHash tipId)
          | room + 1 =>
            match parents.head? with
            | none => .error (.historyEnded current cl.fromHash)
            | some parent => walkHistory storage cl tipId maxCommits room (current :: visited) parent

def validate (chain : PushChain Oid) (cmd : RefCommand Oid) (storage : List (CommitModel Oid))
    (openCl : Option (Cl Oid)) (maxCommits : ℕ) : Except (PushError Oid) Unit :=
  if chain.tip.id ≠ cmd.newId then .error (.tipMismatch chain.tip.id cmd.newId cmd.refName)
  else do
    checkIncrement chain.base chain.tip.id 0 [] chain.orderedCommits
    if chain.orderedCommits.length > maxCommits then .error (.tooManyCommits maxCommits)
    else
      match openCl with
      | none => .ok ()
      | some cl =>
        walkHistory storage cl chain.tip.id maxCommits (maxCommits - chain.orderedCommits.length) [] chain.base

/-! ### A push -/

/-- The tip commit, looked up after the pack is unpacked. -/
def tipCommit (storage : List (CommitModel Oid)) (newId : Oid) : Except (PushError Oid) (Option (Commit Oid)) :=
  match getCommitByHash storage newId with
  | none => .ok none
  | some model => do
    let tip ← commitFromMegaModel model
    .ok (some tip)

/-- A no-op has nothing to validate. -/
def validateResolution (resolution : PushChainResolution Oid) (cmd : RefCommand Oid)
    (storage : List (CommitModel Oid)) (openCl : Option (Cl Oid)) (maxCommits : ℕ) :
    Except (PushError Oid) (PushChainResolution Oid) :=
  match resolution with
  | .noop newId => .ok (.noop newId)
  | .chain chain => do
    validate chain cmd storage openCl maxCommits
    .ok (.chain chain)

/-- `resolve` and then `validate`, as `finalize_receive_pack` runs them. -/
def receive (isProtocolZeroId : Oid → Bool) (cmd : RefCommand Oid) (packCommitIds newCommitIds : List Oid)
    (storage : List (CommitModel Oid)) (openCl : Option (Cl Oid)) (maxCommits : ℕ) :
    Except (PushError Oid) (PushChainResolution Oid) := do
  let tip ← tipCommit storage cmd.newId
  let resolution ← resolve isProtocolZeroId cmd packCommitIds newCommitIds tip storage maxCommits
  validateResolution resolution cmd storage openCl maxCommits

/-- `from_known_tip` and then `validate`, as a trunk push without new commits runs them. -/
def receiveKnownTip (isProtocolZeroId : Oid → Bool) (cmd : RefCommand Oid) (storage : List (CommitModel Oid))
    (openCl : Option (Cl Oid)) (maxCommits : ℕ) : Except (PushError Oid) (PushChain Oid) := do
  match ← tipCommit storage cmd.newId with
  | none => .error (.noKnownTip cmd.newId)
  | some tip =>
    let chain ← fromKnownTip isProtocolZeroId cmd tip storage maxCommits
    validate chain cmd storage openCl maxCommits
    .ok chain

end Code

end Push
end Mega
