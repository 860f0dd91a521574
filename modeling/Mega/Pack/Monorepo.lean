/-
# Packs of the monorepo

`ceres/pack/monorepo.rs`: the packs sent for a fetch from the monorepo. A pack
starts with the number of its objects, so each of `incremental_pack`,
`shallow_pack` and `filtered_pack` first walks the trees of the commits it is
going to send to count the objects and then walks them again to send them.

Key definitions: `incrementalPack`, `fullPack`, `shallowPack`, `filteredPack`.
-/
import Mega.Pack.Traverse

namespace Mega
namespace Pack

open View Explore ObjectStore

variable {Oid : Type} [DecidableEq Oid]

/-- What the encoder is given: the number of objects for the header, and then the objects. -/
structure PackStream (Oid : Type) where
  objNum : ℕ
  entries : List (Entry Oid)
deriving DecidableEq

variable (store : ObjectStore Oid)

/-- `direct_object_pack`: wanted trees and blobs, without what is below them. -/
def directObjectPack (want : List Oid) : Except PackError (PackStream Oid) :=
  let trees := (store.getTreesByHashes want).map Prod.fst
  let blobs := (store.rowOrder want.dedup).filter store.isBlob
  if trees.length + blobs.length = 0 then .error .requestedObjectsNotFound
  else .ok ⟨trees.length + blobs.length, trees.map .tree ++ blobs.map .blob⟩

/-- The search for the ancestors of the wanted commits that the client does not name. The last commit
of the list is taken; each parent is loaded when it is met. -/
def parentSearch (have_ : List Oid) : Search Oid Unit PackError where
  take := takeLast 1
  expand := fun batch _ => .ok (batch.flatMap store.parentsOf, ())
  skip := fun p => p ∈ have_
  check := fun _ new _ =>
    if new.all fun p => (store.commit? p).isSome then .ok () else .error .nativeParentMissing
  stuck := some .tooDeep

/-- The commits to send: the wanted ones and the ancestors found from them. -/
def commitsToSend (want have_ : List Oid) : Except PackError (List (Oid × Commit Oid)) := do
  let wantCommits := store.getCommitsByHashes want
  let (found, _) ← explore (parentSearch store have_) (wantCommits.length + store.objects.length)
    (wantCommits.map Prod.fst) want ()
  .ok (wantCommits ++ found.filterMap fun p => (store.commit? p).map (p, ·))

/-- The items below the root trees of the known haves. -/
def haveObjects (have_ : List Oid) : Except PackError (List Oid) := do
  let haveCommits := store.getCommitsByHashes have_
  let (_, existObjs) ← walkTrees (traverse store false)
    (store.getTreesByHashes (haveCommits.map fun c => c.2.tree)) []
  .ok existObjs

/-- `want_trees.get(&c.tree_id)`. -/
def rootTree (commit : Commit Oid) : Except PackError (Oid × List (TreeItem Oid)) :=
  match store.tree? commit.tree with
  | some items => .ok (commit.tree, items)
  | none => .error .nativeTreeMissing

/-- The objects below the commits' trees are counted, and each root tree at its first commit. -/
def countCommits (existObjs : List Oid) :
    List (Oid × Commit Oid) → List Oid → List Oid → Except PackError ℕ
  | [], _, _ => .ok 0
  | c :: commits, countedRoots, countedObj =>
    if c.2.tree ∈ countedRoots then countCommits existObjs commits countedRoots countedObj
    else do
      let tree ← rootTree store c.2
      let (n, countedObj) ← traverseForCount store tree existObjs countedObj
      let more ← countCommits existObjs commits (c.2.tree :: countedRoots) countedObj
      .ok (n + more)

/-- Each commit is sent after its tree, if that is new, and what is new below it. -/
def sendCommits : List (Oid × Commit Oid) → List Oid → Except PackError (List (Entry Oid))
  | [], _ => .ok []
  | c :: commits, existObjs => do
    let (out, existObjs) ←
      if c.2.tree ∈ existObjs then .ok ([], existObjs)
      else do
        let tree ← rootTree store c.2
        traverse store true tree (existObjs ++ [c.2.tree])
    let more ← sendCommits commits existObjs
    .ok (out ++ .commit c.1 :: more)

/-- `count` and `send` of the packs that send blobs. -/
def packCommits (commits : List (Oid × Commit Oid)) (existObjs : List Oid) :
    Except PackError (PackStream Oid) := do
  let n ← countCommits store existObjs commits [] []
  let entries ← sendCommits store commits existObjs
  .ok ⟨commits.length + n, entries⟩

def incrementalPack (want have_ : List Oid) : Except PackError (PackStream Oid) :=
  if store.getCommitsByHashes want = [] then directObjectPack store want
  else do
    let commits ← commitsToSend store want have_
    let existObjs ← haveObjects store have_
    packCommits store commits existObjs

def fullPack (want : List Oid) : Except PackError (PackStream Oid) := incrementalPack store want []

/-! ### Shallow packs -/

/-- The levels that are left: the commits met at the next ones, and the commits whose parents are cut
off. Parents that are not stored are passed over. -/
def shallowLevels : ℕ → List (Oid × Commit Oid) → List Oid → List (Oid × Commit Oid) × List Oid
  | 0, _, _ => ([], [])
  | 1, current, _ => ([], (current.filter fun c => c.2.parents ≠ []).map Prod.fst)
  | levels + 2, current, visited =>
    let new := fresh (fun _ => false) (current.flatMap fun c => c.2.parents) visited
    let next := new.filterMap fun p => (store.commit? p).map (p, ·)
    let rest := shallowLevels (levels + 1) next (visited ++ new)
    (next ++ rest.1, rest.2)

def shallowPack (want : List Oid) (depth : ℕ) : Except PackError (PackStream Oid × List Oid) := do
  let wantCommits := store.getCommitsByHashes want
  let (ancestors, shallowCommits) := shallowLevels store depth wantCommits want
  let pack ← packCommits store (wantCommits ++ ancestors) []
  .ok (pack, shallowCommits)

/-! ### Packs without blobs -/

/-- The trees below the commits' trees are counted, and the root tree of each commit. -/
def countCommitTrees (existObjs : List Oid) :
    List (Oid × Commit Oid) → List Oid → Except PackError ℕ
  | [], _ => .ok 0
  | c :: commits, countedObj => do
    let tree ← rootTree store c.2
    let (n, countedObj) ← traverseTreesOnlyForCount store tree existObjs countedObj
    let more ← countCommitTrees existObjs commits countedObj
    .ok (n + more)

/-- Each commit is sent after the new trees below its tree and its tree. -/
def sendCommitTrees : List (Oid × Commit Oid) → List Oid → Except PackError (List (Entry Oid))
  | [], _ => .ok []
  | c :: commits, existObjs => do
    let tree ← rootTree store c.2
    let (out, existObjs) ← traverseTreesOnly store tree existObjs
    let more ← sendCommitTrees commits existObjs
    .ok (out ++ .commit c.1 :: more)

def filteredPack (want have_ : List Oid) (spec : FilterSpec) : Except PackError (PackStream Oid) :=
  if spec ≠ .blobNone then .error .unsupportedFilter
  else if store.getCommitsByHashes want = [] then directObjectPack store want
  else do
    let commits ← commitsToSend store want have_
    let existObjs ← haveObjects store have_
    let n ← countCommitTrees store existObjs commits []
    let entries ← sendCommitTrees store commits existObjs
    .ok ⟨commits.length + n, entries⟩

end Pack
end Mega
