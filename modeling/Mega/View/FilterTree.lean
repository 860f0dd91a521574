/-
# Evaluating a filter on a tree

`ceres/view/tree.rs`: `filter_tree` runs a filter on a tree id. Trees are read
through a source; trees it builds are kept in `available` and are read from
there first. Every result of a non-trivial operator is kept in a memo that
outlives the call, under the printed text of the operator and the input id.

The state of a run is the memo and the available trees. The memo survives a
failed run, as the borrowed memo of the source does. `overlay` recurses as deep
as the trees it merges go; it takes that depth as fuel, and running out is the
fault `outOfFuel`, which the source does not have. A memo that is full evicts
whatever key its hash map yields first; that order is the field `firstKey`.

Key definitions: `FilterMemo`, `FilterMemo.insert`, `overlay`, `excludeInner`,
`eval`, `outputFor`, `filterTree`.
-/
import Mega.Lib.Prog
import Mega.View.TreeSource

namespace Mega
namespace View

variable {Oid : Type}

inductive FilterTreeError (Oid : Type) where
  | missing (object : MissingObject Oid)
  | invariant
  /-- The model's own: the fuel of `overlay` ran out. -/
  | outOfFuel
deriving DecidableEq

/-- A filtered tree and the trees built for it. -/
structure FilterOutput (Oid : Type) where
  treeId : Oid
  trees : List (Oid × Tree Oid)

/-! ### The memo -/

structure MemoKey (Oid : Type) where
  filter : Text
  inputTree : Oid
deriving DecidableEq

structure MemoValue (Oid : Type) where
  output : FilterOutput Oid
  bytes : ℕ

/-- `usize::saturating_add`. -/
def saturatingAdd (a b : ℕ) : ℕ := min (a + b) (2 ^ 64 - 1)

structure FilterMemo (Oid : Type) where
  capacityBytes : ℕ
  usedBytes : ℕ
  entries : List (MemoKey Oid × MemoValue Oid)
  /-- Which of the keys the hash map yields first. -/
  firstKey : List (MemoKey Oid) → ℕ

namespace FilterMemo

def withCapacity (capacityBytes : ℕ) (firstKey : List (MemoKey Oid) → ℕ) : FilterMemo Oid :=
  ⟨capacityBytes, 0, [], firstKey⟩

/-- `FilterMemo::default`, with the capacity `FILTER_TREE_MEMO_CAPACITY_BYTES`. -/
def default (firstKey : List (MemoKey Oid) → ℕ) : FilterMemo Oid :=
  withCapacity (64 * 1024 * 1024) firstKey

/-- Removes entry `i`. -/
def removeAt (memo : FilterMemo Oid) (i : ℕ) : FilterMemo Oid :=
  match memo.entries[i]? with
  | none => memo
  | some (_, value) =>
    { memo with usedBytes := memo.usedBytes - value.bytes, entries := memo.entries.eraseIdx i }

/-- Evicts until `bytes` more fit, in at most the given number of steps. -/
def evict (bytes : ℕ) : ℕ → FilterMemo Oid → FilterMemo Oid
  | 0, memo => memo
  | steps + 1, memo =>
    if saturatingAdd memo.usedBytes bytes > memo.capacityBytes then
      evict bytes steps (memo.removeAt (memo.firstKey (memo.entries.map Prod.fst) % memo.entries.length))
    else memo

/-- The size that an entry is recorded with. -/
def entryBytes (kind : HashKind Oid) (key : MemoKey Oid) (output : FilterOutput Oid) : ℕ :=
  utf8Len key.filter + kind.idLen + kind.idLen + (output.trees.map fun entry => kind.dataLen entry.2.items).sum

variable [DecidableEq Oid]

def get (memo : FilterMemo Oid) (key : MemoKey Oid) : Option (MemoValue Oid) :=
  memo.entries.lookup key

def insert (kind : HashKind Oid) (memo : FilterMemo Oid) (key : MemoKey Oid) (output : FilterOutput Oid) :
    FilterMemo Oid :=
  let bytes := entryBytes kind key output
  if bytes > memo.capacityBytes then memo
  else
    let memo := memo.removeAt (memo.entries.findIdx fun entry => entry.1 == key)
    let memo := evict bytes memo.entries.length memo
    { memo with
      usedBytes := saturatingAdd memo.usedBytes bytes
      entries := (key, ⟨output, bytes⟩) :: memo.entries }

end FilterMemo

/-! ### The evaluator -/

/-- The mutable part of `EvalContext`. -/
structure EvalState (Oid : Type) where
  memo : FilterMemo Oid
  available : List (Oid × Tree Oid)

abbrev EvalM (Oid : Type) := Prog (EvalState Oid) (FilterTreeError Oid)

def treeItem (name : Text) (treeId : Oid) : TreeItem Oid := ⟨.tree, treeId, name⟩

/-- A selector below some tree. -/
structure SelectorRef where
  segments : Path
  treeOnly : Bool
deriving DecidableEq

def SelectorRef.fromSelector : Selector → SelectorRef
  | .entry path => ⟨path.segments, false⟩
  | .tree path => ⟨path.segments, true⟩

structure RewriteResult (Oid : Type) where
  treeId : Oid
  changed : Bool

/-- Groups items by name, the names in order: the map `by_name`. -/
def byName (items : List (TreeItem Oid)) : List (Text × List (TreeItem Oid)) :=
  ((KeySort.sortBy id (itemNames items)).destutter (· ≠ ·)).map fun name =>
    (name, items.filter fun item => item.name == name)

section Loops

variable [DecidableEq Oid] {m : Type → Type} [Monad m] [MonadExceptOf (FilterTreeError Oid) m]
variable (kind : HashKind Oid)

/-- The item that `overlay` keeps for one name, if it keeps one. -/
def overlayName (overlay : List Oid → m Oid) (name : Text) (candidates : List (TreeItem Oid)) :
    m (Option (TreeItem Oid)) :=
  match candidates with
  | [item] => pure (if item.mode ≠ .tree ∨ item.id ≠ emptyTreeId kind then some item else none)
  | _ =>
    if candidates.all fun item => item.mode == .tree then do
      let child ← overlay (candidates.map (·.id))
      pure (if child = emptyTreeId kind then none else some (treeItem name child))
    else throw .invariant

def overlayNames (overlay : List Oid → m Oid) :
    List (Text × List (TreeItem Oid)) → m (List (TreeItem Oid))
  | [] => pure []
  | (name, candidates) :: groups => do
    let item ← overlayName kind overlay name candidates
    let items ← overlayNames overlay groups
    pure (item.toList ++ items)

end Loops

/-- The selectors that start at an entry of this name. -/
def matching (selectors : List SelectorRef) (name : Text) : List SelectorRef :=
  selectors.filter fun selector => selector.segments.head? == some name

/-- Whether one of the selectors ends at an entry of this mode. -/
def removes (matched : List SelectorRef) (mode : TreeItemMode) : Bool :=
  matched.any fun selector => selector.segments.length == 1 && (!selector.treeOnly || mode == .tree)

/-- The selectors that go on below the entry, seen from there. -/
def descendants (matched : List SelectorRef) : List SelectorRef :=
  (matched.filter fun selector => selector.segments.length > 1).map fun selector =>
    { selector with segments := selector.segments.tail }

section ExcludeLoop

variable [DecidableEq Oid] {m : Type → Type} [Monad m] (kind : HashKind Oid)

/-- What an exclusion does to one item: whether it changes, and what is left. -/
def excludeItem (inner : Oid → List SelectorRef → m (RewriteResult Oid)) (selectors : List SelectorRef)
    (item : TreeItem Oid) : m (Bool × List (TreeItem Oid)) :=
  let matched := matching selectors item.name
  if removes matched item.mode then pure (true, [])
  else if (descendants matched).isEmpty || item.mode != .tree then pure (false, [item])
  else do
    let child ← inner item.id (descendants matched)
    if child.changed then
      pure (true, if child.treeId = emptyTreeId kind then [] else [treeItem item.name child.treeId])
    else pure (false, [item])

def excludeItems (inner : Oid → List SelectorRef → m (RewriteResult Oid)) (selectors : List SelectorRef) :
    List (TreeItem Oid) → m (Bool × List (TreeItem Oid))
  | [] => pure (false, [])
  | item :: items => do
    let (changed, kept) ← excludeItem kind inner selectors item
    let (changed', kept') ← excludeItems inner selectors items
    pure (changed || changed', kept ++ kept')

end ExcludeLoop

section Eval

variable [DecidableEq Oid] (kind : HashKind Oid) (source : TreeSource Oid)

/-- The available trees first, then the source. -/
def overlayTreeSource (available : List (Oid × Tree Oid)) : TreeSource Oid := fun treeId =>
  match available.lookup treeId with
  | some tree => .ok tree
  | none => source treeId

def read (treeId : Oid) : EvalM Oid (Tree Oid) := do
  let s ← get
  match readTree kind (overlayTreeSource source s.available) treeId with
  | .ok tree => pure tree
  | .error missing => throw (.missing missing)

def evalSubdir (inputTree : Oid) (path : Path) : EvalM Oid Oid := do
  let s ← get
  match lookupPath kind (overlayTreeSource source s.available) inputTree path with
  | .ok (.tree treeId) => pure treeId
  | .ok .absent => pure (emptyTreeId kind)
  | .ok .notTree => pure (emptyTreeId kind)
  | .error missing => throw (.missing missing)

def makeTree (items : List (TreeItem Oid)) : EvalM Oid Oid :=
  match buildTree kind items with
  | none => throw .invariant
  | some (treeId, tree) => do
    modify fun s =>
      if (s.available.lookup treeId).isSome then s
      else { s with available := (treeId, tree) :: s.available }
    pure treeId

/-- The loop over `path.iter().rev()`. -/
def wrapTree (inputTree : Oid) : Path → EvalM Oid Oid
  | [] => pure inputTree
  | segment :: path => do
    let current ← wrapTree inputTree path
    makeTree kind [treeItem segment current]

def evalPrefixed (inputTree : Oid) (path : Path) : EvalM Oid Oid :=
  if inputTree = emptyTreeId kind then pure inputTree else wrapTree kind inputTree path

/-- One level of an exclusion. Each level drops one segment of the selectors,
so their greatest length bounds the recursion. -/
def excludeInner : ℕ → Oid → List SelectorRef → EvalM Oid (RewriteResult Oid)
  | 0, treeId, _ => pure ⟨treeId, false⟩
  | depth + 1, treeId, selectors => do
    let tree ← read kind source treeId
    let (changed, items) ← excludeItems kind (excludeInner depth) selectors tree.items
    if changed then do
      let treeId ← makeTree kind (items.filter fun item => item.mode != .tree || item.id != emptyTreeId kind)
      pure ⟨treeId, true⟩
    else pure ⟨treeId, false⟩

def maxSegments (selectors : List SelectorRef) : ℕ :=
  selectors.foldr (fun selector n => max selector.segments.length n) 0

def evalExclude (inputTree : Oid) (selectors : List Selector) : EvalM Oid Oid :=
  if selectors.isEmpty then pure inputTree
  else do
    let refs := selectors.map SelectorRef.fromSelector
    let result ← excludeInner kind source (maxSegments refs) inputTree refs
    pure result.treeId

/-- The items of all the trees, one tree after the other. -/
def readItems : List Oid → EvalM Oid (List (TreeItem Oid))
  | [] => pure []
  | treeId :: treeIds => do
    let tree ← read kind source treeId
    let items ← readItems treeIds
    pure (tree.items ++ items)

/-- Merges trees, giving up on the first name that is not a tree in all of
them. -/
def overlay : ℕ → List Oid → EvalM Oid Oid
  | 0, _ => throw .outOfFuel
  | fuel + 1, treeIds =>
    match treeIds.filter fun treeId => treeId != emptyTreeId kind with
    | [] => pure (emptyTreeId kind)
    | [treeId] => pure treeId
    | nonEmpty => do
      let items ← readItems kind source nonEmpty
      let items ← overlayNames kind (overlay fuel) (byName items)
      makeTree kind items

/-- The end of `compose`: the member outputs that are not empty, overlaid. -/
def composeOutputs (fuel : ℕ) (outputs : List Oid) : EvalM Oid Oid :=
  match outputs with
  | [] => pure (emptyTreeId kind)
  | [output] => pure output
  | outputs => overlay kind source fuel outputs

/-- Collects the available trees below `treeId`, each once. The recursion goes
through available trees not collected yet, so their number bounds it. -/
def collectOutputTrees (available : List (Oid × Tree Oid)) :
    ℕ → Oid → List (Oid × Tree Oid) → List (Oid × Tree Oid)
  | 0, _, trees => trees
  | depth + 1, treeId, trees =>
    match available.lookup treeId with
    | none => trees
    | some tree =>
      if (trees.lookup treeId).isSome then trees
      else
        tree.items.foldl (fun trees item =>
            if item.mode = .tree then collectOutputTrees available depth item.id trees else trees)
          ((treeId, tree) :: trees)

def outputFor (available : List (Oid × Tree Oid)) (treeId : Oid) : FilterOutput Oid :=
  if treeId = emptyTreeId kind then ⟨treeId, [(treeId, Tree.nil)]⟩
  else ⟨treeId, collectOutputTrees available (available.length + 1) treeId []⟩

/-- Answers from the memo, or computes and keeps the result. -/
def memoized (filter : Filter) (inputTree : Oid) (compute : EvalM Oid Oid) : EvalM Oid Oid := do
  let key : MemoKey Oid := ⟨print filter, inputTree⟩
  let s ← get
  match s.memo.get key with
  | some value => do
    modify fun s => { s with available := value.output.trees ++ s.available }
    pure value.output.treeId
  | none => do
    let treeId ← compute
    modify fun s => { s with memo := s.memo.insert kind key (outputFor kind s.available treeId) }
    pure treeId

mutual

def eval (fuel : ℕ) : Filter → Oid → EvalM Oid Oid
  | .nop, inputTree => pure inputTree
  | .empty, _ => pure (emptyTreeId kind)
  | .subdir path, inputTree =>
    memoized kind (.subdir path) inputTree (evalSubdir kind source inputTree path.segments)
  | .prefixed path, inputTree =>
    memoized kind (.prefixed path) inputTree (evalPrefixed kind inputTree path.segments)
  | .exclude selectors, inputTree =>
    memoized kind (.exclude selectors) inputTree (evalExclude kind source inputTree selectors)
  | .compose members, inputTree =>
    memoized kind (.compose members) inputTree do
      let outputs ← evalMembers fuel members inputTree
      composeOutputs kind source fuel outputs
  | .chain ops, inputTree => memoized kind (.chain ops) inputTree (evalChain fuel ops inputTree)

/-- The member outputs that are not empty. -/
def evalMembers (fuel : ℕ) : List Filter → Oid → EvalM Oid (List Oid)
  | [], _ => pure []
  | member :: members, inputTree => do
    let output ← eval fuel member inputTree
    let outputs ← evalMembers fuel members inputTree
    pure (if output = emptyTreeId kind then outputs else output :: outputs)

def evalChain (fuel : ℕ) : List Filter → Oid → EvalM Oid Oid
  | [], current => pure current
  | op :: ops, current => do
    let current ← eval fuel op current
    evalChain fuel ops current

end

/-- Runs a filter on a tree: the outcome, and the memo after it. -/
def filterTree (fuel : ℕ) (memo : FilterMemo Oid) (filter : Filter) (treeId : Oid) :
    Except (FilterTreeError Oid) (FilterOutput Oid) × FilterMemo Oid :=
  match (eval kind source fuel filter treeId).exec ⟨memo, []⟩ with
  | (.ok treeId, s) => (.ok (outputFor kind s.available treeId), s.memo)
  | (.error e, s) => (.error e, s.memo)

end Eval

end View
end Mega
