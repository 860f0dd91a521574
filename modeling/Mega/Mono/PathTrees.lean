/-
# Looking up many paths at once

`jupiter/storage/mono_storage.rs` finds the trees at a list of paths level by level: a
frontier holds, for every tree that is needed next, the paths that wait for it. The rows
of one level are loaded together, and each path goes on to its next component, ends, or
is dropped. A single path is walked tree by tree. Both give the same trees.

A tree row is represented by what parsing it gives, and the frontier by the list of its
entries. An entry has the components that are left of its path in place of the index of
the path and a depth. The order in which the rows of a level arrive is left out.

Key definitions: `resolvePathTreeHash`, `existingPathTrees`.
Key theorems: `levels_spec`, `existing_path_trees_exact`.
-/
import Mega.View.TreeSource

namespace Mega
namespace Mono

open List View

variable {Oid : Type} [DecidableEq Oid]

inductive MegaError where
  | invalidRoot
  | invalidTree
  /-- More levels than a path has components; no run ends so. -/
  | levels

/-- The tree rows by their hash. -/
abbrev TreeRows (Oid : Type) := Oid → Option (Except MegaError (List (TreeItem Oid)))

/-- Every stored row is a tree. -/
def TreeRows.Forest (rows : TreeRows Oid) : Prop := ∀ hash row, rows hash = some row → ∃ items, row = .ok items

def components (path : Text) : List Text := (path.splitOn '/').filter (· ≠ [])

def isRootPath (path : Text) : Bool := path.isEmpty || path == ['/']

/-- The subtree under a name. -/
def subtreeId (items : List (TreeItem Oid)) (component : Text) : Option Oid :=
  match items.find? (fun item => item.name == component) with
  | some item => if item.mode = .tree then some item.id else none
  | none => none

/-! ### One path -/

/-- The loop over the components, from a tree that was read. -/
def walkComponents (rows : TreeRows Oid) : Oid → List (TreeItem Oid) → List Text → Except MegaError (Option Oid)
  | hash, _, [] => .ok (some hash)
  | _, items, component :: rest =>
    match subtreeId items component with
    | none => .ok none
    | some hash =>
      match rows hash with
      | none => .ok none
      | some row => row.bind fun next => walkComponents rows hash next rest

def resolvePathTreeHash (validId : Oid → Bool) (rows : TreeRows Oid) (root : Oid) (path : Text) :
    Except MegaError (Option Oid) :=
  if !validId root then .error .invalidRoot
  else if isRootPath path then .ok (some root)
  else match rows root with
    | none => .ok none
    | some row => row.bind fun items => walkComponents rows root items (components path)

/-! ### All paths -/

/-- A path on its way, with the components that are left. -/
structure Request where
  path : Text
  left : List Text

/-- What becomes of a request at the tree that it waits for: its path ends there (the source does not keep the
hash), goes on to a subtree, or is dropped. -/
def Request.step (hash : Oid) (items : List (TreeItem Oid)) (request : Request) : Option ((Text × Oid) ⊕ (Oid × Request)) :=
  match request.left with
  | [] => some (.inl (request.path, hash))
  | component :: left => (subtreeId items component).map fun next => .inr (next, ⟨request.path, left⟩)

/-- The steps of the requests for one tree. A missing row leaves them behind; one that is no tree aborts. -/
def answer (rows : TreeRows Oid) (frontier : List (Oid × Request)) (hash : Oid) :
    Except MegaError (List ((Text × Oid) ⊕ (Oid × Request))) :=
  match rows hash with
  | none => .ok []
  | some row => row.map fun items => ((frontier.filter (·.1 = hash)).map (·.2)).filterMap (Request.step hash items)

/-- The loop over the levels. -/
def levels (rows : TreeRows Oid) : ℕ → List (Oid × Request) → List (Text × Oid) → Except MegaError (List (Text × Oid))
  | _, [], existing => .ok existing
  | 0, _ :: _, _ => .error .levels
  | n + 1, entry :: frontier, existing => do
    let answers ← ((entry :: frontier).map (·.1)).dedup.mapM (answer rows (entry :: frontier))
    levels rows n (answers.flatten.filterMap Sum.getRight?) (existing ++ answers.flatten.filterMap Sum.getLeft?)

/-- The paths that exist, each with the hash of its tree. -/
def existingTrees (rows : TreeRows Oid) (root : Oid) (paths : List Text) : Except MegaError (List (Text × Oid)) :=
  levels rows ((paths.map fun path => (components path).length).sum + 1)
    ((paths.filter (!isRootPath ·)).map fun path => (root, ⟨path, components path⟩))
    ((paths.filter isRootPath).map fun path => (path, root))

def existingPathTrees (rows : TreeRows Oid) (root : Oid) (paths : List Text) : Except MegaError (List Text) :=
  (existingTrees rows root paths).map (List.map (·.1))

/-! ### Both reach the same trees -/

/-- The tree at the end of the components, if all trees up to it are there. -/
def treeAt (rows : TreeRows Oid) : Oid → List Text → Option Oid
  | hash, [] => (rows hash).map fun _ => hash
  | hash, component :: left => (rows hash).bind fun row =>
    (row.toOption.bind (subtreeId · component)).bind fun next => treeAt rows next left

/-- The path and tree that a request ends with. -/
def reached (rows : TreeRows Oid) : (Text × Oid) ⊕ (Oid × Request) → Option (Text × Oid)
  | .inl ended => some ended
  | .inr (hash, request) => (treeAt rows hash request.left).map (request.path, ·)

section Forest

variable {rows : TreeRows Oid} (hforest : rows.Forest)
include hforest

omit [DecidableEq Oid] in
theorem walk_eq_treeAt : ∀ (left : List Text) {hash : Oid} {items : List (TreeItem Oid)}, rows hash = some (.ok items) →
    walkComponents rows hash items left = .ok (treeAt rows hash left)
  | [], hash, items, h => by rw [walkComponents, treeAt, h, Option.map_some]
  | component :: left, hash, items, h => by
    rw [walkComponents, treeAt, h, Option.bind_some, Except.toOption, Option.bind_some]
    cases subtreeId items component with
    | none => rfl
    | some next =>
      rw [Option.bind_some]
      cases hrow : rows next with
      | none => cases left <;> simp [treeAt, hrow]
      | some row =>
        obtain ⟨items', rfl⟩ := hforest _ _ hrow
        simp only [hrow]
        exact walk_eq_treeAt left hrow

/-- Every request of a level whose tree is there makes its step. -/
theorem mem_answers (frontier : List (Oid × Request)) :
    ∃ answers, (frontier.map (·.1)).dedup.mapM (answer rows frontier) = .ok answers ∧
      ∀ outcome, outcome ∈ answers.flatten ↔ ∃ hash items request, (hash, request) ∈ frontier ∧
        rows hash = some (.ok items) ∧ request.step hash items = some outcome := by
  have heach : ∀ hash, ∃ part, answer rows frontier hash = pure part ∧ ∀ outcome, outcome ∈ part ↔
      ∃ items request, (hash, request) ∈ frontier ∧ rows hash = some (.ok items) ∧
        request.step hash items = some outcome := by
    intro hash
    cases hrow : rows hash with
    | none => exact ⟨_, by rw [answer, hrow]; rfl, by simp⟩
    | some row =>
      obtain ⟨items, rfl⟩ := hforest _ _ hrow
      refine ⟨_, by rw [answer, hrow]; rfl, fun outcome => ?_⟩
      simp only [mem_filterMap, mem_map, mem_filter, decide_eq_true_eq]
      constructor
      · rintro ⟨_, ⟨⟨_, request⟩, ⟨hentry, rfl⟩, rfl⟩, hstep⟩
        exact ⟨items, request, hentry, rfl, hstep⟩
      · rintro ⟨_, request, hentry, heq, hstep⟩
        cases heq
        exact ⟨request, ⟨_, ⟨hentry, rfl⟩, rfl⟩, hstep⟩
  choose part hanswer hpart using heach
  refine ⟨_, by rw [funext hanswer]; exact mapM_pure, fun outcome => ?_⟩
  simp only [← flatMap_def, mem_flatMap, mem_dedup, hpart]
  constructor
  · rintro ⟨hash, -, hstep⟩
    exact ⟨hash, hstep⟩
  · rintro ⟨hash, items, request, hentry, hstep⟩
    exact ⟨hash, mem_map.mpr ⟨_, hentry, rfl⟩, items, request, hentry, hstep⟩

omit [DecidableEq Oid] in
theorem reached_step {hash : Oid} {request : Request} {found : Text × Oid} :
    reached rows (.inr (hash, request)) = some found ↔ ∃ items outcome, rows hash = some (.ok items) ∧
      request.step hash items = some outcome ∧ reached rows outcome = some found := by
  cases hrow : rows hash with
  | none => cases hleft : request.left <;> simp [reached, treeAt, hleft, hrow]
  | some row =>
    obtain ⟨items, rfl⟩ := hforest _ _ hrow
    cases hleft : request.left with
    | nil => simp [reached, treeAt, Request.step, hleft, hrow]
    | cons component left =>
      cases hsub : subtreeId items component <;>
        simp [reached, treeAt, Request.step, hleft, hrow, hsub, Except.toOption]

/-- **The levels find the tree at the end of every path.** One level takes one component off each request. -/
theorem levels_spec : ∀ (n : ℕ) (frontier : List (Oid × Request)) (existing : List (Text × Oid)),
    (∀ entry ∈ frontier, entry.2.left.length < n) →
    ∃ all, levels rows n frontier existing = .ok all ∧
      ∀ found, found ∈ all ↔ found ∈ existing ∨ ∃ entry ∈ frontier, reached rows (.inr entry) = some found
  | n, [], existing, _ => ⟨existing, by cases n <;> rfl, by simp⟩
  | 0, entry :: frontier, _, h => absurd (h entry mem_cons_self) (Nat.not_lt_zero _)
  | n + 1, entry :: frontier, existing, h => by
    obtain ⟨answers, hanswers, hstep⟩ := mem_answers hforest (entry :: frontier)
    have hshort : ∀ next ∈ answers.flatten.filterMap Sum.getRight?, next.2.left.length < n := by
      intro next hnext
      obtain ⟨_ | _, houtcome, heq⟩ := mem_filterMap.mp hnext <;> cases heq
      obtain ⟨hash, items, request, hentry, -, hnext⟩ := (hstep _).mp houtcome
      have hlt := h _ hentry
      rw [Request.step] at hnext
      split at hnext
      · cases hnext
      · rename_i component left hleft
        obtain ⟨_, -, heq⟩ := Option.map_eq_some_iff.mp hnext
        cases heq
        rw [hleft] at hlt
        exact Nat.lt_of_succ_lt_succ hlt
    obtain ⟨all, hall, hmem⟩ := levels_spec n _ (existing ++ answers.flatten.filterMap Sum.getLeft?) hshort
    refine ⟨all, by rw [levels, hanswers]; exact hall, fun found => ?_⟩
    have hsplit : (∃ outcome ∈ answers.flatten, reached rows outcome = some found) ↔
        found ∈ answers.flatten.filterMap Sum.getLeft? ∨
          ∃ next ∈ answers.flatten.filterMap Sum.getRight?, reached rows (.inr next) = some found := by
      simp [Sum.exists, reached]
    rw [hmem, mem_append, or_assoc, ← hsplit]
    refine or_congr_right ⟨?_, ?_⟩
    · rintro ⟨outcome, houtcome, hfound⟩
      obtain ⟨hash, items, request, hentry, hrow, hnext⟩ := (hstep _).mp houtcome
      exact ⟨_, hentry, (reached_step hforest).mpr ⟨items, outcome, hrow, hnext, hfound⟩⟩
    · rintro ⟨⟨hash, request⟩, hentry, hfound⟩
      obtain ⟨items, outcome, hrow, hnext, hfound⟩ := (reached_step hforest).mp hfound
      exact ⟨outcome, (hstep _).mpr ⟨hash, items, request, hentry, hrow, hnext⟩, hfound⟩

/-- **The batch finds exactly the trees that the single lookups find.** -/
theorem existing_path_trees_exact {validId : Oid → Bool} {root : Oid} (hroot : validId root = true) (paths : List Text) :
    ∃ found, existingPathTrees rows root paths = .ok (found.map (·.1)) ∧ existingTrees rows root paths = .ok found ∧
      ∀ path hash, (path, hash) ∈ found ↔
        path ∈ paths ∧ resolvePathTreeHash validId rows root path = .ok (some hash) := by
  have hresolve : ∀ path, resolvePathTreeHash validId rows root path =
      .ok (if isRootPath path then some root else treeAt rows root (components path)) := by
    intro path
    rw [resolvePathTreeHash, hroot]
    by_cases hpath : isRootPath path = true
    · simp [hpath]
    · simp only [hpath, Bool.not_true, Bool.false_eq_true, if_false]
      cases hrow : rows root with
      | none => cases components path <;> simp [treeAt, hrow]
      | some row =>
        obtain ⟨items, rfl⟩ := hforest _ _ hrow
        exact walk_eq_treeAt hforest _ hrow
  obtain ⟨found, hfound, hmem⟩ := levels_spec hforest
    ((paths.map fun path => (components path).length).sum + 1)
    ((paths.filter (!isRootPath ·)).map fun path => (root, ⟨path, components path⟩))
    ((paths.filter isRootPath).map fun path => (path, root)) (by
      intro entry hentry
      obtain ⟨path, hpath, rfl⟩ := mem_map.mp hentry
      exact Nat.lt_succ_of_le (le_sum_of_mem (mem_map_of_mem (mem_of_mem_filter hpath))))
  refine ⟨found, by rw [existingPathTrees, existingTrees, hfound]; rfl, hfound, fun path hash => ?_⟩
  rw [hmem, hresolve, Except.ok.injEq]
  simp only [mem_map, mem_filter, Bool.not_eq_true']
  constructor
  · rintro (⟨path, ⟨hpath, hroot⟩, heq⟩ | ⟨_, ⟨path, ⟨hpath, hroot⟩, rfl⟩, hfound⟩)
    · cases heq
      exact ⟨hpath, if_pos hroot⟩
    · obtain ⟨tree, htree, heq⟩ := Option.map_eq_some_iff.mp hfound
      cases heq
      exact ⟨hpath, by rw [hroot]; exact htree⟩
  · rintro ⟨hpath, htree⟩
    split_ifs at htree with hroot
    · cases htree
      exact .inl ⟨path, ⟨hpath, hroot⟩, rfl⟩
    · exact .inr ⟨_, ⟨path, ⟨hpath, by simpa using hroot⟩, rfl⟩, Option.map_eq_some_iff.mpr ⟨hash, htree, rfl⟩⟩

end Forest

/-- A root with the empty directory `a` and the file `b`. -/
def smallRows (hash : ℕ) : Option (Except MegaError (List (TreeItem ℕ))) :=
  match hash with
  | 0 => some (.ok [⟨.tree, 1, ['a']⟩, ⟨.blob, 2, ['b']⟩])
  | 1 => some (.ok [])
  | _ => none

theorem existing_path_trees_small : ∃ found, existingTrees smallRows 0 [['/', 'a'], ['/', 'b'], ['/']] = .ok found ∧
    ∀ path hash, (path, hash) ∈ found ↔ path ∈ [['/', 'a'], ['/', 'b'], ['/']] ∧
      resolvePathTreeHash (fun _ => true) smallRows 0 path = .ok (some hash) := by
  have hforest : TreeRows.Forest smallRows := by
    rintro (_ | _ | hash) row hrow <;> cases hrow
    · exact ⟨_, rfl⟩
    · exact ⟨_, rfl⟩
  obtain ⟨found, -, hfound⟩ := @existing_path_trees_exact _ _ _ hforest (fun _ => true) 0 rfl
    [['/', 'a'], ['/', 'b'], ['/']]
  exact ⟨found, hfound⟩

end Mono
end Mega
