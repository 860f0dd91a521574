/-
# Trees and where they are read from

`ceres/view/tree_source.rs`: tree objects, sources of trees, path lookup and
the construction of a tree object. What the git object crate does stands in
`HashKind`: the object id of a list of items and the length of its bytes. Tree
bytes are represented by what `parse_tree_bytes` makes of them, so a tree that
was read has unique item names (it is a field of `Tree`).

Key definitions: `HashKind`, `Tree`, `TreeSource`, `lookupPath`, `buildTree`,
`FullyReadable`.
-/
import Mathlib
import Mega.Lib.SortBy
import Mega.View.Filter

namespace Mega
namespace View

open KeySort

inductive TreeItemMode where
  | blob
  | blobExecutable
  | tree
  | commit
  | link
deriving DecidableEq

/-- An entry of a tree. Object ids are an arbitrary type `Oid`. -/
structure TreeItem (Oid : Type) where
  mode : TreeItemMode
  id : Oid
  name : Text
deriving DecidableEq

/-- The part of the git object crate used here, for one hash algorithm. -/
structure HashKind (Oid : Type) where
  /-- The object id of the tree with these items in this order. -/
  treeHash : List (TreeItem Oid) → Oid
  /-- The number of bytes of the tree with these items. -/
  dataLen : List (TreeItem Oid) → ℕ
  /-- The number of characters of an object id in hex. -/
  idLen : ℕ

variable {Oid : Type}

def emptyTreeId (kind : HashKind Oid) : Oid := kind.treeHash []

def itemNames (items : List (TreeItem Oid)) : List Text := items.map (·.name)

/-- A tree that was parsed: no two items share a name. -/
structure Tree (Oid : Type) where
  items : List (TreeItem Oid)
  unique : (itemNames items).Nodup

def Tree.nil : Tree Oid := ⟨[], List.nodup_nil⟩

/-! ### Sources -/

inductive MissingObjectReason where
  | absent
  | malformed
  | unprefetched
deriving DecidableEq

structure MissingObject (Oid : Type) where
  treeId : Oid
  reason : MissingObjectReason
deriving DecidableEq

/-- Something trees can be read from. -/
abbrev TreeSource (Oid : Type) := Oid → Except (MissingObject Oid) (Tree Oid)

section Read

variable [DecidableEq Oid]

/-- Reads a tree. The empty tree needs no source. -/
def readTree (kind : HashKind Oid) (source : TreeSource Oid) (treeId : Oid) :
    Except (MissingObject Oid) (Tree Oid) :=
  if treeId = emptyTreeId kind then .ok Tree.nil else source treeId

inductive PathLookup (Oid : Type) where
  | tree (treeId : Oid)
  | absent
  | notTree
deriving DecidableEq

/-- What lies at a path. The last tree of the path is not read. -/
def lookupPath (kind : HashKind Oid) (source : TreeSource Oid) (root : Oid) :
    Path → Except (MissingObject Oid) (PathLookup Oid)
  | [] => .ok (.tree root)
  | segment :: path =>
    match readTree kind source root with
    | .error missing => .error missing
    | .ok current =>
      match current.items.find? (fun item => item.name == segment) with
      | none => .ok .absent
      | some item => if item.mode ≠ .tree then .ok .notTree else lookupPath kind source item.id path

end Read

/-! ### Building a tree -/

/-- `git_tree_sort_key`: a directory sorts as if its name ended in a slash. -/
def gitTreeSortKey (item : TreeItem Oid) : Text :=
  item.name ++ [if item.mode = .tree then '/' else '\x00']

def sortGitTreeItems (items : List (TreeItem Oid)) : List (TreeItem Oid) :=
  sortBy gitTreeSortKey items

theorem itemNames_sortGitTreeItems_perm (items : List (TreeItem Oid)) :
    (itemNames (sortGitTreeItems items)).Perm (itemNames items) :=
  (sortBy_perm gitTreeSortKey items).map _

/-- The tree with the given items and its id, unless two items share a name. -/
def buildTree (kind : HashKind Oid) (items : List (TreeItem Oid)) : Option (Oid × Tree Oid) :=
  if h : (itemNames items).Nodup then
    some (kind.treeHash (sortGitTreeItems items),
      ⟨sortGitTreeItems items, (itemNames_sortGitTreeItems_perm items).nodup_iff.mpr h⟩)
  else none

theorem eq_of_name_eq {items : List (TreeItem Oid)} (h : (itemNames items).Nodup) {a b : TreeItem Oid}
    (ha : a ∈ items) (hb : b ∈ items) (hab : a.name = b.name) : a = b :=
  List.inj_on_of_nodup_map h ha hb hab

theorem filter_name_of_mem {items : List (TreeItem Oid)} (h : (itemNames items).Nodup) {item : TreeItem Oid}
    (hi : item ∈ items) : items.filter (fun i => i.name == item.name) = [item] := by
  induction items with
  | nil => cases hi
  | cons a items ih =>
    obtain ⟨hnot, hrest⟩ := List.nodup_cons.mp h
    rcases List.mem_cons.mp hi with rfl | hi
    · have : items.filter (fun i => i.name == item.name) = [] :=
        List.filter_eq_nil_iff.mpr fun i hmem hname =>
          hnot (List.mem_map.mpr ⟨i, hmem, by simpa using hname⟩)
      simp [this]
    · have hne : a.name ≠ item.name := fun heq => hnot (List.mem_map.mpr ⟨item, hi, heq.symm⟩)
      simp [hne, ih hrest hi]

theorem name_eq_of_key_eq {a b : TreeItem Oid} (h : gitTreeSortKey a = gitTreeSortKey b) :
    a.name = b.name :=
  List.append_inj_left' h rfl

/-! ### What is assumed of a source -/

section Readable

variable [DecidableEq Oid]

/-- `y` is the id of a subtree of the tree `x`, as `source` has it. -/
def Subtree (kind : HashKind Oid) (source : TreeSource Oid) (x y : Oid) : Prop :=
  ∃ tree, readTree kind source x = .ok tree ∧ ∃ item ∈ tree.items, item.mode = .tree ∧ item.id = y

/-- The tree and all trees below it can be read. -/
def FullyReadable (kind : HashKind Oid) (source : TreeSource Oid) (root : Oid) : Prop :=
  ∀ x, Relation.ReflTransGen (Subtree kind source) root x → ∃ tree, readTree kind source x = .ok tree

end Readable

end View
end Mega
