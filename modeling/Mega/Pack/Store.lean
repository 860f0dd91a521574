/-
# Stored objects

The tables of commits, trees, blobs and tags that packs are built from. An
object id is the hash of an object's kind and content, so the tables are one
list that gives each id one object. A query by a set of ids returns the rows it
finds, each once, in an order that the database chooses.

Key definitions: `ObjectStore`, `ItemOf`, `Below`, `Reaches`, `Closed`.
-/
import Mega.Lib.Explore
import Mega.View.TreeSource

namespace Mega
namespace Pack

open View

structure Commit (Oid : Type) where
  tree : Oid
  parents : List Oid
deriving DecidableEq

inductive GitObject (Oid : Type) where
  | commit (commit : Commit Oid)
  | tree (items : List (TreeItem Oid))
  | blob
  | tag (target : Oid)
deriving DecidableEq

/-- The stored objects. -/
structure ObjectStore (Oid : Type) where
  objects : List (Oid × GitObject Oid)
  /-- the order in which a query returns the rows of these ids -/
  rowOrder : List Oid → List Oid
  rowOrder_perm : ∀ ids, (rowOrder ids).Perm ids

variable {Oid : Type} [DecidableEq Oid] {id x : Oid} {γ : Type} {ids : List Oid}

namespace ObjectStore

variable (store : ObjectStore Oid)

def object? (id : Oid) : Option (GitObject Oid) := store.objects.lookup id

def commit? (id : Oid) : Option (Commit Oid) :=
  match store.object? id with
  | some (.commit commit) => some commit
  | _ => none

def tree? (id : Oid) : Option (List (TreeItem Oid)) :=
  match store.object? id with
  | some (.tree items) => some items
  | _ => none

def tag? (id : Oid) : Option Oid :=
  match store.object? id with
  | some (.tag target) => some target
  | _ => none

def isBlob (id : Oid) : Bool := store.object? id == some .blob

/-- The parents of a commit; nothing for another object. -/
def parentsOf (id : Oid) : List Oid := ((store.commit? id).map Commit.parents).getD []

/-- The rows of a query by ids. -/
def getCommitsByHashes (ids : List Oid) : List (Oid × Commit Oid) :=
  (store.rowOrder ids.dedup).filterMap fun id => (store.commit? id).map (id, ·)

@[inherit_doc getCommitsByHashes]
def getTreesByHashes (ids : List Oid) : List (Oid × List (TreeItem Oid)) :=
  (store.rowOrder ids.dedup).filterMap fun id => (store.tree? id).map (id, ·)

/-- The ids of all objects. -/
def allIds : List Oid := store.objects.map Prod.fst

variable {store}

theorem commit?_eq_some {commit : Commit Oid} :
    store.commit? id = some commit ↔ store.object? id = some (.commit commit) := by
  unfold commit?
  split <;> simp_all

theorem tree?_eq_some {items : List (TreeItem Oid)} :
    store.tree? id = some items ↔ store.object? id = some (.tree items) := by
  unfold tree?
  split <;> simp_all

theorem isBlob_iff : store.isBlob id = true ↔ store.object? id = some .blob := by
  simp [isBlob]

/-! An id names one object, so it has one kind. -/

theorem mem_parentsOf {c p : Oid} :
    p ∈ store.parentsOf c ↔ ∃ commit, store.commit? c = some commit ∧ p ∈ commit.parents := by
  unfold parentsOf
  cases store.commit? c <;> simp

omit [DecidableEq Oid] in
/-- Rows looked up one by one. -/
theorem mem_rows {f : Oid → Option γ} {row : Oid × γ} :
    row ∈ ids.filterMap (fun id => (f id).map (id, ·)) ↔ row.1 ∈ ids ∧ f row.1 = some row.2 := by
  obtain ⟨id, value⟩ := row
  simp only [List.mem_filterMap, Option.map_eq_some_iff, Prod.mk.injEq]
  constructor
  · intro h
    obtain ⟨a, ha, k, hk, rfl, rfl⟩ := h
    exact ⟨ha, hk⟩
  · intro h
    exact ⟨id, h.1, value, h.2, rfl, rfl⟩

omit [DecidableEq Oid] in
theorem map_fst_rows (f : Oid → Option γ) (ids : List Oid) :
    (ids.filterMap fun id => (f id).map (id, ·)).map Prod.fst = ids.filter fun id => (f id).isSome := by
  induction ids with
  | nil => rfl
  | cons id ids ih =>
    cases hid : f id with
    | none => simp [hid, ih]
    | some row => simp [hid, ih]

theorem mem_getCommitsByHashes {row : Oid × Commit Oid} :
    row ∈ store.getCommitsByHashes ids ↔ row.1 ∈ ids ∧ store.commit? row.1 = some row.2 := by
  rw [getCommitsByHashes, mem_rows, (store.rowOrder_perm _).mem_iff, List.mem_dedup]

theorem mem_getTreesByHashes {row : Oid × List (TreeItem Oid)} :
    row ∈ store.getTreesByHashes ids ↔ row.1 ∈ ids ∧ store.tree? row.1 = some row.2 := by
  rw [getTreesByHashes, mem_rows, (store.rowOrder_perm _).mem_iff, List.mem_dedup]

/-- A query returns each row it finds once. -/
theorem nodup_query (f : Oid → Option γ) (ids : List Oid) :
    (((store.rowOrder ids.dedup).filterMap fun id => (f id).map (id, ·)).map Prod.fst).Nodup := by
  rw [map_fst_rows]
  exact ((store.rowOrder_perm _).nodup_iff.mpr (List.nodup_dedup ids)).filter _

/-- A query by ids that all have a row returns these. -/
theorem perm_query (store : ObjectStore Oid) {f : Oid → Option γ} (hnodup : ids.Nodup)
    (hstored : ∀ id ∈ ids, (f id).isSome = true) :
    (((store.rowOrder ids.dedup).filterMap fun id => (f id).map (id, ·)).map Prod.fst).Perm ids := by
  rw [map_fst_rows, hnodup.dedup]
  have hall : (store.rowOrder ids).filter (fun id => (f id).isSome) = store.rowOrder ids :=
    List.filter_eq_self.mpr fun id hid => hstored id ((store.rowOrder_perm ids).mem_iff.mp hid)
  rw [hall]
  exact store.rowOrder_perm ids

theorem nodup_getCommitsByHashes (ids : List Oid) :
    ((store.getCommitsByHashes ids).map Prod.fst).Nodup := nodup_query store.commit? ids

theorem perm_getTreesByHashes (hnodup : ids.Nodup) (hstored : ∀ id ∈ ids, (store.tree? id).isSome = true) :
    ((store.getTreesByHashes ids).map Prod.fst).Perm ids := perm_query store hnodup hstored

/-! ### The object graph -/

variable (store)

/-- `x` is the id of an item of the tree `t`. -/
def ItemOf (t x : Oid) : Prop := ∃ items, store.tree? t = some items ∧ ∃ item ∈ items, item.id = x

/-- `x` is in the tree `t`, at any depth. -/
def Below : Oid → Oid → Prop := Relation.TransGen store.ItemOf

/-- `y` is one of the objects that `x` refers to. Gitlinks are not references. -/
inductive Refers : Oid → Oid → Prop where
  | tree {c : Oid} {commit : Commit Oid} : store.commit? c = some commit → Refers c commit.tree
  | parent {c p : Oid} {commit : Commit Oid} :
      store.commit? c = some commit → p ∈ commit.parents → Refers c p
  | item {t : Oid} {items : List (TreeItem Oid)} {item : TreeItem Oid} :
      store.tree? t = some items → item ∈ items → item.mode ≠ .commit → Refers t item.id
  | tag {t target : Oid} : store.tag? t = some target → Refers t target

/-- `y` is in the closure of `x`. -/
def Reaches : Oid → Oid → Prop := Relation.ReflTransGen store.Refers

/-- No object is missing, and there are no gitlinks. -/
structure Closed : Prop where
  roots : ∀ {c commit}, store.commit? c = some commit → (store.tree? commit.tree).isSome = true
  parents : ∀ {c commit p}, store.commit? c = some commit → p ∈ commit.parents →
    (store.commit? p).isSome = true
  subtrees : ∀ {t items item}, store.tree? t = some items → item ∈ items → item.mode = .tree →
    (store.tree? item.id).isSome = true
  files : ∀ {t items item}, store.tree? t = some items → item ∈ items → item.mode ≠ .tree →
    store.isBlob item.id = true
  noGitlinks : ∀ {t items item}, store.tree? t = some items → item ∈ items → item.mode ≠ .commit

variable {store}

theorem mem_of_object? {object : GitObject Oid} (h : store.object? id = some object) :
    (id, object) ∈ store.objects := by
  obtain ⟨l₁, l₂, hsplit, -⟩ := List.lookup_eq_some_iff.mp h
  simp [hsplit]

theorem mem_allIds {object : GitObject Oid} (h : store.object? id = some object) :
    id ∈ store.allIds := List.mem_map_of_mem (mem_of_object? h)

/-- What a stored object refers to is stored, and it has no gitlinks. -/
def checkObject (store : ObjectStore Oid) : GitObject Oid → Bool
  | .commit commit => (store.tree? commit.tree).isSome && commit.parents.all fun p => (store.commit? p).isSome
  | .tree items => items.all fun item =>
    item.mode ≠ .commit && if item.mode = .tree then (store.tree? item.id).isSome else store.isBlob item.id
  | .blob => true
  | .tag _ => true

theorem closed_of_checkObject (h : store.objects.all (fun row => store.checkObject row.2) = true) :
    store.Closed := by
  have hcheck : ∀ {id object}, store.object? id = some object → store.checkObject object = true :=
    fun hobject => List.all_eq_true.mp h _ (mem_of_object? hobject)
  have hitem : ∀ {t items}, store.tree? t = some items → ∀ item ∈ items, item.mode ≠ .commit ∧
      (if item.mode = .tree then (store.tree? item.id).isSome else store.isBlob item.id) = true := by
    intro t items ht item hitem
    have hitems := hcheck (tree?_eq_some.mp ht)
    have hchecked := List.all_eq_true.mp hitems item hitem
    simp only [Bool.and_eq_true, decide_eq_true_eq] at hchecked
    exact hchecked
  constructor
  case roots =>
    intro c commit hc
    have hcommit := hcheck (commit?_eq_some.mp hc)
    simp only [checkObject, Bool.and_eq_true] at hcommit
    exact hcommit.1
  case parents =>
    intro c commit p hc hp
    have hcommit := hcheck (commit?_eq_some.mp hc)
    simp only [checkObject, Bool.and_eq_true, List.all_eq_true] at hcommit
    exact hcommit.2 p hp
  case subtrees =>
    intro t items item ht hmem hmode
    have h := (hitem ht item hmem).2
    rwa [if_pos hmode] at h
  case files =>
    intro t items item ht hmem hmode
    have h := (hitem ht item hmem).2
    rwa [if_neg hmode] at h
  case noGitlinks =>
    intro t items item ht hmem
    exact (hitem ht item hmem).1

theorem not_itemOf_blob {b : Oid} (hb : store.isBlob b = true) : ¬ store.ItemOf b x := by
  intro h
  obtain ⟨items, hitems, -⟩ := h
  rw [tree?_eq_some, isBlob_iff.mp hb] at hitems
  simp at hitems

/-- Without gitlinks, items are references. -/
theorem Closed.refers (hstore : store.Closed) {t : Oid} (h : store.ItemOf t x) : store.Refers t x := by
  obtain ⟨items, hitems, item, hitem, rfl⟩ := h
  exact .item hitems hitem (hstore.noGitlinks hitems hitem)

theorem Closed.reaches_of_below (hstore : store.Closed) {t : Oid} (h : store.Below t x) : store.Reaches t x :=
  h.to_reflTransGen.lift id fun _ _ => hstore.refers

theorem Refers.itemOf {t : Oid} {items : List (TreeItem Oid)} (ht : store.tree? t = some items)
    (h : store.Refers t x) : store.ItemOf t x := by
  have hobject := tree?_eq_some.mp ht
  cases h with
  | tree hc => simp [commit?, hobject] at hc
  | parent hc _ => simp [commit?, hobject] at hc
  | item hitems hitem _ => exact ⟨_, hitems, _, hitem, rfl⟩
  | tag htag => simp [tag?, hobject] at htag

end ObjectStore
end Pack
end Mega
