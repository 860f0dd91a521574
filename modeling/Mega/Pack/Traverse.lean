/-
# Walking trees for a pack

`ceres/pack/mod.rs`: the recursive walks over a tree that count or send the
objects of a pack. They share one shape. The items of the tree that were not
met before are added to the set of objects met, the blobs among them are dealt
with, the walk recurses into the subtrees among them, and then the tree itself
is dealt with. `walkTree` is that shape; `traverse`, `traverseForCount`,
`traverseTreesOnly` and `traverseTreesOnlyForCount` are its members.

A walk descends at most as deep as there are objects, since it enters a tree
only when its id is new; a walk in the model ends with `tooDeep` if it is not
given that much depth, and `walkTree_spec` shows that this does not happen.

Key definitions: `walkTree`, `Walked`.
Key theorems: `walkTree_spec`, `Walked.append`, `Walked.mem_iff`.
-/
import Mega.Pack.Store

namespace Mega
namespace Pack

open List View Explore ObjectStore

inductive PackError where
  | unsupportedFilter
  | requestedObjectsNotFound
  | nativeParentMissing
  | nativeTreeMissing
  | blobMissing
  /-- of the model only -/
  | tooDeep
deriving DecidableEq

/-- The filter a fetch asks for. -/
inductive FilterSpec where
  /-- `blob:none` -/
  | blobNone
  | other
deriving DecidableEq

/-- What the encoder is sent. -/
inductive Entry (Oid : Type) where
  | commit (id : Oid)
  | tree (id : Oid)
  | blob (id : Oid)
  | tag (id : Oid)
deriving DecidableEq

def Entry.id {Oid : Type} : Entry Oid → Oid
  | .commit id => id
  | .tree id => id
  | .blob id => id
  | .tag id => id

/-- How a walk deals with what it meets. -/
structure Visitor (Oid : Type) where
  /-- ids that count as met from the start -/
  known : Oid → Bool
  blobs : List Oid → Except PackError (List (Entry Oid))
  tree : Oid → List (Entry Oid)

variable {Oid : Type} [DecidableEq Oid]

/-- Walks over several trees, one after the other. -/
def walkTrees {Row : Type} (walk : Row → List Oid → Except PackError (List (Entry Oid) × List Oid)) :
    List Row → List Oid → Except PackError (List (Entry Oid) × List Oid)
  | [], seen => .ok ([], seen)
  | row :: rows, seen => do
    let (out, seen) ← walk row seen
    let (more, seen) ← walkTrees walk rows seen
    .ok (out ++ more, seen)

/-- The walk from one tree: what it deals with, in order, and the ids met after it. -/
def walkTree (store : ObjectStore Oid) (visitor : Visitor Oid) :
    ℕ → Oid × List (TreeItem Oid) → List Oid → Except PackError (List (Entry Oid) × List Oid)
  | 0, _, _ => .error .tooDeep
  | depth + 1, tree, seen => do
    let new := freshBy TreeItem.id visitor.known tree.2 seen
    let searchTreeIds := (new.filter (·.mode = .tree)).map TreeItem.id
    let searchBlobIds := (new.filter (·.mode ≠ .tree)).map TreeItem.id
    let blobs ← visitor.blobs searchBlobIds
    let (below, seen) ← walkTrees (walkTree store visitor depth) (store.getTreesByHashes searchTreeIds)
      (seen ++ new.map TreeItem.id)
    .ok (blobs ++ below ++ visitor.tree tree.1, seen)

/-! ### The members -/

variable (store : ObjectStore Oid)

/-- Deep enough for every walk. -/
def maxDepth : ℕ := store.objects.length + 1

/-- The blobs of these ids are sent in the order in which they are loaded. -/
def sendBlobs (ids : List Oid) : Except PackError (List (Entry Oid)) :=
  if ids.all store.isBlob then .ok ((store.rowOrder ids).map .blob) else .error .blobMissing

/-- `traverse` with a sender. -/
def sendAll : Visitor Oid := ⟨fun _ => false, sendBlobs store, fun id => [.tree id]⟩

/-- `traverse` without a sender. -/
def meetAll : Visitor Oid := ⟨fun _ => false, fun _ => .ok [], fun _ => []⟩

def traverse (sender : Bool) (tree : Oid × List (TreeItem Oid)) (existObjs : List Oid) :
    Except PackError (List (Entry Oid) × List Oid) :=
  walkTree store (if sender then sendAll store else meetAll) (maxDepth store) tree existObjs

/-- `traverse_for_count`: each blob and each tree counts as one. -/
def countAll (existObjs : List Oid) : Visitor Oid :=
  ⟨fun id => id ∈ existObjs, fun ids => .ok (ids.map .blob), fun id => [.tree id]⟩

/-- The number of objects counted, and the ids counted so far. -/
def traverseForCount (tree : Oid × List (TreeItem Oid)) (existObjs countedObj : List Oid) :
    Except PackError (ℕ × List Oid) := do
  let (met, countedObj) ← walkTree store (countAll existObjs) (maxDepth store) tree countedObj
  .ok (met.length, countedObj)

/-- `traverse_trees_only` with a sender. -/
def sendTrees : Visitor Oid := ⟨fun _ => false, fun _ => .ok [], fun id => [.tree id]⟩

def traverseTreesOnly (tree : Oid × List (TreeItem Oid)) (existObjs : List Oid) :
    Except PackError (List (Entry Oid) × List Oid) :=
  walkTree store sendTrees (maxDepth store) tree existObjs

/-- `traverse_trees_only_for_count`. -/
def countTrees (existObjs : List Oid) : Visitor Oid :=
  ⟨fun id => id ∈ existObjs, fun _ => .ok [], fun id => [.tree id]⟩

def traverseTreesOnlyForCount (tree : Oid × List (TreeItem Oid)) (existObjs countedObj : List Oid) :
    Except PackError (ℕ × List Oid) := do
  let (met, countedObj) ← walkTree store (countTrees existObjs) (maxDepth store) tree countedObj
  .ok (met.length, countedObj)

/-! ### What a walk does -/

variable {store}

/-- Walks from the trees `roots` that met the items `new`, each once. -/
structure Walked (store : ObjectStore Oid) (known : Oid → Bool) (roots seen : List Oid)
    (new : List (TreeItem Oid)) : Prop where
  nodup : (new.map TreeItem.id).Nodup
  unseen : ∀ item ∈ new, item.id ∉ seen
  unknown : ∀ item ∈ new, known item.id = false
  below : ∀ item ∈ new, ∃ r ∈ roots, store.Below r item.id
  listed : ∀ item ∈ new, ∃ t items, store.tree? t = some items ∧ item ∈ items
  closed : ∀ t, t ∈ roots ∨ t ∈ new.map TreeItem.id →
    ∀ x, store.ItemOf t x → known x = true ∨ x ∈ seen ∨ x ∈ new.map TreeItem.id

theorem walked_nil (known : Oid → Bool) (seen : List Oid) : Walked store known [] seen [] := by
  constructor <;> simp

/-- One walk after the other is a walk. -/
theorem Walked.append {known : Oid → Bool} {roots roots' seen : List Oid} {new new' : List (TreeItem Oid)}
    (h : Walked store known roots seen new)
    (h' : Walked store known roots' (seen ++ new.map TreeItem.id) new') :
    Walked store known (roots ++ roots') seen (new ++ new') := by
  constructor
  case nodup =>
    rw [map_append]
    refine nodup_append.mpr ⟨h.nodup, h'.nodup, fun x hx y hy heq => ?_⟩
    obtain ⟨item, hitem, rfl⟩ := mem_map.mp hy
    exact h'.unseen item hitem (mem_append_right _ (heq ▸ hx))
  case unseen =>
    intro item hitem
    obtain hitem | hitem := mem_append.mp hitem
    · exact h.unseen item hitem
    · exact fun hseen => h'.unseen item hitem (mem_append_left _ hseen)
  case unknown =>
    intro item hitem
    exact (mem_append.mp hitem).elim (h.unknown item) (h'.unknown item)
  case below =>
    intro item hitem
    obtain hitem | hitem := mem_append.mp hitem
    · obtain ⟨r, hr, hbelow⟩ := h.below item hitem
      exact ⟨r, mem_append_left _ hr, hbelow⟩
    · obtain ⟨r, hr, hbelow⟩ := h'.below item hitem
      exact ⟨r, mem_append_right _ hr, hbelow⟩
  case listed =>
    intro item hitem
    exact (mem_append.mp hitem).elim (h.listed item) (h'.listed item)
  case closed =>
    intro t ht x hx
    rw [map_append, mem_append]
    have hfirst : t ∈ roots ∨ t ∈ new.map TreeItem.id →
        known x = true ∨ x ∈ seen ∨ x ∈ new.map TreeItem.id ∨ x ∈ new'.map TreeItem.id := by
      intro ht
      exact (h.closed t ht x hx).imp_right (Or.imp_right .inl)
    have hsecond : t ∈ roots' ∨ t ∈ new'.map TreeItem.id →
        known x = true ∨ x ∈ seen ∨ x ∈ new.map TreeItem.id ∨ x ∈ new'.map TreeItem.id := by
      intro ht
      obtain hknown | hseen | hnew := h'.closed t ht x hx
      · exact .inl hknown
      · exact .inr ((mem_append.mp hseen).imp_right .inl)
      · exact .inr (.inr (.inr hnew))
    obtain ht | ht := ht
    · exact (mem_append.mp ht).elim (fun ht => hfirst (.inl ht)) (fun ht => hsecond (.inl ht))
    · rw [map_append] at ht
      exact (mem_append.mp ht).elim (fun ht => hfirst (.inr ht)) (fun ht => hsecond (.inr ht))

/-- A walk that starts from a closed set meets what is below its roots and outside of that set. -/
theorem Walked.mem_iff {known : Oid → Bool} {roots seen : List Oid} {new : List (TreeItem Oid)}
    (h : Walked store known roots seen new)
    (hclosed : ∀ t, known t = true ∨ t ∈ seen → ∀ x, store.ItemOf t x → known x = true ∨ x ∈ seen)
    (x : Oid) : x ∈ new.map TreeItem.id ↔
      (∃ r ∈ roots, store.Below r x) ∧ known x = false ∧ x ∉ seen := by
  constructor
  · intro hx
    obtain ⟨item, hitem, rfl⟩ := mem_map.mp hx
    exact ⟨h.below item hitem, h.unknown item hitem, h.unseen item hitem⟩
  · intro hx
    obtain ⟨⟨r, hr, hbelow⟩, hknown, hseen⟩ := hx
    -- along the path from the root, everything is known, seen or new
    have hpath : known x = true ∨ x ∈ seen ∨ x ∈ new.map TreeItem.id := by
      induction hbelow with
      | single hitem => exact h.closed r (.inl hr) _ hitem
      | @tail b c _ hitem ih =>
        by_cases hb : known b = true ∨ b ∈ seen
        · exact (hclosed b hb c hitem).imp_right .inl
        · rw [not_or] at hb
          have hnew := ih (by simpa using hb.1) hb.2
          exact h.closed b (.inr (by simpa [hb.1, hb.2] using hnew)) c hitem
    simpa [hknown, hseen] using hpath

/-- The visitor deals with stored blobs one by one, as `leaf` says, in some order. -/
def Deals (store : ObjectStore Oid) (visitor : Visitor Oid) (leaf : Oid → List (Entry Oid)) : Prop :=
  ∀ ids, (∀ id ∈ ids, store.isBlob id = true) →
    ∃ out, visitor.blobs ids = .ok out ∧ out.Perm (ids.flatMap leaf)

/-- How an item is dealt with. -/
def dealt (visitor : Visitor Oid) (leaf : Oid → List (Entry Oid)) (item : TreeItem Oid) :
    List (Entry Oid) :=
  if item.mode = .tree then visitor.tree item.id else leaf item.id

omit [DecidableEq Oid] in
/-- Files first and then trees, or in the order of the items: it is the same up to order. -/
theorem perm_dealt (visitor : Visitor Oid) (leaf : Oid → List (Entry Oid)) :
    ∀ items : List (TreeItem Oid),
      (((items.filter (·.mode ≠ .tree)).map TreeItem.id).flatMap leaf ++
        ((items.filter (·.mode = .tree)).map TreeItem.id).flatMap visitor.tree).Perm
      (items.flatMap (dealt visitor leaf))
  | [] => by simp
  | item :: items => by
    have ih := perm_dealt visitor leaf items
    by_cases htree : item.mode = .tree
    · simp only [filter_cons, htree, ne_eq, not_true_eq_false, decide_false, Bool.false_eq_true,
        ↓reduceIte, decide_true, map_cons, flatMap_cons, dealt]
      refine (perm_append_comm_assoc _ _ _).trans ?_
      exact ih.append_left _
    · simp only [filter_cons, htree, ne_eq, not_false_eq_true, decide_true, ↓reduceIte,
        decide_false, Bool.false_eq_true, map_cons, flatMap_cons, dealt, append_assoc]
      exact ih.append_left _

theorem stored_item (hstore : store.Closed) {t : Oid} {items : List (TreeItem Oid)}
    (ht : store.tree? t = some items) {item : TreeItem Oid} (hitem : item ∈ items) :
    item.id ∈ store.allIds := by
  by_cases htree : item.mode = .tree
  · obtain ⟨below, hbelow⟩ := Option.isSome_iff_exists.mp (hstore.subtrees ht hitem htree)
    exact mem_allIds (tree?_eq_some.mp hbelow)
  · exact mem_allIds (isBlob_iff.mp (hstore.files ht hitem htree))

/-- The items of a tree that were not met, before the walk recurses. -/
theorem walked_items (hstore : store.Closed) {t : Oid} {items : List (TreeItem Oid)}
    (ht : store.tree? t = some items) (known : Oid → Bool) (seen : List Oid)
    {new' : List (TreeItem Oid)} {rows : List Oid}
    (hrows : rows.Perm (((freshBy TreeItem.id known items seen).filter (·.mode = .tree)).map TreeItem.id))
    (h' : Walked store known rows (seen ++ (freshBy TreeItem.id known items seen).map TreeItem.id) new') :
    Walked store known [t] seen (freshBy TreeItem.id known items seen ++ new') := by
  set new := freshBy TreeItem.id known items seen with hnew
  have hmem : ∀ item ∈ new, item ∈ items ∧ known item.id = false ∧ item.id ∉ seen := fun item h =>
    mem_of_mem_freshBy h
  have hstep : ∀ item ∈ new, store.ItemOf t item.id := fun item h => ⟨items, ht, item, (hmem item h).1, rfl⟩
  constructor
  case nodup =>
    rw [map_append]
    refine nodup_append.mpr ⟨nodup_freshBy _ _ _ _, h'.nodup, fun x hx y hy heq => ?_⟩
    obtain ⟨item, hitem, rfl⟩ := mem_map.mp hy
    exact h'.unseen item hitem (mem_append_right _ (heq ▸ hx))
  case unseen =>
    intro item hitem
    obtain hitem | hitem := mem_append.mp hitem
    · exact (hmem item hitem).2.2
    · exact fun hseen => h'.unseen item hitem (mem_append_left _ hseen)
  case unknown =>
    intro item hitem
    exact (mem_append.mp hitem).elim (fun h => (hmem item h).2.1) (h'.unknown item)
  case below =>
    intro item hitem
    refine ⟨t, mem_singleton.mpr rfl, ?_⟩
    obtain hitem | hitem := mem_append.mp hitem
    · exact .single (hstep item hitem)
    · obtain ⟨r, hr, hbelow⟩ := h'.below item hitem
      obtain ⟨sub, hsub, rfl⟩ := mem_map.mp (hrows.subset hr)
      exact .head (hstep sub (mem_filter.mp hsub).1) hbelow
  case listed =>
    intro item hitem
    exact (mem_append.mp hitem).elim (fun h => ⟨t, items, ht, (hmem item h).1⟩) (h'.listed item)
  case closed =>
    intro x hx y hitem
    rw [map_append, mem_append] at hx ⊢
    have hlater : x ∈ rows ∨ x ∈ new'.map TreeItem.id →
        known y = true ∨ y ∈ seen ∨ y ∈ new.map TreeItem.id ∨ y ∈ new'.map TreeItem.id := by
      intro hx
      obtain hknown | hseen | hnew := h'.closed x hx y hitem
      · exact .inl hknown
      · exact .inr ((mem_append.mp hseen).imp_right .inl)
      · exact .inr (.inr (.inr hnew))
    obtain hx | hx | hx := hx
    · obtain rfl := mem_singleton.mp hx
      obtain ⟨items', hitems', item, hmem', rfl⟩ := hitem
      obtain rfl : items = items' := Option.some_injective _ (ht.symm.trans hitems')
      exact (covered_freshBy TreeItem.id known seen hmem').imp_right (Or.imp_right .inl)
    · -- a new item is a tree the walk recursed into, or a file without items
      obtain ⟨item, hmem', rfl⟩ := mem_map.mp hx
      by_cases htree : item.mode = .tree
      · apply hlater
        refine .inl (hrows.symm.subset (mem_map.mpr ⟨item, ?_, rfl⟩))
        simpa using ⟨hmem', htree⟩
      · exact absurd hitem (not_itemOf_blob (hstore.files ht (hmem item hmem').1 htree))
    · exact hlater (.inr hx)

/-- Walks over several trees, when each of them ends. -/
theorem walkTrees_spec {visitor : Visitor Oid} {leaf : Oid → List (Entry Oid)} {depth : ℕ}
    (hwalk : ∀ tree seen, store.tree? tree.1 = some tree.2 → unseen store.allIds seen < depth →
      ∃ out new, walkTree store visitor depth tree seen = .ok (out, seen ++ new.map TreeItem.id) ∧
        Walked store visitor.known [tree.1] seen new ∧
        out.Perm (new.flatMap (dealt visitor leaf) ++ visitor.tree tree.1)) :
    ∀ (rows : List (Oid × List (TreeItem Oid))) (seen : List Oid),
      (∀ row ∈ rows, store.tree? row.1 = some row.2) →
      (rows ≠ [] → unseen store.allIds seen < depth) →
      ∃ out new, walkTrees (walkTree store visitor depth) rows seen = .ok (out, seen ++ new.map TreeItem.id) ∧
        Walked store visitor.known (rows.map Prod.fst) seen new ∧
        out.Perm (new.flatMap (dealt visitor leaf) ++ (rows.map Prod.fst).flatMap visitor.tree)
  | [], seen, _, _ => ⟨[], [], by simp [walkTrees], by simpa using walked_nil _ _, by simp⟩
  | row :: rows, seen, hrows, hdepth => by
    have hlt := hdepth (by simp)
    obtain ⟨out, new, hout, hwalked, hperm⟩ := hwalk row seen (hrows row mem_cons_self) hlt
    have hle := unseen_append store.allIds seen (new.map TreeItem.id)
    obtain ⟨more, new', hmore, hwalked', hperm'⟩ := walkTrees_spec hwalk rows (seen ++ new.map TreeItem.id)
      (fun r hr => hrows r (mem_cons_of_mem _ hr)) (fun _ => lt_of_le_of_lt hle hlt)
    refine ⟨out ++ more, new ++ new', ?_, ?_, ?_⟩
    · simp [walkTrees, hout, hmore, bind, Except.bind]
    · simpa using hwalked.append hwalked'
    · refine (hperm.append hperm').trans ?_
      simp only [map_cons, flatMap_cons, flatMap_append, append_assoc]
      exact (perm_append_comm_assoc _ _ _).append_left _

/-- **A walk ends, and meets each object below its tree that was not met before once.** -/
theorem walkTree_spec (hstore : store.Closed) {visitor : Visitor Oid} {leaf : Oid → List (Entry Oid)}
    (hdeals : Deals store visitor leaf) :
    ∀ (depth : ℕ) (tree : Oid × List (TreeItem Oid)) (seen : List Oid), store.tree? tree.1 = some tree.2 →
      unseen store.allIds seen < depth →
      ∃ out new, walkTree store visitor depth tree seen = .ok (out, seen ++ new.map TreeItem.id) ∧
        Walked store visitor.known [tree.1] seen new ∧
        out.Perm (new.flatMap (dealt visitor leaf) ++ visitor.tree tree.1)
  | 0, tree, seen, _, hdepth => by simp at hdepth
  | depth + 1, tree, seen, htree, hdepth => by
    set new := freshBy TreeItem.id visitor.known tree.2 seen with hnew
    have hmem : ∀ item ∈ new, item ∈ tree.2 := fun item h => (mem_of_mem_freshBy h).1
    have hnodup : (new.map TreeItem.id).Nodup := nodup_freshBy _ _ _ _
    set treeIds := (new.filter (·.mode = .tree)).map TreeItem.id with htreeIds
    set blobIds := (new.filter (·.mode ≠ .tree)).map TreeItem.id with hblobIds
    have hblobs : ∀ id ∈ blobIds, store.isBlob id = true := by
      intro id hid
      obtain ⟨item, hitem, rfl⟩ := mem_map.mp hid
      obtain ⟨hitem, hmode⟩ := mem_filter.mp hitem
      exact hstore.files htree (hmem item hitem) (by simpa using hmode)
    have htrees : ∀ id ∈ treeIds, (store.tree? id).isSome = true := by
      intro id hid
      obtain ⟨item, hitem, rfl⟩ := mem_map.mp hid
      obtain ⟨hitem, hmode⟩ := mem_filter.mp hitem
      exact hstore.subtrees htree (hmem item hitem) (by simpa using hmode)
    have hrows : ((store.getTreesByHashes treeIds).map Prod.fst).Perm treeIds :=
      perm_getTreesByHashes (hnodup.sublist (filter_sublist.map _)) htrees
    -- the walk only recurses where it met a tree, so that fewer objects are left
    have hless : store.getTreesByHashes treeIds ≠ [] →
        unseen store.allIds (seen ++ new.map TreeItem.id) < depth := by
      intro hne
      have hpos : 0 < (new.map TreeItem.id).length := by
        obtain ⟨row, hrow⟩ := exists_mem_of_ne_nil _ hne
        have hid := (mem_getTreesByHashes.mp hrow).1
        obtain ⟨item, hitem, -⟩ := mem_map.mp hid
        exact length_pos_of_mem (mem_map_of_mem (mem_filter.mp hitem).1)
      have hshrinks := unseen_append_le store.allIds hnodup
        (fun id hid => by
          obtain ⟨item, hitem, rfl⟩ := mem_map.mp hid
          exact stored_item hstore htree (hmem item hitem))
        (fun id hid => by
          obtain ⟨item, hitem, rfl⟩ := mem_map.mp hid
          exact (mem_of_mem_freshBy hitem).2.2)
      omega
    obtain ⟨blobs, hblobs, hblobsPerm⟩ := hdeals blobIds hblobs
    obtain ⟨below, new', hbelow, hwalked, hperm⟩ := walkTrees_spec (walkTree_spec hstore hdeals depth)
      (store.getTreesByHashes treeIds) (seen ++ new.map TreeItem.id)
      (fun row hrow => (mem_getTreesByHashes.mp hrow).2) hless
    refine ⟨blobs ++ below ++ visitor.tree tree.1, new ++ new', ?_, ?_, ?_⟩
    · unfold walkTree
      simp only [← hnew, ← htreeIds, ← hblobIds, hblobs, hbelow, bind, Except.bind]
      simp
    · exact walked_items hstore htree visitor.known seen hrows hwalked
    · apply List.Perm.append_right
      calc blobs ++ below
          |>.Perm (blobIds.flatMap leaf ++ (new'.flatMap (dealt visitor leaf) ++
            treeIds.flatMap visitor.tree)) :=
            hblobsPerm.append (hperm.trans ((hrows.flatMap_right _).append_left _))
        _ |>.Perm (blobIds.flatMap leaf ++ (treeIds.flatMap visitor.tree ++
            new'.flatMap (dealt visitor leaf))) := perm_append_comm.append_left _
        _ |>.Perm ((new ++ new').flatMap (dealt visitor leaf)) := by
            rw [← append_assoc, flatMap_append]
            exact (perm_dealt visitor leaf new).append_right _

end Pack
end Mega
