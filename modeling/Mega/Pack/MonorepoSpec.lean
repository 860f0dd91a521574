/-
# What the parts of a monorepo pack do

One specification for each part of the packs of `Monorepo.lean`, over a store
without missing objects: which commits are sent, what the client's trees hold,
what a count comes to and what is sent.

Key definitions: `ToSend`, `HeldItem`.
Key theorems: `commitsToSend_spec`, `haveObjects_spec`, `countCommits_spec`,
`sendCommits_spec`, `countCommitTrees_spec`, `sendCommitTrees_spec`,
`shallowLevels_spec`.
-/
import Mega.Pack.Monorepo

namespace Mega
namespace Pack

open List View Explore ObjectStore

variable {Oid : Type} [DecidableEq Oid] {store : ObjectStore Oid}
variable {commits : List (Oid × Commit Oid)} {want have_ existObjs : List Oid} {root : Oid}

/-! ### Commits -/

/-- Rows of the commit table, one for each id. -/
def Rows (store : ObjectStore Oid) (commits : List (Oid × Commit Oid)) : Prop :=
  (commits.map Prod.fst).Nodup ∧ ∀ c ∈ commits, store.commit? c.1 = some c.2

theorem Rows.mem (hrows : Rows store commits) {c : Oid} {commit : Commit Oid} (hc : c ∈ commits.map Prod.fst)
    (hcommit : store.commit? c = some commit) : (c, commit) ∈ commits := by
  obtain ⟨row, hrow, rfl⟩ := mem_map.mp hc
  obtain rfl : row.2 = commit := Option.some_injective _ ((hrows.2 row hrow).symm.trans hcommit)
  exact hrow

/-- `c` is wanted, or an ancestor of a wanted commit along commits that the client does not name. -/
def ToSend (store : ObjectStore Oid) (want have_ : List Oid) (c : Oid) : Prop :=
  ∃ w ∈ want, Relation.ReflTransGen (fun a b => b ∈ store.parentsOf a ∧ b ∉ have_) w c

theorem isSome_parent (hstore : store.Closed) {c p : Oid} (h : p ∈ store.parentsOf c) :
    (store.commit? p).isSome = true := by
  obtain ⟨commit, hc, hp⟩ := mem_parentsOf.mp h
  exact hstore.parents hc hp

/-- Rows for wanted commits and for ids that are new. -/
theorem rows_append {new : List Oid} (hnodup : new.Nodup) (hunseen : ∀ x ∈ new, x ∉ want) :
    Rows store (store.getCommitsByHashes want ++ new.filterMap fun p => (store.commit? p).map (p, ·)) := by
  constructor
  · rw [map_append, map_fst_rows]
    refine (nodup_getCommitsByHashes want).append (hnodup.filter _) fun x hx hy => ?_
    obtain ⟨row, hrow, rfl⟩ := mem_map.mp hx
    exact hunseen _ (mem_filter.mp hy).1 (mem_getCommitsByHashes.mp hrow).1
  · intro c hc
    obtain hc | hc := mem_append.mp hc
    · exact (mem_getCommitsByHashes.mp hc).2
    · exact (mem_rows.mp hc).2

/-- Wanted commits that are stored are found. -/
theorem mem_map_getCommitsByHashes (hwant : ∀ w ∈ want, (store.commit? w).isSome = true) (x : Oid) :
    x ∈ (store.getCommitsByHashes want).map Prod.fst ↔ x ∈ want := by
  constructor
  · intro hx
    obtain ⟨row, hrow, rfl⟩ := mem_map.mp hx
    exact (mem_getCommitsByHashes.mp hrow).1
  · intro hx
    obtain ⟨commit, hcommit⟩ := Option.isSome_iff_exists.mp (hwant x hx)
    exact mem_map.mpr ⟨(x, commit), mem_getCommitsByHashes.mpr ⟨hx, hcommit⟩, rfl⟩

/-- The commits of an incremental pack. -/
theorem commitsToSend_spec (hstore : store.Closed) (hwant : ∀ w ∈ want, (store.commit? w).isSome = true)
    (have_ : List Oid) :
    ∃ commits, commitsToSend store want have_ = .ok commits ∧ Rows store commits ∧
      ∀ c, c ∈ commits.map Prod.fst ↔ ToSend store want have_ c := by
  set pending := (store.getCommitsByHashes want).map Prod.fst with hpending
  have hmem : ∀ x, x ∈ pending ↔ x ∈ want := mem_map_getCommitsByHashes hwant
  have hall : ∀ x, (store.commit? x).isSome = true → x ∈ store.allIds := by
    intro x hx
    obtain ⟨commit, hcommit⟩ := Option.isSome_iff_exists.mp hx
    exact mem_allIds (commit?_eq_some.mp hcommit)
  obtain ⟨found, _, hfound, hexplored, -⟩ | ⟨e, -, hfalse⟩ := explore_cases (parentSearch store have_)
    (fun a b => b ∈ store.parentsOf a) (store.allIds.filter fun x => (store.commit? x).isSome)
    (fun _ => False) (fun _ _ => True) (takes_takeLast Nat.one_pos)
    (fun _ batch _ _ _ _ => .inl ⟨_, _, rfl, fun b => mem_flatMap, trivial⟩)
    (fun a b _ hnext _ => by
      have hb := isSome_parent hstore hnext
      simpa using ⟨hall b hb, hb⟩)
    (fun seen new _ _ hnew => .inl (by
      have hstored : (new.all fun p => (store.commit? p).isSome) = true := by
        rw [all_eq_true]
        intro x hx
        exact (mem_filter.mp (hnew x hx)).2
      simp only [parentSearch, hstored]
      rfl))
    ((store.getCommitsByHashes want).length + store.objects.length) pending want [] ()
    (nodup_getCommitsByHashes want) (fun x hx => (hmem x).mp hx)
    (fun x hx => by
      have hx := hwant x ((hmem x).mp hx)
      simpa using ⟨hall x hx, hx⟩) trivial
    (by
      have hle := unseen_le (store.allIds.filter fun x => (store.commit? x).isSome) want
      have hfilter := length_filter_le (fun x => (store.commit? x).isSome) store.allIds
      have hids : store.allIds.length = store.objects.length := length_map _
      rw [hpending, length_map]
      omega)
  · refine ⟨_, ?_, rows_append hexplored.nodup hexplored.unseen, fun c => ?_⟩
    · unfold commitsToSend
      simp only [← hpending, hfound, bind, Except.bind]
    · -- what was found are commits, since parents are
      have hcommits : found.filter (fun p => (store.commit? p).isSome) = found := by
        apply filter_eq_self.mpr
        intro x hx
        obtain ⟨p, -, hbelow⟩ := hexplored.below x hx
        obtain ⟨a, -, hstep⟩ := Relation.TransGen.tail'_iff.mp hbelow
        exact isSome_parent hstore hstep.1
      rw [map_append, map_fst_rows, hcommits, mem_append, ← hpending,
        hexplored.mem_iff (fun x hx => (hmem x).mpr hx)]
      have hstep : Enters (fun a b => b ∈ store.parentsOf a) (parentSearch store have_).skip =
          fun a b => b ∈ store.parentsOf a ∧ b ∉ have_ := by
        funext a b
        simp [Enters, parentSearch]
      simp only [ToSend, hmem, hstep]
  · exact hfalse.elim

/-! ### What the client's trees hold -/

/-- A set of ids that holds the items of its trees. -/
def ItemClosed (store : ObjectStore Oid) (ids : List Oid) : Prop :=
  ∀ t ∈ ids, ∀ x, store.ItemOf t x → x ∈ ids

/-- What is below a tree of the set is in it. -/
theorem ItemClosed.below (h : ItemClosed store existObjs) (hroot : root ∈ existObjs) (x : Oid)
    (hx : store.Below root x) : x ∈ existObjs := by
  induction hx with
  | single hitem => exact h _ hroot _ hitem
  | tail _ hitem ih => exact h _ ih _ hitem

/-- `x` is below the root tree of a known have. -/
def HeldItem (store : ObjectStore Oid) (have_ : List Oid) (x : Oid) : Prop :=
  ∃ h ∈ have_, ∃ commit, store.commit? h = some commit ∧ store.Below commit.tree x

theorem HeldItem.item {t x : Oid} (h : HeldItem store have_ t) (hx : store.ItemOf t x) : HeldItem store have_ x := by
  obtain ⟨c, hc, commit, hcommit, hbelow⟩ := h
  exact ⟨c, hc, commit, hcommit, hbelow.tail hx⟩

theorem heldItem_nil (x : Oid) : x ∈ ([] : List Oid) ↔ HeldItem store [] x := by simp [HeldItem]

theorem unseen_lt_maxDepth (seen : List Oid) : unseen store.allIds seen < maxDepth store := by
  have hle := unseen_le store.allIds seen
  have hids : store.allIds.length = store.objects.length := length_map _
  unfold maxDepth
  omega

theorem haveObjects_spec (hstore : store.Closed) (have_ : List Oid) :
    ∃ existObjs, haveObjects store have_ = .ok existObjs ∧ ∀ x, x ∈ existObjs ↔ HeldItem store have_ x := by
  set roots := (store.getCommitsByHashes have_).map (fun c => c.2.tree) with hroots
  have hdeals : Deals store meetAll (fun _ : Oid => ([] : List (Entry Oid))) := fun ids _ =>
    ⟨[], rfl, by simp⟩
  obtain ⟨out, new, hwalk, hwalked, -⟩ := walkTrees_spec
    (walkTree_spec hstore hdeals (maxDepth store)) (store.getTreesByHashes roots) []
    (fun row hrow => (mem_getTreesByHashes.mp hrow).2) (fun _ => unseen_lt_maxDepth [])
  refine ⟨new.map TreeItem.id, ?_, fun x => ?_⟩
  · have hwalk' : walkTrees (traverse store false) (store.getTreesByHashes roots) [] =
        .ok (out, [] ++ new.map TreeItem.id) := hwalk
    unfold haveObjects
    simp only [← hroots, hwalk', bind, Except.bind, nil_append]
  · have hmem := hwalked.mem_iff (fun t ht => by simp [meetAll] at ht) x
    rw [hmem]
    simp only [meetAll, not_mem_nil, not_false_eq_true, and_true, mem_map, HeldItem]
    constructor
    · intro h
      obtain ⟨r, ⟨row, hrow, rfl⟩, hbelow⟩ := h
      obtain ⟨c, hc, hrow⟩ := mem_map.mp (mem_getTreesByHashes.mp hrow).1
      obtain ⟨hc, hcommit⟩ := mem_getCommitsByHashes.mp hc
      exact ⟨c.1, hc, c.2, hcommit, hrow ▸ hbelow⟩
    · intro h
      obtain ⟨c, hc, commit, hcommit, hbelow⟩ := h
      obtain ⟨items, hitems⟩ := Option.isSome_iff_exists.mp (hstore.roots hcommit)
      refine ⟨commit.tree, ⟨(commit.tree, items), mem_getTreesByHashes.mpr ⟨?_, hitems⟩, rfl⟩, hbelow⟩
      exact mem_map.mpr ⟨(c, commit), mem_getCommitsByHashes.mpr ⟨hc, hcommit⟩, rfl⟩

/-! ### Counting and sending with blobs -/

/-- `x` is in the root tree of one of the commits, at any depth. -/
def InTrees (store : ObjectStore Oid) (commits : List (Oid × Commit Oid)) (x : Oid) : Prop :=
  ∃ c ∈ commits, store.Below c.2.tree x

/-- `x` is the root tree of one of the commits, or in it. -/
def FromRoots (store : ObjectStore Oid) (commits : List (Oid × Commit Oid)) (x : Oid) : Prop :=
  ∃ c ∈ commits, x = c.2.tree ∨ store.Below c.2.tree x

theorem inTrees_cons (c : Oid × Commit Oid) (commits : List (Oid × Commit Oid)) (x : Oid) :
    InTrees store (c :: commits) x ↔ store.Below c.2.tree x ∨ InTrees store commits x := by
  simp [InTrees]

theorem fromRoots_cons (c : Oid × Commit Oid) (commits : List (Oid × Commit Oid)) (x : Oid) :
    FromRoots store (c :: commits) x ↔
      (x = c.2.tree ∨ store.Below c.2.tree x) ∨ FromRoots store commits x := by
  simp [FromRoots]

theorem rootTree_ok (hstore : store.Closed) {c : Oid × Commit Oid} (hc : store.commit? c.1 = some c.2) :
    ∃ items, store.tree? c.2.tree = some items ∧ rootTree store c.2 = .ok (c.2.tree, items) := by
  obtain ⟨items, hitems⟩ := Option.isSome_iff_exists.mp (hstore.roots hc)
  exact ⟨items, hitems, by simp [rootTree, hitems]⟩

/-- A walk from a root tree that deals with trees and, as `deal` says, with blobs. `ids` is what it then deals
with of the items that it meets. -/
theorem walkRoot (hstore : store.Closed) {visitor : Visitor Oid} {deal : Oid → List (Entry Oid)}
    (hdeals : Deals store visitor deal) (hvisit : visitor.tree = fun id => [.tree id])
    {items : List (TreeItem Oid)} (hroot : store.tree? root = some items) (seen : List Oid)
    {ids : List (TreeItem Oid) → List Oid} (hids : ∀ new, Walked store visitor.known [root] seen new →
      (new.flatMap (dealt visitor deal)).map Entry.id = ids new) :
    ∃ out new, walkTree store visitor (maxDepth store) (root, items) seen =
        .ok (out, seen ++ new.map TreeItem.id) ∧
      Walked store visitor.known [root] seen new ∧ (out.map Entry.id).Perm (ids new ++ [root]) := by
  obtain ⟨out, new, hwalk, hwalked, hperm⟩ := walkTree_spec hstore hdeals (maxDepth store)
    (root, items) seen hroot (unseen_lt_maxDepth _)
  have hmap := hperm.map Entry.id
  rw [map_append, hids new hwalked, hvisit] at hmap
  exact ⟨out, new, hwalk, hwalked, by simpa [Entry.id] using hmap⟩

omit [DecidableEq Oid] in
/-- A walk that deals with blobs and trees alike. -/
theorem map_id_dealt_all {visitor : Visitor Oid} (hvisit : visitor.tree = fun id => [.tree id])
    (new : List (TreeItem Oid)) :
    (new.flatMap (dealt visitor fun id => [.blob id])).map Entry.id = new.map TreeItem.id := by
  rw [map_flatMap, map_eq_flatMap]
  apply flatMap_congr
  intro item _
  unfold dealt
  split <;> simp [hvisit, Entry.id]

/-- A walk that deals with trees only. -/
theorem map_id_dealt_trees (hstore : store.Closed) {visitor : Visitor Oid}
    (hvisit : visitor.tree = fun id => [.tree id]) {new : List (TreeItem Oid)}
    (hlisted : ∀ item ∈ new, ∃ t items, store.tree? t = some items ∧ item ∈ items) :
    (new.flatMap (dealt visitor fun _ => [])).map Entry.id =
      (new.map TreeItem.id).filter fun x => (store.tree? x).isSome := by
  induction new with
  | nil => rfl
  | cons item new ih =>
    obtain ⟨⟨t, items, ht, hitem⟩, hlisted⟩ := forall_mem_cons.mp hlisted
    rw [flatMap_cons, map_append, ih hlisted, map_cons, filter_cons]
    by_cases hmode : item.mode = .tree
    · have hsome := hstore.subtrees ht hitem hmode
      simp [dealt, hmode, hvisit, hsome, Entry.id]
    · have hblob := isBlob_iff.mp (hstore.files ht hitem hmode)
      have hnone : store.tree? item.id = none := by simp [tree?, hblob]
      simp [dealt, hmode, hnone]

/-- A walk from a root tree meets what is below the root outside of a closed set. -/
theorem mem_walkRoot {known : Oid → Bool} {seen : List Oid} {new : List (TreeItem Oid)}
    (h : Walked store known [root] seen new)
    (hclosed : ∀ t, known t = true ∨ t ∈ seen → ∀ x, store.ItemOf t x → known x = true ∨ x ∈ seen) (x : Oid) :
    x ∈ new.map TreeItem.id ↔ store.Below root x ∧ known x = false ∧ x ∉ seen := by
  rw [h.mem_iff hclosed]
  simp

/-- A counting walk adds what is below the root and neither held nor counted. What is counted then still
holds the items of its trees, but for the held ones. -/
theorem counted_walk {countedObj : List Oid} {new : List (TreeItem Oid)} (hexist : ItemClosed store existObjs)
    (hcounted : ∀ t ∈ countedObj, ∀ x, store.ItemOf t x → x ∈ existObjs ∨ x ∈ countedObj)
    (h : Walked store (fun x => decide (x ∈ existObjs)) [root] countedObj new) :
    (∀ x, x ∈ new.map TreeItem.id ↔ store.Below root x ∧ x ∉ existObjs ∧ x ∉ countedObj) ∧
      ∀ t ∈ countedObj ++ new.map TreeItem.id, ∀ x, store.ItemOf t x →
        x ∈ existObjs ∨ x ∈ countedObj ++ new.map TreeItem.id := by
  constructor
  · intro x
    rw [mem_walkRoot h ?_ x]
    · simp
    · intro t ht y hy
      simp only [decide_eq_true_eq] at ht ⊢
      exact ht.elim (fun ht => .inl (hexist t ht y hy)) (fun ht => hcounted t ht y hy)
  · intro t ht x hx
    rw [mem_append]
    obtain ht | ht := mem_append.mp ht
    · exact (hcounted t ht x hx).imp_right .inl
    · simpa using h.closed t (.inr ht) x hx

/-- **A count comes to the distinct root trees and the objects in them that are not held.** -/
theorem countCommits_spec (hstore : store.Closed) (hexist : ItemClosed store existObjs) :
    ∀ (commits : List (Oid × Commit Oid)) (countedRoots countedObj : List Oid),
      (∀ c ∈ commits, store.commit? c.1 = some c.2) →
      (∀ t ∈ countedObj, ∀ x, store.ItemOf t x → x ∈ existObjs ∨ x ∈ countedObj) →
      (∀ r ∈ countedRoots, ∀ x, store.Below r x → x ∈ existObjs ∨ x ∈ countedObj) →
      ∃ counted : List Oid,
        countCommits store existObjs commits countedRoots countedObj =
          .ok ((fresh (fun _ => false) (commits.map fun c => c.2.tree) countedRoots).length +
            counted.length) ∧
        counted.Nodup ∧
        ∀ x, x ∈ counted ↔ InTrees store commits x ∧ x ∉ existObjs ∧ x ∉ countedObj
  | [], countedRoots, countedObj, _, _, _ => ⟨[], rfl, nodup_nil, fun x => by simp [InTrees]⟩
  | c :: commits, countedRoots, countedObj, hrows, hcounted, hroots => by
    obtain ⟨hrow, hrows⟩ := forall_mem_cons.mp hrows
    by_cases hroot : c.2.tree ∈ countedRoots
    · obtain ⟨counted, hcount, hnodup, hmem⟩ := countCommits_spec hstore hexist commits countedRoots countedObj
        hrows hcounted hroots
      refine ⟨counted, ?_, hnodup, fun x => ?_⟩
      · unfold countCommits
        rw [if_pos hroot, hcount]
        simp [fresh, freshBy, hroot]
      · rw [hmem x]
        have hfirst := hroots c.2.tree hroot x
        rw [inTrees_cons]
        tauto
    · obtain ⟨items, hitems, htree⟩ := rootTree_ok hstore hrow
      obtain ⟨out, new, hwalk, hwalked, hperm⟩ := walkRoot hstore
        (fun ids _ => ⟨_, rfl, by rw [← map_eq_flatMap]⟩)
        (rfl : (countAll existObjs).tree = _) hitems countedObj fun new _ => map_id_dealt_all rfl new
      obtain ⟨hnew, hcounted'⟩ := counted_walk hexist hcounted hwalked
      have hroots' : ∀ r ∈ c.2.tree :: countedRoots, ∀ x, store.Below r x →
          x ∈ existObjs ∨ x ∈ countedObj ++ new.map TreeItem.id := by
        intro r hr x hx
        rw [mem_append, hnew]
        obtain rfl | hr := mem_cons.mp hr
        · tauto
        · exact (hroots r hr x hx).imp_right .inl
      obtain ⟨counted, hcount, hnodup, hmem⟩ := countCommits_spec hstore hexist commits
        (c.2.tree :: countedRoots) (countedObj ++ new.map TreeItem.id) hrows hcounted' hroots'
      refine ⟨new.map TreeItem.id ++ counted, ?_, ?_, fun x => ?_⟩
      · have hlen := hperm.length_eq
        simp only [length_map, length_append, length_singleton] at hlen
        unfold countCommits traverseForCount
        rw [if_neg hroot, htree]
        simp only [bind, Except.bind, hwalk, hcount, hlen]
        simp [fresh, freshBy, hroot]
        omega
      · exact hwalked.nodup.append hnodup fun x hx hy => ((hmem x).mp hy).2.2 (mem_append_right _ hx)
      · rw [mem_append, hnew, hmem, mem_append, hnew, inTrees_cons]
        tauto

/-- A set that a walk from a root tree made larger still holds the items of its trees. -/
theorem itemClosed_walked {new : List (TreeItem Oid)} (hexist : ItemClosed store existObjs) (start : List Oid)
    (hstart : ∀ t ∈ start, t ∈ existObjs ∨ t = root) (hsub : ∀ t ∈ existObjs, t ∈ start)
    (h : Walked store (fun _ => false) [root] start new) : ItemClosed store (start ++ new.map TreeItem.id) := by
  intro t ht x hx
  rw [mem_append]
  obtain ht | ht := mem_append.mp ht
  · obtain ht | rfl := hstart t ht
    · exact .inl (hsub x (hexist t ht x hx))
    · simpa using h.closed t (.inl (mem_singleton.mpr rfl)) x hx
  · simpa using h.closed t (.inr ht) x hx

theorem deals_sendAll : Deals store (sendAll store) fun id => [.blob id] := by
  intro ids hids
  refine ⟨(store.rowOrder ids).map .blob, ?_, ?_⟩
  · have hall : ids.all store.isBlob = true := all_eq_true.mpr hids
    simp [sendAll, sendBlobs, hall]
  · rw [← map_eq_flatMap]
    exact (store.rowOrder_perm ids).map _

omit [DecidableEq Oid] in
/-- What is walked for a commit, the commit, and what is sent after it. -/
theorem perm_sent {walked out : List (Entry Oid)} {ids cs sent : List Oid} (c : Oid)
    (hwalked : (walked.map Entry.id).Perm ids) (hout : (out.map Entry.id).Perm (cs ++ sent)) :
    ((walked ++ .commit c :: out).map Entry.id).Perm (c :: cs ++ (ids ++ sent)) := by
  rw [map_append, map_cons]
  calc walked.map Entry.id ++ c :: out.map Entry.id
      |>.Perm (c :: (walked.map Entry.id ++ out.map Entry.id)) := perm_middle
    _ |>.Perm (c :: (ids ++ (cs ++ sent))) := (hwalked.append hout).cons _
    _ |>.Perm (c :: (cs ++ (ids ++ sent))) := (perm_append_comm_assoc _ _ _).cons _

/-- **What is sent with the commits: once each, what is in their trees and not held.** -/
theorem sendCommits_spec (hstore : store.Closed) :
    ∀ (commits : List (Oid × Commit Oid)) (existObjs : List Oid), ItemClosed store existObjs →
      (∀ c ∈ commits, store.commit? c.1 = some c.2) →
      ∃ out sent, sendCommits store commits existObjs = .ok out ∧
        (out.map Entry.id).Perm (commits.map Prod.fst ++ sent) ∧ sent.Nodup ∧
        ∀ x, x ∈ sent ↔ FromRoots store commits x ∧ x ∉ existObjs
  | [], existObjs, _, _ => ⟨[], [], rfl, by simp, nodup_nil, fun x => by simp [FromRoots]⟩
  | c :: commits, existObjs, hexist, hrows => by
    obtain ⟨hrow, hrows⟩ := forall_mem_cons.mp hrows
    by_cases hroot : c.2.tree ∈ existObjs
    · obtain ⟨out, sent, hsend, hperm, hnodup, hmem⟩ := sendCommits_spec hstore commits existObjs hexist hrows
      refine ⟨.commit c.1 :: out, sent, ?_, ?_, hnodup, fun x => ?_⟩
      · unfold sendCommits
        simp only [if_pos hroot, bind, Except.bind, hsend, nil_append]
      · simpa [Entry.id] using hperm
      · have hx := hexist.below hroot x
        have hheld : x = c.2.tree → x ∈ existObjs := fun heq => heq ▸ hroot
        rw [hmem x, fromRoots_cons]
        tauto
    · obtain ⟨items, hitems, htree⟩ := rootTree_ok hstore hrow
      obtain ⟨walked, new, hwalk, hwalked, hperm⟩ := walkRoot hstore deals_sendAll rfl hitems
        (existObjs ++ [c.2.tree]) fun new _ => map_id_dealt_all rfl new
      have hclosed := itemClosed_walked hexist (existObjs ++ [c.2.tree])
        (fun t ht => by simpa using ht) (fun t ht => mem_append_left _ ht) hwalked
      have hnew : ∀ x, x ∈ new.map TreeItem.id → store.Below c.2.tree x ∧ x ∉ existObjs ∧ x ≠ c.2.tree := by
        intro x hx
        obtain ⟨item, hitem, rfl⟩ := mem_map.mp hx
        obtain ⟨r, hr, hbelow⟩ := hwalked.below item hitem
        obtain rfl := mem_singleton.mp hr
        have hunseen := hwalked.unseen item hitem
        simp only [mem_append, mem_singleton, not_or] at hunseen
        exact ⟨hbelow, hunseen⟩
      obtain ⟨out, sent, hsend, hperm', hnodup, hmem⟩ := sendCommits_spec hstore commits
        (existObjs ++ [c.2.tree] ++ new.map TreeItem.id) hclosed hrows
      refine ⟨walked ++ .commit c.1 :: out, new.map TreeItem.id ++ [c.2.tree] ++ sent, ?_, ?_, ?_, fun x => ?_⟩
      · have hwalk' : traverse store true (c.2.tree, items) (existObjs ++ [c.2.tree]) =
            .ok (walked, existObjs ++ [c.2.tree] ++ new.map TreeItem.id) := hwalk
        unfold sendCommits
        simp only [if_neg hroot, htree, bind, Except.bind, hwalk', hsend]
      · exact perm_sent c.1 hperm hperm'
      · have hnodup' : (new.map TreeItem.id ++ [c.2.tree]).Nodup :=
          hwalked.nodup.append (nodup_singleton _) fun x hx hy => (hnew x hx).2.2 (mem_singleton.mp hy)
        refine hnodup'.append hnodup fun x hx hy => ((hmem x).mp hy).2 ?_
        simp only [mem_append] at hx ⊢
        tauto
      · have hx := hnew x
        have hx' := hclosed.below (by simp : c.2.tree ∈ existObjs ++ [c.2.tree] ++ new.map TreeItem.id) x
        have hfalse : ∀ y ∈ existObjs, y ≠ c.2.tree := fun y hy heq => hroot (heq ▸ hy)
        have hx'' := hfalse x
        rw [fromRoots_cons]
        simp only [mem_append, mem_singleton, hmem, not_or] at hx' ⊢
        tauto

/-- What a pack of these commits is, for a client that holds the items in `existObjs`. -/
theorem packCommits_spec (hstore : store.Closed) (hrows : Rows store commits) (hexist : ItemClosed store existObjs) :
    ∃ (pack : PackStream Oid) (counted sent : List Oid), packCommits store commits existObjs = .ok pack ∧
      pack.objNum = commits.length +
        ((fresh (fun _ => false) (commits.map fun c => c.2.tree) []).length + counted.length) ∧
      (pack.entries.map Entry.id).Perm (commits.map Prod.fst ++ sent) ∧
      (counted.Nodup ∧ ∀ x, x ∈ counted ↔ InTrees store commits x ∧ x ∉ existObjs) ∧
      sent.Nodup ∧ ∀ x, x ∈ sent ↔ FromRoots store commits x ∧ x ∉ existObjs := by
  obtain ⟨counted, hcount, hcounted, hmemCounted⟩ := countCommits_spec hstore hexist commits [] [] hrows.2
    (by simp) (by simp)
  obtain ⟨entries, sent, hsend, hperm, hsent, hmemSent⟩ := sendCommits_spec hstore commits existObjs hexist hrows.2
  refine ⟨⟨_, entries⟩, counted, sent, ?_, rfl, hperm, ⟨hcounted, fun x => ?_⟩, hsent, hmemSent⟩
  · simp only [packCommits, hcount, hsend, bind, Except.bind]
  · simpa using hmemCounted x

/-- What is in the tree of a commit is a tree or a blob. -/
theorem object_of_fromRoots (hstore : store.Closed) (hrows : Rows store commits) {x : Oid}
    (hx : FromRoots store commits x) :
    (∃ items, store.object? x = some (.tree items)) ∨ store.object? x = some .blob := by
  have htree : ∀ t, (store.tree? t).isSome = true → ∃ items, store.object? t = some (.tree items) := by
    intro t ht
    obtain ⟨items, hitems⟩ := Option.isSome_iff_exists.mp ht
    exact ⟨items, tree?_eq_some.mp hitems⟩
  obtain ⟨c, hc, rfl | hbelow⟩ := hx
  · exact .inl (htree _ (hstore.roots (hrows.2 c hc)))
  · obtain ⟨t, -, items, hitems, item, hitem, rfl⟩ := Relation.TransGen.tail'_iff.mp hbelow
    by_cases hmode : item.mode = .tree
    · exact .inl (htree _ (hstore.subtrees hitems hitem hmode))
    · exact .inr (isBlob_iff.mp (hstore.files hitems hitem hmode))

theorem commit?_eq_none_of_fromRoots (hstore : store.Closed) (hrows : Rows store commits) {x : Oid}
    (hx : FromRoots store commits x) : store.commit? x = none := by
  obtain ⟨items, hobject⟩ | hobject := object_of_fromRoots hstore hrows hx
  · simp [commit?, hobject]
  · simp [commit?, hobject]

theorem fromRoots_notMem (hstore : store.Closed) (hrows : Rows store commits) {x : Oid} (hx : FromRoots store commits x) :
    x ∉ commits.map Prod.fst := by
  intro hmem
  obtain ⟨c, hc, rfl⟩ := mem_map.mp hmem
  simpa [hrows.2 c hc] using commit?_eq_none_of_fromRoots hstore hrows hx

/-! ### Counting and sending trees only -/

/-- A count comes to a root tree for each commit and the trees in them that are not held. -/
theorem countCommitTrees_spec (hstore : store.Closed) (hexist : ItemClosed store existObjs) :
    ∀ (commits : List (Oid × Commit Oid)) (countedObj : List Oid),
      (∀ c ∈ commits, store.commit? c.1 = some c.2) →
      (∀ t ∈ countedObj, ∀ x, store.ItemOf t x → x ∈ existObjs ∨ x ∈ countedObj) →
      ∃ counted : List Oid,
        countCommitTrees store existObjs commits countedObj = .ok (commits.length + counted.length) ∧
        counted.Nodup ∧
        ∀ x, x ∈ counted ↔
          (InTrees store commits x ∧ x ∉ existObjs ∧ x ∉ countedObj) ∧ (store.tree? x).isSome = true
  | [], countedObj, _, _ => ⟨[], rfl, nodup_nil, fun x => by simp [InTrees]⟩
  | c :: commits, countedObj, hrows, hcounted => by
    obtain ⟨hrow, hrows⟩ := forall_mem_cons.mp hrows
    obtain ⟨items, hitems, htree⟩ := rootTree_ok hstore hrow
    obtain ⟨out, new, hwalk, hwalked, hperm⟩ := walkRoot hstore
      (fun ids _ => ⟨_, rfl, by simp⟩) (rfl : (countTrees existObjs).tree = _) hitems countedObj
      fun new h => map_id_dealt_trees hstore rfl h.listed
    obtain ⟨hnew, hcounted'⟩ := counted_walk hexist hcounted hwalked
    obtain ⟨counted, hcount, hnodup, hmem⟩ := countCommitTrees_spec hstore hexist commits
      (countedObj ++ new.map TreeItem.id) hrows hcounted'
    refine ⟨(new.map TreeItem.id).filter (fun x => (store.tree? x).isSome) ++ counted, ?_, ?_, fun x => ?_⟩
    · have hlen := hperm.length_eq
      simp only [length_map, length_append, length_singleton] at hlen
      unfold countCommitTrees traverseTreesOnlyForCount
      simp only [bind, Except.bind, htree, hwalk, hcount, hlen, length_append, length_cons]
      congr 1
      omega
    · refine (hwalked.nodup.filter _).append hnodup fun x hx hy => ?_
      exact ((hmem x).mp hy).1.2.2 (mem_append_right _ (mem_filter.mp hx).1)
    · rw [mem_append, mem_filter, hnew, hmem, mem_append, hnew, inTrees_cons]
      tauto

/-- **What is sent with the commits without blobs: the root tree of each, and once each the trees in
them that are not held.** -/
theorem sendCommitTrees_spec (hstore : store.Closed) :
    ∀ (commits : List (Oid × Commit Oid)) (existObjs : List Oid), ItemClosed store existObjs →
      (∀ c ∈ commits, store.commit? c.1 = some c.2) →
      ∃ out sent, sendCommitTrees store commits existObjs = .ok out ∧
        (out.map Entry.id).Perm (commits.map Prod.fst ++ ((commits.map fun c => c.2.tree) ++ sent)) ∧
        sent.Nodup ∧
        ∀ x, x ∈ sent ↔ (InTrees store commits x ∧ x ∉ existObjs) ∧ (store.tree? x).isSome = true
  | [], existObjs, _, _ => ⟨[], [], rfl, by simp, nodup_nil, fun x => by simp [InTrees]⟩
  | c :: commits, existObjs, hexist, hrows => by
    obtain ⟨hrow, hrows⟩ := forall_mem_cons.mp hrows
    obtain ⟨items, hitems, htree⟩ := rootTree_ok hstore hrow
    obtain ⟨walked, new, hwalk, hwalked, hperm⟩ := walkRoot hstore
      (fun ids _ => ⟨_, rfl, by simp⟩) (rfl : (sendTrees : Visitor Oid).tree = _) hitems existObjs
      fun new h => map_id_dealt_trees hstore rfl h.listed
    have hclosed := itemClosed_walked hexist existObjs (fun t ht => .inl ht) (fun t ht => ht) hwalked
    have hnew : ∀ x, x ∈ new.map TreeItem.id ↔ store.Below c.2.tree x ∧ x ∉ existObjs := by
      intro x
      rw [mem_walkRoot hwalked (fun t ht y hy => .inr (hexist t (by simpa [sendTrees] using ht) y hy)) x]
      simp [sendTrees]
    obtain ⟨out, sent, hsend, hperm', hnodup, hmem⟩ := sendCommitTrees_spec hstore commits
      (existObjs ++ new.map TreeItem.id) hclosed hrows
    set trees := (new.map TreeItem.id).filter (fun x => (store.tree? x).isSome) with htrees
    refine ⟨walked ++ .commit c.1 :: out, trees ++ sent, ?_, ?_, ?_, fun x => ?_⟩
    · have hwalk' : traverseTreesOnly store (c.2.tree, items) existObjs =
          .ok (walked, existObjs ++ new.map TreeItem.id) := hwalk
      unfold sendCommitTrees
      simp only [bind, Except.bind, htree, hwalk', hsend]
    · refine (perm_sent c.1 hperm hperm').trans (List.Perm.append_left _ ?_)
      simp only [append_assoc, cons_append, nil_append, map_cons]
      exact perm_middle.trans ((perm_append_comm_assoc _ _ _).cons _)
    · refine (hwalked.nodup.filter _).append hnodup fun x hx hy => ?_
      exact ((hmem x).mp hy).1.2 (mem_append_right _ (mem_filter.mp hx).1)
    · rw [mem_append, mem_filter, hnew, hmem, mem_append, hnew, inTrees_cons]
      tauto

/-! ### Levels of a shallow pack -/

/-- `b` is an ancestor of `a` so many generations back. -/
def Generations (store : ObjectStore Oid) : ℕ → Oid → Oid → Prop :=
  Steps fun c p => p ∈ store.parentsOf c

theorem parentsOf_row {c : Oid × Commit Oid} (hc : store.commit? c.1 = some c.2) :
    store.parentsOf c.1 = c.2.parents := by
  simp [parentsOf, hc]

/-- The levels after the first: the ids of the commits met, each once, and the commits cut off. -/
theorem shallowLevels_spec (hstore : store.Closed) :
    ∀ (rounds : ℕ) (current : List (Oid × Commit Oid)) (visited : List Oid),
      (∀ c ∈ current, store.commit? c.1 = some c.2) → (∀ c ∈ current.map Prod.fst, c ∈ visited) →
      (∀ v ∈ visited, v ∈ current.map Prod.fst ∨
        ∀ p, Enters (fun c p => p ∈ store.parentsOf c) (fun _ => false) v p → p ∈ visited) →
      ∃ ids shallow, shallowLevels store (rounds + 1) current visited =
          (ids.filterMap (fun p => (store.commit? p).map (p, ·)), shallow) ∧
        (∀ x ∈ ids, (store.commit? x).isSome = true) ∧
        Leveled (fun c p => p ∈ store.parentsOf c) (fun _ => false) rounds (current.map Prod.fst) visited ids ∧
        ∀ c, c ∈ current.map Prod.fst ∨ c ∈ ids →
          c ∈ shallow ∨ ∀ p ∈ store.parentsOf c, p ∈ visited ∨ p ∈ ids
  | 0, current, visited, hrows, hcurrent, _ => by
    refine ⟨[], _, rfl, by simp, leveled_nil hcurrent (.inr rfl), fun c hc => ?_⟩
    obtain ⟨row, hrow, rfl⟩ := mem_map.mp (hc.resolve_right (by simp))
    rw [parentsOf_row (hrows row hrow)]
    by_cases hparents : row.2.parents = []
    · exact .inr (by simp [hparents])
    · exact .inl (mem_map.mpr ⟨row, mem_filter.mpr ⟨hrow, by simpa using hparents⟩, rfl⟩)
  | rounds + 1, current, visited, hrows, hcurrent, hvisited => by
    have hcandidates : ∀ p, p ∈ current.flatMap (fun c => c.2.parents) ↔
        ∃ c ∈ current.map Prod.fst, p ∈ store.parentsOf c := by
      intro p
      rw [mem_flatMap]
      constructor
      · intro h
        obtain ⟨row, hrow, hp⟩ := h
        exact ⟨row.1, mem_map_of_mem hrow, by rwa [parentsOf_row (hrows row hrow)]⟩
      · intro h
        obtain ⟨c, hc, hp⟩ := h
        obtain ⟨row, hrow, rfl⟩ := mem_map.mp hc
        exact ⟨row, hrow, by rwa [parentsOf_row (hrows row hrow)] at hp⟩
    have hvisited' := expanded_round hvisited hcandidates
    set new := fresh (fun _ => false) (current.flatMap fun c => c.2.parents) visited with hnew
    have hsome : ∀ x ∈ new, (store.commit? x).isSome = true := by
      intro x hx
      obtain ⟨c, -, hx⟩ := (hcandidates x).mp (mem_fresh.mp hx).1
      exact isSome_parent hstore hx
    have hnext : (new.filterMap fun p => (store.commit? p).map (p, ·)).map Prod.fst = new := by
      rw [map_fst_rows]
      exact filter_eq_self.mpr hsome
    obtain ⟨ids, shallow, hrest, hids, hleveled, hcut⟩ := shallowLevels_spec hstore rounds
      (new.filterMap fun p => (store.commit? p).map (p, ·)) (visited ++ new)
      (fun c hc => (mem_rows.mp hc).2)
      (by rw [hnext]; exact fun c hc => mem_append_right _ hc) (by rwa [hnext])
    rw [hnext] at hleveled hcut
    refine ⟨new ++ ids, shallow, ?_, ?_, Leveled.round hcurrent hvisited hcandidates hleveled, ?_⟩
    · unfold shallowLevels
      simp only [← hnew, hrest, filterMap_append]
    · intro x hx
      exact (mem_append.mp hx).elim (hsome x) (hids x)
    · intro c hc
      by_cases hfirst : c ∈ current.map Prod.fst
      · refine .inr fun p hp => ?_
        by_cases hold : p ∈ visited
        · exact .inl hold
        · exact .inr (mem_append_left _ (mem_fresh.mpr ⟨(hcandidates p).mpr ⟨c, hfirst, hp⟩, rfl, hold⟩))
      · refine (hcut c (mem_append.mp (hc.resolve_left hfirst))).imp_right fun h p hp => ?_
        have hp := h p hp
        simp only [mem_append] at hp ⊢
        tauto

/-- `c` is wanted, or an ancestor of a wanted commit fewer generations back than the depth. -/
def WithinDepth (store : ObjectStore Oid) (want : List Oid) (depth : ℕ) (c : Oid) : Prop :=
  c ∈ want ∨ ∃ w ∈ want, ∃ n, n < depth ∧ Generations store n w c

/-- The commits of a shallow pack. -/
theorem shallowCommits_spec (hstore : store.Closed) (hwant : ∀ w ∈ want, (store.commit? w).isSome = true)
    (depth : ℕ) :
    ∃ ancestors shallow, shallowLevels store depth (store.getCommitsByHashes want) want = (ancestors, shallow) ∧
      Rows store (store.getCommitsByHashes want ++ ancestors) ∧
      (∀ c, c ∈ (store.getCommitsByHashes want ++ ancestors).map Prod.fst ↔ WithinDepth store want depth c) ∧
      (0 < depth → ∀ c, WithinDepth store want depth c →
        c ∈ shallow ∨ ∀ p ∈ store.parentsOf c, WithinDepth store want depth p) := by
  have hmem := mem_map_getCommitsByHashes hwant
  cases depth with
  | zero =>
    refine ⟨[], [], rfl, ?_, fun c => ?_, fun h => absurd h (lt_irrefl 0)⟩
    · rw [append_nil]
      exact ⟨nodup_getCommitsByHashes want, fun c hc => (mem_getCommitsByHashes.mp hc).2⟩
    · simp [WithinDepth, hmem]
  | succ rounds =>
    obtain ⟨ids, shallow, hrun, hids, hleveled, hcut⟩ := shallowLevels_spec hstore rounds
      (store.getCommitsByHashes want) want (fun c hc => (mem_getCommitsByHashes.mp hc).2)
      (fun c hc => (hmem c).mp hc) (fun v hv => .inl ((hmem v).mpr hv))
    have hsteps : Enters (fun c p => p ∈ store.parentsOf c) (fun _ => false) =
        fun c p => p ∈ store.parentsOf c := by
      funext c p
      simp [Enters]
    have hwithin : ∀ c, c ∈ want ∨ c ∈ ids ↔ WithinDepth store want (rounds + 1) c := by
      intro c
      rw [hleveled.mem c, hsteps]
      simp only [WithinDepth, Generations, hmem, Nat.lt_succ_iff]
    have hall : ids.filter (fun p => (store.commit? p).isSome) = ids := filter_eq_self.mpr hids
    refine ⟨_, shallow, hrun, rows_append hleveled.nodup hleveled.unseen, fun c => ?_, fun _ c hc => ?_⟩
    · rw [map_append, map_fst_rows, hall, mem_append, hmem, hwithin]
    · simp only [hmem, hwithin] at hcut
      exact hcut c hc

/-! ### Rules for the packs -/

theorem getCommitsByHashes_ne_nil (hwant : ∀ w ∈ want, (store.commit? w).isSome = true) (hne : want ≠ []) :
    store.getCommitsByHashes want ≠ [] := by
  obtain ⟨w, hw⟩ := exists_mem_of_ne_nil _ hne
  obtain ⟨commit, hcommit⟩ := Option.isSome_iff_exists.mp (hwant w hw)
  exact ne_nil_of_mem (mem_getCommitsByHashes.mpr ⟨hw, hcommit⟩ : (w, commit) ∈ _)

theorem directObjectPack_nil (store : ObjectStore Oid) :
    directObjectPack store [] = .error .requestedObjectsNotFound := by
  have hrows : store.rowOrder [] = [] := (store.rowOrder_perm []).eq_nil
  simp [directObjectPack, getTreesByHashes, hrows]

theorem getCommitsByHashes_nil (store : ObjectStore Oid) : store.getCommitsByHashes [] = [] := by
  have hrows : store.rowOrder [] = [] := (store.rowOrder_perm []).eq_nil
  simp [getCommitsByHashes, hrows]

/-- There is a pack, with this property. Only if nothing is wanted, there is none. -/
def Answers (want : List Oid) (answer : Except PackError (PackStream Oid)) (P : PackStream Oid → Prop) : Prop :=
  (want = [] ∧ answer = .error .requestedObjectsNotFound) ∨ ∃ pack, answer = .ok pack ∧ P pack

/-- The commits to send, and the items that the client holds. -/
structure Sends (store : ObjectStore Oid) (want have_ : List Oid) (commits : List (Oid × Commit Oid))
    (existObjs : List Oid) : Prop where
  rows : Rows store commits
  mem : ∀ c, c ∈ commits.map Prod.fst ↔ ToSend store want have_ c
  held : ∀ x, x ∈ existObjs ↔ HeldItem store have_ x

theorem itemClosed_of_held (h : ∀ x, x ∈ existObjs ↔ HeldItem store have_ x) : ItemClosed store existObjs := by
  intro t ht x hx
  exact (h x).mpr (((h t).mp ht).item hx)

section Answers

variable (hstore : store.Closed) (hwant : ∀ w ∈ want, (store.commit? w).isSome = true)

include hstore hwant

/-- To show something of incremental packs, show it of a pack of the commits to send, for a client that
holds the items of its trees. -/
theorem incrementalPack_answers {P : PackStream Oid → Prop}
    (hpack : ∀ commits existObjs, Sends store want have_ commits existObjs →
      ∃ pack, packCommits store commits existObjs = .ok pack ∧ P pack) :
    Answers want (incrementalPack store want have_) P := by
  by_cases hne : want = []
  · subst hne
    refine .inl ⟨rfl, ?_⟩
    rw [incrementalPack, if_pos (getCommitsByHashes_nil store), directObjectPack_nil]
  · obtain ⟨commits, hsend, hrows, hmem⟩ := commitsToSend_spec hstore hwant have_
    obtain ⟨existObjs, hhave, hexist⟩ := haveObjects_spec hstore have_
    obtain ⟨pack, hpack, hP⟩ := hpack commits existObjs ⟨hrows, hmem, hexist⟩
    refine .inr ⟨pack, ?_, hP⟩
    rw [incrementalPack, if_neg (getCommitsByHashes_ne_nil hwant hne)]
    simp only [hsend, hhave, hpack, bind, Except.bind]

@[inherit_doc incrementalPack_answers]
theorem filteredPack_answers {P : PackStream Oid → Prop}
    (hpack : ∀ commits existObjs, Sends store want have_ commits existObjs →
      ∃ n entries, countCommitTrees store existObjs commits [] = .ok n ∧
        sendCommitTrees store commits existObjs = .ok entries ∧ P ⟨commits.length + n, entries⟩) :
    Answers want (filteredPack store want have_ .blobNone) P := by
  by_cases hne : want = []
  · subst hne
    refine .inl ⟨rfl, ?_⟩
    rw [filteredPack, if_neg (by simp), if_pos (getCommitsByHashes_nil store), directObjectPack_nil]
  · obtain ⟨commits, hsend, hrows, hmem⟩ := commitsToSend_spec hstore hwant have_
    obtain ⟨existObjs, hhave, hexist⟩ := haveObjects_spec hstore have_
    obtain ⟨n, entries, hcount, hentries, hP⟩ := hpack commits existObjs ⟨hrows, hmem, hexist⟩
    refine .inr ⟨_, ?_, hP⟩
    rw [filteredPack, if_neg (by simp), if_neg (getCommitsByHashes_ne_nil hwant hne)]
    simp only [hsend, hhave, hcount, hentries, bind, Except.bind]

/-- A shallow pack is a pack of the commits within the depth, for a client that holds nothing. -/
theorem shallowPack_answers (depth : ℕ) {P : PackStream Oid → List Oid → Prop}
    (hpack : ∀ commits shallow, Rows store commits →
      (∀ c, c ∈ commits.map Prod.fst ↔ WithinDepth store want depth c) →
      (depth = 0 → shallow = []) →
      (0 < depth → ∀ c, WithinDepth store want depth c →
        c ∈ shallow ∨ ∀ p ∈ store.parentsOf c, WithinDepth store want depth p) →
      ∃ pack, packCommits store commits [] = .ok pack ∧ P pack shallow) :
    ∃ pack shallow, shallowPack store want depth = .ok (pack, shallow) ∧ P pack shallow := by
  obtain ⟨ancestors, shallow, hlevels, hrows, hmem, hcut⟩ := shallowCommits_spec hstore hwant depth
  have hzero : depth = 0 → shallow = [] := by
    intro hdepth
    subst hdepth
    simp only [shallowLevels, Prod.mk.injEq] at hlevels
    exact hlevels.2.symm
  obtain ⟨pack, hpack, hP⟩ := hpack _ shallow hrows hmem hzero hcut
  refine ⟨pack, shallow, ?_, hP⟩
  simp only [shallowPack, hlevels, hpack, bind, Except.bind]

end Answers

end Pack
end Mega
