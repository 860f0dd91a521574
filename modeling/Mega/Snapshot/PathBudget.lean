/-
# Path limits of cached directories

`ceres/snapshot/pages.rs` builds the directories of a git tree bottom up and keeps
them in a cache by the id of the tree. The same tree may be asked for again under
another path, where its entries could be too deep or their paths too long. A built
directory therefore has the length and depth of its longest descendant paths, which
are checked against each path it is served at.

Trees are identified with their content. The names of a tree are checked nowhere
before the codec of the pages, which is a crate of its own, makes a page of them; that
it refuses a name with a slash is assumed (`Codec.PlainNames`). The budget counts such
a name as one component. A build may find any earlier result in the cache, or none
(`Previous`): what the cache keeps, and for how long, is left open.

Key definitions: `DescendantPathBudget`, `Codec`, `buildSubtreeInner`, `Previous`.
Key theorems: `passes_iff`, `buildSubtreeInner_eq_ok`, `cached_directory_honours_limits`.
-/
import Mega.Snapshot.Paths

namespace Mega
namespace Snapshot

open List View

/-- What `direct_entries` lists of a git tree, in the order of the names: a file has its kind, size and digest, a
directory its own tree. -/
inductive Tree (File : Type) where
  | nil
  | file (name : Text) (content : File) (rest : Tree File)
  | directory (name : Text) (child rest : Tree File)

structure DescendantPathBudget where
  /-- With the slash before each descendant name. -/
  suffixBytes : ℕ := 0
  components : ℕ := 0

namespace DescendantPathBudget

def includeChild (budget : DescendantPathBudget) (name : Text) (child : DescendantPathBudget) :
    DescendantPathBudget where
  suffixBytes := max budget.suffixBytes (1 + utf8Len name + child.suffixBytes)
  components := max budget.components (1 + child.components)

def validateAt (budget : DescendantPathBudget) (path : Text) : Except SnapshotError Unit := do
  validateScopeRelativePath path
  let bytes := if path = ['/'] then 0 else utf8Len path
  let comps := if path = ['/'] then 0 else (path.tail.splitOn '/').length
  if bytes + budget.suffixBytes > 4096 ∨ comps + budget.components > 256 then .error (.scopeInvalid .overBudget)
  else .ok ()

end DescendantPathBudget

/-- An entry of a page: a file, or a directory by the id of its page. -/
abbrev Entry (File PageId : Type) := Text × (File ⊕ PageId)

/-- `Page::build` and `page_id`. -/
structure Codec (File Page PageId : Type) where
  build : List (Entry File PageId) → Except Text Page
  pageId : Page → PageId

/-- The codec refuses a name that is not a single component. -/
def Codec.PlainNames {File Page PageId : Type} (codec : Codec File Page PageId) : Prop :=
  ∀ entries page, codec.build entries = .ok page → ∀ entry ∈ entries, IsName entry.1

structure BuiltDirectory (File Page PageId : Type) where
  page : Page
  codecEntries : List (Entry File PageId)
  pathBudget : DescendantPathBudget

/-! ### Building -/

/-- The variables of the loop over the entries. -/
structure Listing (File PageId : Type) where
  pathBudget : DescendantPathBudget := {}
  codecEntries : List (Entry File PageId) := []

section Build

variable {File Page PageId : Type}

def Listing.push (listing : Listing File PageId) (name : Text) (value : File ⊕ PageId) (child : DescendantPathBudget) :
    Listing File PageId :=
  ⟨listing.pathBudget.includeChild name child, listing.codecEntries ++ [(name, value)]⟩

/-- What the cache answers when a build asks it for a tree at a path. -/
abbrev Lookups (File Page PageId : Type) := Text → Tree File → Option (BuiltDirectory File Page PageId)

variable (codec : Codec File Page PageId) (cache : Lookups File Page PageId)

/-- `build_subtree_inner` with its loop over the entries as an argument. -/
def buildAround (entries : Except SnapshotError (Listing File PageId)) (tree : Tree File) (relPath : Text) :
    Except SnapshotError (BuiltDirectory File Page PageId) := do
  validateScopeRelativePath relPath
  match cache relPath tree with
  | some hit =>
    hit.pathBudget.validateAt relPath
    return hit
  | none =>
    let listing ← entries
    match codec.build listing.codecEntries with
    | .error reason => .error (.pageBuild relPath reason)
    | .ok page => return ⟨page, listing.codecEntries, listing.pathBudget⟩

def buildEntries : Tree File → Text → Listing File PageId → Except SnapshotError (Listing File PageId)
  | .nil, _, listing => return listing
  | .file name content rest, relPath, listing => do
    validateScopeRelativePath (appendAbsolute relPath name)
    buildEntries rest relPath (listing.push name (.inl content) {})
  | .directory name child rest, relPath, listing => do
    let childRel := appendAbsolute relPath name
    validateScopeRelativePath childRel
    let childPage ← buildAround codec cache (buildEntries child childRel {}) child childRel
    buildEntries rest relPath (listing.push name (.inr (codec.pageId childPage.page)) childPage.pathBudget)

def buildSubtreeInner (tree : Tree File) (relPath : Text) : Except SnapshotError (BuiltDirectory File Page PageId) :=
  buildAround codec cache (buildEntries codec cache tree relPath {}) tree relPath

/-- A directory that was built for the tree, with what had been built before in the cache. -/
inductive Previous : Tree File → BuiltDirectory File Page PageId → Prop
  | built {cache : Lookups File Page PageId} {tree : Tree File} {relPath : Text}
    {directory : BuiltDirectory File Page PageId}
    (hcache : ∀ path tree hit, cache path tree = some hit → Previous tree hit)
    (h : buildSubtreeInner codec cache tree relPath = .ok directory) : Previous tree directory

/-! ### What is built, wherever it is built -/

def Listing.built (listing : Listing File PageId) : Option (BuiltDirectory File Page PageId) :=
  (codec.build listing.codecEntries).toOption.map (⟨·, listing.codecEntries, listing.pathBudget⟩)

/-- The entries of the tree, behind those listed before it. -/
def Tree.listing : Tree File → Listing File PageId → Option (Listing File PageId)
  | .nil, listing => some listing
  | .file name content rest, listing => rest.listing (listing.push name (.inl content) {})
  | .directory name child rest, listing =>
    ((child.listing {}).bind (Listing.built codec)).bind fun directory =>
      rest.listing (listing.push name (.inr (codec.pageId directory.page)) directory.pathBudget)

def Tree.built (tree : Tree File) : Option (BuiltDirectory File Page PageId) :=
  (tree.listing codec {}).bind (Listing.built codec)

variable {codec}

theorem Listing.built_eq_some {listing : Listing File PageId} {directory : BuiltDirectory File Page PageId} :
    listing.built codec = some directory ↔
      ∃ page, codec.build listing.codecEntries = .ok page ∧ directory = ⟨page, listing.codecEntries, listing.pathBudget⟩ := by
  unfold Listing.built
  cases codec.build listing.codecEntries <;> simp [Except.toOption, eq_comm]

theorem Tree.listing_directory_eq_some {name : Text} {child rest : Tree File} {listing after : Listing File PageId} :
    (Tree.directory name child rest).listing codec listing = some after ↔ ∃ directory, child.built codec = some directory ∧
      rest.listing codec (listing.push name (.inr (codec.pageId directory.page)) directory.pathBudget) = some after := by
  rw [Tree.listing, Option.bind_eq_some_iff]
  rfl

/-- The entries that are listed already stay. -/
theorem Tree.subset_of_listing : ∀ (tree : Tree File) {listing after : Listing File PageId},
    tree.listing codec listing = some after → listing.codecEntries ⊆ after.codecEntries
  | .nil, _, _, h => by
    obtain rfl := Option.some.inj h
    exact Subset.refl _
  | .file _ _ rest, _, _, h => Subset.trans (subset_append_left _ _) (rest.subset_of_listing h)
  | .directory _ _ rest, _, _, h => by
    obtain ⟨_, -, hrest⟩ := Tree.listing_directory_eq_some.mp h
    exact Subset.trans (subset_append_left _ _) (rest.subset_of_listing hrest)

end Build

/-! ### Descendant paths -/

def Valid (path : Text) : Prop := validateScopeRelativePath path = .ok ()

section Trees

variable {File Page PageId : Type}

/-- The paths of the entries at any depth. -/
def Tree.paths : Tree File → Text → List Text
  | .nil, _ => []
  | .file name _ rest, path => appendAbsolute path name :: rest.paths path
  | .directory name child rest, path =>
    appendAbsolute path name :: (child.paths (appendAbsolute path name) ++ rest.paths path)

/-- Every path that is checked when the tree is built at this path is valid. -/
def Passes (tree : Tree File) (path : Text) : Prop := ∀ p ∈ path :: tree.paths path, Valid p

end Trees

/-- The budget that is left for the descendants of a path. -/
def Within (budget : DescendantPathBudget) (path : Text) : Prop :=
  (if path = ['/'] then 0 else utf8Len path) + budget.suffixBytes ≤ 4096 ∧
    (components path).length + budget.components ≤ 256

theorem valid_iff {path : Text} : Valid path ↔ path.head? = some '/' ∧ utf8Len path ≤ 4096 ∧
    ¬(path ≠ ['/'] ∧ path.getLast? = some '/') ∧ Char.ofNat 0 ∉ path ∧ (components path).length ≤ 256 ∧
    ∀ comp ∈ components path, GoodComponent comp := by
  rw [Valid, validateScopeRelativePath, Fallible.guard_eq_ok, Fallible.guard_eq_ok, Fallible.guard_eq_ok,
    Fallible.guard_eq_ok, not_not, not_lt, components]
  by_cases hroot : path = ['/']
  · simp [hroot]
  · rw [if_neg hroot, if_neg hroot, checkComponents_eq_ok]
    simp [splitOn_ne_nil]

theorem validateAt_eq_ok {budget : DescendantPathBudget} {path : Text} :
    budget.validateAt path = .ok () ↔ Valid path ∧ Within budget path := by
  rw [DescendantPathBudget.validateAt, Fallible.bind_eq_ok, Within, components]
  simp only [Fallible.guard_eq_ok, Valid]
  split_ifs <;> simp [Unique.exists_iff]

section Paths

variable {path : Text} {name : Text} {budget child : DescendantPathBudget}

theorem appendAbsolute_eq (path name : Text) :
    appendAbsolute path name = (if path = ['/'] then [] else path) ++ '/' :: name := by
  unfold appendAbsolute
  split <;> rfl

theorem appendAbsolute_ne (hname : IsName name) : appendAbsolute path name ≠ ['/'] := by
  rw [appendAbsolute_eq]
  simp [append_eq_singleton_iff, hname.1]

/-- The budget of a directory entry is spent on its name and on what is below it. -/
theorem within_includeChild (hpath : Valid path) (hname : IsName name) :
    Within (budget.includeChild name child) path ↔ Within budget path ∧ Within child (appendAbsolute path name) := by
  have hlen : utf8Len (appendAbsolute path name) =
      (if path = ['/'] then 0 else utf8Len path) + (1 + utf8Len name) := by
    rw [appendAbsolute_eq]
    split_ifs <;> simp [utf8Len, Char.utf8Size]
  simp only [Within, if_neg (appendAbsolute_ne hname), hlen, components_appendAbsolute hpath hname,
    DescendantPathBudget.includeChild, length_append, length_singleton]
  omega

/-- **One name further a path stays valid if the name is good and nothing gets too long.** -/
theorem valid_appendAbsolute (hpath : Valid path) (hname : IsName name) :
    Valid (appendAbsolute path name) ↔
      (GoodComponent name ∧ Char.ofNat 0 ∉ name) ∧ Within {} (appendAbsolute path name) := by
  obtain ⟨hhead, -, -, hnul, -, hgood⟩ := valid_iff.mp hpath
  have hcomps := components_appendAbsolute hpath hname
  have hfirst : (appendAbsolute path name).head? = some '/' := by
    unfold appendAbsolute
    split_ifs
    · rfl
    · rw [List.head?_append, hhead]
      rfl
  have hlast : (appendAbsolute path name).getLast? ≠ some '/' := by
    rw [appendAbsolute_eq, List.getLast?_append_of_ne_nil _ (cons_ne_nil _ _),
      List.getLast?_cons_of_ne_nil hname.1]
    exact fun h => hname.2 (mem_of_getLast? h)
  have hmem : Char.ofNat 0 ∈ appendAbsolute path name ↔ Char.ofNat 0 ∈ name := by
    rw [appendAbsolute_eq]
    split_ifs <;> simp [hnul]
  rw [valid_iff, hcomps, hmem, Within, if_neg (appendAbsolute_ne hname), hcomps, forall_mem_append,
    forall_mem_singleton]
  tauto

end Paths

section Builds

variable {File Page PageId : Type} {codec : Codec File Page PageId}

theorem within_of_listing {path : Text} : ∀ (tree : Tree File) {listing after : Listing File PageId},
    tree.listing codec listing = some after → Within after.pathBudget path → Within listing.pathBudget path
  | .nil, _, _, h, hafter => by
    obtain rfl := Option.some.inj h
    exact hafter
  | .file _ _ rest, _, _, h, hafter => by
    have hrest := within_of_listing rest h hafter
    simp only [Within, Listing.push, DescendantPathBudget.includeChild] at hrest ⊢
    omega
  | .directory _ _ rest, _, _, h, hafter => by
    obtain ⟨_, -, h⟩ := Tree.listing_directory_eq_some.mp h
    have hrest := within_of_listing rest h hafter
    simp only [Within, Listing.push, DescendantPathBudget.includeChild] at hrest ⊢
    omega

/-- What a page is made of has the names of its entries. -/
theorem Tree.built_eq_some {tree : Tree File} {directory : BuiltDirectory File Page PageId} :
    tree.built codec = some directory ↔ ∃ listing page, tree.listing codec {} = some listing ∧
      codec.build listing.codecEntries = .ok page ∧ directory = ⟨page, listing.codecEntries, listing.pathBudget⟩ := by
  rw [Tree.built, Option.bind_eq_some_iff]
  simp only [Listing.built_eq_some, exists_and_left]

variable (hnames : codec.PlainNames)

include hnames

/-- **Put at another path, a tree that passed somewhere has valid paths if its budget is kept there.** -/
theorem paths_valid_iff : ∀ (tree : Tree File) {home path : Text} {listing after : Listing File PageId},
    tree.listing codec listing = some after → (∀ entry ∈ after.codecEntries, IsName entry.1) → Passes tree home →
    Valid path → (Within listing.pathBudget path ∧ (∀ p ∈ tree.paths path, Valid p) ↔ Within after.pathBudget path)
  | .nil, _, _, _, _, h, _, _, _ => by
    obtain rfl := Option.some.inj h
    simp [Tree.paths]
  | .file name content rest, home, path, listing, after, h, hafter, hhome, hpath => by
    have hname : IsName name := hafter _ (rest.subset_of_listing h (mem_concat_self ..))
    simp only [Passes, Tree.paths, forall_mem_cons] at hhome
    obtain ⟨hhome, hvalid, hrest⟩ := hhome
    have hgood := ((valid_appendAbsolute hhome hname).mp hvalid).1
    rw [← paths_valid_iff rest h hafter (forall_mem_cons.mpr ⟨hhome, hrest⟩) hpath, Listing.push,
      within_includeChild hpath hname, Tree.paths, forall_mem_cons, valid_appendAbsolute hpath hname]
    tauto
  | .directory name child rest, home, path, listing, after, h, hafter, hhome, hpath => by
    obtain ⟨directory, hdirectory, h⟩ := Tree.listing_directory_eq_some.mp h
    obtain ⟨below, page, hbelow, hpage, rfl⟩ := Tree.built_eq_some.mp hdirectory
    have hname : IsName name := hafter _ (rest.subset_of_listing h (mem_concat_self ..))
    simp only [Passes, Tree.paths, forall_mem_cons, forall_mem_append] at hhome
    obtain ⟨hhome, hvalid, hchild, hrest⟩ := hhome
    have hgood := ((valid_appendAbsolute hhome hname).mp hvalid).1
    have hthere := valid_appendAbsolute hpath hname
    have hunder : Valid (appendAbsolute path name) → _ :=
      paths_valid_iff child hbelow (hnames _ _ hpage) (forall_mem_cons.mpr ⟨hvalid, hchild⟩)
    have hleast : Within below.pathBudget (appendAbsolute path name) → _ := within_of_listing child hbelow
    rw [← paths_valid_iff rest h hafter (forall_mem_cons.mpr ⟨hhome, hrest⟩) hpath, Listing.push,
      within_includeChild hpath hname, Tree.paths, forall_mem_cons, forall_mem_append]
    tauto

theorem passes_iff {tree : Tree File} {directory : BuiltDirectory File Page PageId} {home path : Text}
    (hdirectory : tree.built codec = some directory) (hhome : Passes tree home) :
    Passes tree path ↔ directory.pathBudget.validateAt path = .ok () := by
  obtain ⟨listing, page, hlisting, hpage, rfl⟩ := Tree.built_eq_some.mp hdirectory
  rw [validateAt_eq_ok, Passes, forall_mem_cons]
  refine and_congr_right fun hpath => ?_
  rw [← paths_valid_iff hnames tree hlisting (hnames _ _ hpage) hhome hpath]
  have hwithin : Within {} path := by
    obtain ⟨-, hbytes, -, -, hcomps, -⟩ := valid_iff.mp hpath
    exact ⟨by split_ifs <;> simp [hbytes], hcomps⟩
  tauto

/-! ### Builds with and without a cache -/

variable {cache : Lookups File Page PageId}
  (hcache : ∀ path tree hit, cache path tree = some hit → tree.built codec = some hit ∧ ∃ home, Passes tree home)

include hcache

/-- Found in the cache or not, the directory of a tree can be had where the tree passes. -/
theorem buildAround_eq_ok {tree : Tree File} {relPath : Text} {entries : Except SnapshotError (Listing File PageId)}
    (hentries : Valid relPath → ∀ listing,
      entries = .ok listing ↔ (∀ p ∈ tree.paths relPath, Valid p) ∧ tree.listing codec {} = some listing)
    (directory : BuiltDirectory File Page PageId) : buildAround codec cache entries tree relPath = .ok directory ↔
      Passes tree relPath ∧ tree.built codec = some directory := by
  rw [buildAround, Fallible.bind_eq_ok, Unique.exists_iff, Passes, forall_mem_cons, and_assoc]
  refine and_congr_right fun (hpath : Valid relPath) => ?_
  split
  · next hit hhit =>
    obtain ⟨hdirectory, home, hhome⟩ := hcache _ _ _ hhit
    rw [Fallible.bind_eq_ok, Unique.exists_iff]
    refine and_congr ?_ (by simp [hdirectory, pure, Except.pure])
    exact (passes_iff hnames hdirectory hhome).symm.trans (forall_mem_cons.trans (and_iff_right hpath))
  · rw [Fallible.bind_eq_ok, Tree.built, Option.bind_eq_some_iff]
    simp only [hentries hpath, and_assoc, exists_and_left]
    refine and_congr_right fun _ => exists_congr fun listing => and_congr_right fun _ => ?_
    rw [Listing.built]
    split <;> simp_all [Except.toOption, pure, Except.pure]

theorem buildEntries_eq_ok : ∀ (tree : Tree File) {relPath : Text} (listing after : Listing File PageId),
    Valid relPath → (buildEntries codec cache tree relPath listing = .ok after ↔
      (∀ p ∈ tree.paths relPath, Valid p) ∧ tree.listing codec listing = some after)
  | .nil, _, _, _, _ => by simp [buildEntries, Tree.paths, Tree.listing, pure, Except.pure]
  | .file name content rest, relPath, listing, after, hpath => by
    rw [buildEntries, Fallible.bind_eq_ok, Unique.exists_iff, buildEntries_eq_ok rest _ _ hpath, Tree.paths,
      forall_mem_cons, and_assoc]
    rfl
  | .directory name child rest, relPath, listing, after, hpath => by
    rw [buildEntries, Fallible.bind_eq_ok, Unique.exists_iff, Tree.paths, forall_mem_cons, forall_mem_append,
      and_assoc, and_assoc, Tree.listing_directory_eq_some]
    refine and_congr_right fun (hvalid : Valid (appendAbsolute relPath name)) => ?_
    simp only [Fallible.bind_eq_ok, buildEntries_eq_ok rest _ _ hpath,
      buildAround_eq_ok hnames hcache fun _ below => buildEntries_eq_ok child {} below hvalid, Passes, forall_mem_cons]
    constructor
    · intro h
      obtain ⟨directory, ⟨⟨-, hchild⟩, hdirectory⟩, hrest, hlisting⟩ := h
      exact ⟨hchild, hrest, directory, hdirectory, hlisting⟩
    · intro h
      obtain ⟨hchild, hrest, directory, hdirectory, hlisting⟩ := h
      exact ⟨directory, ⟨⟨hvalid, hchild⟩, hdirectory⟩, hrest, hlisting⟩

theorem buildSubtreeInner_eq_ok (tree : Tree File) (relPath : Text) (directory : BuiltDirectory File Page PageId) :
    buildSubtreeInner codec cache tree relPath = .ok directory ↔
      Passes tree relPath ∧ tree.built codec = some directory :=
  buildAround_eq_ok hnames hcache (fun hpath after => buildEntries_eq_ok hnames hcache tree {} after hpath) directory

end Builds

section Previous

variable {File Page PageId : Type} {codec : Codec File Page PageId} {tree : Tree File}
  {directory : BuiltDirectory File Page PageId}

/-- What was built before is the directory of its tree, which passed somewhere. -/
theorem Previous.directory_eq (hnames : codec.PlainNames) (h : Previous codec tree directory) :
    tree.built codec = some directory ∧ ∃ home, Passes tree home := by
  induction h with
  | built _ h hcache =>
    obtain ⟨hpasses, hdirectory⟩ := (buildSubtreeInner_eq_ok hnames hcache _ _ _).mp h
    exact ⟨hdirectory, _, hpasses⟩

/-- **A directory built before may be served at a path if and only if it could be built there**, for a codec that
refuses names with a slash. Its budget allows a path exactly if every path that a build there would check is valid,
which is when a build without the cache returns the same directory. -/
theorem cached_directory_honours_limits (hnames : codec.PlainNames) (h : Previous codec tree directory)
    (path : Text) :
    (directory.pathBudget.validateAt path = .ok () ↔
        ∀ p ∈ path :: tree.paths path, validateScopeRelativePath p = .ok ()) ∧
      (directory.pathBudget.validateAt path = .ok () ↔
        buildSubtreeInner codec (fun _ _ => none) tree path = .ok directory) := by
  obtain ⟨hdirectory, home, hhome⟩ := h.directory_eq hnames
  have hpasses : _ ↔ Passes tree path := (passes_iff hnames hdirectory hhome).symm
  refine ⟨hpasses, hpasses.trans ?_⟩
  rw [buildSubtreeInner_eq_ok hnames (by simp)]
  exact (and_iff_left hdirectory).symm

end Previous

/-- Pages are the lists of their entries, and their ids the numbers of these. -/
def listCodec : Codec ℕ (List (Entry ℕ ℕ)) ℕ where
  build entries := if ∀ entry ∈ entries, entry.1 ≠ [] ∧ '/' ∉ entry.1 then .ok entries else .error "name".toList
  pageId := List.length

/-- `src/lib/a` and `src/b`. -/
def nested : Tree ℕ :=
  .directory "src".toList
    (.file "b".toList 7 (.directory "lib".toList (.file "a".toList 5 .nil) .nil)) .nil

def builtNested : BuiltDirectory ℕ (List (Entry ℕ ℕ)) ℕ :=
  ⟨[("src".toList, .inr 2)], [("src".toList, .inr 2)], ⟨10, 3⟩⟩

theorem cached_directory_honours_limits_nested :
    (builtNested.pathBudget.validateAt "/x".toList = .ok () ↔
        ∀ p ∈ "/x".toList :: nested.paths "/x".toList, validateScopeRelativePath p = .ok ()) ∧
      (builtNested.pathBudget.validateAt "/x".toList = .ok () ↔
        buildSubtreeInner listCodec (fun _ _ => none) nested "/x".toList = .ok builtNested) := by
  have hbuilt : buildSubtreeInner listCodec (fun _ _ => none) nested "/".toList = .ok builtNested := rfl
  refine cached_directory_honours_limits (fun entries page h => ?_) (.built (by simp) hbuilt) _
  by_contra hnot
  cases (if_neg hnot).symm.trans h

end Snapshot
end Mega
