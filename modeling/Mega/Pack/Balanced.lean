/-
# When a monorepo pack is well formed

A pack has to hold as many objects as its header says, and none twice. The
count and the send of `incremental_pack` and `shallow_pack` agree except on root
trees: the count adds one for each distinct root tree, the send skips a root
tree that has been met as a subdirectory. So these packs are well formed exactly
if no root tree of a sent commit occurs as a subdirectory, of a sent commit's
tree or of a tree the client has. `filtered_pack` sends the root tree of each
commit whether or not it has been sent, and counts it so: it is well formed
exactly if the root trees of the sent commits differ and none of them is sent as
a subdirectory.

Key definitions: `PackStream.WellFormed`, `RootsApart`, `TreesApart`.
Key theorems: `packCommits_wellFormed`, `filterCommits_wellFormed`, `pack_wellFormed_iff`.
-/
import Mega.Pack.MonorepoSpec

namespace Mega
namespace Pack

open List View Explore ObjectStore

variable {Oid : Type} [DecidableEq Oid] {store : ObjectStore Oid}

/-- As many entries as the header says, and no object twice. -/
def PackStream.WellFormed (pack : PackStream Oid) : Prop :=
  pack.entries.length = pack.objNum ∧ (pack.entries.map Entry.id).Nodup

instance (pack : PackStream Oid) : Decidable pack.WellFormed := by
  unfold PackStream.WellFormed
  infer_instance

/-- No root tree of a sent commit is below the root tree of a sent or a held commit. -/
def RootsApart (store : ObjectStore Oid) (sent : Oid → Prop) (have_ : List Oid) : Prop :=
  ∀ c commit, sent c → store.commit? c = some commit →
    ∀ d other, sent d ∨ d ∈ have_ → store.commit? d = some other → ¬ store.Below other.tree commit.tree

/-- The root trees of the sent commits differ, and none is sent as a subdirectory of another one: below
the root tree of a sent commit and not below that of a held commit. -/
def TreesApart (store : ObjectStore Oid) (sent : Oid → Prop) (have_ : List Oid) : Prop :=
  (∀ c d commit other, sent c → sent d → store.commit? c = some commit → store.commit? d = some other →
    commit.tree = other.tree → c = d) ∧
  ∀ c commit, sent c → store.commit? c = some commit →
    (∃ d other, sent d ∧ store.commit? d = some other ∧ store.Below other.tree commit.tree) →
    HeldItem store have_ commit.tree

/-- The size of a union that leaves out `E` is the sum of the sizes only if nothing is met twice. -/
theorem card_union_sdiff_eq_iff {α : Type*} [DecidableEq α] (C R E : Finset α) :
    (C ∪ (R \ E)).card = C.card + R.card ↔ ∀ r ∈ R, r ∉ E ∧ r ∉ C := by
  have hunion := Finset.card_union_add_card_inter C (R \ E)
  have hsplit := Finset.card_sdiff_add_card_inter R E
  constructor
  · intro h r hr
    have hinter : R ∩ E = ∅ := Finset.card_eq_zero.mp (by omega)
    have hinter' : C ∩ (R \ E) = ∅ := Finset.card_eq_zero.mp (by omega)
    have hE : r ∉ E := fun hE => by
      have hmem : r ∈ R ∩ E := Finset.mem_inter.mpr ⟨hr, hE⟩
      simp [hinter] at hmem
    refine ⟨hE, fun hC => ?_⟩
    have hmem : r ∈ C ∩ (R \ E) := Finset.mem_inter.mpr ⟨hC, Finset.mem_sdiff.mpr ⟨hr, hE⟩⟩
    simp [hinter'] at hmem
  · intro h
    have hinter : R ∩ E = ∅ := by
      apply Finset.eq_empty_of_forall_notMem
      intro r hr
      obtain ⟨hr, hE⟩ := Finset.mem_inter.mp hr
      exact (h r hr).1 hE
    have hinter' : C ∩ (R \ E) = ∅ := by
      apply Finset.eq_empty_of_forall_notMem
      intro r hr
      obtain ⟨hC, hr⟩ := Finset.mem_inter.mp hr
      exact (h r (Finset.mem_sdiff.mp hr).1).2 hC
    rw [hinter, Finset.card_empty] at hsplit
    rw [hinter', Finset.card_empty] at hunion
    omega

/-- **A pack with blobs is well formed exactly if the root trees are apart.** -/
theorem packCommits_wellFormed (hstore : store.Closed) {commits : List (Oid × Commit Oid)}
    (hrows : Rows store commits) {have_ existObjs : List Oid}
    (hexist : ∀ x, x ∈ existObjs ↔ HeldItem store have_ x) :
    ∃ pack, packCommits store commits existObjs = .ok pack ∧
      (pack.WellFormed ↔ RootsApart store (· ∈ commits.map Prod.fst) have_) := by
  obtain ⟨pack, counted, sent, hpack, hnum, hperm, ⟨hcounted, hmemCounted⟩, hsent, hmemSent⟩ :=
    packCommits_spec hstore hrows (itemClosed_of_held hexist)
  refine ⟨pack, hpack, ?_⟩
  set roots := fresh (fun _ => false) (commits.map fun c => c.2.tree) [] with hroots
  have hmemRoots : ∀ r, r ∈ roots ↔ ∃ c ∈ commits, c.2.tree = r := by
    intro r
    rw [hroots, mem_fresh]
    simp
  have hnodup : (pack.entries.map Entry.id).Nodup := by
    rw [hperm.nodup_iff]
    refine nodup_append.mpr ⟨hrows.1, hsent, fun x hx y hy heq => ?_⟩
    exact fromRoots_notMem hstore hrows ((hmemSent y).mp hy).1 (heq ▸ hx)
  have hlength : pack.entries.length = commits.length + sent.length := by
    have hlen := hperm.length_eq
    simpa using hlen
  have hunion : sent.toFinset = counted.toFinset ∪ (roots.toFinset \ existObjs.toFinset) := by
    ext x
    simp only [mem_toFinset, Finset.mem_union, Finset.mem_sdiff, hmemSent, hmemCounted, hmemRoots,
      FromRoots, InTrees]
    constructor
    · intro h
      obtain ⟨⟨c, hc, rfl | hbelow⟩, hx⟩ := h
      · exact .inr ⟨⟨c, hc, rfl⟩, hx⟩
      · exact .inl ⟨⟨c, hc, hbelow⟩, hx⟩
    · intro h
      obtain ⟨⟨c, hc, hbelow⟩, hx⟩ | ⟨⟨c, hc, rfl⟩, hx⟩ := h
      · exact ⟨⟨c, hc, .inr hbelow⟩, hx⟩
      · exact ⟨⟨c, hc, .inl rfl⟩, hx⟩
  have hcard := card_union_sdiff_eq_iff counted.toFinset roots.toFinset existObjs.toFinset
  rw [← hunion, toFinset_card_of_nodup hsent, toFinset_card_of_nodup hcounted,
    toFinset_card_of_nodup (nodup_fresh _ _ _)] at hcard
  calc pack.WellFormed ↔ sent.length = counted.length + roots.length := by
        rw [PackStream.WellFormed, hlength, hnum]
        constructor
        · intro h
          omega
        · intro h
          exact ⟨by omega, hnodup⟩
    _ ↔ ∀ r ∈ roots.toFinset, r ∉ existObjs.toFinset ∧ r ∉ counted.toFinset := hcard
    _ ↔ RootsApart store (· ∈ commits.map Prod.fst) have_ := by
        simp only [mem_toFinset, hmemRoots, hmemCounted, hexist _, InTrees]
        constructor
        · intro h c commit hc hcommit d other hd hother hbelow
          obtain ⟨hheld, hmet⟩ := h commit.tree ⟨(c, commit), hrows.mem hc hcommit, rfl⟩
          obtain hd | hd := hd
          · exact hmet ⟨⟨(d, other), hrows.mem hd hother, hbelow⟩, hheld⟩
          · exact hheld ⟨d, hd, other, hother, hbelow⟩
        · intro h r hr
          obtain ⟨c, hc, rfl⟩ := hr
          have hroot := h c.1 c.2 (mem_map_of_mem hc) (hrows.2 c hc)
          refine ⟨fun hheld => ?_, fun hmet => ?_⟩
          · obtain ⟨d, hd, other, hother, hbelow⟩ := hheld
            exact hroot d other (.inr hd) hother hbelow
          · obtain ⟨⟨d, hd, hbelow⟩, -⟩ := hmet
            exact hroot d.1 d.2 (.inl (mem_map_of_mem hd)) (hrows.2 d hd) hbelow

/-- **A pack without blobs holds what its header says; it is well formed exactly if its trees are apart.** -/
theorem filterCommits_wellFormed (hstore : store.Closed) {commits : List (Oid × Commit Oid)}
    (hrows : Rows store commits) {have_ existObjs : List Oid}
    (hexist : ∀ x, x ∈ existObjs ↔ HeldItem store have_ x) :
    ∃ n entries, countCommitTrees store existObjs commits [] = .ok n ∧
      sendCommitTrees store commits existObjs = .ok entries ∧ entries.length = commits.length + n ∧
      ((entries.map Entry.id).Nodup ↔ TreesApart store (· ∈ commits.map Prod.fst) have_) := by
  obtain ⟨counted, hcount, hcounted, hmemCounted⟩ := countCommitTrees_spec hstore (itemClosed_of_held hexist) commits []
    hrows.2 (by simp)
  obtain ⟨entries, sent, hsend, hperm, hsent, hmemSent⟩ := sendCommitTrees_spec hstore commits existObjs
    (itemClosed_of_held hexist) hrows.2
  refine ⟨_, entries, hcount, hsend, ?_, ?_⟩
  · -- the trees counted and the trees sent are the same ones
    have hsame : counted.Perm sent := by
      rw [perm_ext_iff_of_nodup hcounted hsent]
      intro x
      rw [hmemCounted, hmemSent]
      simp
    have hlen := hperm.length_eq
    have hlen' := hsame.length_eq
    simp only [length_map, length_append] at hlen
    omega
  · have hroot : ∀ x ∈ commits.map (fun c => c.2.tree), FromRoots store commits x := by
      intro x hx
      obtain ⟨c, hc, rfl⟩ := mem_map.mp hx
      exact ⟨c, hc, .inl rfl⟩
    have hbelow : ∀ x ∈ sent, FromRoots store commits x := by
      intro x hx
      obtain ⟨⟨⟨c, hc, hx⟩, -⟩, -⟩ := (hmemSent x).mp hx
      exact ⟨c, hc, .inr hx⟩
    rw [hperm.nodup_iff, nodup_append, nodup_append]
    constructor
    · intro h
      obtain ⟨-, ⟨hroots, -, hapart⟩, -⟩ := h
      refine ⟨?_, ?_⟩
      · intro c d commit other hc hd hcommit hother heq
        have hrow := inj_on_of_nodup_map hroots (hrows.mem hc hcommit) (hrows.mem hd hother) heq
        exact congrArg Prod.fst hrow
      · intro c commit hc hcommit hmet
        obtain ⟨d, other, hd, hother, hmet⟩ := hmet
        rw [← hexist]
        by_contra hheld
        refine hapart commit.tree (mem_map.mpr ⟨_, hrows.mem hc hcommit, rfl⟩) commit.tree ?_ rfl
        exact (hmemSent _).mpr ⟨⟨⟨_, hrows.mem hd hother, hmet⟩, hheld⟩, hstore.roots hcommit⟩
    · intro h
      refine ⟨hrows.1, ⟨?_, hsent, fun x hx y hy heq => ?_⟩, fun x hx y hy heq => ?_⟩
      · apply List.Nodup.map_on _ (List.Nodup.of_map _ hrows.1)
        intro c hc d hd heq
        have hid := h.1 c.1 d.1 c.2 d.2 (mem_map_of_mem hc) (mem_map_of_mem hd) (hrows.2 c hc)
          (hrows.2 d hd) heq
        exact inj_on_of_nodup_map hrows.1 hc hd hid
      · obtain ⟨c, hc, rfl⟩ := mem_map.mp hx
        obtain ⟨⟨⟨d, hd, hmet⟩, hheld⟩, -⟩ := (hmemSent y).mp hy
        rw [← heq, hexist] at hheld
        refine hheld (h.2 c.1 c.2 (mem_map_of_mem hc) (hrows.2 c hc) ?_)
        exact ⟨d.1, d.2, mem_map_of_mem hd, hrows.2 d hd, heq ▸ hmet⟩
      · obtain hy | hy := mem_append.mp hy
        · exact fromRoots_notMem hstore hrows (hroot y hy) (heq ▸ hx)
        · exact fromRoots_notMem hstore hrows (hbelow y hy) (heq ▸ hx)

/-! ### The packs -/

/-- **When the packs are well formed.** An incremental, full or shallow pack is exactly if no root tree
of a commit it sends occurs as a subdirectory, of a sent commit or of a commit the client has; a pack
without blobs is exactly if the root trees of the commits it sends differ and none of them is sent as a
subdirectory. -/
theorem pack_wellFormed_iff (store : ObjectStore Oid) (hstore : store.Closed) (want have_ : List Oid)
    (hwant : ∀ w ∈ want, (store.commit? w).isSome = true) (depth : ℕ) :
    (Answers want (incrementalPack store want have_) fun pack =>
      pack.WellFormed ↔ RootsApart store (ToSend store want have_) have_) ∧
    (Answers want (fullPack store want) fun pack =>
      pack.WellFormed ↔ RootsApart store (ToSend store want []) []) ∧
    (∃ pack shallow, shallowPack store want depth = .ok (pack, shallow) ∧
      (pack.WellFormed ↔ RootsApart store (WithinDepth store want depth) [])) ∧
    Answers want (filteredPack store want have_ .blobNone) fun pack =>
      pack.WellFormed ↔ TreesApart store (ToSend store want have_) have_ := by
  have hincremental : ∀ have_, Answers want (incrementalPack store want have_) fun pack =>
      pack.WellFormed ↔ RootsApart store (ToSend store want have_) have_ := by
    intro have_
    apply incrementalPack_answers hstore hwant
    rintro commits existObjs ⟨hrows, hmem, hexist⟩
    obtain ⟨pack, hpack, hiff⟩ := packCommits_wellFormed hstore hrows hexist
    exact ⟨pack, hpack, by simpa only [hmem] using hiff⟩
  refine ⟨hincremental have_, hincremental [], ?_, ?_⟩
  · apply shallowPack_answers hstore hwant depth
    intro commits shallow hrows hmem _ _
    obtain ⟨pack, hpack, hiff⟩ := packCommits_wellFormed hstore hrows heldItem_nil
    exact ⟨pack, hpack, by simpa only [hmem] using hiff⟩
  · apply filteredPack_answers hstore hwant
    rintro commits existObjs ⟨hrows, hmem, hexist⟩
    obtain ⟨n, entries, hcount, hentries, hlength, hiff⟩ := filterCommits_wellFormed hstore hrows hexist
    refine ⟨n, entries, hcount, hentries, ?_⟩
    simp only [hmem] at hiff
    simp only [PackStream.WellFormed, hlength, true_and, hiff]

/-- A commit `5` whose root tree `2` is a subdirectory of the root tree `3` of its parent `4`. -/
def movedRoot : ObjectStore ℕ where
  objects := [(1, .blob), (2, .tree [⟨.blob, 1, ['f']⟩]), (3, .tree [⟨.tree, 2, ['d']⟩]),
    (4, .commit ⟨3, []⟩), (5, .commit ⟨2, [4]⟩)]
  rowOrder := id
  rowOrder_perm := List.Perm.refl

theorem pack_wellFormed_iff_movedRoot :
    (∀ w ∈ [4], (movedRoot.commit? w).isSome = true) ∧
      Answers [4] (fullPack movedRoot [4]) fun pack =>
        pack.WellFormed ↔ RootsApart movedRoot (ToSend movedRoot [4] []) [] := by
  have hwant : ∀ w ∈ [4], (movedRoot.commit? w).isSome = true := by decide
  have hclosed : movedRoot.Closed := closed_of_checkObject (by decide)
  exact ⟨hwant, (pack_wellFormed_iff movedRoot hclosed [4] [] hwant 1).2.1⟩

/-- The header of the full pack of `5` promises six objects, but five are sent; without blobs, the tree
`2` is sent twice. -/
theorem pack_not_wellFormed_movedRoot :
    movedRoot.Closed ∧
    (∃ pack, fullPack movedRoot [5] = .ok pack ∧ ¬ pack.WellFormed) ∧
    (∃ pack, incrementalPack movedRoot [5] [] = .ok pack ∧ ¬ pack.WellFormed) ∧
    (∃ pack, shallowPack movedRoot [5] 2 = .ok (pack, []) ∧ ¬ pack.WellFormed) ∧
    ∃ pack, filteredPack movedRoot [5] [] .blobNone = .ok pack ∧ ¬ pack.WellFormed := by
  refine ⟨closed_of_checkObject (by decide), ?_, ?_, ?_, ?_⟩
  · exact ⟨⟨6, [.blob 1, .tree 2, .commit 5, .tree 3, .commit 4]⟩, rfl, by decide⟩
  · exact ⟨⟨6, [.blob 1, .tree 2, .commit 5, .tree 3, .commit 4]⟩, rfl, by decide⟩
  · exact ⟨⟨6, [.blob 1, .tree 2, .commit 5, .tree 3, .commit 4]⟩, rfl, by decide⟩
  · exact ⟨⟨5, [.tree 2, .commit 5, .tree 2, .tree 3, .commit 4]⟩, rfl, by decide⟩

end Pack
end Mega
