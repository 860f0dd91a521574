/-
# What a client holds after a monorepo pack

A client that holds the closure of its known haves and receives an incremental
or full pack holds the closure of what it wanted, and without blobs the commits
and trees of it. What carries the proof is that the objects held or sent are
closed under references.

A shallow pack sends the whole tree of each commit. The commits at the last
level are listed as shallow if they have parents, so that a client knows which
parents it was not sent; but at depth 0 there is no last level, and the wanted
commits are sent without being listed.

Key definitions: `Sent`, `Held`, `ShallowComplete`.
Key theorems: `closed_of_refers`, `pack_complete_iff`.
-/
import Mega.Pack.MonorepoSpec

namespace Mega
namespace Pack

open View Explore ObjectStore

variable {Oid : Type} [DecidableEq Oid] {store : ObjectStore Oid}
variable {have_ want : List Oid} {x : Oid}

/-- The object `x` is in the pack. -/
def Sent (pack : PackStream Oid) (x : Oid) : Prop := x ∈ pack.entries.map Entry.id

/-- `x` is in the closure of a have that the server knows. -/
def Held (store : ObjectStore Oid) (have_ : List Oid) (x : Oid) : Prop :=
  ∃ h ∈ have_, (store.commit? h).isSome = true ∧ store.Reaches h x

theorem Held.refers {y : Oid} (h : Held store have_ x) (hxy : store.Refers x y) : Held store have_ y := by
  obtain ⟨c, hc, hknown, hreach⟩ := h
  exact ⟨c, hc, hknown, hreach.tail hxy⟩

theorem HeldItem.held (hstore : store.Closed) (h : HeldItem store have_ x) : Held store have_ x := by
  obtain ⟨c, hc, commit, hcommit, hbelow⟩ := h
  exact ⟨c, hc, by simp [hcommit], .head (.tree hcommit) (hstore.reaches_of_below hbelow)⟩

/-- What a set that is closed under references holds, it holds with its closure. -/
theorem closed_of_refers {K : Oid → Prop} (hK : ∀ x y, K x → store.Refers x y → K y) {y : Oid} (hx : K x)
    (hreach : store.Reaches x y) : K y := by
  induction hreach with
  | refl => exact hx
  | tail _ hstep ih => exact hK _ _ ih hstep

/-- Commits to send refer to commits that are held or sent too. -/
theorem toSend_parent {c p : Oid} (hstore : store.Closed) (hc : ToSend store want have_ c)
    (hp : p ∈ store.parentsOf c) : Held store have_ p ∨ ToSend store want have_ p := by
  by_cases hhave : p ∈ have_
  · exact .inl ⟨p, hhave, isSome_parent hstore hp, .refl⟩
  · obtain ⟨w, hw, hpath⟩ := hc
    exact .inr ⟨w, hw, hpath.tail ⟨hp, hhave⟩⟩

/-- What is in the trees of the commits refers to what is in them. -/
theorem fromRoots_refers (hstore : store.Closed) {commits : List (Oid × Commit Oid)} (hrows : Rows store commits)
    {y : Oid} (hx : FromRoots store commits x) (hxy : store.Refers x y) : FromRoots store commits y := by
  obtain ⟨items, hobject⟩ | hobject := object_of_fromRoots hstore hrows hx
  · have hitem := Refers.itemOf (tree?_eq_some.mpr hobject) hxy
    obtain ⟨c, hc, rfl | hbelow⟩ := hx
    · exact ⟨c, hc, .inr (.single hitem)⟩
    · exact ⟨c, hc, .inr (hbelow.tail hitem)⟩
  · cases hxy with
    | tree hc => simp [commit?, hobject] at hc
    | parent hc _ => simp [commit?, hobject] at hc
    | item ht _ _ => simp [tree?, hobject] at ht
    | tag ht => simp [tag?, hobject] at ht

/-- The closure of what was wanted is held, a commit to send, or in the trees of the commits to send and
not held. -/
theorem held_or_toSend (hstore : store.Closed) {commits : List (Oid × Commit Oid)} (hrows : Rows store commits)
    (hmem : ∀ c, c ∈ commits.map Prod.fst ↔ ToSend store want have_ c) {w : Oid} (hw : w ∈ want)
    (hreach : store.Reaches w x) :
    Held store have_ x ∨ x ∈ commits.map Prod.fst ∨ (FromRoots store commits x ∧ ¬ HeldItem store have_ x) := by
  have hroots : ∀ y, FromRoots store commits y →
      Held store have_ y ∨ y ∈ commits.map Prod.fst ∨ (FromRoots store commits y ∧ ¬ HeldItem store have_ y) := by
    intro y hy
    by_cases hheld : HeldItem store have_ y
    · exact .inl (hheld.held hstore)
    · exact .inr (.inr ⟨hy, hheld⟩)
  have hstart : w ∈ commits.map Prod.fst := (hmem w).mpr ⟨w, hw, .refl⟩
  refine closed_of_refers (K := fun x => Held store have_ x ∨ x ∈ commits.map Prod.fst ∨
    (FromRoots store commits x ∧ ¬ HeldItem store have_ x)) ?_ (.inr (.inl hstart)) hreach
  intro a b ha hab
  obtain ha | ha | ⟨ha, -⟩ := ha
  · exact .inl (ha.refers hab)
  · obtain ⟨row, hrow, rfl⟩ := List.mem_map.mp ha
    have hobject := commit?_eq_some.mp (hrows.2 row hrow)
    cases hab with
    | tree hc => exact hroots _ ⟨_, hrows.mem ha hc, .inl rfl⟩
    | parent hc hp =>
      have hparent : b ∈ store.parentsOf row.1 := mem_parentsOf.mpr ⟨_, hc, hp⟩
      exact (toSend_parent hstore ((hmem _).mp ha) hparent).imp_right fun h => .inl ((hmem b).mpr h)
    | item ht _ _ => simp [tree?, hobject] at ht
    | tag ht => simp [tag?, hobject] at ht
  · exact hroots b (fromRoots_refers hstore hrows ha hab)

/-- **An incremental pack completes what the client holds.** -/
theorem incrementalPack_complete (hstore : store.Closed) (hwant : ∀ w ∈ want, (store.commit? w).isSome = true)
    (have_ : List Oid) :
    Answers want (incrementalPack store want have_) fun pack =>
      ∀ w ∈ want, ∀ x, store.Reaches w x → Held store have_ x ∨ Sent pack x := by
  apply incrementalPack_answers hstore hwant
  rintro commits existObjs ⟨hrows, hmem, hexist⟩
  obtain ⟨pack, counted, sent, hpack, -, hperm, -, -, hsent⟩ :=
    packCommits_spec hstore hrows (itemClosed_of_held hexist)
  refine ⟨pack, hpack, fun w hw x hreach => ?_⟩
  unfold Sent
  rw [hperm.mem_iff, List.mem_append, hsent, hexist]
  exact held_or_toSend hstore hrows hmem hw hreach

/-- **A pack without blobs completes the commits and trees the client holds.** -/
theorem filteredPack_complete (hstore : store.Closed) (hwant : ∀ w ∈ want, (store.commit? w).isSome = true)
    (have_ : List Oid) :
    Answers want (filteredPack store want have_ .blobNone) fun pack =>
      ∀ w ∈ want, ∀ x, store.Reaches w x → store.isBlob x = true ∨ Held store have_ x ∨ Sent pack x := by
  apply filteredPack_answers hstore hwant
  rintro commits existObjs ⟨hrows, hmem, hexist⟩
  have hclosed := itemClosed_of_held hexist
  obtain ⟨counted, hcount, -, -⟩ := countCommitTrees_spec hstore hclosed commits [] hrows.2 (by simp)
  obtain ⟨entries, sent, hentries, hperm, -, hsent⟩ := sendCommitTrees_spec hstore commits existObjs hclosed hrows.2
  refine ⟨_, entries, hcount, hentries, fun w hw x hreach => ?_⟩
  unfold Sent
  rw [hperm.mem_iff, List.mem_append, List.mem_append, hsent, hexist]
  obtain hheld | hcommit | ⟨hroots, hheld⟩ := held_or_toSend hstore hrows hmem hw hreach
  · exact .inr (.inl hheld)
  · exact .inr (.inr (.inl hcommit))
  · obtain ⟨items, hobject⟩ | hobject := object_of_fromRoots hstore hrows hroots
    · have htree : (store.tree? x).isSome = true := by simp [tree?, hobject]
      obtain ⟨c, hc, rfl | hbelow⟩ := hroots
      · exact .inr (.inr (.inr (.inl (List.mem_map.mpr ⟨c, hc, rfl⟩))))
      · exact .inr (.inr (.inr (.inr ⟨⟨⟨c, hc, hbelow⟩, hheld⟩, htree⟩)))
    · exact .inl (isBlob_iff.mpr hobject)

/-- The whole tree of each sent commit is sent, and its parents are unless it is listed as shallow. -/
def ShallowComplete (store : ObjectStore Oid) (pack : PackStream Oid) (shallow : List Oid) : Prop :=
  ∀ c commit, Sent pack c → store.commit? c = some commit →
    (∀ x, store.Reaches commit.tree x → Sent pack x) ∧
    ((∀ p ∈ commit.parents, Sent pack p) ∨ c ∈ shallow)

/-- **A shallow pack is complete, except that at depth 0 the parents of wanted commits are neither sent
nor listed.** -/
theorem shallowPack_complete (hstore : store.Closed) (hwant : ∀ w ∈ want, (store.commit? w).isSome = true)
    (depth : ℕ) :
    ∃ pack shallow, shallowPack store want depth = .ok (pack, shallow) ∧
      (ShallowComplete store pack shallow ↔
        0 < depth ∨ ∀ w ∈ want, ∀ p ∈ store.parentsOf w, p ∈ want) := by
  apply shallowPack_answers hstore hwant depth
  intro commits shallow hrows hmem hzero hcut
  have hnothing : ItemClosed store [] := by simp [ItemClosed]
  obtain ⟨pack, counted, sent, hpack, -, hperm, -, -, hsent⟩ := packCommits_spec hstore hrows hnothing
  have hSent : ∀ x, Sent pack x ↔ WithinDepth store want depth x ∨ FromRoots store commits x := by
    intro x
    unfold Sent
    rw [hperm.mem_iff, List.mem_append, hmem, hsent]
    simp
  have hcommit : ∀ c, (store.commit? c).isSome = true → (Sent pack c ↔ WithinDepth store want depth c) := by
    intro c hc
    rw [hSent]
    refine ⟨fun h => h.elim id fun h => ?_, .inl⟩
    rw [commit?_eq_none_of_fromRoots hstore hrows h] at hc
    simp at hc
  have hwanted : ∀ x, WithinDepth store want 0 x ↔ x ∈ want := by simp [WithinDepth]
  refine ⟨pack, hpack, ?_⟩
  constructor
  · intro h
    by_cases hdepth : 0 < depth
    · exact .inl hdepth
    · obtain rfl : depth = 0 := by omega
      refine .inr fun w hw p hp => ?_
      obtain ⟨commit, hc⟩ := Option.isSome_iff_exists.mp (hwant w hw)
      have hparents := (h w commit ((hcommit w (hwant w hw)).mpr ((hwanted w).mpr hw)) hc).2
      simp only [hzero rfl, List.not_mem_nil, or_false] at hparents
      rw [← hwanted, ← hcommit p (isSome_parent hstore hp)]
      apply hparents
      simpa [parentsOf, hc] using hp
  · intro h c commit hc hrow
    have hparents : store.parentsOf c = commit.parents := by simp [parentsOf, hrow]
    have hwithin := (hcommit c (by simp [hrow])).mp hc
    refine ⟨fun x hreach => ?_, ?_⟩
    · have hroot : FromRoots store commits commit.tree :=
        ⟨(c, commit), hrows.mem ((hmem c).mpr hwithin) hrow, .inl rfl⟩
      rw [hSent]
      exact .inr (closed_of_refers (fun _ _ => fromRoots_refers hstore hrows) hroot hreach)
    · have hsend : ∀ p ∈ commit.parents, WithinDepth store want depth p → Sent pack p := fun p hp h =>
        (hcommit p (hstore.parents hrow hp)).mpr h
      by_cases hdepth : 0 < depth
      · obtain hlisted | hall := hcut hdepth c hwithin
        · exact .inr hlisted
        · exact .inl fun p hp => hsend p hp (hall p (hparents ▸ hp))
      · have hwant' := h.resolve_left hdepth
        obtain rfl : depth = 0 := by omega
        refine .inl fun p hp => hsend p hp ((hwanted p).mpr ?_)
        exact hwant' c ((hwanted c).mp hwithin) p (hparents ▸ hp)

/-- **What a client holds after a pack.** With an incremental or full pack it holds the closure of what
it wanted, with a pack without blobs the commits and trees of it, whatever it had. A shallow pack is
complete exactly if the depth is positive or the parents of the wanted commits are wanted. -/
theorem pack_complete_iff (store : ObjectStore Oid) (hstore : store.Closed) (want have_ : List Oid)
    (hwant : ∀ w ∈ want, (store.commit? w).isSome = true) (depth : ℕ) :
    (Answers want (incrementalPack store want have_) fun pack =>
      ∀ w ∈ want, ∀ x, store.Reaches w x → Held store have_ x ∨ Sent pack x) ∧
    (Answers want (fullPack store want) fun pack => ∀ w ∈ want, ∀ x, store.Reaches w x → Sent pack x) ∧
    (Answers want (filteredPack store want have_ .blobNone) fun pack =>
      ∀ w ∈ want, ∀ x, store.Reaches w x → store.isBlob x = true ∨ Held store have_ x ∨ Sent pack x) ∧
    ∃ pack shallow, shallowPack store want depth = .ok (pack, shallow) ∧
      (ShallowComplete store pack shallow ↔
        0 < depth ∨ ∀ w ∈ want, ∀ p ∈ store.parentsOf w, p ∈ want) := by
  refine ⟨incrementalPack_complete hstore hwant have_, ?_, filteredPack_complete hstore hwant have_,
    shallowPack_complete hstore hwant depth⟩
  simpa [fullPack, Held] using incrementalPack_complete hstore hwant []

/-- A commit `4` and its parent `3`. -/
def twoCommits : ObjectStore ℕ where
  objects := [(1, .blob), (2, .tree [⟨.blob, 1, ['f']⟩]), (3, .commit ⟨2, []⟩), (4, .commit ⟨2, [3]⟩)]
  rowOrder := id
  rowOrder_perm := List.Perm.refl

theorem pack_complete_iff_twoCommits :
    (∀ w ∈ [4], (twoCommits.commit? w).isSome = true) ∧
      Answers [4] (incrementalPack twoCommits [4] [3]) fun pack =>
        ∀ w ∈ [4], ∀ x, twoCommits.Reaches w x → Held twoCommits [3] x ∨ Sent pack x := by
  have hwant : ∀ w ∈ [4], (twoCommits.commit? w).isSome = true := by decide
  have hclosed : twoCommits.Closed := closed_of_checkObject (by decide)
  exact ⟨hwant, (pack_complete_iff twoCommits hclosed [4] [3] hwant 1).1⟩

/-- At depth 0 the commit `4` is sent, its parent is not, and it is not listed as shallow. -/
theorem shallowPack_not_complete_twoCommits :
    twoCommits.Closed ∧ ∃ pack, shallowPack twoCommits [4] 0 = .ok (pack, []) ∧
      ¬ ShallowComplete twoCommits pack [] := by
  refine ⟨closed_of_checkObject (by decide), ⟨3, [.blob 1, .tree 2, .commit 4]⟩, rfl, fun h => ?_⟩
  obtain ⟨-, hparents | hlisted⟩ := h 4 ⟨2, [3]⟩ (by simp [Sent, Entry.id]) rfl
  · have hsent := hparents 3 (by simp)
    simp [Sent, Entry.id] at hsent
  · simp at hlisted

end Pack
end Mega
