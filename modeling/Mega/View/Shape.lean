/-
# Trees built by filters, and merging them

A filter that moves things below paths builds chains of new trees above what it
moves. `Built d C x` says that the tree `x` consists of such new trees down to
the paths in `C`, at most `d` levels deep: above `C` every entry is a non-empty
subtree, in git order. Below `C` anything goes.

Such a tree is determined by its views on `C` (`Built.ext`). Trees built above
disjoint cones can be merged; the merge never meets two entries it cannot
merge, and it is the one tree built above the union that has the given views
(`semOverlay_union`, `UnionOf.unique`). So the order and the grouping of a merge
do not matter.

Key definitions: `Built`, `UnionOf`, `Mergeable`.
Key theorems: `Built.ext`, `UnionOf.unique`, `semOverlay_union`,
`built_semWrap`, `built_semExcludeInner`.
-/
import Mega.View.Exclusion

namespace Mega
namespace View

open KeySort PathCone

variable {Oid : Type} (kind : HashKind Oid) [Contents kind]
variable {C : Set Path} {d : ℕ} {x r : Oid}

/-- `x` consists of new trees down to the paths in `C`. -/
def Built : ℕ → Set Path → Oid → Prop
  | 0, C, x => [] ∈ C ∨ x = emptyTreeId kind
  | d + 1, C, x => [] ∈ C ∨ (Known kind x ∧
      (content kind x).Pairwise (fun a b => gitTreeSortKey a ≤ gitTreeSortKey b) ∧
      ∀ item ∈ content kind x, item.mode = .tree ∧ item.id ≠ emptyTreeId kind ∧
        Built d (strip [item.name] C) item.id)

variable {kind}

/-! ### Facts about one tree -/

theorem built_of_nil (h : [] ∈ C) (d : ℕ) (x : Oid) : Built kind d C x := by
  cases d <;> exact .inl h

theorem built_univ (x : Oid) : Built kind 0 Set.univ x := built_of_nil (Set.mem_univ _) 0 x

theorem built_empty (d : ℕ) (C : Set Path) :
    Built kind d C (emptyTreeId kind) := by
  cases d with
  | zero => exact .inr rfl
  | succ d =>
    refine .inr ⟨known_treeHash List.nodup_nil, ?_, ?_⟩ <;> simp [content_empty]

theorem Built.mono {D : Set Path} (hCD : C ⊆ D) (h : Built kind d C x) : Built kind d D x := by
  induction d generalizing C D x with
  | zero => exact h.imp (fun hc => hCD hc) id
  | succ d ih =>
    rcases h with h | ⟨hk, hs, hi⟩
    · exact built_of_nil (hCD h) _ x
    · exact .inr ⟨hk, hs, fun item hitem =>
        ⟨(hi item hitem).1, (hi item hitem).2.1, ih (strip_mono hCD _) (hi item hitem).2.2⟩⟩

theorem Built.succ (h : Built kind d C x) : Built kind (d + 1) C x := by
  induction d generalizing C x with
  | zero =>
    rcases h with h | rfl
    · exact built_of_nil h _ x
    · exact built_empty _ C
  | succ d ih =>
    rcases h with h | ⟨hk, hs, hi⟩
    · exact built_of_nil h _ x
    · exact .inr ⟨hk, hs, fun item hitem =>
        ⟨(hi item hitem).1, (hi item hitem).2.1, ih (hi item hitem).2.2⟩⟩

theorem Built.of_le {e : ℕ} (hde : d ≤ e) (h : Built kind d C x) :
    Built kind e C x := by
  induction hde with
  | refl => exact h
  | step _ ih => exact ih.succ

theorem Built.child (hC : UpClosed C) (h : Built kind (d + 1) C x)
    (name : Text) : Built kind d (strip [name] C) (child kind x name) := by
  rcases h with h | ⟨-, -, hi⟩
  · exact built_of_nil (by simpa using hC h [name]) d _
  · by_cases hc : View.child kind x name = emptyTreeId kind
    · rw [hc]; exact built_empty d _
    · exact (hi _ (mem_of_child_ne hc)).2.2

theorem Built.view {C : Set Path} {d : ℕ} {x : Oid} (hC : UpClosed C)
    (h : Built kind d C x) : ∀ path : Path, Built kind d (strip path C) (view kind x path)
  | [] => h
  | name :: path => by
    rw [strip_cons, view_cons]
    exact Built.view (hC.strip _) (h.succ.child hC name) path

/-- A tree built above nothing is empty. -/
theorem Built.eq_empty (h : Built kind d ∅ x) : x = emptyTreeId kind := by
  induction d generalizing x with
  | zero => exact h.resolve_left id
  | succ d ih =>
    obtain ⟨hk, -, hi⟩ := h.resolve_left id
    have hnil : content kind x = [] :=
      List.eq_nil_iff_forall_not_mem.mpr fun item hitem => (hi item hitem).2.1 (ih (hi item hitem).2.2)
    rw [← hk, hnil]
    rfl

/-- Where nothing of `C` lies, the tree is empty. -/
theorem Built.view_eq_empty (hC : UpClosed C) (h : Built kind d C x)
    {path : Path} (hp : ∀ e, path ++ e ∉ C) : View.view kind x path = emptyTreeId kind := by
  have hv := h.view hC path
  rw [show strip path C = ∅ from Set.eq_empty_of_forall_notMem hp] at hv
  exact hv.eq_empty

/-- A tree that is not empty is not empty somewhere in `C`. -/
theorem Built.exists_view_ne (h : Built kind d C x) (hx : x ≠ emptyTreeId kind) :
    ∃ p ∈ C, View.view kind x p ≠ emptyTreeId kind := by
  induction d generalizing C x with
  | zero => exact ⟨[], h.resolve_right hx, hx⟩
  | succ d ih =>
    rcases h with h | ⟨hk, -, hi⟩
    · exact ⟨[], h, hx⟩
    · have hne : content kind x ≠ [] := fun hnil => hx (by rw [← hk, hnil]; rfl)
      obtain ⟨item, hitem⟩ := List.exists_mem_of_ne_nil _ hne
      obtain ⟨hm, hid, hb⟩ := hi item hitem
      obtain ⟨p, hp, hv⟩ := ih hb hid
      refine ⟨item.name :: p, hp, ?_⟩
      rwa [view_cons, child_of_mem hitem hm]

/-- Every entry of one built tree is one of another with the same views. -/
theorem mem_content_of_views {y : Oid} (hC : UpClosed C)
    (hx : ∀ item ∈ content kind x, item.mode = .tree ∧ item.id ≠ emptyTreeId kind ∧
      Built kind d (strip [item.name] C) item.id) (hy : Built kind (d + 1) C y)
    (h : ∀ p ∈ C, View.view kind x p = View.view kind y p)
    (ih : ∀ {C : Set Path} {x y : Oid}, UpClosed C → Built kind d C x → Built kind d C y →
      (∀ p ∈ C, View.view kind x p = View.view kind y p) → x = y) {item : TreeItem Oid}
    (hitem : item ∈ content kind x) : item ∈ content kind y := by
  obtain ⟨hm, hid, hb⟩ := hx item hitem
  have hsub : ∀ p ∈ strip [item.name] C,
      View.view kind item.id p = View.view kind (View.child kind y item.name) p := by
    intro p hp
    rw [← child_of_mem hitem hm]
    exact h (item.name :: p) hp
  have hchild := ih (hC.strip _) hb (hy.child hC item.name) hsub
  have hmem := mem_of_child_ne (hchild ▸ hid)
  have : treeItem item.name (View.child kind y item.name) = item := by
    rw [← hchild]
    cases item; cases hm; rfl
  rwa [this] at hmem

/-- **A built tree is determined by what lies at its cone.** -/
theorem Built.ext (hC : UpClosed C) {y : Oid} (hx : Built kind d C x)
    (hy : Built kind d C y) (h : ∀ p ∈ C, View.view kind x p = View.view kind y p) : x = y := by
  induction d generalizing C x y with
  | zero =>
    rcases hx with hx | rfl
    · exact h [] hx
    · rcases hy with hy | rfl
      · exact h [] hy
      · rfl
  | succ d ih =>
    by_cases hnil : [] ∈ C
    · exact h [] hnil
    obtain ⟨hkx, hsx, hix⟩ := hx.resolve_left hnil
    obtain ⟨hky, hsy, hiy⟩ := hy.resolve_left hnil
    have hperm : (content kind x).Perm (content kind y) := by
      refine (List.perm_ext_iff_of_nodup (content_nodup kind x).of_map (content_nodup kind y).of_map).mpr
        fun item => ⟨fun hi => ?_, fun hi => ?_⟩
      · exact mem_content_of_views hC hix hy h (fun hC hx hy h => ih hC hx hy h) hi
      · exact mem_content_of_views hC hiy hx (fun p hp => (h p hp).symm) (fun hC hx hy h => ih hC hx hy h) hi
    have heq : content kind x = content kind y := by
      refine eq_of_perm_of_sorted hperm hsx hsy fun a ha b hb hab => ?_
      exact eq_of_name_eq (content_nodup kind x) ha hb (name_eq_of_key_eq hab)
    rw [← hkx, ← hky, heq]

theorem built_mkTree {items : List (TreeItem Oid)}
    (hn : (itemNames items).Nodup)
    (h : ∀ item ∈ items, item.mode = .tree ∧ item.id ≠ emptyTreeId kind ∧
      Built kind d (strip [item.name] C) item.id) : Built kind (d + 1) C (mkTree kind items) := by
  refine .inr ⟨known_treeHash (nodup_sortGitTreeItems hn), ?_, fun item hitem => ?_⟩
  · rw [content_mkTree hn]
    exact sortBy_pairwise _ _
  · exact h item ((mem_content_mkTree hn).mp hitem)

theorem semWrap_ne_empty (hx : x ≠ emptyTreeId kind) :
    ∀ path : Path, semWrap kind x path ≠ emptyTreeId kind
  | [] => hx
  | _ :: _ => mkTree_ne_empty (List.nodup_singleton _) (by simp)

/-- A tree moved below a path is built above what moved. -/
theorem built_semWrap (h : Built kind d C x) (hx : x ≠ emptyTreeId kind) :
    ∀ path : Path,
    Built kind (d + path.length) (plant path C) (semWrap kind x path)
  | [] => by
    rw [plant_nil]
    exact h
  | name :: path => by
    refine built_mkTree (List.nodup_singleton _) fun item hitem => ?_
    rw [List.mem_singleton.mp hitem]
    refine ⟨rfl, semWrap_ne_empty hx path, ?_⟩
    have hplant : strip [name] (plant (name :: path) C) = plant path C := by
      rw [show name :: path = [name] ++ path from rfl, plant_append, strip_plant_self]
    change Built kind (d + path.length) (strip [name] (plant (name :: path) C)) _
    rw [hplant]
    exact built_semWrap h hx path

/-! ### Unions -/

/-- A tree together with the cone it is built above. -/
abbrev Piece (Oid : Type) := Set Path × Oid

/-- The cone of all pieces. -/
def unionCone (ps : List (Piece Oid)) : Set Path := {p | ∃ q ∈ ps, p ∈ q.1}

variable (kind)

/-- `r` is built above all pieces and has what each piece has. -/
structure UnionOf (d : ℕ) (ps : List (Piece Oid)) (r : Oid) : Prop where
  built : Built kind d (unionCone ps) r
  view : ∀ q ∈ ps, ∀ p ∈ q.1, View.view kind r p = View.view kind q.2 p

/-- Pieces that can be merged. -/
structure Mergeable (d : ℕ) (ps : List (Piece Oid)) : Prop where
  closed : ∀ q ∈ ps, UpClosed q.1
  built : ∀ q ∈ ps, Built kind d q.1 q.2
  disjoint : ps.Pairwise fun q q' => Disjoint q.1 q'.1

variable {kind} {ps : List (Piece Oid)}

theorem upClosed_unionCone (h : ∀ q ∈ ps, UpClosed q.1) : UpClosed (unionCone ps) := by
  rintro p ⟨q, hq, hp⟩ e
  exact ⟨q, hq, h q hq hp e⟩

theorem UnionOf.unique {e : ℕ} (hc : ∀ q ∈ ps, UpClosed q.1) {r' : Oid}
    (h : UnionOf kind d ps r) (h' : UnionOf kind e ps r') : r = r' := by
  refine (h.built.of_le (le_max_left d e)).ext (upClosed_unionCone hc)
    (h'.built.of_le (le_max_right d e)) ?_
  rintro p ⟨q, hq, hp⟩
  rw [h.view q hq p hp, h'.view q hq p hp]

/-- Only which pieces there are matters. -/
theorem UnionOf.of_mem {ps' : List (Piece Oid)} (hmem : ∀ q, q ∈ ps ↔ q ∈ ps') (h : UnionOf kind d ps r) :
    UnionOf kind d ps' r := by
  have hcone : unionCone ps = unionCone ps' := by
    ext p; simp [unionCone, hmem]
  exact ⟨hcone ▸ h.built, fun q hq => h.view q ((hmem q).mpr hq)⟩

/-- The pieces below a path. -/
def piecesAt (kind : HashKind Oid) [Contents kind] (ps : List (Piece Oid)) (path : Path) : List (Piece Oid) :=
  ps.map fun q => (strip path q.1, View.view kind q.2 path)

theorem Mergeable.piecesAt (h : Mergeable kind d ps) (path : Path) :
    Mergeable kind d (piecesAt kind ps path) where
  closed := by
    intro _ hmem
    obtain ⟨q, hq, rfl⟩ := List.mem_map.mp hmem
    exact (h.closed q hq).strip path
  built := by
    intro _ hmem
    obtain ⟨q, hq, rfl⟩ := List.mem_map.mp hmem
    exact (h.built q hq).view (h.closed q hq) path
  disjoint := by
    rw [View.piecesAt, List.pairwise_map]
    refine h.disjoint.imp fun {q q'} hd => Set.disjoint_left.mpr fun p hp hp' => ?_
    exact Set.disjoint_left.mp hd hp hp'

theorem mem_unionCone_piecesAt {path p : Path} :
    p ∈ unionCone (piecesAt kind ps path) ↔ path ++ p ∈ unionCone ps := by
  simp [unionCone, piecesAt]

/-- **A union looks the same below every path.** -/
theorem UnionOf.piecesAt (hc : ∀ q ∈ ps, UpClosed q.1)
    (h : UnionOf kind d ps r) (path : Path) :
    UnionOf kind d (piecesAt kind ps path) (View.view kind r path) where
  built := by
    have hcone : unionCone (View.piecesAt kind ps path) = strip path (unionCone ps) := by
      ext p; exact mem_unionCone_piecesAt
    rw [hcone]
    exact h.built.view (upClosed_unionCone hc) path
  view := by
    intro _ hmem p hp
    obtain ⟨q, hq, rfl⟩ := List.mem_map.mp hmem
    rw [← view_append, ← view_append]
    exact h.view q hq (path ++ p) hp

/-- Two different pieces do not share a path. -/
theorem Mergeable.disjoint_of_ne (h : Mergeable kind d ps) {q q' : Piece Oid} (hq : q ∈ ps) (hq' : q' ∈ ps)
    (hne : q ≠ q') : Disjoint q.1 q'.1 :=
  haveI : Std.Symm fun q q' : Piece Oid => Disjoint q.1 q'.1 := ⟨fun _ _ h => h.symm⟩
  h.disjoint.forall hq hq' hne

/-- A piece has nothing at the paths of another. -/
theorem Mergeable.view_eq_empty (h : Mergeable kind d ps)
    {q q' : Piece Oid} (hq : q ∈ ps) (hq' : q' ∈ ps) (hne : q ≠ q') {p : Path} (hp : p ∈ q'.1) :
    View.view kind q.2 p = emptyTreeId kind :=
  (h.built q hq).view_eq_empty (h.closed q hq) fun e he =>
    Set.disjoint_left.mp (h.disjoint_of_ne hq hq' hne) he (h.closed q' hq' hp e)

/-! ### Merging computes the union -/

theorem mem_byName {items : List (TreeItem Oid)} {g : Text × List (TreeItem Oid)} :
    g ∈ byName items ↔ g.1 ∈ itemNames items ∧ g.2 = items.filter fun item => item.name == g.1 := by
  simp only [byName, List.mem_map, mem_destutter_ne, mem_sortBy]
  constructor
  · rintro ⟨name, hname, rfl⟩
    exact ⟨hname, rfl⟩
  · rintro ⟨hname, hg⟩
    exact ⟨g.1, hname, by rw [← hg]⟩

theorem nodup_of_sorted_of_isChain : ∀ {l : List Text}, l.Pairwise (· ≤ ·) → l.IsChain (· ≠ ·) → l.Nodup
  | [], _, _ => List.nodup_nil
  | [_], _, _ => List.nodup_singleton _
  | a :: b :: l, hs, hc => by
    obtain ⟨ha, hbl⟩ := List.pairwise_cons.mp hs
    obtain ⟨hab, hc'⟩ := List.isChain_cons_cons.mp hc
    refine List.nodup_cons.mpr ⟨fun hmem => ?_, nodup_of_sorted_of_isChain hbl hc'⟩
    -- `a ≤ b ≤ a` if `a` comes again
    have hba : b ≤ a := by
      rcases List.mem_cons.mp hmem with rfl | h
      · exact le_rfl
      · exact (List.pairwise_cons.mp hbl).1 a h
    exact hab (le_antisymm (ha b (by simp)) hba)

theorem nodup_byName (items : List (TreeItem Oid)) : ((byName items).map Prod.fst).Nodup := by
  have hnames : (byName items).map Prod.fst = (sortBy id (itemNames items)).destutter (· ≠ ·) := by
    simp [byName, Function.comp_def]
  rw [hnames]
  exact nodup_of_sorted_of_isChain
    ((sortBy_pairwise id (itemNames items)).sublist (List.destutter_sublist _ _))
    (List.isChain_destutter _ _)

/-- At most one non-empty piece: that piece is the union. -/
theorem unionOf_of_subsingleton (h : Mergeable kind d ps) {q₀ : Piece Oid}
    (hq₀ : q₀ ∈ ps) (hone : ∀ q ∈ ps, q ≠ q₀ → q.2 = emptyTreeId kind) : UnionOf kind d ps q₀.2 where
  built := Built.mono (fun p (hp : p ∈ q₀.1) => (⟨q₀, hq₀, hp⟩ : p ∈ unionCone ps)) (h.built q₀ hq₀)
  view := by
    intro q hq p hp
    by_cases hne : q = q₀
    · rw [hne]
    · rw [hone q hq hne, view_empty, h.view_eq_empty hq₀ hq (Ne.symm hne) hp]

/-- If a piece may be anything, no other piece is there. -/
theorem Mergeable.eq_of_nil_mem (h : Mergeable kind d ps) {q q' : Piece Oid} (hq : q ∈ ps) (hq' : q' ∈ ps)
    (hnil : [] ∈ q.1) (hne : q'.2 ≠ emptyTreeId kind) : q' = q := by
  by_contra hqq
  have hd := h.disjoint_of_ne hq hq' (Ne.symm hqq)
  rw [(h.closed q hq).eq_univ hnil, Set.univ_disjoint] at hd
  have hb := h.built q' hq'
  rw [hd] at hb
  exact hne hb.eq_empty

/-- With two non-empty pieces, no piece reaches up to the root. -/
theorem Mergeable.nil_notMem (h : Mergeable kind d ps) {a b : Piece Oid} {l : List (Piece Oid)}
    (hsub : (a :: b :: l).Sublist ps) (ha : a.2 ≠ emptyTreeId kind) (hb : b.2 ≠ emptyTreeId kind) :
    ∀ q ∈ ps, [] ∉ q.1 := by
  intro q hq hnil
  have haq := h.eq_of_nil_mem hq (hsub.mem (by simp)) hnil ha
  have hbq := h.eq_of_nil_mem hq (hsub.mem (by simp)) hnil hb
  have hab : Disjoint a.1 b.1 := (List.pairwise_cons.mp (h.disjoint.sublist hsub)).1 b (by simp)
  rw [haq, hbq] at hab
  exact Set.disjoint_left.mp hab hnil hnil

section Merge

variable [DecidableEq Oid]

/-- The ids that `overlay` looks at. -/
def nonEmptyIds (kind : HashKind Oid) (xs : List Oid) : List Oid := xs.filter fun x => x != emptyTreeId kind

omit [Contents kind] in
theorem mem_nonEmptyIds {xs : List Oid} : x ∈ nonEmptyIds kind xs ↔ x ∈ xs ∧ x ≠ emptyTreeId kind := by
  simp [nonEmptyIds]

theorem semOverlay_nonEmptyIds (n : ℕ) (xs : List Oid) :
    semOverlay kind n (nonEmptyIds kind xs) = semOverlay kind n xs := by
  cases n with
  | zero => rfl
  | succ n => simp [semOverlay, nonEmptyIds]

/-- The entries of a built tree at a name, and the subtree there. -/
theorem ids_filter_name (hx : ∀ item ∈ content kind x, item.mode = .tree ∧ item.id ≠ emptyTreeId kind) (name : Text) :
    ((content kind x).filter fun item => item.name == name).map (·.id) =
      nonEmptyIds kind [child kind x name] := by
  by_cases hc : child kind x name = emptyTreeId kind
  · have hnone : (content kind x).filter (fun item => item.name == name) = [] := by
      refine List.filter_eq_nil_iff.mpr fun item hitem hname => ?_
      obtain ⟨hm, hid⟩ := hx item hitem
      have hname' : item.name = name := by simpa using hname
      exact hid (by rw [← child_of_mem hitem hm, hname', hc])
    simp [hnone, nonEmptyIds, hc]
  · have hmem := mem_of_child_ne hc
    have hone := filter_name_of_mem (content_nodup kind x) hmem
    simp only [treeItem] at hone
    rw [hone]
    simp [nonEmptyIds, hc]

omit [Contents kind] in
theorem nonEmptyIds_cons (x : Oid) (xs : List Oid) :
    nonEmptyIds kind (x :: xs) = nonEmptyIds kind [x] ++ nonEmptyIds kind xs := by
  simp only [nonEmptyIds, ← List.filter_append, List.singleton_append]

/-- The candidates of a name are the pieces below it that are not empty. -/
theorem ids_candidates (name : Text) : ∀ ps : List (Piece Oid),
    (∀ q ∈ ps, q.2 ≠ emptyTreeId kind →
      ∀ item ∈ content kind q.2, item.mode = .tree ∧ item.id ≠ emptyTreeId kind) →
    (((nonEmptyIds kind (ps.map Prod.snd)).flatMap (content kind)).filter
        fun item => item.name == name).map (·.id) =
      nonEmptyIds kind ((piecesAt kind ps [name]).map Prod.snd)
  | [], _ => rfl
  | q :: ps, hx => by
    have ih := ids_candidates name ps fun q' hq' => hx q' (by simp [hq'])
    rw [List.map_cons, nonEmptyIds_cons, List.flatMap_append, List.filter_append, List.map_append, ih]
    change _ = nonEmptyIds kind (child kind q.2 name :: (piecesAt kind ps [name]).map Prod.snd)
    rw [nonEmptyIds_cons (child kind q.2 name)]
    congr 1
    by_cases hq : q.2 = emptyTreeId kind
    · simp [nonEmptyIds, hq, child_empty]
    · rw [← ids_filter_name (hx q (by simp) hq)]
      simp [nonEmptyIds, hq]

omit [Contents kind] in
/-- One name whose candidates are all non-empty trees. -/
theorem overlayName_of_trees {o : List Oid → Except (FilterTreeError Oid) Oid} {name : Text}
    {candidates : List (TreeItem Oid)}
    (htree : ∀ item ∈ candidates, item.name = name ∧ item.mode = .tree ∧ item.id ≠ emptyTreeId kind)
    (ho : o (candidates.map (·.id)) = .ok r) (hr : r ≠ emptyTreeId kind)
    (hone : ∀ item, candidates = [item] → r = item.id) :
    overlayName kind o name candidates = .ok (some (treeItem name r)) := by
  unfold overlayName
  split
  · rename_i item
    obtain ⟨hname, hm, hid⟩ := htree item (by simp)
    rw [if_pos (.inr hid), hone item rfl]
    cases item; cases hm; cases hname; rfl
  · have hall : (candidates.all fun item => item.mode == .tree) = true :=
      List.all_eq_true.mpr fun item hitem => by simp [(htree item hitem).2.1]
    rw [if_pos hall, ho]
    simp only [bind, Except.bind, if_neg hr]
    rfl

omit [Contents kind] in
theorem overlayNames_of_ok {o : List Oid → Except (FilterTreeError Oid) Oid} {u : Text → Oid} :
    ∀ {groups : List (Text × List (TreeItem Oid))},
      (∀ g ∈ groups, overlayName kind o g.1 g.2 = .ok (some (treeItem g.1 (u g.1)))) →
      overlayNames kind o groups = .ok (groups.map fun g => treeItem g.1 (u g.1))
  | [], _ => rfl
  | (name, candidates) :: groups, h => by
    have hhead : overlayName kind o name candidates = _ := h (name, candidates) (by simp)
    rw [overlayNames, hhead, overlayNames_of_ok fun g hg => h g (by simp [hg])]
    rfl

/-- The tree `overlay` builds from the unions below each name is the union. -/
theorem unionOf_mkTree {names : List Text} {u : Text → Oid}
    (hnil : ∀ q ∈ ps, [] ∉ q.1) (hnodup : names.Nodup)
    (hu : ∀ name ∈ names, UnionOf kind d (piecesAt kind ps [name]) (u name) ∧ u name ≠ emptyTreeId kind)
    (hnames : ∀ q ∈ ps, ∀ name, child kind q.2 name ≠ emptyTreeId kind → name ∈ names) :
    UnionOf kind (d + 1) ps (mkTree kind (names.map fun name => treeItem name (u name))) := by
  have hn : (itemNames (names.map fun name => treeItem name (u name))).Nodup := by
    simpa [itemNames, treeItem, Function.comp_def] using hnodup
  have hmem : ∀ item, item ∈ content kind (mkTree kind (names.map fun name => treeItem name (u name))) ↔
      ∃ name ∈ names, treeItem name (u name) = item := by
    intro item
    rw [mem_content_mkTree hn, List.mem_map]
  constructor
  · refine built_mkTree hn fun item hitem => ?_
    obtain ⟨name, hname, rfl⟩ := List.mem_map.mp hitem
    refine ⟨rfl, (hu name hname).2, (hu name hname).1.built.mono fun p hp => ?_⟩
    exact mem_unionCone_piecesAt.mp hp
  · intro q hq p hp
    rcases p with _ | ⟨name, p⟩
    · exact absurd hp (hnil q hq)
    rw [view_cons, view_cons]
    by_cases hname : name ∈ names
    · have hchild : child kind (mkTree kind (names.map fun name => treeItem name (u name))) name = u name :=
        child_of_mem ((hmem _).mpr ⟨name, hname, rfl⟩) rfl
      rw [hchild]
      exact (hu name hname).1.view (strip [name] q.1, child kind q.2 name)
        (List.mem_map.mpr ⟨q, hq, rfl⟩) p hp
    · have hq' : child kind q.2 name = emptyTreeId kind := by
        by_contra hc
        exact hname (hnames q hq name hc)
      have hr : child kind (mkTree kind (names.map fun name => treeItem name (u name))) name =
          emptyTreeId kind := by
        by_contra hc
        obtain ⟨name', hname', heq⟩ := (hmem _).mp (mem_of_child_ne hc)
        have hnames' : name' = name := congrArg TreeItem.name heq
        exact hname (hnames' ▸ hname')
      rw [hq', hr]

/-- One level of `overlay`, when the levels below compute unions. -/
theorem semOverlay_union_step {n : ℕ} (h : Mergeable kind (d + 1) ps)
    (hnil : ∀ q ∈ ps, [] ∉ q.1)
    (ih : ∀ {ps : List (Piece Oid)}, Mergeable kind d ps →
      ∃ r, semOverlay kind n (ps.map Prod.snd) = .ok r ∧ UnionOf kind d ps r) :
    ∃ items, overlayNames kind (semOverlay kind n)
        (byName ((nonEmptyIds kind (ps.map Prod.snd)).flatMap (content kind))) = .ok items ∧
      UnionOf kind (d + 1) ps (mkTree kind items) := by
  have hnode : ∀ q ∈ ps, ∀ item ∈ content kind q.2, item.mode = .tree ∧ item.id ≠ emptyTreeId kind ∧
      Built kind d (strip [item.name] q.1) item.id := fun q hq =>
    ((h.built q hq).resolve_left (hnil q hq)).2.2
  have hids := fun name => ids_candidates name ps fun q hq _ item hitem =>
    ⟨(hnode q hq item hitem).1, (hnode q hq item hitem).2.1⟩
  set items := (nonEmptyIds kind (ps.map Prod.snd)).flatMap (content kind) with hitems
  -- every item of every non-empty piece is a candidate
  have hmem : ∀ {item}, item ∈ items ↔ ∃ q ∈ ps, q.2 ≠ emptyTreeId kind ∧ item ∈ content kind q.2 := by
    intro item
    simp only [hitems, List.mem_flatMap, mem_nonEmptyIds, List.mem_map]
    constructor
    · rintro ⟨x, ⟨⟨q, hq, rfl⟩, hne⟩, hitem⟩
      exact ⟨q, hq, hne, hitem⟩
    · rintro ⟨q, hq, hne, hitem⟩
      exact ⟨q.2, ⟨⟨q, hq, rfl⟩, hne⟩, hitem⟩
  -- below each name the pieces have a union
  have hat : ∀ name, ∃ r, semOverlay kind n ((piecesAt kind ps [name]).map Prod.snd) = .ok r ∧
      UnionOf kind d (piecesAt kind ps [name]) r := by
    intro name
    refine ih ⟨(h.piecesAt [name]).closed, fun q' hq' => ?_, (h.piecesAt [name]).disjoint⟩
    obtain ⟨q, hq, rfl⟩ := List.mem_map.mp hq'
    exact (h.built q hq).child (h.closed q hq) name
  choose u hu using hat
  have hne : ∀ name ∈ itemNames items, u name ≠ emptyTreeId kind := by
    intro name hname
    obtain ⟨item, hitem, rfl⟩ := List.mem_map.mp hname
    obtain ⟨q, hq, -, hitem⟩ := hmem.mp hitem
    obtain ⟨hm, hid, hb⟩ := hnode q hq item hitem
    obtain ⟨p, hp, hv⟩ := hb.exists_view_ne hid
    have hview := (hu item.name).2.view (strip [item.name] q.1, child kind q.2 item.name)
      (List.mem_map.mpr ⟨q, hq, rfl⟩) p hp
    rw [child_of_mem hitem hm] at hview
    intro hempty
    rw [hempty, view_empty] at hview
    exact hv hview.symm
  refine ⟨(byName items).map fun g => treeItem g.1 (u g.1), overlayNames_of_ok fun g hg => ?_, ?_⟩
  · obtain ⟨hname, hcand⟩ := mem_byName.mp hg
    have hcands : ∀ item ∈ g.2, item.name = g.1 ∧ item.mode = .tree ∧ item.id ≠ emptyTreeId kind := by
      intro item hitem
      rw [hcand, List.mem_filter] at hitem
      obtain ⟨q, hq, -, hi⟩ := hmem.mp hitem.1
      exact ⟨by simpa using hitem.2, (hnode q hq item hi).1, (hnode q hq item hi).2.1⟩
    have ho : semOverlay kind n (g.2.map (·.id)) = .ok (u g.1) := by
      rw [hcand, hids g.1, semOverlay_nonEmptyIds]
      exact (hu g.1).1
    refine overlayName_of_trees hcands ho (hne g.1 hname) fun item hitem => ?_
    -- a single candidate is its own union
    rw [hitem] at ho
    cases n with
    | zero => cases ho
    | succ n =>
      have hid := (hcands item (by simp [hitem])).2.2
      simpa [semOverlay, hid] using ho.symm
  · have hlist : ((byName items).map fun g => treeItem g.1 (u g.1)) =
        ((byName items).map Prod.fst).map fun name => treeItem name (u name) := by
      simp [Function.comp_def]
    have hnames : ∀ name, name ∈ (byName items).map Prod.fst ↔ name ∈ itemNames items := by
      intro name
      constructor
      · intro hn
        obtain ⟨g, hg, rfl⟩ := List.mem_map.mp hn
        exact (mem_byName.mp hg).1
      · intro hn
        exact List.mem_map.mpr ⟨(name, items.filter fun item => item.name == name),
          mem_byName.mpr ⟨hn, rfl⟩, rfl⟩
    rw [hlist]
    refine unionOf_mkTree hnil (nodup_byName items)
      (fun name hn => ⟨(hu name).2, hne name ((hnames name).mp hn)⟩) fun q hq name hc => ?_
    have hi := mem_of_child_ne hc
    have hq2 : q.2 ≠ emptyTreeId kind := by
      intro hempty
      rw [hempty, content_empty] at hi
      cases hi
    exact (hnames name).mpr (List.mem_map.mpr ⟨_, hmem.mpr ⟨q, hq, hq2, hi⟩, rfl⟩)

/-- The cases of `overlay`: no non-empty tree, one, or several to merge. -/
theorem semOverlay_union_cases {n : ℕ} (h : Mergeable kind d ps)
    (hmany : ∀ a b l, (a :: b :: l).Sublist ps → a.2 ≠ emptyTreeId kind → b.2 ≠ emptyTreeId kind →
      ∃ r, (do
        let items ← overlayNames kind (semOverlay kind n)
          (byName ((nonEmptyIds kind (ps.map Prod.snd)).flatMap (content kind)))
        pure (mkTree kind items) : Except (FilterTreeError Oid) Oid) = .ok r ∧ UnionOf kind d ps r) :
    ∃ r, semOverlay kind (n + 1) (ps.map Prod.snd) = .ok r ∧ UnionOf kind d ps r := by
  have hfilter : (ps.map Prod.snd).filter (fun x => x != emptyTreeId kind) =
      (ps.filter fun q => q.2 != emptyTreeId kind).map Prod.snd := by
    rw [List.filter_map]; rfl
  have hempty : ∀ q ∈ ps, q ∉ ps.filter (fun q => q.2 != emptyTreeId kind) → q.2 = emptyTreeId kind := by
    intro q hq hnot
    by_contra hne
    exact hnot (List.mem_filter.mpr ⟨hq, by simpa using hne⟩)
  have hsub : (ps.filter fun q => q.2 != emptyTreeId kind).Sublist ps := List.filter_sublist
  have hne : ∀ q ∈ ps.filter (fun q => q.2 != emptyTreeId kind), q.2 ≠ emptyTreeId kind := by
    intro q hq
    simpa using (List.mem_filter.mp hq).2
  unfold semOverlay
  rcases hps : ps.filter (fun q => q.2 != emptyTreeId kind) with _ | ⟨a, _ | ⟨b, l⟩⟩
  · rw [hfilter, hps]
    refine ⟨_, rfl, built_empty d _, fun q hq p _ => ?_⟩
    rw [hempty q hq (by simp [hps])]
  · rw [hfilter, hps]
    refine ⟨_, rfl, unionOf_of_subsingleton h (hsub.mem (by simp [hps])) fun q hq hqq => ?_⟩
    exact hempty q hq (by simpa [hps] using hqq)
  · obtain ⟨r, hr, hu⟩ := hmany a b l (hps ▸ hsub) (hne a (by simp [hps])) (hne b (by simp [hps]))
    refine ⟨r, ?_, hu⟩
    rw [nonEmptyIds, hfilter, hps] at hr
    rw [hfilter, hps]
    exact hr

/-- **Merging trees built above disjoint cones.** It succeeds with more fuel
than the depth of the new trees, and gives their union. -/
theorem semOverlay_union (h : Mergeable kind d ps) {n : ℕ} (hn : d < n) :
    ∃ r, semOverlay kind n (ps.map Prod.snd) = .ok r ∧ UnionOf kind d ps r := by
  induction d generalizing ps n with
  | zero =>
    obtain ⟨n, rfl⟩ : ∃ k, n = k + 1 := ⟨n - 1, by omega⟩
    refine semOverlay_union_cases h fun a b l hsub ha hb => ?_
    -- a piece of depth 0 reaches the root or is empty
    have hnil := h.nil_notMem hsub ha hb a (hsub.mem (by simp))
    exact absurd ((h.built a (hsub.mem (by simp))).resolve_left hnil) ha
  | succ d ih =>
    obtain ⟨n, rfl⟩ : ∃ k, n = k + 1 := ⟨n - 1, by omega⟩
    refine semOverlay_union_cases h fun a b l hsub ha hb => ?_
    obtain ⟨items, hitems, hr⟩ := semOverlay_union_step h (h.nil_notMem hsub ha hb)
      fun hps => ih hps (show d < n by omega)
    exact ⟨_, by rw [hitems]; rfl, hr⟩

/-! ### Excluding -/

/-- An exclusion takes away from a built tree and adds nothing. -/
theorem built_semExcludeInner (depth : ℕ) (h : Built kind d C x)
    (sels : List SelectorRef) : Built kind d C (semExcludeInner kind depth x sels).treeId := by
  induction depth generalizing d C x sels with
  | zero => exact h
  | succ depth ih =>
    by_cases hnil : [] ∈ C
    · exact built_of_nil hnil d _
    cases d with
    | zero =>
      rw [h.resolve_left hnil, semExcludeInner_empty]
      exact .inr rfl
    | succ d =>
      rw [semExcludeInner_succ]
      split
      · refine built_mkTree (nodup_leftItems depth x sels) fun it hit => ?_
        obtain ⟨⟨item, hi, hit⟩, hne⟩ := mem_leftItems.mp hit
        obtain ⟨hm, -, hb⟩ := (h.resolve_left hnil).2.2 item hi
        have heq := excludedItem_tree hi hm hit
        subst heq
        refine ⟨rfl, hne rfl, ?_⟩
        change Built kind d (strip [item.name] C) (leftAt kind depth x sels item.name)
        unfold leftAt
        split
        · exact built_empty d _
        · rw [child_of_mem hi hm]
          exact ih hb _
      · exact h

end Merge

end View
end Mega
