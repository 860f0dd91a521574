/-
# What a filter means

The evaluator reads trees through sources, builds trees and asks a memo. This
module says what it computes, without any of that: an id names one list of items
(`content`), and a filter is a map of ids (`sem`). Merging two trees that clash, or that are deeper than the fuel, is
the only thing that can fail; `sem` takes the empty tree there.

`view x p` is the tree at path `p` of the tree `x`, the empty tree where there
is none. It is what `Subdir` selects, and trees are compared by their views.

Key definitions: `content`, `view`, `Reach`, `semOverlay`, `sem`.
Key theorems: `semOverlay_mono`, `semUnion_eq`.
-/
import Mega.View.PrintUnique
import Mega.View.FilterTree

namespace Mega
namespace View

open KeySort

variable {Oid : Type}

/-! ### The content of an id -/

/-- The items that each id names. The hash of a tree names its items, so no two trees have one hash. Other ids may
name items as well: trees are also stored under ids that are the hash of no tree. -/
class Contents (kind : HashKind Oid) where
  content : Oid → List (TreeItem Oid)
  nodup : ∀ x, (itemNames (content x)).Nodup
  content_treeHash : ∀ {items}, (itemNames items).Nodup → content (kind.treeHash items) = items

variable (kind : HashKind Oid) [Contents kind] {items : List (TreeItem Oid)} {x : Oid} {item : TreeItem Oid}

/-- The items of the tree with id `x`. -/
def content (x : Oid) : List (TreeItem Oid) := Contents.content kind x

/-- A source that holds under each id the tree that the id names. -/
def ContentAddressed (source : TreeSource Oid) : Prop := ∀ x tree, source x = .ok tree → tree.items = content kind x

theorem content_nodup (x : Oid) : (itemNames (content kind x)).Nodup := Contents.nodup x

/-- `x` is the id of some tree. -/
def Known (x : Oid) : Prop := kind.treeHash (content kind x) = x

variable {kind}

theorem content_treeHash (h : (itemNames items).Nodup) : content kind (kind.treeHash items) = items :=
  Contents.content_treeHash h

theorem known_treeHash (h : (itemNames items).Nodup) :
    Known kind (kind.treeHash items) := by
  rw [Known, content_treeHash h]

@[simp] theorem content_empty :
    content kind (emptyTreeId kind) = [] :=
  content_treeHash List.nodup_nil

theorem content_of_readTree [DecidableEq Oid] {source : TreeSource Oid} (hs : ContentAddressed kind source)
    {tree : Tree Oid} (h : readTree kind source x = .ok tree) : tree.items = content kind x := by
  unfold readTree at h
  split at h
  · rename_i hx
    cases h
    subst hx
    exact content_empty.symm
  · exact hs x tree h

variable (kind)

/-- The id of the tree built from the items. -/
def mkTree (items : List (TreeItem Oid)) : Oid := kind.treeHash (sortGitTreeItems items)

variable {kind}

theorem nodup_sortGitTreeItems (h : (itemNames items).Nodup) : (itemNames (sortGitTreeItems items)).Nodup :=
  (itemNames_sortGitTreeItems_perm items).nodup_iff.mpr h

theorem content_mkTree (h : (itemNames items).Nodup) :
    content kind (mkTree kind items) = sortGitTreeItems items :=
  content_treeHash (nodup_sortGitTreeItems h)

theorem mem_content_mkTree (h : (itemNames items).Nodup) :
    item ∈ content kind (mkTree kind items) ↔ item ∈ items := by
  rw [content_mkTree h, sortGitTreeItems, mem_sortBy]

theorem mkTree_ne_empty (hnodup : (itemNames items).Nodup) (h : items ≠ []) : mkTree kind items ≠ emptyTreeId kind := by
  intro heq
  have hsame := congrArg (content kind) heq
  rw [content_mkTree hnodup, content_empty] at hsame
  have hlen := congrArg List.length hsame
  simp [sortGitTreeItems] at hlen
  exact h hlen

/-! ### Views -/

section View

variable (kind)

/-- The subtree of `x` with the given name, or the empty tree. -/
def child (x : Oid) (name : Text) : Oid :=
  match (content kind x).find? (fun item => item.name == name) with
  | some item => if item.mode = .tree then item.id else emptyTreeId kind
  | none => emptyTreeId kind

/-- The tree at a path below `x`, or the empty tree. -/
def view (x : Oid) : Path → Oid
  | [] => x
  | name :: path => view (child kind x name) path

variable {kind}

@[simp] theorem view_nil (x : Oid) : view kind x [] = x := rfl

theorem view_cons (x : Oid) (name : Text) (path : Path) :
    view kind x (name :: path) = view kind (child kind x name) path := rfl

theorem view_append (x : Oid) : ∀ p q : Path, view kind x (p ++ q) = view kind (view kind x p) q
  | [], _ => rfl
  | _ :: p, q => view_append _ p q

theorem find?_name_of_mem (hn : (itemNames items).Nodup) (h : item ∈ items) :
    items.find? (fun i => i.name == item.name) = some item := by
  cases hf : items.find? (fun i => i.name == item.name) with
  | none => exact absurd (List.find?_eq_none.mp hf item h) (by simp)
  | some i =>
    have hname : i.name = item.name := by simpa using List.find?_some hf
    rw [eq_of_name_eq hn (List.mem_of_find?_eq_some hf) h hname]

theorem child_of_mem (h : item ∈ content kind x) (hm : item.mode = .tree) : child kind x item.name = item.id := by
  rw [child, find?_name_of_mem (content_nodup kind x) h]
  simp [hm]

/-- A subtree that is not empty is an item. -/
theorem mem_of_child_ne {name : Text} (h : child kind x name ≠ emptyTreeId kind) :
    treeItem name (child kind x name) ∈ content kind x := by
  unfold child at h ⊢
  split
  · rename_i item hf
    rw [hf] at h
    simp only at h
    split at h
    · rename_i hm
      rw [if_pos hm]
      have hname : item.name = name := by simpa using List.find?_some hf
      have hitem : treeItem name item.id = item := by cases item; simp_all [treeItem]
      rw [hitem]
      exact List.mem_of_find?_eq_some hf
    · exact absurd rfl h
  · rename_i hf
    rw [hf] at h
    exact absurd rfl h

@[simp] theorem child_empty (name : Text) :
    child kind (emptyTreeId kind) name = emptyTreeId kind := by
  simp [child, content_empty]

@[simp] theorem view_empty : ∀ path : Path,
    view kind (emptyTreeId kind) path = emptyTreeId kind
  | [] => rfl
  | name :: path => by rw [view_cons, child_empty, view_empty path]

end View

/-! ### Trees below a tree -/

variable (kind)

/-- `y` is the id of a subtree entry of `x`. -/
def Edge (x y : Oid) : Prop := ∃ item ∈ content kind x, item.mode = .tree ∧ item.id = y

/-- `y` is `x` or lies below it. -/
def Reach : Oid → Oid → Prop := Relation.ReflTransGen (Edge kind)

variable {kind}

theorem reach_refl (x : Oid) : Reach kind x x := .refl

theorem Reach.trans {y z : Oid} (h : Reach kind x y) (h' : Reach kind y z) : Reach kind x z :=
  Relation.ReflTransGen.trans h h'

theorem reach_of_mem (h : item ∈ content kind x) (hm : item.mode = .tree) : Reach kind x item.id :=
  .single ⟨item, h, hm, rfl⟩

/-- Below `x` lie `x` and what lies below its subtrees. -/
theorem reach_cases {y : Oid} (h : Reach kind x y) :
    y = x ∨ ∃ item ∈ content kind x, item.mode = .tree ∧ Reach kind item.id y := by
  rcases Relation.ReflTransGen.cases_head h with rfl | ⟨z, ⟨item, hi, hm, rfl⟩, hz⟩
  · exact .inl rfl
  · exact .inr ⟨item, hi, hm, hz⟩

theorem reach_empty {y : Oid}
    (h : Reach kind (emptyTreeId kind) y) : y = emptyTreeId kind := by
  rcases reach_cases h with rfl | ⟨item, hi, -⟩
  · rfl
  · simp [content_empty] at hi

theorem reach_child (x : Oid) (name : Text) :
    child kind x name = emptyTreeId kind ∨ Reach kind x (child kind x name) := by
  by_cases h : child kind x name = emptyTreeId kind
  · exact .inl h
  · exact .inr (reach_of_mem (mem_of_child_ne h) rfl)

theorem reach_view (x : Oid) : ∀ path : Path,
    view kind x path = emptyTreeId kind ∨ Reach kind x (view kind x path)
  | [] => .inr (reach_refl x)
  | name :: path => by
    have hchild : child kind x name = emptyTreeId kind ∨ Reach kind x (child kind x name) :=
      reach_child x name
    rw [view_cons]
    rcases hchild with h | h
    · rw [h, view_empty]; exact .inl rfl
    · exact (reach_view _ path).imp id h.trans

/-! ### Running out of fuel -/

/-- `r'` is `r` unless `r` ran out of fuel. -/
def Refuels {α : Type} (r r' : Except (FilterTreeError Oid) α) : Prop :=
  r ≠ .error .outOfFuel → r' = r

theorem Refuels.refl {α : Type} (r : Except (FilterTreeError Oid) α) : Refuels r r := fun _ => rfl

theorem Refuels.bind {α β : Type} {x x' : Except (FilterTreeError Oid) α}
    {f f' : α → Except (FilterTreeError Oid) β} (hx : Refuels x x') (hf : ∀ a, Refuels (f a) (f' a)) :
    Refuels (x >>= f) (x' >>= f') := by
  intro hne
  cases x with
  | error e =>
    have he : (Except.error e : Except _ α) ≠ .error .outOfFuel := by
      intro h
      cases h
      exact hne rfl
    rw [hx he]
    rfl
  | ok a =>
    rw [hx (by simp)]
    exact hf a hne

/-! ### The operators, without state -/

section Sem

variable [DecidableEq Oid] (kind)

/-- `wrapTree`: `x` below a path of new trees. -/
def semWrap (x : Oid) : Path → Oid
  | [] => x
  | segment :: path => mkTree kind [treeItem segment (semWrap x path)]

def semPrefixed (x : Oid) (path : Path) : Oid :=
  if x = emptyTreeId kind then x else semWrap kind x path

def semExcludeInner : ℕ → Oid → List SelectorRef → RewriteResult Oid
  | 0, x, _ => ⟨x, false⟩
  | depth + 1, x, selectors =>
    let (changed, items) :=
      (excludeItems (m := Id) kind (fun y sels => pure (semExcludeInner depth y sels)) selectors
        (content kind x)).run
    if changed then
      ⟨mkTree kind (items.filter fun item => item.mode != .tree || item.id != emptyTreeId kind), true⟩
    else ⟨x, false⟩

def semExclude (x : Oid) (selectors : List Selector) : Oid :=
  let refs := selectors.map SelectorRef.fromSelector
  (semExcludeInner kind (maxSegments refs) x refs).treeId

def semOverlay : ℕ → List Oid → Except (FilterTreeError Oid) Oid
  | 0, _ => .error .outOfFuel
  | fuel + 1, xs =>
    match xs.filter fun x => x != emptyTreeId kind with
    | [] => .ok (emptyTreeId kind)
    | [x] => .ok x
    | nonEmpty => do
      let items ← overlayNames kind (semOverlay fuel) (byName (nonEmpty.flatMap (content kind)))
      pure (mkTree kind items)

open Classical in
/-- The trees merged, or the empty tree if they cannot be. -/
noncomputable def semUnion (xs : List Oid) : Oid :=
  if h : ∃ r n, semOverlay kind n xs = .ok r then h.choose else emptyTreeId kind

mutual

/-- The map of tree ids a filter stands for. -/
noncomputable def sem : Filter → Oid → Oid
  | .subdir path, x => view kind x path.segments
  | .prefixed path, x => semPrefixed kind x path.segments
  | .exclude selectors, x => semExclude kind x selectors
  | .compose members, x => semUnion kind (semAll members x)
  | .chain ops, x => semChain ops x
  | .nop, x => x
  | .empty, _ => emptyTreeId kind

noncomputable def semAll : List Filter → Oid → List Oid
  | [], _ => []
  | f :: fs, x => sem f x :: semAll fs x

noncomputable def semChain : List Filter → Oid → Oid
  | [], x => x
  | op :: ops, x => semChain ops (sem op x)

end

variable {kind}

theorem semAll_eq_map (x : Oid) : ∀ fs : List Filter, semAll kind fs x = fs.map (sem kind · x)
  | [] => rfl
  | f :: fs => by rw [semAll, semAll_eq_map x fs, List.map_cons]

theorem sem_compose (ms : List Filter) (x : Oid) :
    sem kind (.compose ms) x = semUnion kind (ms.map (sem kind · x)) := by
  rw [sem, semAll_eq_map]

theorem semChain_eq_foldl : ∀ (ops : List Filter) (x : Oid),
    semChain kind ops x = ops.foldl (fun x op => sem kind op x) x
  | [], _ => rfl
  | op :: ops, x => by rw [semChain, semChain_eq_foldl ops, List.foldl_cons]

theorem sem_chain (ops : List Filter) (x : Oid) :
    sem kind (.chain ops) x = ops.foldl (fun x op => sem kind op x) x := by
  rw [sem, semChain_eq_foldl]

/-! ### More fuel changes nothing -/

variable (kind)

omit [Contents kind] in
theorem overlayName_refuels {o o' : List Oid → Except (FilterTreeError Oid) Oid}
    (h : ∀ xs, Refuels (o xs) (o' xs)) (name : Text) (candidates : List (TreeItem Oid)) :
    Refuels (overlayName kind o name candidates) (overlayName kind o' name candidates) := by
  unfold overlayName
  split
  · exact .refl _
  · split
    · exact (h _).bind fun _ => .refl _
    · exact .refl _

omit [Contents kind] in
theorem overlayNames_refuels {o o' : List Oid → Except (FilterTreeError Oid) Oid}
    (h : ∀ xs, Refuels (o xs) (o' xs)) : ∀ groups,
    Refuels (overlayNames kind o groups) (overlayNames kind o' groups)
  | [] => .refl _
  | (name, candidates) :: groups =>
    (overlayName_refuels kind h name candidates).bind fun _ =>
      (overlayNames_refuels h groups).bind fun _ => .refl _

variable {kind}

theorem semOverlay_succ (n : ℕ) (xs : List Oid) :
    Refuels (semOverlay kind n xs) (semOverlay kind (n + 1) xs) := by
  induction n generalizing xs with
  | zero => exact fun h => absurd rfl h
  | succ n ih =>
    unfold semOverlay
    split
    · exact .refl _
    · exact .refl _
    · exact (overlayNames_refuels kind ih _).bind fun _ => .refl _

/-- Merging gives the same result with more fuel. -/
theorem semOverlay_mono {n k : ℕ} (hnk : n ≤ k) (xs : List Oid) :
    Refuels (semOverlay kind n xs) (semOverlay kind k xs) := by
  induction hnk with
  | refl => exact fun _ => rfl
  | step _ ih =>
    intro hne
    rw [semOverlay_succ _ _ (by rw [ih hne]; exact hne), ih hne]

theorem semUnion_eq {n : ℕ} {xs : List Oid} {r : Oid} (h : semOverlay kind n xs = .ok r) :
    semUnion kind xs = r := by
  have hex : ∃ r n, semOverlay kind n xs = .ok r := ⟨r, n, h⟩
  rw [semUnion, dif_pos hex]
  obtain ⟨k, hk⟩ := hex.choose_spec
  have h1 := semOverlay_mono (le_max_left n k) xs (by rw [h]; simp)
  have h2 := semOverlay_mono (le_max_right n k) xs (by rw [hk]; simp)
  exact Except.ok.inj (hk.symm.trans (h2.symm.trans (h1.trans h)))

end Sem

end View
end Mega
