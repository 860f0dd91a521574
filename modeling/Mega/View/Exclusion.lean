/-
# What an exclusion does to a tree

An exclusion rewrites a tree level by level. Seen through `view` it is simple:
below a name that some selector ends at nothing is left, and below any other
name the remaining selectors apply (`child_semExcludeInner`). So what is left at
a path depends on the tree at that path alone (`view_semExcludeInner_congr`), and
only on which selectors there are, not on their order (`semExclude_congr`).

Key definition: `excludedItem`.
Key theorems: `child_semExcludeInner`, `view_semExcludeInner_congr`,
`semExclude_congr`.
-/
import Mega.View.Meaning

namespace Mega
namespace View

open List

variable {Oid : Type} [DecidableEq Oid] (kind : HashKind Oid)
variable {item : TreeItem Oid} {depth : ℕ} {x : Oid}

/-- `excludeItem` for an inner exclusion without effects. -/
def excludedItem (inner : Oid → List SelectorRef → RewriteResult Oid) (sels : List SelectorRef)
    (item : TreeItem Oid) : Bool × List (TreeItem Oid) :=
  (excludeItem (m := Id) kind (fun y s => pure (inner y s)) sels item).run

variable {kind} {inner : Oid → List SelectorRef → RewriteResult Oid} {sels : List SelectorRef}

theorem excludeItems_run (items : List (TreeItem Oid)) :
    (excludeItems (m := Id) kind (fun y s => pure (inner y s)) sels items).run =
      (items.any fun item => (excludedItem kind inner sels item).1,
        items.flatMap fun item => (excludedItem kind inner sels item).2) := by
  induction items with
  | nil => rfl
  | cons item items ih =>
    have hstep : (excludeItems (m := Id) kind (fun y s => pure (inner y s)) sels (item :: items)).run =
        ((excludedItem kind inner sels item).1 ||
            (excludeItems (m := Id) kind (fun y s => pure (inner y s)) sels items).run.1,
          (excludedItem kind inner sels item).2 ++
            (excludeItems (m := Id) kind (fun y s => pure (inner y s)) sels items).run.2) := rfl
    rw [hstep, ih, any_cons, flatMap_cons]

variable (kind inner sels)

/-- What `inner` makes of the subtree at `item`. -/
def innerResult (item : TreeItem Oid) : RewriteResult Oid :=
  inner item.id (descendants (matching sels item.name))

theorem excludedItem_eq (item : TreeItem Oid) :
    excludedItem kind inner sels item =
      if removes (matching sels item.name) item.mode then (true, [])
      else if (descendants (matching sels item.name)).isEmpty || item.mode != .tree then (false, [item])
      else if (innerResult inner sels item).changed then
        (true, if (innerResult inner sels item).treeId = emptyTreeId kind then []
          else [treeItem item.name (innerResult inner sels item).treeId])
      else (false, [item]) := rfl

/-- The cases of `excludeItem`: removed, kept, or rewritten. -/
theorem excludedItem_cases (item : TreeItem Oid) :
    (removes (matching sels item.name) item.mode = true ∧ excludedItem kind inner sels item = (true, [])) ∨
    (removes (matching sels item.name) item.mode = false ∧
      (item.mode = .tree →
        descendants (matching sels item.name) = [] ∨ (innerResult inner sels item).changed = false) ∧
      excludedItem kind inner sels item = (false, [item])) ∨
    (removes (matching sels item.name) item.mode = false ∧ item.mode = .tree ∧
      (innerResult inner sels item).changed = true ∧
      excludedItem kind inner sels item =
        (true, if (innerResult inner sels item).treeId = emptyTreeId kind then []
          else [treeItem item.name (innerResult inner sels item).treeId])) := by
  rw [excludedItem_eq]
  by_cases hr : removes (matching sels item.name) item.mode = true
  · exact .inl ⟨hr, by rw [if_pos hr]⟩
  rw [if_neg hr]
  have hr' : removes (matching sels item.name) item.mode = false := by simpa using hr
  by_cases hd : ((descendants (matching sels item.name)).isEmpty || item.mode != .tree) = true
  · refine .inr (.inl ⟨hr', fun hm => .inl ?_, by rw [if_pos hd]⟩)
    simpa [hm] using hd
  rw [if_neg hd]
  have hm : item.mode = .tree := by
    by_contra h
    exact hd (by simp [h])
  by_cases hc : (innerResult inner sels item).changed = true
  · exact .inr (.inr ⟨hr', hm, hc, by rw [if_pos hc]⟩)
  · exact .inr (.inl ⟨hr', fun _ => .inr (by simpa using hc), by rw [if_neg hc]⟩)

variable {kind inner sels}

theorem name_of_mem_excludedItem {it : TreeItem Oid} (h : it ∈ (excludedItem kind inner sels item).2) :
    it.name = item.name := by
  rcases excludedItem_cases kind inner sels item with ⟨-, he⟩ | ⟨-, -, he⟩ | ⟨-, -, -, he⟩ <;> rw [he] at h
  · cases h
  · rw [mem_singleton.mp h]
  · simp only at h
    split at h
    · cases h
    · rw [mem_singleton.mp h]; rfl

theorem length_excludedItem_le (item : TreeItem Oid) : (excludedItem kind inner sels item).2.length ≤ 1 := by
  rcases excludedItem_cases kind inner sels item with ⟨-, he⟩ | ⟨-, -, he⟩ | ⟨-, -, -, he⟩ <;> rw [he]
  · simp
  · simp
  · simp only
    split <;> simp

/-- Excluding keeps names unique. -/
theorem nodup_flatMap_excludedItem {items : List (TreeItem Oid)} (h : (itemNames items).Nodup) :
    (itemNames (items.flatMap fun item => (excludedItem kind inner sels item).2)).Nodup := by
  induction items with
  | nil => exact nodup_nil
  | cons item items ih =>
    obtain ⟨hnot, hrest⟩ := nodup_cons.mp h
    rw [flatMap_cons, itemNames, map_append, nodup_append]
    refine ⟨?_, ih hrest, ?_⟩
    · have hlen := @length_excludedItem_le Oid _ kind inner sels item
      match hl : (excludedItem kind inner sels item).2 with
      | [] => exact nodup_nil
      | [it] => exact nodup_singleton _
      | _ :: _ :: _ => rw [hl] at hlen; simp at hlen
    · intro n hn n' hn' heq
      obtain ⟨it, hit, rfl⟩ := mem_map.mp hn
      obtain ⟨it', hit', rfl⟩ := mem_map.mp hn'
      obtain ⟨item', hitem', hit'⟩ := mem_flatMap.mp hit'
      rw [name_of_mem_excludedItem hit, name_of_mem_excludedItem hit'] at heq
      exact hnot (mem_map.mpr ⟨item', hitem', heq.symm⟩)

/-! ### One level of an exclusion -/

variable (kind) [Contents kind]

/-- The items an exclusion leaves of the tree `x`. -/
def leftItems (depth : ℕ) (x : Oid) (sels : List SelectorRef) : List (TreeItem Oid) :=
  ((content kind x).flatMap fun item => (excludedItem kind (semExcludeInner kind depth) sels item).2).filter
    fun item => item.mode != .tree || item.id != emptyTreeId kind

/-- Whether an exclusion changes the tree `x`. -/
def changesItems (depth : ℕ) (x : Oid) (sels : List SelectorRef) : Bool :=
  (content kind x).any fun item => (excludedItem kind (semExcludeInner kind depth) sels item).1

variable {kind}

theorem semExcludeInner_succ (depth : ℕ) (x : Oid) (sels : List SelectorRef) :
    semExcludeInner kind (depth + 1) x sels =
      if changesItems kind depth x sels then ⟨mkTree kind (leftItems kind depth x sels), true⟩
      else ⟨x, false⟩ := by
  rw [semExcludeInner, excludeItems_run]
  rfl

theorem nodup_leftItems (depth : ℕ) (x : Oid) (sels : List SelectorRef) :
    (itemNames (leftItems kind depth x sels)).Nodup :=
  (nodup_flatMap_excludedItem (content_nodup kind x)).sublist (filter_sublist.map _)

theorem mem_leftItems {it : TreeItem Oid} :
    it ∈ leftItems kind depth x sels ↔
      (∃ item ∈ content kind x, it ∈ (excludedItem kind (semExcludeInner kind depth) sels item).2) ∧
      (it.mode = .tree → it.id ≠ emptyTreeId kind) := by
  simp only [leftItems, mem_filter, mem_flatMap]
  refine and_congr_right fun _ => ?_
  by_cases hm : it.mode = .tree <;> simp [hm]

theorem treeId_of_unchanged (h : (semExcludeInner kind depth x sels).changed = false) :
    (semExcludeInner kind depth x sels).treeId = x := by
  cases depth with
  | zero => rfl
  | succ depth =>
    rw [semExcludeInner_succ] at h ⊢
    split at h
    · cases h
    · rename_i hc; rw [if_neg hc]

/-- Without selectors nothing changes. -/
theorem semExcludeInner_nil (depth : ℕ) (x : Oid) : semExcludeInner kind depth x [] = ⟨x, false⟩ := by
  cases depth with
  | zero => rfl
  | succ depth =>
    have hc : changesItems kind depth x [] = false := by
      simp only [changesItems, any_eq_false]
      intro item _ h
      cases h
    rw [semExcludeInner_succ, hc]
    rfl

theorem semExcludeInner_empty (depth : ℕ)
    (sels : List SelectorRef) :
    semExcludeInner kind depth (emptyTreeId kind) sels = ⟨emptyTreeId kind, false⟩ := by
  cases depth with
  | zero => rfl
  | succ depth => simp [semExcludeInner_succ, changesItems, content_empty]

/-- An item that is kept is what the inner exclusion leaves of it. -/
theorem innerResult_treeId_of_kept
    (h : descendants (matching sels item.name) = [] ∨
      (innerResult (semExcludeInner kind depth) sels item).changed = false) :
    (innerResult (semExcludeInner kind depth) sels item).treeId = item.id := by
  rcases h with h | h
  · rw [innerResult, h, semExcludeInner_nil]
  · exact treeId_of_unchanged h

/-- The tree an exclusion leaves at a name of the tree `x`. -/
def leftAt (kind : HashKind Oid) [Contents kind] (depth : ℕ) (x : Oid) (sels : List SelectorRef)
    (name : Text) : Oid :=
  if removes (matching sels name) .tree then emptyTreeId kind
  else (semExcludeInner kind depth (child kind x name) (descendants (matching sels name))).treeId

/-- A subtree of `x` that is not removed is left as `leftAt` says. -/
theorem excludedItem_tree (hi : item ∈ content kind x) (hm : item.mode = .tree) {it : TreeItem Oid}
    (hit : it ∈ (excludedItem kind (semExcludeInner kind depth) sels item).2) :
    it = treeItem item.name (leftAt kind depth x sels item.name) := by
  have hleft : removes (matching sels item.name) item.mode = false →
      leftAt kind depth x sels item.name = (innerResult (semExcludeInner kind depth) sels item).treeId := by
    intro hr
    rw [hm] at hr
    rw [leftAt, hr, child_of_mem hi hm]
    rfl
  rcases excludedItem_cases kind (semExcludeInner kind depth) sels item with
    ⟨-, he⟩ | ⟨hr, hk, he⟩ | ⟨hr, -, -, he⟩ <;> rw [he] at hit
  · cases hit
  · rw [mem_singleton.mp hit, hleft hr, innerResult_treeId_of_kept (hk hm)]
    cases item; cases hm; rfl
  · rw [hleft hr]
    simp only at hit
    split at hit
    · cases hit
    · exact mem_singleton.mp hit

/-- A subtree of which something is left is among the items left. -/
theorem mem_excludedItem_of_leftAt (hi : item ∈ content kind x) (hm : item.mode = .tree)
    (hne : leftAt kind depth x sels item.name ≠ emptyTreeId kind) :
    treeItem item.name (leftAt kind depth x sels item.name) ∈
      (excludedItem kind (semExcludeInner kind depth) sels item).2 := by
  have hnonempty : (excludedItem kind (semExcludeInner kind depth) sels item).2 ≠ [] := by
    rcases excludedItem_cases kind (semExcludeInner kind depth) sels item with
      ⟨hr, he⟩ | ⟨hr, hk, he⟩ | ⟨hr, -, -, he⟩
    · rw [hm] at hr
      exact absurd (by rw [leftAt, hr]; rfl) hne
    · simp [he]
    · rw [hm] at hr
      have hne' : (innerResult (semExcludeInner kind depth) sels item).treeId ≠ emptyTreeId kind := by
        simpa [leftAt, hr, child_of_mem hi hm, innerResult] using hne
      simp [he, hne']
  obtain ⟨it, hit⟩ := exists_mem_of_ne_nil _ hnonempty
  rwa [← excludedItem_tree hi hm hit]

/-- **An exclusion acts name by name.** -/
theorem child_semExcludeInner (depth : ℕ) (x : Oid)
    (sels : List SelectorRef) (name : Text) :
    child kind (semExcludeInner kind (depth + 1) x sels).treeId name = leftAt kind depth x sels name := by
  have hleft_of_empty : child kind x name = emptyTreeId kind →
      leftAt kind depth x sels name = emptyTreeId kind := by
    intro h
    unfold leftAt
    split
    · rfl
    · rw [h, semExcludeInner_empty]
  rw [semExcludeInner_succ]
  split
  · -- some item changed: the tree is rebuilt from the items left
    have hmem : ∀ it, it ∈ content kind (mkTree kind (leftItems kind depth x sels)) ↔
        it ∈ leftItems kind depth x sels := fun it => mem_content_mkTree (nodup_leftItems depth x sels)
    by_cases hne : leftAt kind depth x sels name = emptyTreeId kind
    · rw [hne]
      by_contra hc
      obtain ⟨⟨item, hi, hit⟩, hnz⟩ := mem_leftItems.mp ((hmem _).mp (mem_of_child_ne hc))
      have hname : item.name = name := (name_of_mem_excludedItem hit).symm
      subst hname
      by_cases hm : item.mode = .tree
      · have := congrArg TreeItem.id (excludedItem_tree hi hm hit)
        exact hnz rfl (this.trans hne)
      · rcases excludedItem_cases kind (semExcludeInner kind depth) sels item with
          ⟨-, he⟩ | ⟨-, -, he⟩ | ⟨-, hm', -⟩
        · rw [he] at hit; cases hit
        · rw [he] at hit; exact hm (by rw [← mem_singleton.mp hit]; rfl)
        · exact hm hm'
    · have hc : child kind x name ≠ emptyTreeId kind := fun h => hne (hleft_of_empty h)
      have hit := mem_excludedItem_of_leftAt (mem_of_child_ne hc) rfl hne
      exact child_of_mem ((hmem _).mpr (mem_leftItems.mpr ⟨⟨_, mem_of_child_ne hc, hit⟩, fun _ => hne⟩)) rfl
  · -- nothing changed: every subtree was kept
    rename_i hch
    by_cases hc : child kind x name = emptyTreeId kind
    · rw [hleft_of_empty hc]; exact hc
    · have hi := mem_of_child_ne hc
      have hunch : (excludedItem kind (semExcludeInner kind depth) sels
          (treeItem name (child kind x name))).1 = false := by
        by_contra h
        exact hch (any_eq_true.mpr ⟨_, hi, by simpa using h⟩)
      rcases excludedItem_cases kind (semExcludeInner kind depth) sels (treeItem name (child kind x name)) with
        ⟨-, he⟩ | ⟨hr, hk, he⟩ | ⟨-, -, -, he⟩
      · rw [he] at hunch; cases hunch
      · have hk' := innerResult_treeId_of_kept (hk rfl)
        have hr' : removes (matching sels name) .tree = false := hr
        rw [leftAt, hr']
        exact hk'.symm
      · rw [he] at hunch; cases hunch

/-- **What is left at a path depends on the tree at that path alone.** -/
theorem view_semExcludeInner_congr :
    ∀ (path : Path) (depth : ℕ) (sels : List SelectorRef) {x y : Oid},
      view kind x path = view kind y path →
      view kind (semExcludeInner kind depth x sels).treeId path =
        view kind (semExcludeInner kind depth y sels).treeId path
  | [], _, _, _, _, h => by rw [view_nil, view_nil] at h; rw [h]
  | _ :: _, 0, _, _, _, h => h
  | name :: path, depth + 1, sels, x, y, h => by
    rw [view_cons, view_cons, child_semExcludeInner, child_semExcludeInner, leftAt, leftAt]
    split
    · rfl
    · exact view_semExcludeInner_congr path depth _ h

theorem view_semExclude_congr (selectors : List Selector) {y : Oid}
    {path : Path} (h : view kind x path = view kind y path) :
    view kind (semExclude kind x selectors) path = view kind (semExclude kind y selectors) path :=
  view_semExcludeInner_congr path _ _ h

/-! ### The order of the selectors does not matter -/

theorem maxSegments_le_iff {sels : List SelectorRef} {n : ℕ} :
    maxSegments sels ≤ n ↔ ∀ s ∈ sels, s.segments.length ≤ n := by
  induction sels with
  | nil => simp [maxSegments]
  | cons s sels ih => simpa [maxSegments] using fun _ => ih

section Congr

variable {sels' : List SelectorRef} (h : ∀ s, s ∈ sels ↔ s ∈ sels')

include h

theorem mem_matching_congr (name : Text) (s : SelectorRef) :
    s ∈ matching sels name ↔ s ∈ matching sels' name := by
  simp [matching, h]

theorem removes_congr (name : Text) (mode : TreeItemMode) :
    removes (matching sels name) mode = removes (matching sels' name) mode := by
  rw [Bool.eq_iff_iff]
  simp [removes, any_eq_true, mem_matching_congr h]

theorem mem_descendants_congr (name : Text) (s : SelectorRef) :
    s ∈ descendants (matching sels name) ↔ s ∈ descendants (matching sels' name) := by
  simp [descendants, mem_matching_congr h]

theorem maxSegments_congr : maxSegments sels = maxSegments sels' := by
  refine le_antisymm ?_ ?_
  · exact maxSegments_le_iff.mpr fun s hs => maxSegments_le_iff.mp le_rfl s ((h s).mp hs)
  · exact maxSegments_le_iff.mpr fun s hs => maxSegments_le_iff.mp le_rfl s ((h s).mpr hs)

end Congr

theorem semExcludeInner_congr : ∀ (depth : ℕ) (x : Oid) {sels sels' : List SelectorRef},
    (∀ s, s ∈ sels ↔ s ∈ sels') → semExcludeInner kind depth x sels = semExcludeInner kind depth x sels'
  | 0, _, _, _, _ => rfl
  | depth + 1, x, sels, sels', h => by
    have hitem : ∀ item, excludedItem kind (semExcludeInner kind depth) sels item =
        excludedItem kind (semExcludeInner kind depth) sels' item := by
      intro item
      have hempty : (descendants (matching sels item.name)).isEmpty =
          (descendants (matching sels' item.name)).isEmpty := by
        rw [Bool.eq_iff_iff, List.isEmpty_iff, List.isEmpty_iff, List.eq_nil_iff_forall_not_mem,
          List.eq_nil_iff_forall_not_mem]
        exact forall_congr' fun s => not_congr (mem_descendants_congr h item.name s)
      have hinner := semExcludeInner_congr depth item.id (mem_descendants_congr h item.name)
      unfold excludedItem excludeItem
      simp only [removes_congr h, hempty, hinner]
    have hch : changesItems kind depth x sels = changesItems kind depth x sels' := by
      simp only [changesItems, hitem]
    have hleft : leftItems kind depth x sels = leftItems kind depth x sels' := by
      simp only [leftItems, hitem]
    rw [semExcludeInner_succ, semExcludeInner_succ, hch, hleft]

/-- Only the set of selectors matters. -/
theorem semExclude_congr (x : Oid) {selectors selectors' : List Selector}
    (h : ∀ s, s ∈ selectors ↔ s ∈ selectors') :
    semExclude kind x selectors = semExclude kind x selectors' := by
  have hrefs : ∀ s, s ∈ selectors.map SelectorRef.fromSelector ↔
      s ∈ selectors'.map SelectorRef.fromSelector := fun s => by simp [h]
  unfold semExclude
  simp only [maxSegments_congr hrefs, semExcludeInner_congr _ x hrefs]

theorem semExclude_nil (x : Oid) : semExclude kind x [] = x := rfl

theorem semExclude_empty (selectors : List Selector) :
    semExclude kind (emptyTreeId kind) selectors = emptyTreeId kind := by
  simp [semExclude, semExcludeInner_empty]

end View
end Mega
