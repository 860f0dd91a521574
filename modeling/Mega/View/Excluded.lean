/-
# An exclusion removes exactly what is selected

What a reader of a tree finds below it: directories at paths (`DirAt`) and
entries in them (`EntryAt`). An entry selector takes the entry at its path and
all below it; a tree selector does so only if a directory lies there
(`Selects`).

The proof follows the levels of an exclusion: below an entry that is kept, the
selectors that go on are the selectors of the subtree (`selectedBy_cons`). A tree
that is built anew is another one than before (`treeId_ne_of_changed`) and holds
no empty tree (`dirAt_semExcludeInner`).

Key definitions: `DirAt`, `EntryAt`, `Selects`, `listing`.
Key theorems: `changed_iff_selects`, `entryAt_semExcludeInner`,
`treeId_ne_of_changed`, `dirAt_semExcludeInner`, `exclude_exact`.
-/
import Mega.View.EvalRefines
import Mega.View.Exclusion
import Mega.View.StructuralHash

namespace Mega
namespace View

open List

variable {Oid : Type}
variable {mode : TreeItemMode} {id : Oid} {name : Text} {path : Path} {sels : List SelectorRef} {depth : ℕ}
  {item : TreeItem Oid}

/-! ### What lies below a tree -/

/-- Below the tree `x`, whose items and those of its subtrees are given, the
directory at the path is the tree `y`. -/
def DirAt (items : Oid → List (TreeItem Oid)) : Oid → Path → Oid → Prop
  | x, [], y => y = x
  | x, name :: path, y => ∃ sub, ⟨.tree, sub, name⟩ ∈ items x ∧ DirAt items sub path y

/-- Below the tree `x` there is an entry of this mode and id at the path. -/
def EntryAt (items : Oid → List (TreeItem Oid)) (x : Oid) (path : Path) (mode : TreeItemMode) (id : Oid) : Prop :=
  ∃ dir name y, path = dir ++ [name] ∧ DirAt items x dir y ∧ ⟨mode, id, name⟩ ∈ items y

/-- The selector takes what is at this path of the tree `x`. -/
def Selects (items : Oid → List (TreeItem Oid)) (x : Oid) : Selector → Path → Prop
  | .entry selected, path => selected.segments <+: path
  | .tree selected, path => selected.segments <+: path ∧ ∃ id, EntryAt items x selected.segments .tree id

section Paths

variable {items : Oid → List (TreeItem Oid)} {x : Oid}

theorem not_entryAt_nil : ¬ EntryAt items x [] mode id := by
  rintro ⟨dir, name, y, hpath, -⟩
  exact append_ne_nil_of_right_ne_nil dir (cons_ne_nil name []) hpath.symm

theorem entryAt_cons :
    EntryAt items x (name :: path) mode id ↔
      ∃ item ∈ items x, item.name = name ∧
        ((path = [] ∧ item.mode = mode ∧ item.id = id) ∨ (item.mode = .tree ∧ EntryAt items item.id path mode id)) := by
  constructor
  · rintro ⟨dir, last, y, hpath, hdir, hmem⟩
    cases dir with
    | nil =>
      obtain ⟨rfl, rfl⟩ := List.cons.inj hpath
      obtain rfl : y = x := hdir
      exact ⟨⟨mode, id, name⟩, hmem, rfl, .inl ⟨rfl, rfl, rfl⟩⟩
    | cons first dir =>
      obtain ⟨rfl, rfl⟩ := List.cons.inj hpath
      obtain ⟨sub, hsub, hdir⟩ := hdir
      exact ⟨⟨.tree, sub, name⟩, hsub, rfl, .inr ⟨rfl, dir, last, y, rfl, hdir, hmem⟩⟩
  · rintro ⟨item, hitem, rfl, ⟨rfl, rfl, rfl⟩ | ⟨hmode, dir, last, y, rfl, hdir, hmem⟩⟩
    · exact ⟨[], item.name, x, rfl, rfl, hitem⟩
    · refine ⟨item.name :: dir, last, y, rfl, ⟨item.id, ?_, hdir⟩, hmem⟩
      rw [← hmode]
      exact hitem

end Paths

/-! ### Selectors at one level -/

variable {kind : HashKind Oid} [Contents kind]

/-- One of the selectors takes what is at the path of the tree `x`. -/
def SelectedBy (kind : HashKind Oid) [Contents kind] (sels : List SelectorRef) (x : Oid) (path : Path) : Prop :=
  ∃ s ∈ sels, s.segments <+: path ∧ (s.treeOnly = true → ∃ id, EntryAt (content kind) x s.segments .tree id)

/-- Every selector names something, at most `depth` levels down. -/
def Within (depth : ℕ) (sels : List SelectorRef) : Prop :=
  ∀ s ∈ sels, s.segments ≠ [] ∧ s.segments.length ≤ depth

theorem mem_matching {s : SelectorRef} : s ∈ matching sels name ↔ s ∈ sels ∧ ∃ rest, s.segments = name :: rest := by
  rw [matching, mem_filter, beq_iff_eq, List.head?_eq_some_iff]

theorem removes_matching :
    removes (matching sels name) mode = true ↔
      ∃ s ∈ sels, s.segments = [name] ∧ (s.treeOnly = true → mode = .tree) := by
  rw [removes, any_eq_true]
  refine exists_congr fun s => ?_
  rw [mem_matching]
  constructor
  · rintro ⟨⟨hs, rest, hrest⟩, hends⟩
    rw [hrest] at hends ⊢
    simp only [length_cons, Bool.and_eq_true, beq_iff_eq, Bool.or_eq_true, Bool.not_eq_true'] at hends
    obtain ⟨hlen, hmode⟩ := hends
    have hnil : rest = [] := length_eq_zero_iff.mp (by omega)
    refine ⟨hs, by rw [hnil], fun htree => ?_⟩
    rcases hmode with hmode | hmode
    · rw [htree] at hmode
      cases hmode
    · exact hmode
  · rintro ⟨hs, hsegments, hmode⟩
    refine ⟨⟨hs, [], hsegments⟩, ?_⟩
    rw [hsegments]
    cases htree : s.treeOnly with
    | false => simp
    | true => simp [hmode htree]

theorem mem_descendants {s : SelectorRef} :
    s ∈ descendants (matching sels name) ↔
      s.segments ≠ [] ∧ ⟨name :: s.segments, s.treeOnly⟩ ∈ sels := by
  rw [descendants, mem_map]
  constructor
  · rintro ⟨t, ht, rfl⟩
    obtain ⟨hmem, hlen⟩ := mem_filter.mp ht
    obtain ⟨hsels, rest, hrest⟩ := mem_matching.mp hmem
    simp only [hrest, length_cons, decide_eq_true_eq] at hlen
    simp only [hrest, tail_cons]
    refine ⟨ne_nil_of_length_pos (by omega), ?_⟩
    rw [← hrest]
    exact hsels
  · rintro ⟨hne, hsels⟩
    refine ⟨_, mem_filter.mpr ⟨mem_matching.mpr ⟨hsels, _, rfl⟩, ?_⟩, rfl⟩
    have hpos := length_pos_iff.mpr hne
    simp only [length_cons, decide_eq_true_eq]
    omega

theorem Within.descendants (h : Within (depth + 1) sels) (name : Text) :
    Within depth (descendants (matching sels name)) := by
  intro s hs
  obtain ⟨hne, hsels⟩ := mem_descendants.mp hs
  have hlen := (h _ hsels).2
  simp only [length_cons] at hlen
  exact ⟨hne, by omega⟩

theorem not_selectedBy_nil (h : Within depth sels) (x : Oid) : ¬ SelectedBy kind sels x [] := by
  rintro ⟨s, hs, hstart, -⟩
  exact (h s hs).1 (prefix_nil.mp hstart)

theorem entryAt_content_iff {x : Oid} (hitem : item ∈ content kind x) :
    EntryAt (content kind) x (item.name :: path) mode id ↔
      (path = [] ∧ item.mode = mode ∧ item.id = id) ∨
        (item.mode = .tree ∧ EntryAt (content kind) item.id path mode id) := by
  rw [entryAt_cons]
  constructor
  · rintro ⟨other, hother, hname, h⟩
    rwa [eq_of_name_eq (content_nodup kind x) hother hitem hname] at h
  · intro h
    exact ⟨item, hitem, rfl, h⟩

/-- **What is selected below an entry** is selected there, or the entry itself is
taken. -/
theorem selectedBy_cons (hsels : Within depth sels) {x : Oid} (hitem : item ∈ content kind x)
    (hpath : item.mode = .tree ∨ path = []) :
    SelectedBy kind sels x (item.name :: path) ↔
      removes (matching sels item.name) item.mode = true ∨
        SelectedBy kind (descendants (matching sels item.name)) item.id path := by
  rw [removes_matching]
  constructor
  · rintro ⟨s, hs, hstart, htree⟩
    obtain ⟨first, rest, hsegments⟩ := exists_cons_of_ne_nil (hsels s hs).1
    rw [hsegments] at hstart htree
    obtain ⟨rfl, hrest⟩ := cons_prefix_cons.mp hstart
    simp only [entryAt_content_iff hitem] at htree
    by_cases hends : rest = []
    · refine .inl ⟨s, hs, by rw [hsegments, hends], fun htreeOnly => ?_⟩
      obtain ⟨id, ⟨-, hmode, -⟩ | ⟨hmode, -⟩⟩ := htree htreeOnly
      · exact hmode
      · exact hmode
    · refine .inr ⟨⟨rest, s.treeOnly⟩, mem_descendants.mpr ⟨hends, ?_⟩, hrest, fun htreeOnly => ?_⟩
      · rw [← hsegments]
        exact hs
      · obtain ⟨id, ⟨hnil, -⟩ | ⟨-, hentry⟩⟩ := htree htreeOnly
        · exact absurd hnil hends
        · exact ⟨id, hentry⟩
  · rintro (⟨s, hs, hsegments, hmode⟩ | ⟨s, hs, hstart, htree⟩)
    · refine ⟨s, hs, ?_, fun htreeOnly => ⟨item.id, ?_⟩⟩
      · rw [hsegments]
        exact cons_prefix_cons.mpr ⟨rfl, nil_prefix⟩
      · rw [hsegments, entryAt_content_iff hitem]
        exact .inl ⟨rfl, hmode htreeOnly, rfl⟩
    · obtain ⟨hne, hmem⟩ := mem_descendants.mp hs
      refine ⟨_, hmem, cons_prefix_cons.mpr ⟨rfl, hstart⟩, fun htreeOnly => ?_⟩
      obtain ⟨id, hentry⟩ := htree htreeOnly
      have hmode : item.mode = .tree := by
        rcases hpath with hmode | hnil
        · exact hmode
        · rw [hnil] at hstart
          exact absurd (prefix_nil.mp hstart) hne
      exact ⟨id, (entryAt_content_iff hitem).mpr (.inr ⟨hmode, hentry⟩)⟩

/-- An entry that is not taken, nor anything below it, is not selected. -/
theorem not_selectedBy_of_kept (hsels : Within (depth + 1) sels) {x : Oid} (hitem : item ∈ content kind x)
    (hr : removes (matching sels item.name) item.mode = false)
    (hentry : EntryAt (content kind) x (item.name :: path) mode id)
    (hbelow : item.mode = .tree → EntryAt (content kind) item.id path mode id →
      ¬ SelectedBy kind (descendants (matching sels item.name)) item.id path) :
    ¬ SelectedBy kind sels x (item.name :: path) := by
  have hkeeps : ¬ removes (matching sels item.name) item.mode = true := by rw [hr]; exact Bool.false_ne_true
  rcases (entryAt_content_iff hitem).mp hentry with ⟨rfl, -⟩ | ⟨htree, hentry⟩
  · rw [selectedBy_cons hsels hitem (.inr rfl), not_or]
    exact ⟨hkeeps, not_selectedBy_nil (hsels.descendants item.name) item.id⟩
  · rw [selectedBy_cons hsels hitem (.inl htree), not_or]
    exact ⟨hkeeps, hbelow htree hentry⟩

/-! ### What an exclusion changes and leaves -/

variable [DecidableEq Oid]

section Levels

/-- The item is changed by one level if and only if something at or below it is
selected. -/
theorem excludedItem_changed (hsels : Within (depth + 1) sels) {x : Oid} (hitem : item ∈ content kind x)
    (ih : (semExcludeInner kind depth item.id (descendants (matching sels item.name))).changed = true ↔
      ∃ path mode id, EntryAt (content kind) item.id path mode id ∧
        SelectedBy kind (descendants (matching sels item.name)) item.id path) :
    (excludedItem kind (semExcludeInner kind depth) sels item).1 = true ↔
      ∃ path mode id, EntryAt (content kind) x (item.name :: path) mode id ∧
        SelectedBy kind sels x (item.name :: path) := by
  rcases excludedItem_cases kind (semExcludeInner kind depth) sels item with
    ⟨hr, he⟩ | ⟨hr, hkept, he⟩ | ⟨-, htree, hchanged, he⟩
  · -- the entry itself is taken
    refine iff_of_true (by rw [he]) ⟨[], item.mode, item.id, ?_, ?_⟩
    · exact (entryAt_content_iff hitem).mpr (.inl ⟨rfl, rfl, rfl⟩)
    · exact (selectedBy_cons hsels hitem (.inr rfl)).mpr (.inl hr)
  · -- the entry is kept, and nothing below it is selected
    refine iff_of_false (by rw [he]; exact Bool.false_ne_true) ?_
    rintro ⟨path, mode, id, hentry, hsel⟩
    refine not_selectedBy_of_kept hsels hitem hr hentry (fun htree hentry hbelow => ?_) hsel
    rcases hkept htree with hnone | hunchanged
    · obtain ⟨s, hs, -⟩ := hbelow
      rw [hnone] at hs
      cases hs
    · rw [innerResult, ih.mpr ⟨path, mode, id, hentry, hbelow⟩] at hunchanged
      cases hunchanged
  · -- something below the entry is selected
    refine iff_of_true (by rw [he]) ?_
    obtain ⟨path, mode, id, hentry, hsel⟩ := ih.mp hchanged
    refine ⟨path, mode, id, (entryAt_content_iff hitem).mpr (.inr ⟨htree, hentry⟩), ?_⟩
    exact (selectedBy_cons hsels hitem (.inl htree)).mpr (.inr hsel)

/-- **An exclusion changes a tree if and only if it selects an entry of it.** -/
theorem changed_iff_selects : ∀ {depth : ℕ} {sels : List SelectorRef}, Within depth sels → ∀ x : Oid,
    (semExcludeInner kind depth x sels).changed = true ↔
      ∃ path mode id, EntryAt (content kind) x path mode id ∧ SelectedBy kind sels x path
  | 0, sels, hsels, x => by
    refine iff_of_false (by simp [semExcludeInner]) ?_
    rintro ⟨path, mode, id, -, s, hs, -⟩
    obtain ⟨hne, hlen⟩ := hsels s hs
    exact hne (length_eq_zero_iff.mp (by omega))
  | depth + 1, sels, hsels, x => by
    have hitem : ∀ item ∈ content kind x, _ := fun item hitem =>
      excludedItem_changed hsels hitem (changed_iff_selects (hsels.descendants item.name) item.id)
    have hchanged : (semExcludeInner kind (depth + 1) x sels).changed = changesItems kind depth x sels := by
      rw [semExcludeInner_succ]
      cases changesItems kind depth x sels <;> rfl
    rw [hchanged, changesItems, any_eq_true]
    constructor
    · rintro ⟨item, hmem, h⟩
      obtain ⟨path, mode, id, hentry, hsel⟩ := (hitem item hmem).mp h
      exact ⟨item.name :: path, mode, id, hentry, hsel⟩
    · rintro ⟨path, mode, id, hentry, hsel⟩
      cases path with
      | nil => exact absurd hentry not_entryAt_nil
      | cons name path =>
        obtain ⟨item, hmem, rfl, -⟩ := entryAt_cons.mp hentry
        exact ⟨item, hmem, (hitem item hmem).mpr ⟨path, mode, id, hentry, hsel⟩⟩

theorem not_selected_of_unchanged (hsels : Within depth sels) {x : Oid}
    (h : (semExcludeInner kind depth x sels).changed = false) (hentry : EntryAt (content kind) x path mode id) :
    ¬ SelectedBy kind sels x path := by
  intro hsel
  rw [(changed_iff_selects hsels x).mpr ⟨path, mode, id, hentry, hsel⟩] at h
  cases h

/-- **A tree that is changed is another tree.** -/
theorem treeId_ne_of_changed : ∀ {depth : ℕ} {sels : List SelectorRef}
    {x : Oid}, (semExcludeInner kind depth x sels).changed = true → (semExcludeInner kind depth x sels).treeId ≠ x
  | 0, _, _, h => by cases h
  | depth + 1, sels, x, h => by
    intro hsame
    rw [semExcludeInner_succ] at h hsame
    split at h
    · rename_i hchanges
      rw [if_pos hchanges] at hsame
      obtain ⟨item, hitem, hitemChanged⟩ := any_eq_true.mp hchanges
      -- the item is among the items left, so it is what is left of itself
      have hleft : item ∈ leftItems kind depth x sels := by
        have hmem := hitem
        rw [← hsame] at hmem
        exact (mem_content_mkTree (nodup_leftItems depth x sels)).mp hmem
      obtain ⟨⟨other, hother, hin⟩, -⟩ := mem_leftItems.mp hleft
      obtain rfl := eq_of_name_eq (content_nodup kind x) hitem hother (name_of_mem_excludedItem hin)
      rcases excludedItem_cases kind (semExcludeInner kind depth) sels item with
        ⟨-, he⟩ | ⟨-, -, he⟩ | ⟨-, -, hinner, he⟩
      · rw [he] at hin
        cases hin
      · rw [he] at hitemChanged
        cases hitemChanged
      · rw [he] at hin
        dsimp only at hin
        split at hin
        · cases hin
        · have hid := congrArg TreeItem.id (mem_singleton.mp hin)
          exact treeId_ne_of_changed hinner hid.symm
    · cases h

theorem treeId_eq_iff_unchanged {x : Oid} :
    (semExcludeInner kind depth x sels).treeId = x ↔ (semExcludeInner kind depth x sels).changed = false := by
  refine ⟨fun hsame => ?_, treeId_of_unchanged⟩
  rw [← Bool.not_eq_true]
  exact fun hchanged => treeId_ne_of_changed hchanged hsame

omit [DecidableEq Oid] in
/-- An id with an entry below it is not the empty tree's. -/
theorem ne_empty_of_entryAt {x : Oid}
    (h : EntryAt (content kind) x path mode id) : x ≠ emptyTreeId kind := by
  rintro rfl
  cases path with
  | nil => exact not_entryAt_nil h
  | cons name path =>
    obtain ⟨item, hitem, -⟩ := entryAt_cons.mp h
    rw [content_empty] at hitem
    cases hitem

/-- What a changed tree holds. -/
theorem mem_content_of_changes {x : Oid}
    (h : changesItems kind depth x sels = true) {it : TreeItem Oid} :
    it ∈ content kind (semExcludeInner kind (depth + 1) x sels).treeId ↔
      (∃ item ∈ content kind x, it ∈ (excludedItem kind (semExcludeInner kind depth) sels item).2) ∧
        (it.mode = .tree → it.id ≠ emptyTreeId kind) := by
  rw [semExcludeInner_succ, if_pos h, mem_content_mkTree (nodup_leftItems depth x sels), mem_leftItems]

/-- **Of the entries that are not directories, those that are not selected are left.** -/
theorem entryAt_semExcludeInner (hmode : mode ≠ .tree) :
    ∀ {depth : ℕ} {sels : List SelectorRef}, Within depth sels → ∀ (x : Oid) (path : Path),
    EntryAt (content kind) (semExcludeInner kind depth x sels).treeId path mode id ↔
      EntryAt (content kind) x path mode id ∧ ¬ SelectedBy kind sels x path := by
  intro depth
  induction depth with
  | zero =>
    intro sels hsels x path
    exact ⟨fun h => ⟨h, not_selected_of_unchanged hsels rfl h⟩, fun h => h.1⟩
  | succ depth ih =>
    intro sels hsels x path
    cases hchanges : changesItems kind depth x sels with
    | false =>
      have hsame : semExcludeInner kind (depth + 1) x sels = ⟨x, false⟩ := by
        rw [semExcludeInner_succ, hchanges]
        rfl
      rw [hsame]
      exact ⟨fun h => ⟨h, not_selected_of_unchanged hsels (by rw [hsame]) h⟩, fun h => h.1⟩
    | true =>
      cases path with
      | nil => exact iff_of_false not_entryAt_nil fun h => not_entryAt_nil h.1
      | cons name path =>
        constructor
        · intro h
          obtain ⟨it, hit, rfl, hat⟩ := entryAt_cons.mp h
          obtain ⟨⟨item, hitem, hin⟩, -⟩ := (mem_content_of_changes hchanges).mp hit
          have hname := name_of_mem_excludedItem hin
          rw [hname]
          rcases excludedItem_cases kind (semExcludeInner kind depth) sels item with
            ⟨-, he⟩ | ⟨hr, hkept, he⟩ | ⟨hr, htree, -, he⟩
          · rw [he] at hin
            cases hin
          · -- kept: nothing below it is selected
            rw [he] at hin
            obtain rfl := mem_singleton.mp hin
            have hentry := (entryAt_content_iff hitem).mpr hat
            refine ⟨hentry, not_selectedBy_of_kept hsels hitem hr hentry fun htree hentry hsel => ?_⟩
            rcases hkept htree with hnone | hunchanged
            · obtain ⟨s, hs, -⟩ := hsel
              rw [hnone] at hs
              cases hs
            · exact not_selected_of_unchanged (hsels.descendants it.name) hunchanged hentry hsel
          · -- rewritten: by induction
            rw [he] at hin
            dsimp only at hin
            split at hin
            · cases hin
            · obtain rfl := mem_singleton.mp hin
              rcases hat with ⟨-, heq, -⟩ | ⟨-, hbelow⟩
              · exact absurd heq.symm hmode
              · obtain ⟨hbelow, hnot⟩ := (ih (hsels.descendants item.name) item.id path).mp hbelow
                have hentry := (entryAt_content_iff hitem).mpr (.inr ⟨htree, hbelow⟩)
                exact ⟨hentry, not_selectedBy_of_kept hsels hitem hr hentry fun _ _ => hnot⟩
        · rintro ⟨h, hnot⟩
          obtain ⟨item, hitem, rfl, hat⟩ := entryAt_cons.mp h
          have hpath : item.mode = .tree ∨ path = [] := hat.elim (fun h => .inr h.1) fun h => .inl h.1
          rw [selectedBy_cons hsels hitem hpath, not_or] at hnot
          obtain ⟨hremoves, hbelow⟩ := hnot
          rcases excludedItem_cases kind (semExcludeInner kind depth) sels item with
            ⟨hr, -⟩ | ⟨-, -, he⟩ | ⟨-, htree, -, he⟩
          · exact absurd hr hremoves
          · refine entryAt_cons.mpr ⟨item, (mem_content_of_changes hchanges).mpr ⟨⟨item, hitem, ?_⟩, ?_⟩, rfl, hat⟩
            · rw [he]
              exact mem_singleton_self item
            · intro htree
              rcases hat with ⟨-, heq, -⟩ | ⟨-, hentry⟩
              · exact absurd (heq.symm.trans htree) hmode
              · exact ne_empty_of_entryAt hentry
          · rcases hat with ⟨-, heq, -⟩ | ⟨-, hentry⟩
            · exact absurd (heq.symm.trans htree) hmode
            · have hleft := (ih (hsels.descendants item.name) item.id path).mpr ⟨hentry, hbelow⟩
              have hne := ne_empty_of_entryAt hleft
              refine entryAt_cons.mpr ⟨treeItem item.name _,
                (mem_content_of_changes hchanges).mpr ⟨⟨item, hitem, ?_⟩, fun _ => hne⟩, rfl, .inr ⟨rfl, hleft⟩⟩
              rw [he]
              dsimp only
              rw [if_neg (show ¬ (innerResult (semExcludeInner kind depth) sels item).treeId = emptyTreeId kind from hne)]
              exact mem_singleton_self _

/-- **A directory of the result is one of the tree, or holds no empty tree.** -/
theorem dirAt_semExcludeInner : ∀ {depth : ℕ} {sels : List SelectorRef}
    {x : Oid} {path : Path} {y : Oid}, DirAt (content kind) (semExcludeInner kind depth x sels).treeId path y →
    DirAt (content kind) x path y ∨ ∀ item ∈ content kind y, item.mode = .tree → item.id ≠ emptyTreeId kind
  | 0, _, _, _, _, h => .inl h
  | depth + 1, sels, x, path, y, h => by
    cases hchanges : changesItems kind depth x sels with
    | false =>
      rw [semExcludeInner_succ, hchanges] at h
      exact .inl h
    | true =>
      cases path with
      | nil =>
        obtain rfl := h
        exact .inr fun item hitem => ((mem_content_of_changes hchanges).mp hitem).2
      | cons name path =>
        obtain ⟨sub, hsub, hdir⟩ := h
        obtain ⟨⟨item, hitem, hin⟩, -⟩ := (mem_content_of_changes hchanges).mp hsub
        have hname : name = item.name := name_of_mem_excludedItem hin
        rcases excludedItem_cases kind (semExcludeInner kind depth) sels item with
          ⟨-, he⟩ | ⟨-, -, he⟩ | ⟨-, htree, -, he⟩
        · rw [he] at hin
          cases hin
        · rw [he] at hin
          obtain rfl := mem_singleton.mp hin
          exact .inl ⟨sub, hitem, hdir⟩
        · rw [he] at hin
          dsimp only at hin
          split at hin
          · cases hin
          · have hid : sub = (innerResult (semExcludeInner kind depth) sels item).treeId :=
              congrArg TreeItem.id (mem_singleton.mp hin)
            rw [hid] at hdir
            refine (dirAt_semExcludeInner hdir).imp_left fun hdir => ⟨item.id, ?_, hdir⟩
            rw [hname, ← htree]
            exact hitem

end Levels

/-! ### Reading trees -/

/-- The items of a tree as they are read; none if it cannot be read. -/
def listing (kind : HashKind Oid) (source : TreeSource Oid) (x : Oid) : List (TreeItem Oid) :=
  match readTree kind source x with
  | .ok tree => tree.items
  | .error _ => []

section Reading

variable {items : Oid → List (TreeItem Oid)}

omit [DecidableEq Oid] in
theorem reach_of_dirAt : ∀ {path : Path} {x y : Oid}, DirAt (content kind) x path y → Reach kind x y
  | [], x, y, h => by
    obtain rfl : y = x := h
    exact reach_refl y
  | name :: path, x, y, h => by
    obtain ⟨sub, hsub, hdir⟩ := h
    exact (reach_of_mem hsub rfl).trans (reach_of_dirAt hdir)

omit [DecidableEq Oid] in
/-- A reader that sees the contents below a tree sees its directories. -/
theorem dirAt_iff_content : ∀ {path : Path} {x y : Oid}, (∀ z, Reach kind x z → items z = content kind z) →
    (DirAt items x path y ↔ DirAt (content kind) x path y)
  | [], _, _, _ => Iff.rfl
  | name :: path, x, y, h => by
    refine exists_congr fun sub => ?_
    rw [h x (reach_refl x)]
    refine and_congr_right fun hsub => dirAt_iff_content fun z hz => h z ?_
    exact (reach_of_mem hsub rfl).trans hz

omit [DecidableEq Oid] in
theorem entryAt_iff_content {x : Oid} (h : ∀ z, Reach kind x z → items z = content kind z) :
    EntryAt items x path mode id ↔ EntryAt (content kind) x path mode id := by
  refine exists_congr fun dir => exists_congr fun name => exists_congr fun y => and_congr_right fun _ => ?_
  rw [dirAt_iff_content h]
  exact and_congr_right fun hdir => by rw [h y (reach_of_dirAt hdir)]

omit [DecidableEq Oid] in
theorem selects_iff_content {x : Oid} (h : ∀ z, Reach kind x z → items z = content kind z) {selector : Selector} :
    Selects items x selector path ↔ Selects (content kind) x selector path := by
  cases selector with
  | entry p => exact Iff.rfl
  | tree p => exact and_congr_right fun _ => exists_congr fun id => entryAt_iff_content h

theorem listing_eq_content {source : TreeSource Oid}
    (hsrc : ContentAddressed kind source) {x : Oid} {tree : Tree Oid} (h : readTree kind source x = .ok tree) :
    listing kind source x = content kind x := by
  rw [listing, h]
  exact content_of_readTree hsrc h

end Reading

section Statement

variable {source : TreeSource Oid} (hsrc : ContentAddressed kind source)

include hsrc

theorem listing_of_fullyReadable {x y : Oid} (h : FullyReadable kind source x) (hy : Reach kind x y) :
    listing kind source y = content kind y := by
  obtain ⟨tree, htree⟩ := readTree_of_fullyReadable hsrc h hy
  exact listing_eq_content hsrc htree

/-- With the trees built for it, everything below the result can be read. -/
theorem listing_of_output {f : Filter} {x y : Oid} {output : FilterOutput Oid} (hread : FullyReadable kind source x)
    (h : OutputRight kind f x output) (hy : Reach kind output.treeId y) :
    listing kind (overlayTreeSource source output.trees) y = content kind y := by
  have hca := contentAddressed_overlay hsrc h.genuine
  have hok : ∃ tree, readTree kind (overlayTreeSource source output.trees) y = .ok tree := by
    unfold readTree overlayTreeSource
    by_cases hempty : y = emptyTreeId kind
    · exact ⟨Tree.nil, by rw [if_pos hempty]⟩
    rw [if_neg hempty]
    cases hlookup : output.trees.lookup y with
    | some tree => exact ⟨tree, rfl⟩
    | none =>
      rcases h.covers y hy with hy | hy | ⟨z, hz, hy⟩
      · exact absurd hy hempty
      · exact absurd hy (lookup_eq_none_iff_notMem.mp hlookup)
      · obtain rfl := mem_singleton.mp hz
        obtain ⟨tree, htree⟩ := readTree_of_fullyReadable hsrc hread hy
        rw [readTree, if_neg hempty] at htree
        exact ⟨tree, htree⟩
  obtain ⟨tree, htree⟩ := hok
  exact listing_eq_content hca htree

end Statement

omit [DecidableEq Oid] in
/-- The selectors of a filter, as the code hands them down. -/
theorem selectedBy_refs {selectors : List Selector} {x : Oid} :
    SelectedBy kind (selectors.map SelectorRef.fromSelector) x path ↔
      ∃ selector ∈ selectors, Selects (content kind) x selector path := by
  constructor
  · rintro ⟨s, hs, hstart, htree⟩
    obtain ⟨selector, hselector, rfl⟩ := mem_map.mp hs
    refine ⟨selector, hselector, ?_⟩
    cases selector with
    | entry p => exact hstart
    | tree p => exact ⟨hstart, htree rfl⟩
  · rintro ⟨selector, hselector, h⟩
    refine ⟨_, mem_map_of_mem hselector, ?_⟩
    cases selector with
    | entry p => exact ⟨h, nofun⟩
    | tree p => exact ⟨h.1, fun _ => h.2⟩

theorem within_refs (selectors : List Selector) :
    Within (maxSegments (selectors.map SelectorRef.fromSelector)) (selectors.map SelectorRef.fromSelector) := by
  intro s hs
  refine ⟨?_, ?_⟩
  · obtain ⟨selector, -, rfl⟩ := mem_map.mp hs
    cases selector with
    | entry p => exact p.nonempty
    | tree p => exact p.nonempty
  · exact maxSegments_le_iff.mp le_rfl s hs

/-- **An exclusion removes exactly what is selected.** On a tree that can be read it returns a tree
whose entries that are not directories are those of the tree that no selector takes; it is the same
tree if and only if nothing of it is taken; and a directory of it that is not the tree's own holds
no empty tree. -/
theorem exclude_exact (kind : HashKind Oid) [Contents kind] (source : TreeSource Oid)
    (hsrc : ContentAddressed kind source) (fuel : ℕ) (memo : FilterMemo Oid) (hmemo : MemoSound kind memo)
    (selectors : List Selector) (x : Oid) (hread : FullyReadable kind source x) :
    ∃ output, (filterTree kind source fuel memo (.exclude selectors) x).1 = .ok output ∧
      (∀ path mode id, mode ≠ .tree →
        (EntryAt (listing kind (overlayTreeSource source output.trees)) output.treeId path mode id ↔
          EntryAt (listing kind source) x path mode id ∧
            ∀ selector ∈ selectors, ¬ Selects (listing kind source) x selector path)) ∧
      (output.treeId = x ↔
        ∀ path mode id, EntryAt (listing kind source) x path mode id →
          ∀ selector ∈ selectors, ¬ Selects (listing kind source) x selector path) ∧
      ∀ path y, DirAt (listing kind (overlayTreeSource source output.trees)) output.treeId path y →
        DirAt (listing kind source) x path y ∨
          ∀ item ∈ listing kind (overlayTreeSource source output.trees) y,
            item.mode = .tree → item.id ≠ emptyTreeId kind := by
  have hfits : Fits kind fuel (.exclude selectors) x := by simp [Fits]
  obtain ⟨output, hrun, htreeId⟩ := filterTree_ok hsrc rfl hmemo hread hfits
  have hright : OutputRight kind (.exclude selectors) x output := by
    have hanswer := (filterTree_spec hsrc fuel (f := .exclude selectors) rfl hmemo x).2
    rwa [hrun] at hanswer
  have hinput : ∀ z, Reach kind x z → listing kind source z = content kind z := fun z hz =>
    listing_of_fullyReadable hsrc hread hz
  have houtput : ∀ z, Reach kind output.treeId z →
      listing kind (overlayTreeSource source output.trees) z = content kind z := fun z hz =>
    listing_of_output hsrc hread hright hz
  have hselects : ∀ path, (∀ selector ∈ selectors, ¬ Selects (listing kind source) x selector path) ↔
      ¬ SelectedBy kind (selectors.map SelectorRef.fromSelector) x path := by
    intro path
    rw [selectedBy_refs, not_exists]
    refine forall_congr' fun selector => ?_
    rw [selects_iff_content hinput, not_and]
  have hwithin := within_refs selectors
  refine ⟨output, hrun, ?_, ?_, ?_⟩
  · intro path mode id hmode
    rw [entryAt_iff_content houtput, entryAt_iff_content hinput, hselects, htreeId]
    exact entryAt_semExcludeInner hmode hwithin x path
  · have hsame : output.treeId = x ↔ (semExcludeInner kind (maxSegments (selectors.map SelectorRef.fromSelector)) x
        (selectors.map SelectorRef.fromSelector)).changed = false := by
      rw [htreeId]
      exact treeId_eq_iff_unchanged
    rw [hsame, ← Bool.not_eq_true, changed_iff_selects hwithin x]
    simp only [entryAt_iff_content hinput, hselects, not_exists, not_and]
  · intro path y hdir
    rw [dirAt_iff_content houtput] at hdir
    rw [dirAt_iff_content hinput, houtput y (reach_of_dirAt hdir)]
    rw [htreeId] at hdir
    exact dirAt_semExcludeInner hdir

theorem exclude_exact_abcRoot :
    FullyReadable structuralKind structuralSource abcRoot ∧ ∃ output,
      (filterTree structuralKind structuralSource 0 freshMemo (.exclude [.tree pathA]) abcRoot).1 = .ok output ∧
        output.treeId ≠ abcRoot ∧
        ∀ id, ¬ EntryAt (listing structuralKind (overlayTreeSource structuralSource output.trees)) output.treeId
          [['a'], ['n']] .blob id := by
  have hread : FullyReadable structuralKind structuralSource abcRoot := fullyReadable_of_wellFormed (by decide)
  obtain ⟨output, hrun, hentries, hsame, -⟩ := exclude_exact structuralKind structuralSource
    contentAddressed_structuralSource 0 freshMemo (memoSound_withCapacity _ _) [.tree pathA] abcRoot hread
  have hdir : EntryAt (listing structuralKind structuralSource) abcRoot [['a']] .tree (dirOf 1) :=
    ⟨[], ['a'], abcRoot, rfl, rfl, by decide⟩
  refine ⟨hread, output, hrun, fun heq => ?_, fun id hentry => ?_⟩
  · exact hsame.mp heq _ _ _ hdir _ mem_cons_self ⟨prefix_rfl, dirOf 1, hdir⟩
  · exact ((hentries _ _ id (by decide)).mp hentry).2 _ mem_cons_self
      ⟨cons_prefix_cons.mpr ⟨rfl, nil_prefix⟩, dirOf 1, hdir⟩

end View
end Mega
