/-
# Object ids that are the objects

To run the model, ids have to be values. Here a tree's id is the tree itself, so
that ids are injective on contents by construction, and every tree can be read
from its id. A blob is a number.

Key definitions: `ObjectId`, `structuralKind`, `structuralSource`,
`ObjectId.wellFormed`, `abcRoot`.
Key theorems: `contentAddressed_structuralSource`, `fullyReadable_of_wellFormed`.
-/
import Mega.View.Meaning

namespace Mega
namespace View

inductive ObjectId where
  | blob (n : ℕ)
  | tree (items : List (TreeItem ObjectId))

mutual

def ObjectId.decEq : (a b : ObjectId) → Decidable (a = b)
  | .blob m, .blob n => decidable_of_iff (m = n) (by simp)
  | .tree xs, .tree ys =>
    match itemsDecEq xs ys with
    | isTrue h => isTrue (by rw [h])
    | isFalse h => isFalse fun heq => h (ObjectId.tree.inj heq)
  | .blob _, .tree _ => isFalse nofun
  | .tree _, .blob _ => isFalse nofun

def itemsDecEq : (xs ys : List (TreeItem ObjectId)) → Decidable (xs = ys)
  | [], [] => isTrue rfl
  | [], _ :: _ => isFalse nofun
  | _ :: _, [] => isFalse nofun
  | ⟨m, x, n⟩ :: xs, ⟨m', y, n'⟩ :: ys =>
    match ObjectId.decEq x y, itemsDecEq xs ys with
    | isTrue h, isTrue h' => decidable_of_iff (m = m' ∧ n = n') (by simp [h, h'])
    | isFalse h, _ => isFalse (by simp [h])
    | _, isFalse h => isFalse (by simp [h])

end

instance : DecidableEq ObjectId := ObjectId.decEq

/-- The bytes of one tree entry: mode, name and a 20-byte id. -/
def entryLen (item : TreeItem ObjectId) : ℕ :=
  (if item.mode = .tree then 5 else 6) + 1 + utf8Len item.name + 1 + 20

def structuralKind : HashKind ObjectId := ⟨.tree, fun items => (items.map entryLen).sum, 40⟩

instance : Contents structuralKind where
  content
    | .blob _ => []
    | .tree items => if (itemNames items).Nodup then items else []
  nodup := by
    rintro (_ | items)
    · exact List.nodup_nil
    · dsimp only
      split
      · assumption
      · exact List.nodup_nil
  content_treeHash := fun h => if_pos h

/-- Reads a tree from its id. -/
def structuralSource : TreeSource ObjectId
  | .blob n => .error ⟨.blob n, .absent⟩
  | .tree items =>
    if h : (itemNames items).Nodup then .ok ⟨items, h⟩ else .error ⟨.tree items, .malformed⟩

theorem contentAddressed_structuralSource : ContentAddressed structuralKind structuralSource := by
  intro x tree h
  cases x with
  | blob n => cases h
  | tree items =>
    by_cases hn : (itemNames items).Nodup
    · rw [structuralSource, dif_pos hn] at h
      cases h
      exact (content_treeHash hn).symm
    · rw [structuralSource, dif_neg hn] at h
      cases h

mutual

/-- A tree whose names are unique at every level. -/
def ObjectId.wellFormed : ObjectId → Bool
  | .blob _ => false
  | .tree items => decide (itemNames items).Nodup && itemsWellFormed items

def itemsWellFormed : List (TreeItem ObjectId) → Bool
  | [] => true
  | ⟨mode, x, _⟩ :: items => (mode != .tree || x.wellFormed) && itemsWellFormed items

end

theorem wellFormed_of_mem : ∀ {items : List (TreeItem ObjectId)}, itemsWellFormed items = true →
    ∀ item ∈ items, item.mode = .tree → item.id.wellFormed = true
  | [], _, _, h, _ => by cases h
  | ⟨mode, x, name⟩ :: items, h, item, hi, hm => by
    rw [itemsWellFormed, Bool.and_eq_true] at h
    rcases List.mem_cons.mp hi with rfl | hi
    · simp only at hm
      simpa [hm] using h.1
    · exact wellFormed_of_mem h.2 item hi hm

theorem fullyReadable_of_wellFormed {root : ObjectId} (h : root.wellFormed = true) :
    FullyReadable structuralKind structuralSource root := by
  have hread : ∀ x : ObjectId, x.wellFormed = true →
      ∃ tree, readTree structuralKind structuralSource x = .ok tree ∧
        ∀ item ∈ tree.items, item.mode = .tree → item.id.wellFormed = true := by
    intro x hx
    cases x with
    | blob n => cases hx
    | tree items =>
      rw [ObjectId.wellFormed, Bool.and_eq_true, decide_eq_true_iff] at hx
      unfold readTree
      split
      · exact ⟨Tree.nil, rfl, by simp [Tree.nil]⟩
      · exact ⟨⟨items, hx.1⟩, by rw [structuralSource, dif_pos hx.1], wellFormed_of_mem hx.2⟩
  intro x hx
  suffices hwf : x.wellFormed = true by
    obtain ⟨tree, htree, -⟩ := hread x hwf
    exact ⟨tree, htree⟩
  induction hx with
  | refl => exact h
  | tail _ hstep ih =>
    obtain ⟨tree, htree, item, hi, hm, rfl⟩ := hstep
    obtain ⟨tree', htree', hall⟩ := hread _ ih
    rw [htree] at htree'
    cases htree'
    exact hall item hi hm

/-! ### Small trees -/

/-- A path of one segment. -/
def onePath (name : Text) (h : validPathSegment name = true) : ViewPath := ⟨[name], by simp, by simpa using h⟩

/-- A directory with one file. -/
def dirOf (n : ℕ) : ObjectId := .tree [⟨.blob, .blob n, ['n']⟩]

/-- The directories `a`, `b` and `c`, with one file each. -/
def abcRoot : ObjectId := .tree [treeItem ['a'] (dirOf 1), treeItem ['b'] (dirOf 2), treeItem ['c'] (dirOf 3)]

def pathA : ViewPath := onePath ['a'] (by decide)

def pathB : ViewPath := onePath ['b'] (by decide)

def pathC : ViewPath := onePath ['c'] (by decide)

def pathX : ViewPath := onePath ['x'] (by decide)

/-- A fresh memo whose map yields its newest key first. -/
def freshMemo : FilterMemo ObjectId := .default fun _ => 0

end View
end Mega
