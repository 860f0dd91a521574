/-
# Sorting by a key

`sortBy key l` sorts `l` by the key of each element, keeping the order of
elements with equal keys: a stable sort by a cached key. When no two elements
share a key the result depends only on which elements there are.

Key definition: `sortBy`.
Key theorem: `sortBy_eq_of_perm`.
-/
import Mathlib

namespace KeySort

variable {α κ : Type*} [LinearOrder κ]

/-- `l`, sorted by `key`. -/
def sortBy (key : α → κ) (l : List α) : List α :=
  l.insertionSort fun a b => key a ≤ key b

variable (key : α → κ)

theorem sortBy_perm (l : List α) : (sortBy key l).Perm l :=
  List.perm_insertionSort _ l

theorem sortBy_pairwise (l : List α) : (sortBy key l).Pairwise fun a b => key a ≤ key b :=
  haveI : Std.Total fun a b : α => key a ≤ key b := ⟨fun a b => le_total (key a) (key b)⟩
  haveI : IsTrans α fun a b => key a ≤ key b := ⟨fun _ _ _ => le_trans⟩
  List.pairwise_insertionSort _ l

@[simp] theorem mem_sortBy {l : List α} {a : α} : a ∈ sortBy key l ↔ a ∈ l :=
  (sortBy_perm key l).mem_iff

@[simp] theorem length_sortBy (l : List α) : (sortBy key l).length = l.length :=
  (sortBy_perm key l).length_eq

variable {key}

theorem sortBy_eq_self {l : List α} (h : l.Pairwise fun a b => key a ≤ key b) : sortBy key l = l :=
  h.insertionSort_eq

/-- A sorted list is determined by its elements when no two share a key. -/
theorem eq_of_perm_of_sorted {l l' : List α} (hp : l.Perm l') (hl : l.Pairwise fun a b => key a ≤ key b)
    (hl' : l'.Pairwise fun a b => key a ≤ key b)
    (hk : ∀ a ∈ l, ∀ b ∈ l, key a = key b → a = b) : l = l' :=
  hp.eq_of_pairwise (fun a b ha hb hab hba => hk a ha b (hp.mem_iff.mpr hb) (le_antisymm hab hba)) hl hl'

/-- A sorted list without equal neighbours is strictly sorted, if no two elements share a key. -/
theorem pairwise_lt_of_isChain_ne (hkey : Function.Injective key) : ∀ {l : List α},
    l.Pairwise (fun a b => key a ≤ key b) → l.IsChain (· ≠ ·) → l.Pairwise fun a b => key a < key b
  | [], _, _ => List.Pairwise.nil
  | [a], _, _ => List.pairwise_singleton _ a
  | a :: b :: l, hsort, hne => by
    obtain ⟨hle, hsort⟩ := List.pairwise_cons.mp hsort
    obtain ⟨hab, hne⟩ := List.isChain_cons_cons.mp hne
    have hlt : key a < key b := lt_of_le_of_ne (hle b List.mem_cons_self) fun heq => hab (hkey heq)
    refine List.pairwise_cons.mpr ⟨?_, pairwise_lt_of_isChain_ne hkey hsort hne⟩
    intro c hc
    rcases List.mem_cons.mp hc with rfl | hc
    · exact hlt
    · exact hlt.trans_le ((List.pairwise_cons.mp hsort).1 c hc)

/-- Sorting forgets the order the elements came in. -/
theorem sortBy_eq_of_perm {l l' : List α} (hp : l.Perm l')
    (hk : ∀ a ∈ l, ∀ b ∈ l, key a = key b → a = b) : sortBy key l = sortBy key l' := by
  refine eq_of_perm_of_sorted (((sortBy_perm key l).trans hp).trans (sortBy_perm key l').symm)
    (sortBy_pairwise key l) (sortBy_pairwise key l') ?_
  intro a ha b hb
  exact hk a ((mem_sortBy key).mp ha) b ((mem_sortBy key).mp hb)

/-- Sorting commutes with a map that keeps the keys. -/
theorem sortBy_map {β : Type*} {key' : β → κ} {f : α → β} (h : ∀ a, key' (f a) = key a) (l : List α) :
    sortBy key' (l.map f) = (sortBy key l).map f := by
  refine (List.map_insertionSort _ _ f l ?_).symm
  intro a _ b _
  rw [h, h]

/-- Pairs sorted by what stands first, whatever is made of what stands second. -/
theorem sortBy_fst_map {β γ : Type*} (f : β → γ) (l : List (κ × β)) :
    sortBy Prod.fst (l.map fun m => (m.1, f m.2)) = (sortBy Prod.fst l).map fun m => (m.1, f m.2) :=
  sortBy_map (fun _ => rfl) l

end KeySort
