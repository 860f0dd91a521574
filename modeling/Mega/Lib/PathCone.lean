/-
# Cones of paths

A path is a list of names. The paths at or below a set of places form a set
that is closed under extension, a *cone*. Moving a directory down below a path
`q` moves a cone by `plant q`; looking at what lies below `q` is `strip q`.
Nothing here knows what the names are.

The two facts the rest builds on: two finitely generated cones are disjoint
exactly when no generator of one is above a generator of the other
(`disjoint_cone_iff`), and in a sorted list of paths two comparable paths
already show as two comparable neighbours (`pairwise_incomparable_of_chain`).

Key definitions: `UpClosed`, `strip`, `plant`, `cone`.
Key theorems: `disjoint_cone_iff`, `pairwise_incomparable_of_chain`.
-/
import Mathlib

namespace PathCone

open List

variable {α : Type*}
variable {C : Set (List α)} {p : List α}

/-- A set of paths that holds every extension of each of its members. -/
def UpClosed (C : Set (List α)) : Prop :=
  ∀ ⦃p⦄, p ∈ C → ∀ q, p ++ q ∈ C

/-- What of `C` lies below `q`, seen from `q`. -/
def strip (q : List α) (C : Set (List α)) : Set (List α) :=
  {p | q ++ p ∈ C}

/-- `C` moved down below `q`. -/
def plant (q : List α) (C : Set (List α)) : Set (List α) :=
  {x | ∃ p ∈ C, q ++ p = x}

/-- The cone of a list of paths: everything at or below one of them. -/
def cone (ps : List (List α)) : Set (List α) :=
  {x | ∃ p ∈ ps, p <+: x}

@[simp] theorem mem_strip {q p : List α} {C : Set (List α)} : p ∈ strip q C ↔ q ++ p ∈ C := Iff.rfl

theorem mem_plant {q x : List α} : x ∈ plant q C ↔ ∃ p ∈ C, q ++ p = x := Iff.rfl

@[simp] theorem append_mem_plant {q p : List α} {C : Set (List α)} : q ++ p ∈ plant q C ↔ p ∈ C := by
  simp [plant]

theorem mem_cone {ps : List (List α)} {x : List α} : x ∈ cone ps ↔ ∃ p ∈ ps, p <+: x := Iff.rfl

@[simp] theorem plant_nil (C : Set (List α)) : plant [] C = C := by
  ext x; simp [plant]

@[simp] theorem plant_empty (q : List α) : plant q (∅ : Set (List α)) = ∅ := by
  ext x; simp [plant]

@[simp] theorem strip_append (a b : List α) (C : Set (List α)) : strip (a ++ b) C = strip b (strip a C) := by
  ext p; simp

theorem strip_cons (a : α) (q : List α) (C : Set (List α)) : strip (a :: q) C = strip q (strip [a] C) :=
  strip_append [a] q C

@[simp] theorem plant_append (a b : List α) (C : Set (List α)) : plant (a ++ b) C = plant a (plant b C) := by
  ext x
  constructor
  · rintro ⟨p, hp, rfl⟩
    exact ⟨b ++ p, ⟨p, hp, rfl⟩, by simp⟩
  · rintro ⟨_, ⟨p, hp, rfl⟩, rfl⟩
    exact ⟨p, hp, by simp⟩

theorem strip_plant_self (p : List α) (C : Set (List α)) : strip p (plant p C) = C := by
  ext x; simp

/-- Nothing planted at `p` lies below an incomparable `q`. -/
theorem strip_plant_eq_empty {q : List α} (hpq : ¬ p <+: q) (hqp : ¬ q <+: p) (C : Set (List α)) :
    strip q (plant p C) = ∅ := by
  ext x
  simp only [mem_strip, mem_plant, Set.mem_empty_iff_false, iff_false]
  rintro ⟨y, -, hy⟩
  have hp : p <+: q ++ x := hy ▸ prefix_append p y
  have hq : q <+: q ++ x := prefix_append q x
  rcases prefix_or_prefix_of_prefix hp hq with h | h
  · exact hpq h
  · exact hqp h

theorem strip_mono {D : Set (List α)} (h : C ⊆ D) (q : List α) : strip q C ⊆ strip q D :=
  fun _ hp => h hp

theorem plant_mono {D : Set (List α)} (h : C ⊆ D) (q : List α) : plant q C ⊆ plant q D := by
  rintro _ ⟨p, hp, rfl⟩
  exact ⟨p, h hp, rfl⟩

/-! ### Closed sets -/

theorem UpClosed.of_isPrefix (h : UpClosed C) {x : List α} (hp : p ∈ C) (hx : p <+: x) : x ∈ C := by
  obtain ⟨q, rfl⟩ := hx
  exact h hp q

theorem upClosed_univ : UpClosed (Set.univ : Set (List α)) := fun _ _ _ => trivial

theorem upClosed_empty : UpClosed (∅ : Set (List α)) := fun _ h => h.elim

theorem UpClosed.strip (h : UpClosed C) (q : List α) : UpClosed (strip q C) := by
  intro p hp r
  simpa using h hp r

theorem UpClosed.plant (h : UpClosed C) (q : List α) : UpClosed (plant q C) := by
  rintro _ ⟨p, hp, rfl⟩ r
  exact ⟨p ++ r, h hp r, by simp⟩

/-- A closed set that holds the empty path holds every path. -/
theorem UpClosed.eq_univ (h : UpClosed C) (hnil : [] ∈ C) : C = Set.univ :=
  Set.eq_univ_of_forall fun q => h hnil q

/-! ### Finitely generated cones -/

@[simp] theorem cone_nil : cone ([] : List (List α)) = ∅ := by
  ext x; simp [cone]

@[simp] theorem cone_append (ps qs : List (List α)) : cone (ps ++ qs) = cone ps ∪ cone qs := by
  ext x; simp [cone, or_and_right, exists_or]

theorem cone_singleton_nil : cone ([[]] : List (List α)) = Set.univ := by
  ext x; simp [cone]

theorem mem_cone_of_mem {ps : List (List α)} (h : p ∈ ps) : p ∈ cone ps :=
  ⟨p, h, prefix_rfl⟩

theorem cone_congr {ps qs : List (List α)} (h : ∀ p, p ∈ ps ↔ p ∈ qs) : cone ps = cone qs := by
  ext x; simp [cone, h]

/-- The cone of a list is planted by prepending the path to every generator. -/
theorem cone_map_append (q : List α) (ps : List (List α)) :
    cone (ps.map (q ++ ·)) = plant q (cone ps) := by
  ext x
  simp only [mem_cone, mem_map, mem_plant]
  constructor
  · rintro ⟨_, ⟨p, hp, rfl⟩, r, rfl⟩
    exact ⟨p ++ r, ⟨p, hp, prefix_append p r⟩, by simp⟩
  · rintro ⟨_, ⟨p, hp, r, rfl⟩, rfl⟩
    exact ⟨q ++ p, ⟨p, hp, rfl⟩, ⟨r, by simp⟩⟩

/-- **Two cones are disjoint exactly when their generators are pairwise
incomparable.** Two generators of one common path are comparable. -/
theorem disjoint_cone_iff (ps qs : List (List α)) :
    Disjoint (cone ps) (cone qs) ↔ ∀ p ∈ ps, ∀ q ∈ qs, ¬ p <+: q ∧ ¬ q <+: p := by
  rw [Set.disjoint_left]
  constructor
  · intro h p hp q hq
    refine ⟨fun hpq => ?_, fun hqp => ?_⟩
    · exact h ⟨p, hp, hpq⟩ (mem_cone_of_mem hq)
    · exact h (mem_cone_of_mem hp) ⟨q, hq, hqp⟩
  · rintro h x ⟨p, hp, hpx⟩ ⟨q, hq, hqx⟩
    obtain ⟨h1, h2⟩ := h p hp q hq
    rcases prefix_or_prefix_of_prefix hpx hqx with hpq | hqp
    · exact h1 hpq
    · exact h2 hqp

/-! ### Scanning a sorted list for comparable paths -/

section Sorted

variable [LinearOrder α]

theorem nil_le_path (p : List α) : [] ≤ p := not_lt.mp (not_lt_nil p)

theorem cons_le_cons_path {a b : α} {q : List α} : a :: p ≤ b :: q ↔ a < b ∨ a = b ∧ p ≤ q := by
  rw [← not_lt, cons_lt_cons_iff, not_or, not_and, not_lt, not_lt, le_iff_lt_or_eq]
  constructor
  · rintro ⟨hab | hab, h⟩
    · exact .inl hab
    · exact .inr ⟨hab, h hab.symm⟩
  · rintro (hab | ⟨rfl, h⟩)
    · exact ⟨.inl hab, fun hba => absurd hab (hba ▸ lt_irrefl _)⟩
    · exact ⟨.inr rfl, fun _ => h⟩

/-- A prefix comes first in the lexicographic order. -/
theorem le_of_isPrefix : ∀ {p q : List α}, p <+: q → p ≤ q
  | [], _, _ => nil_le_path _
  | a :: p, q, h => by
    obtain ⟨r, rfl⟩ := h
    exact cons_le_cons_path.mpr (.inr ⟨rfl, le_of_isPrefix (prefix_append p r)⟩)

/-- What lies between a path and one of its extensions extends the path too. -/
theorem isPrefix_of_between : ∀ {p x q : List α}, p ≤ x → x ≤ q → p <+: q → p <+: x
  | [], _, _, _, _, _ => nil_prefix
  | a :: p, [], _, hpx, _, _ => absurd hpx (not_le.mpr (nil_lt_cons a p))
  | a :: p, b :: x, q, hpx, hxq, hpq => by
    obtain ⟨r, rfl⟩ := hpq
    rw [cons_append] at hxq
    rcases cons_le_cons_path.mp hpx with hab | ⟨rfl, hpx'⟩
    · rcases cons_le_cons_path.mp hxq with hba | ⟨rfl, -⟩
      · exact absurd hab hba.not_gt
      · exact absurd hab (lt_irrefl _)
    · rcases cons_le_cons_path.mp hxq with hba | ⟨-, hxq'⟩
      · exact absurd hba (lt_irrefl _)
      · exact cons_prefix_cons.mpr
          ⟨rfl, isPrefix_of_between hpx' hxq' (prefix_append p r)⟩

/-- **Neighbours show every overlap.** In a sorted list of paths where no path
is above its right neighbour, no two paths are comparable. -/
theorem pairwise_incomparable_of_chain : ∀ {l : List (List α)}, l.Pairwise (· ≤ ·) →
    l.IsChain (fun a b => ¬ a <+: b) → l.Pairwise (fun a b => ¬ a <+: b ∧ ¬ b <+: a)
  | [], _, _ => List.Pairwise.nil
  | [_], _, _ => pairwise_singleton _ _
  | a :: b :: l, hs, hc => by
    obtain ⟨ha, hbl⟩ := pairwise_cons.mp hs
    obtain ⟨hab, hc'⟩ := isChain_cons_cons.mp hc
    refine pairwise_cons.mpr ⟨fun x hx => ?_, pairwise_incomparable_of_chain hbl hc'⟩
    have hbx : b ≤ x := by
      rcases mem_cons.mp hx with rfl | hx'
      · exact le_rfl
      · exact (pairwise_cons.mp hbl).1 x hx'
    have hax : ¬ a <+: x := fun h => hab (isPrefix_of_between (ha b (by simp)) hbx h)
    refine ⟨hax, fun hxa => ?_⟩
    -- a path above an earlier one of the sorted list is that path
    have : a = x := le_antisymm (ha x hx) (le_of_isPrefix hxa)
    exact hax (this ▸ prefix_rfl)

end Sorted

end PathCone
