/-
# Trees over an interval

A rule that splits every count above one into two parts makes a binary tree over
the positions of an interval: an interval of one position is a leaf, and a longer
one has the two parts as children. Descending to a position leaves one part aside
at each step. The parts left aside and the position itself make up the interval
(`perm_siblings`), and a value that each node of the tree computes from its
children is computed again by climbing back from the position, joining the value
of the part left aside at each step (`climb_siblings`).

Key definitions: `Rule`, `parts`, `siblings`, `climb`.
Key theorems: `length_parts`, `nodup_parts`, `siblings_mem_parts`,
`nodup_siblings`, `perm_siblings`, `climb_siblings`.
-/
import Mathlib

namespace Bisect

open List

variable {index start count : ℕ}

/-- How many of `count` positions go to the left. -/
structure Rule where
  split : ℕ → ℕ
  pos : ∀ {count}, 1 < count → 0 < split count
  lt : ∀ {count}, 1 < count → split count < count

inductive Side where
  | left
  | right
deriving DecidableEq, Repr

variable (rule : Rule)

/-- The intervals of the tree, as start and count, children before their parent. -/
def parts (start count : ℕ) : List (ℕ × ℕ) :=
  if 1 < count then
    parts start (rule.split count) ++ parts (start + rule.split count) (count - rule.split count) ++ [(start, count)]
  else [(start, count)]
termination_by count
decreasing_by
  · exact rule.lt ‹1 < count›
  · exact Nat.sub_lt (Nat.zero_lt_of_lt ‹1 < count›) (rule.pos ‹1 < count›)

/-- The intervals left aside on the way down to a position, with their sides, the first one first. -/
def siblings (index start count : ℕ) : List (Side × ℕ × ℕ) :=
  if 1 < count then
    if index < start + rule.split count then
      (.right, start + rule.split count, count - rule.split count) :: siblings index start (rule.split count)
    else
      (.left, start, rule.split count) ::
        siblings index (start + rule.split count) (count - rule.split count)
  else []
termination_by count
decreasing_by
  · exact rule.lt ‹1 < count›
  · exact Nat.sub_lt (Nat.zero_lt_of_lt ‹1 < count›) (rule.pos ‹1 < count›)

variable {rule}

theorem parts_leaf (h : ¬ 1 < count) : parts rule start count = [(start, count)] := by
  rw [parts, if_neg h]

theorem parts_node (h : 1 < count) : parts rule start count =
    parts rule start (rule.split count) ++ parts rule (start + rule.split count) (count - rule.split count) ++
      [(start, count)] := by
  rw [parts, if_pos h]

theorem siblings_leaf (h : ¬ 1 < count) : siblings rule index start count = [] := by
  rw [siblings, if_neg h]

theorem siblings_left (h : 1 < count) (hindex : index < start + rule.split count) :
    siblings rule index start count =
      (.right, start + rule.split count, count - rule.split count) ::
        siblings rule index start (rule.split count) := by
  rw [siblings, if_pos h, if_pos hindex]

theorem siblings_right (h : 1 < count) (hindex : ¬ index < start + rule.split count) :
    siblings rule index start count =
      (.left, start, rule.split count) ::
        siblings rule index (start + rule.split count) (count - rule.split count) := by
  rw [siblings, if_pos h, if_neg hindex]

/-- Induction along the tree: a leaf, and a node from its two children. -/
@[elab_as_elim]
theorem Rule.induction (rule : Rule) {motive : ℕ → ℕ → Prop} (leaf : ∀ start count, ¬ 1 < count → motive start count)
    (node : ∀ start count, 1 < count → motive start (rule.split count) →
      motive (start + rule.split count) (count - rule.split count) → motive start count)
    (start count : ℕ) : motive start count := by
  induction count using Nat.strong_induction_on generalizing start with
  | _ count ih =>
    by_cases h : 1 < count
    · have hsplit := rule.pos h
      have hlt := rule.lt h
      exact node start count h (ih _ hlt start) (ih _ (by omega) _)
    · exact leaf start count h

/-! ### The intervals of the tree -/

/-- An interval lies inside another. -/
structure Inside (part : ℕ × ℕ) (start count : ℕ) : Prop where
  pos : 0 < part.2
  start_le : start ≤ part.1
  stop_le : part.1 + part.2 ≤ start + count

theorem Inside.left {part : ℕ × ℕ} (hcount : 1 < count) (h : Inside part start (rule.split count)) :
    Inside part start count := by
  have hlt := rule.lt hcount
  exact ⟨h.pos, h.start_le, h.stop_le.trans (by omega)⟩

theorem Inside.right {part : ℕ × ℕ} (hcount : 1 < count)
    (h : Inside part (start + rule.split count) (count - rule.split count)) : Inside part start count := by
  have hlt := rule.lt hcount
  have hstart := h.start_le
  have hstop := h.stop_le
  exact ⟨h.pos, by omega, by omega⟩

/-- Parts of the two halves differ. -/
theorem Inside.ne {a b : ℕ × ℕ} (ha : Inside a start (rule.split count))
    (hb : Inside b (start + rule.split count) (count - rule.split count)) : a ≠ b := by
  rintro rfl
  have hpos := ha.pos
  have hstop := ha.stop_le
  have hstart := hb.start_le
  omega

theorem inside_of_mem_parts (start count : ℕ) (hpos : 0 < count) :
    ∀ part ∈ parts rule start count, Inside part start count := by
  induction start, count using rule.induction with
  | leaf start count h =>
    intro part hpart
    rw [parts_leaf h, mem_singleton] at hpart
    rw [hpart]
    exact ⟨hpos, le_rfl, le_rfl⟩
  | node start count h ihl ihr =>
    intro part hpart
    rw [parts_node h, mem_append, mem_append] at hpart
    rcases hpart with (hpart | hpart) | hpart
    · exact (ihl (rule.pos h) part hpart).left h
    · exact (ihr (Nat.sub_pos_of_lt (rule.lt h)) part hpart).right h
    · rw [mem_singleton.mp hpart]
      exact ⟨by omega, le_rfl, le_rfl⟩

theorem length_parts (start count : ℕ) (hpos : 0 < count) : (parts rule start count).length = 2 * count - 1 := by
  induction start, count using rule.induction with
  | leaf start count h =>
    rw [parts_leaf h, length_singleton]
    omega
  | node start count h ihl ihr =>
    have hsplit := rule.pos h
    have hlt := rule.lt h
    rw [parts_node h, length_append, length_append, ihl hsplit, ihr (by omega), length_singleton]
    omega

theorem self_mem_parts (start count : ℕ) : (start, count) ∈ parts rule start count := by
  by_cases h : 1 < count
  · rw [parts_node h]
    exact mem_append_right _ mem_cons_self
  · rw [parts_leaf h]
    exact mem_cons_self

theorem getLast?_parts (start count : ℕ) : (parts rule start count).getLast? = some (start, count) := by
  by_cases h : 1 < count
  · rw [parts_node h, List.getLast?_concat]
  · rw [parts_leaf h, List.getLast?_singleton]

/-- **No interval occurs twice**: the two halves have none in common, and the parent is longer than all of them. -/
theorem nodup_parts (start count : ℕ) (hpos : 0 < count) : (parts rule start count).Nodup := by
  induction start, count using rule.induction with
  | leaf start count h =>
    rw [parts_leaf h]
    exact nodup_singleton _
  | node start count h ihl ihr =>
    have hsplit := rule.pos h
    have hlt := rule.lt h
    have hinl := @inside_of_mem_parts rule start (rule.split count) hsplit
    have hinr := @inside_of_mem_parts rule (start + rule.split count) (count - rule.split count) (by omega)
    rw [parts_node h]
    refine nodup_append.mpr ⟨nodup_append.mpr ⟨ihl hsplit, ihr (by omega), ?_⟩, nodup_singleton _, ?_⟩
    · intro a ha b hb
      exact (hinl a ha).ne (hinr b hb)
    · intro a ha b hb
      rw [mem_singleton.mp hb]
      rintro rfl
      rcases mem_append.mp ha with ha | ha
      · have hstop := (hinl _ ha).stop_le
        omega
      · have hstart := (hinr _ ha).start_le
        omega

/-! ### The way down to a position -/

theorem siblings_mem_parts (start count : ℕ) (hpos : 0 < count) :
    ∀ sibling ∈ siblings rule index start count, sibling.2 ∈ parts rule start count := by
  induction start, count using rule.induction with
  | leaf start count h =>
    rw [siblings_leaf h]
    intro sibling hsibling
    cases hsibling
  | node start count h ihl ihr =>
    intro sibling hsibling
    rw [parts_node h]
    apply mem_append_left
    by_cases hindex : index < start + rule.split count
    · rw [siblings_left h hindex] at hsibling
      rcases mem_cons.mp hsibling with rfl | hsibling
      · exact mem_append_right _ (self_mem_parts _ _)
      · exact mem_append_left _ (ihl (rule.pos h) sibling hsibling)
    · rw [siblings_right h hindex] at hsibling
      rcases mem_cons.mp hsibling with rfl | hsibling
      · exact mem_append_left _ (self_mem_parts _ _)
      · exact mem_append_right _ (ihr (Nat.sub_pos_of_lt (rule.lt h)) sibling hsibling)

theorem nodup_siblings (start count : ℕ) (hpos : 0 < count) :
    ((siblings rule index start count).map Prod.snd).Nodup := by
  induction start, count using rule.induction with
  | leaf start count h =>
    rw [siblings_leaf h]
    exact nodup_nil
  | node start count h ihl ihr =>
    have hsplit := rule.pos h
    have hlt := rule.lt h
    have hinl := @inside_of_mem_parts rule start (rule.split count) hsplit
    have hinr := @inside_of_mem_parts rule (start + rule.split count) (count - rule.split count) (by omega)
    by_cases hindex : index < start + rule.split count
    · rw [siblings_left h hindex, map_cons]
      refine nodup_cons.mpr ⟨?_, ihl hsplit⟩
      intro hmem
      obtain ⟨sibling, hsibling, hsame⟩ := mem_map.mp hmem
      have hpart := siblings_mem_parts start (rule.split count) hsplit sibling hsibling
      exact (hinl _ hpart).ne (hinr _ (self_mem_parts _ _)) hsame
    · rw [siblings_right h hindex, map_cons]
      refine nodup_cons.mpr ⟨?_, ihr (by omega)⟩
      intro hmem
      obtain ⟨sibling, hsibling, hsame⟩ := mem_map.mp hmem
      have hpart := siblings_mem_parts _ _ (by omega) sibling hsibling
      exact (hinl _ (self_mem_parts _ _)).ne (hinr _ hpart) hsame.symm

/-- The positions of an interval. -/
def positions (part : ℕ × ℕ) : List ℕ := List.range' part.1 part.2

/-- **The position and what was left aside make up the interval.** -/
theorem perm_siblings (start count : ℕ) (hpos : 0 < count) (hle : start ≤ index) (hlt : index < start + count) :
    (index :: (siblings rule index start count).flatMap fun sibling => positions sibling.2).Perm
      (positions (start, count)) := by
  induction start, count using rule.induction with
  | leaf start count h =>
    obtain rfl : index = start := by omega
    obtain rfl : count = 1 := by omega
    rw [siblings_leaf h]
    exact List.Perm.refl _
  | node start count h ihl ihr =>
    have hsplit := rule.lt h
    have hhalves : positions (start, count) =
        positions (start, rule.split count) ++ positions (start + rule.split count, count - rule.split count) := by
      have hcount : count = rule.split count + (count - rule.split count) := by omega
      unfold positions
      dsimp only
      rw [List.range'_append_1, ← hcount]
    rw [hhalves]
    by_cases hindex : index < start + rule.split count
    · rw [siblings_left h hindex, flatMap_cons]
      have hleft := ihl (rule.pos h) hle hindex
      exact (perm_middle.symm.trans perm_append_comm).trans (hleft.append_right _)
    · rw [siblings_right h hindex, flatMap_cons]
      have hright := ihr (by omega) (by omega) (by omega)
      exact perm_middle.symm.trans (hright.append_left _)

/-! ### Values along the way -/

section Climb

variable {D : Type*} (join : ℕ → D → ℕ → D → D)

/-- One step up: joins the value of so many positions with that of the part left aside. -/
def climbStep (below : D × ℕ) (step : Side × ℕ × D) : D × ℕ :=
  match step.1 with
  | .left => (join step.2.1 step.2.2 below.2 below.1, step.2.1 + below.2)
  | .right => (join below.2 below.1 step.2.1 step.2.2, below.2 + step.2.1)

/-- Joins the value of one position with those of the parts left aside, the last one first. -/
def climb (value : D) (steps : List (Side × ℕ × D)) : D := (steps.foldl (climbStep join) (value, 1)).1

variable {join}

/-- The steps up, from what was left aside on the way down. -/
def stepsUp (value : ℕ × ℕ → D) (path : List (Side × ℕ × ℕ)) : List (Side × ℕ × D) :=
  path.reverse.map fun sibling => (sibling.1, sibling.2.2, value sibling.2)

theorem stepsUp_cons (value : ℕ × ℕ → D) (sibling : Side × ℕ × ℕ) (path : List (Side × ℕ × ℕ)) :
    stepsUp value (sibling :: path) = stepsUp value path ++ [(sibling.1, sibling.2.2, value sibling.2)] := by
  rw [stepsUp, stepsUp, reverse_cons, map_append, map_singleton]

/-- **Climbing back computes the value of the whole interval**, if each node's value is the join of its
children's. -/
theorem climb_siblings {value : ℕ × ℕ → D} (start count : ℕ) (hpos : 0 < count) (hle : start ≤ index)
    (hlt : index < start + count)
    (hvalue : ∀ s c, 1 < c → start ≤ s → s + c ≤ start + count → value (s, c) =
      join (rule.split c) (value (s, rule.split c)) (c - rule.split c)
        (value (s + rule.split c, c - rule.split c))) :
    (stepsUp value (siblings rule index start count)).foldl (climbStep join) (value (index, 1), 1) =
      (value (start, count), count) := by
  induction start, count using rule.induction with
  | leaf start count h =>
    obtain rfl : index = start := by omega
    obtain rfl : count = 1 := by omega
    rw [siblings_leaf h]
    rfl
  | node start count h ihl ihr =>
    have hsplit := rule.lt h
    have hroot := hvalue start count h le_rfl le_rfl
    by_cases hindex : index < start + rule.split count
    · have hleft := ihl (rule.pos h) hle hindex fun s c hc hs hstop => hvalue s c hc hs (by omega)
      rw [siblings_left h hindex, stepsUp_cons, foldl_append, hleft, hroot]
      simp only [foldl_cons, foldl_nil, climbStep, Prod.mk.injEq, true_and]
      omega
    · have hright := ihr (by omega) (by omega) (by omega) fun s c hc hs hstop => hvalue s c hc (by omega) (by omega)
      rw [siblings_right h hindex, stepsUp_cons, foldl_append, hright, hroot]
      simp only [foldl_cons, foldl_nil, climbStep, Prod.mk.injEq, true_and]
      omega

end Climb

end Bisect
