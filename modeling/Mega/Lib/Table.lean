/-
# Tables with unique keys

A table is a list of rows in the order they were inserted. A conflict relation
says which rows the unique keys keep apart; an insert that ignores conflicts
adds a row only if it is in conflict with none that is there. A column may
number the rows without gaps, in the order they are in.

Key definitions: `insertIgnore`, `insertAllIgnore`, `topBy`, `updateKey`,
`KeyedBy`.
Key theorems: `insertAllIgnore_eq_append`, `topBy_eq_getLast?`,
`filter_le_of_numbered`, `updateKey_of_mem`.
-/
import Mathlib

namespace Table

open List

variable {α : Type*}

/-- `INSERT … ON CONFLICT DO NOTHING` of one row. -/
def insertIgnore (conflict : α → α → Bool) (table : List α) (row : α) : List α :=
  if table.any (conflict row) then table else table ++ [row]

/-- `INSERT … ON CONFLICT DO NOTHING`, row by row. -/
def insertAllIgnore (conflict : α → α → Bool) (table rows : List α) : List α :=
  rows.foldl (insertIgnore conflict) table

theorem insertIgnore_of_fresh {conflict : α → α → Bool} {table : List α} {row : α}
    (h : ∀ t ∈ table, conflict row t = false) : insertIgnore conflict table row = table ++ [row] := by
  have hany : table.any (conflict row) = false := any_eq_false.mpr fun t ht => by simp [h t ht]
  simp [insertIgnore, hany]

/-- Rows that conflict with nothing are all added, in order. -/
theorem insertAllIgnore_eq_append {conflict : α → α → Bool} : ∀ {rows table : List α},
    (∀ row ∈ rows, ∀ t ∈ table, conflict row t = false) →
    rows.Pairwise (fun a b => conflict b a = false) →
    insertAllIgnore conflict table rows = table ++ rows
  | [], table, _, _ => by simp [insertAllIgnore]
  | row :: rows, table, hfresh, hpair => by
    obtain ⟨hrow, hrest⟩ := pairwise_cons.mp hpair
    have hstep : insertIgnore conflict table row = table ++ [row] :=
      insertIgnore_of_fresh (hfresh row (by simp))
    have hfresh' : ∀ r ∈ rows, ∀ t ∈ table ++ [row], conflict r t = false := by
      intro r hr t ht
      rcases mem_append.mp ht with ht | ht
      · exact hfresh r (by simp [hr]) t ht
      · rw [mem_singleton.mp ht]
        exact hrow r hr
    rw [insertAllIgnore, foldl_cons, hstep, ← insertAllIgnore, insertAllIgnore_eq_append hfresh' hrest,
      append_assoc, singleton_append]

/-- `ORDER BY key DESC LIMIT 1`. -/
def topBy (key : α → ℕ) : List α → Option α
  | [] => none
  | row :: rows =>
    match topBy key rows with
    | none => some row
    | some best => if key best < key row then some row else some best

theorem topBy_eq_getLast? {key : α → ℕ} : ∀ {rows : List α}, (rows.map key).Pairwise (· < ·) →
    topBy key rows = rows.getLast?
  | [], _ => rfl
  | [row], _ => rfl
  | row :: next :: rows, h => by
    obtain ⟨hrow, hrest⟩ := pairwise_cons.mp h
    have ih : topBy key (next :: rows) = (next :: rows).getLast? := topBy_eq_getLast? hrest
    have hlast : ∃ last, (next :: rows).getLast? = some last := by
      simp [List.getLast?_eq_some_getLast]
    obtain ⟨last, hlast⟩ := hlast
    have hlt : key row < key last := hrow _ (mem_map_of_mem (mem_of_getLast? hlast))
    rw [topBy, ih, hlast, List.getLast?_cons_cons, hlast]
    simp only
    rw [if_neg (by omega)]

theorem isSome_topBy {key : α → ℕ} : ∀ {rows : List α}, (topBy key rows).isSome = true ↔ rows ≠ []
  | [] => by simp [topBy]
  | row :: rows => by
    unfold topBy
    split
    · simp
    · split <;> simp

theorem topBy_mem {key : α → ℕ} : ∀ {rows : List α} {best : α}, topBy key rows = some best →
    best ∈ rows ∧ ∀ row ∈ rows, key row ≤ key best
  | [], best, h => by simp [topBy] at h
  | row :: rows, best, h => by
    unfold topBy at h
    cases hrest : topBy key rows with
    | none =>
      have hempty : rows = [] := by
        by_contra hne
        have hsome : (topBy key rows).isSome = true := isSome_topBy.mpr hne
        simp [hrest] at hsome
      simp only [hrest, Option.some.injEq] at h
      subst h hempty
      simp
    | some top =>
      obtain ⟨hmem, hle⟩ := topBy_mem hrest
      simp only [hrest] at h
      split at h
      · rename_i hlt
        obtain rfl := Option.some_injective _ h
        refine ⟨mem_cons_self, fun r hr => ?_⟩
        obtain rfl | hr := mem_cons.mp hr
        · exact le_refl _
        · exact (hle r hr).trans hlt.le
      · rename_i hle'
        obtain rfl := Option.some_injective _ h
        refine ⟨mem_cons_of_mem _ hmem, fun r hr => ?_⟩
        obtain rfl | hr := mem_cons.mp hr
        · omega
        · exact hle r hr

/-- A new row with a greater key is the one on top. -/
theorem topBy_concat {key : α → ℕ} {new : α} : ∀ {rows : List α}, (∀ row ∈ rows, key row < key new) →
    topBy key (rows ++ [new]) = some new
  | [], _ => rfl
  | row :: rows, h => by
    have ih : topBy key (rows ++ [new]) = some new := topBy_concat fun r hr => h r (mem_cons_of_mem _ hr)
    have hlt := h row mem_cons_self
    rw [cons_append, topBy, ih]
    simp only
    rw [if_neg (by omega)]

theorem topBy_map {key : α → ℕ} {change : α → α} (hkeep : ∀ row, key (change row) = key row) :
    ∀ rows : List α, topBy key (rows.map change) = (topBy key rows).map change
  | [] => rfl
  | row :: rows => by
    rw [map_cons, topBy, topBy, topBy_map hkeep rows]
    cases topBy key rows with
    | none => rfl
    | some best =>
      simp only [Option.map_some, hkeep]
      split <;> rfl

/-! ### Numbered rows -/

section Numbered

variable {key : α → ℕ}

theorem pairwise_of_numbered {rows : List α} {a : ℕ} (h : rows.map key = List.range' a rows.length) :
    (rows.map key).Pairwise (· < ·) := by
  rw [h]
  exact pairwise_lt_range'

theorem key_getElem_of_numbered {rows : List α} {a : ℕ} (h : rows.map key = List.range' a rows.length) {i : ℕ}
    (hi : i < rows.length) : key rows[i] = a + i := by
  have hget : (rows.map key)[i]? = (List.range' a rows.length)[i]? := by rw [h]
  simpa [hi] using hget

theorem key_getLast_of_numbered {rows : List α} (h : rows.map key = List.range' 1 rows.length) {last : α}
    (hlast : rows.getLast? = some last) : key last = rows.length := by
  obtain ⟨init, rfl⟩ := List.getLast?_eq_some_iff.mp hlast
  have hkey := key_getElem_of_numbered h (show init.length < (init ++ [last]).length by simp)
  rw [getElem_concat_length rfl] at hkey
  rw [hkey, length_append, length_singleton, Nat.add_comm]

/-- The rows up to a number are the first so many. -/
theorem filter_le_of_numbered : ∀ {rows : List α} {a : ℕ} (j : ℕ),
    rows.map key = List.range' (a + 1) rows.length →
    rows.filter (fun row => key row ≤ a + j) = rows.take j
  | rows, a, 0, h => by
    refine (filter_eq_nil_iff.mpr fun row hrow => ?_).trans take_zero.symm
    have hmem : key row ∈ List.range' (a + 1) rows.length := h ▸ mem_map_of_mem hrow
    rw [mem_range'_1] at hmem
    simp only [decide_eq_true_eq]
    omega
  | [], _, _ + 1, _ => rfl
  | row :: rows, a, j + 1, h => by
    rw [map_cons, length_cons, List.range'_succ] at h
    obtain ⟨hrow, hrest⟩ := List.cons.inj h
    have ih := filter_le_of_numbered j hrest
    rw [show a + 1 + j = a + (j + 1) by omega] at ih
    rw [filter_cons_of_pos (by simp only [decide_eq_true_eq]; omega), ih, take_succ_cons]

/-- Numbering the rows from the last one on. -/
theorem reverse_numbered {rows : List α} {a : ℕ} (h : rows.map key = List.range' a rows.length) (b : ℕ) :
    rows.reverse.map (fun row => b + (a + rows.length - key row)) = List.range' (b + 1) rows.length := by
  have hmap : rows.map (fun row => b + (a + rows.length - key row)) =
      (List.range' a rows.length).map fun k => b + (a + rows.length - k) := by
    rw [← h, map_map]
    rfl
  rw [map_reverse, hmap]
  refine ext_getElem (by simp) fun i h₁ h₂ => ?_
  simp only [length_reverse, length_map, length_range'] at h₁
  simp only [getElem_reverse, getElem_map, getElem_range', length_map, length_range']
  omega

end Numbered

/-! ### Updates by key -/

section Update

variable {κ : Type*} [DecidableEq κ] {key : α → κ} {change : α → α}

/-- `UPDATE … WHERE key = k`. -/
def updateKey (key : α → κ) (k : κ) (change : α → α) (table : List α) : List α :=
  table.map fun row => if key row = k then change row else row

/-- An update that keeps a column in every row keeps the column. -/
theorem map_updateKey {β : Type*} {column : α → β} (hkeep : ∀ row, column (change row) = column row) (k : κ)
    (table : List α) : (updateKey key k change table).map column = table.map column := by
  rw [updateKey, map_map]
  refine map_congr_left fun row _ => ?_
  simp only [Function.comp_apply]
  split
  · exact hkeep row
  · rfl

/-- The first row that a condition picks stays the one it picks. -/
theorem find?_updateKey {p : α → Bool} (hkeep : ∀ row, p (change row) = p row) (k : κ) (table : List α) :
    (updateKey key k change table).find? p =
      (table.find? p).map fun row => if key row = k then change row else row := by
  rw [updateKey, List.find?_map]
  congr 1
  have hsame : (p ∘ fun row => if key row = k then change row else row) = p := by
    funext row
    simp only [Function.comp_apply]
    split
    · exact hkeep row
    · rfl
  rw [hsame]

/-- Rows that are replaced by one with the same key keep their place among the keys. -/
theorem map_updateKey_const {k : κ} {new : α} (hnew : key new = k) (table : List α) :
    (updateKey key k (fun _ => new) table).map key = table.map key := by
  rw [updateKey, map_map]
  refine map_congr_left fun row _ => ?_
  simp only [Function.comp_apply]
  split
  · rename_i hrow
    rw [hnew, hrow]
  · rfl

/-- Such an update shows at its key and nowhere else. -/
theorem find?_updateKey_const {k : κ} {new : α} (hnew : key new = k) (k' : κ) : ∀ table : List α,
    (updateKey key k (fun _ => new) table).find? (fun row => key row = k') =
      if k' = k then (table.find? fun row => key row = k).map fun _ => new
      else table.find? fun row => key row = k'
  | [] => by simp [updateKey]
  | row :: table => by
    have ih := find?_updateKey_const hnew k' table
    rw [updateKey, map_cons, ← updateKey]
    by_cases hk : k' = k
    · subst hk
      rw [if_pos rfl] at ih ⊢
      by_cases hrow : key row = k'
      · simp [hrow, hnew]
      · rw [if_neg hrow, List.find?_cons_of_neg (by simpa using hrow),
          List.find?_cons_of_neg (by simpa using hrow), ih]
    · rw [if_neg hk] at ih ⊢
      by_cases hrow : key row = k
      · have hne : key new ≠ k' := fun h => hk (h.symm.trans hnew)
        have hne' : key row ≠ k' := fun h => hk (h.symm.trans hrow)
        rw [if_pos hrow, List.find?_cons_of_neg (by simpa using hne),
          List.find?_cons_of_neg (by simpa using hne'), ih]
      · rw [if_neg hrow, List.find?_cons, List.find?_cons, ih]

/-- Under a unique key, a row is the one found by its key. -/
theorem find?_key_of_nodup : ∀ {table : List α} {row : α}, (table.map key).Nodup → row ∈ table →
    table.find? (fun r => key r = key row) = some row
  | first :: table, row, hnodup, hrow => by
    rw [map_cons, nodup_cons] at hnodup
    rcases mem_cons.mp hrow with rfl | hrow
    · simp
    · have hne : key first ≠ key row := fun h => hnodup.1 (h ▸ mem_map_of_mem hrow)
      rw [List.find?_cons_of_neg (by simpa using hne), find?_key_of_nodup hnodup.2 hrow]

/-- The rows with the key of a row are that row. -/
theorem filter_key_of_nodup : ∀ {table : List α} {row : α},
    (table.map key).Nodup → row ∈ table → table.filter (fun r => key r = key row) = [row]
  | a :: table, row, hnodup, hrow => by
    obtain ⟨hfresh, hnodup⟩ := nodup_cons.mp hnodup
    rcases mem_cons.mp hrow with rfl | hrow
    · have hnone : table.filter (fun r => key r = key row) = [] := by
        refine filter_eq_nil_iff.mpr ?_
        intro r hr hsame
        exact hfresh (of_decide_eq_true hsame ▸ mem_map_of_mem hr)
      rw [filter_cons_of_pos (by simp), hnone]
    · have hne : key a ≠ key row := fun hsame => hfresh (hsame ▸ mem_map_of_mem hrow)
      rw [filter_cons_of_neg (by simpa using hne), filter_key_of_nodup hnodup hrow]

/-- Under a unique key, one row changes. -/
theorem updateKey_of_mem {table : List α} (hnodup : (table.map key).Nodup) {row : α} (hrow : row ∈ table) :
    ∃ before after, table = before ++ row :: after ∧
      updateKey key (key row) change table = before ++ change row :: after := by
  obtain ⟨before, after, rfl⟩ := append_of_mem hrow
  rw [map_append, map_cons, nodup_append] at hnodup
  obtain ⟨-, hrest, hapart⟩ := hnodup
  obtain ⟨hafter, -⟩ := nodup_cons.mp hrest
  have hkeep : ∀ rows : List α, (∀ r ∈ rows, key r ≠ key row) →
      rows.map (fun r => if key r = key row then change r else r) = rows := by
    intro rows hne
    have hmap : rows.map (fun r => if key r = key row then change r else r) = rows.map id :=
      map_congr_left fun r hr => if_neg (hne r hr)
    rw [hmap, map_id]
  refine ⟨before, after, rfl, ?_⟩
  rw [updateKey, map_append, map_cons, if_pos rfl]
  rw [hkeep before fun r hr => hapart _ (mem_map_of_mem hr) _ mem_cons_self,
    hkeep after fun r hr heq => hafter (heq ▸ mem_map_of_mem hr)]

/-- An update row by row. -/
theorem forall₂_updateKey {rel : α → α → Prop} {k : κ} (hrefl : ∀ row, rel row row) :
    ∀ {table : List α}, (∀ row ∈ table, key row = k → rel row (change row)) →
      List.Forall₂ rel table (updateKey key k change table)
  | [], _ => .nil
  | row :: table, h => by
    have hrow : rel row (if key row = k then change row else row) := by
      split
      · exact h row mem_cons_self ‹_›
      · exact hrefl row
    exact .cons hrow (forall₂_updateKey hrefl fun r hr => h r (mem_cons_of_mem _ hr))

end Update

theorem forall₂_trans {rel : α → α → Prop} (htrans : ∀ a b c, rel a b → rel b c → rel a c) :
    ∀ {a b c : List α}, List.Forall₂ rel a b → List.Forall₂ rel b c → List.Forall₂ rel a c
  | _, _, _, .nil, .nil => .nil
  | _, _, _, .cons hab hrest, .cons hbc hrest' => .cons (htrans _ _ _ hab hbc) (forall₂_trans htrans hrest hrest')

/-- Rows that only change outside a column are found again by it. -/
theorem forall₂_find? {rel : α → α → Prop} {p : α → Bool} (hkeep : ∀ a b, rel a b → p a = p b) :
    ∀ {table table' : List α} {row : α}, List.Forall₂ rel table table' → table.find? p = some row →
      ∃ row', table'.find? p = some row' ∧ rel row row'
  | _, _, _, .nil, h => by simp at h
  | a :: _, b :: _, row, .cons hab hrest, h => by
    by_cases ha : p a = true
    · rw [List.find?_cons_of_pos ha, Option.some.injEq] at h
      exact ⟨b, List.find?_cons_of_pos (hkeep a b hab ▸ ha), h ▸ hab⟩
    · rw [List.find?_cons_of_neg ha] at h
      obtain ⟨row', hrow', hrel⟩ := forall₂_find? hkeep hrest h
      exact ⟨row', by rw [List.find?_cons_of_neg (hkeep a b hab ▸ ha)]; exact hrow', hrel⟩

/-! ### Related rows have one key -/

section KeyedBy

variable {κ : Type*} {key : α → κ} {rel : α → α → Prop} {table : List α}

/-- Rows in the relation have one key. Where the key is unique they are one row: at most one row of its
kind. -/
def KeyedBy (key : α → κ) (rel : α → α → Prop) (table : List α) : Prop :=
  ∀ a ∈ table, ∀ b ∈ table, rel a b → key a = key b

/-- An update that keeps the keys and relates no rows anew. -/
theorem KeyedBy.map {change : α → α} (h : KeyedBy key rel table)
    (hkey : ∀ row ∈ table, key (change row) = key row)
    (hrel : ∀ a ∈ table, ∀ b ∈ table, rel (change a) (change b) → rel a b) :
    KeyedBy key rel (table.map change) := by
  intro a' ha' b' hb' hab
  obtain ⟨a, ha, rfl⟩ := mem_map.mp ha'
  obtain ⟨b, hb, rfl⟩ := mem_map.mp hb'
  rw [hkey a ha, hkey b hb]
  exact h a ha b hb (hrel a ha b hb hab)

/-- An insert of a row related to none that is there. -/
theorem KeyedBy.concat {new : α} (h : KeyedBy key rel table) (hsymm : ∀ a b, rel a b → rel b a)
    (hnew : ∀ a ∈ table, ¬rel new a) : KeyedBy key rel (table ++ [new]) := by
  intro a ha b hb hab
  rw [mem_append, mem_singleton] at ha hb
  rcases ha with ha | rfl
  · rcases hb with hb | rfl
    · exact h a ha b hb hab
    · exact absurd (hsymm a b hab) (hnew a ha)
  · rcases hb with hb | rfl
    · exact absurd hab (hnew b hb)
    · rfl

/-- Where the key is unique, at most one row is of a kind whose rows are related. -/
theorem KeyedBy.length_filter_le_one (h : KeyedBy key rel table) (hnodup : (table.map key).Nodup)
    {p : α → Bool} (hp : ∀ a b, p a = true → p b = true → rel a b) : (table.filter p).length ≤ 1 := by
  have hone : ∀ a ∈ table.filter p, ∀ b ∈ table.filter p, a = b := by
    intro a ha b hb
    obtain ⟨ha, hpa⟩ := mem_filter.mp ha
    obtain ⟨hb, hpb⟩ := mem_filter.mp hb
    exact inj_on_of_nodup_map hnodup ha hb (h a ha b hb (hp a b hpa hpb))
  have hdistinct : (table.filter p).Nodup := (hnodup.of_map key).filter p
  obtain hnone | ⟨a, hsingle⟩ | ⟨a, b, rows, hrows⟩ : table.filter p = [] ∨ (∃ a, table.filter p = [a]) ∨
      ∃ a b rows, table.filter p = a :: b :: rows := by
    rcases table.filter p with _ | ⟨a, _ | ⟨b, rows⟩⟩ <;> simp
  · simp [hnone]
  · simp [hsingle]
  · rw [hrows] at hone hdistinct
    have hab : a = b := hone a (by simp) b (by simp)
    exact absurd hdistinct (by simp [hab])

end KeyedBy

end Table
