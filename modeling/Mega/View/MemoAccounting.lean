/-
# The memo keeps count of its bytes

The memo of `filter_tree` counts the bytes of its entries and evicts until a new one
fits. Whatever is inserted and whichever keys the hash map yields for eviction, the
count is the sum of the recorded sizes and within the capacity, and an entry that
fits the capacity is there after its insert.

The counter saturates at `usize::MAX`. The recorded sizes are lengths of buffers that
the memo owns, so those of the entries held and of a new one fit the address space
together (`Addressable`), and saturation never shows.

Key definitions: `Balanced`, `MemoInsert`, `Addressable`, `insertAll`.
Key theorems: `evict_fits`, `accounted_insert`, `memo_accounting`.
-/
import Mega.Lib.Run
import Mega.View.FilterTree

namespace Mega
namespace View

open List

variable {Oid : Type}

/-- The sum of the recorded sizes. -/
def entriesBytes (entries : List (MemoKey Oid × MemoValue Oid)) : ℕ := (entries.map fun entry => entry.2.bytes).sum

/-- The count is right, and no key has two entries. -/
structure Balanced (memo : FilterMemo Oid) : Prop where
  used : memo.usedBytes = entriesBytes memo.entries
  keys : (memo.entries.map Prod.fst).Nodup

theorem saturatingAdd_of_lt {a b : ℕ} (h : a + b < 2 ^ 64) : saturatingAdd a b = a + b :=
  min_eq_left (Nat.le_sub_one_of_lt h)

theorem perm_eraseIdx {α : Type} {l : List α} {i : ℕ} {a : α} (h : l[i]? = some a) : l.Perm (a :: l.eraseIdx i) := by
  obtain ⟨hi, rfl⟩ := List.getElem?_eq_some_iff.mp h
  exact (getElem_cons_eraseIdx_perm hi).symm

theorem entriesBytes_cons (entry : MemoKey Oid × MemoValue Oid) (entries : List (MemoKey Oid × MemoValue Oid)) :
    entriesBytes (entry :: entries) = entry.2.bytes + entriesBytes entries := by
  rw [entriesBytes, map_cons, sum_cons]
  rfl

theorem entriesBytes_eraseIdx {entries : List (MemoKey Oid × MemoValue Oid)} {i : ℕ} {entry : MemoKey Oid × MemoValue Oid}
    (h : entries[i]? = some entry) : entriesBytes entries = entry.2.bytes + entriesBytes (entries.eraseIdx i) := by
  rw [← entriesBytes_cons, entriesBytes, ((perm_eraseIdx h).map _).sum_eq]
  rfl

/-! ### Evicting -/

theorem capacityBytes_removeAt (memo : FilterMemo Oid) (i : ℕ) : (memo.removeAt i).capacityBytes = memo.capacityBytes := by
  unfold FilterMemo.removeAt
  split <;> rfl

theorem balanced_removeAt {memo : FilterMemo Oid} (h : Balanced memo) (i : ℕ) : Balanced (memo.removeAt i) := by
  unfold FilterMemo.removeAt
  split
  · exact h
  · next key value heq =>
    have hsum := entriesBytes_eraseIdx heq
    refine ⟨?_, h.keys.sublist ((eraseIdx_sublist _ _).map _)⟩
    show memo.usedBytes - value.bytes = entriesBytes (memo.entries.eraseIdx i)
    rw [h.used, hsum, Nat.add_sub_cancel_left]

theorem usedBytes_removeAt_le (memo : FilterMemo Oid) (i : ℕ) : (memo.removeAt i).usedBytes ≤ memo.usedBytes := by
  unfold FilterMemo.removeAt
  split
  · exact le_rfl
  · exact Nat.sub_le _ _

theorem length_removeAt {memo : FilterMemo Oid} {i : ℕ} (hi : i < memo.entries.length) :
    (memo.removeAt i).entries.length + 1 = memo.entries.length := by
  unfold FilterMemo.removeAt
  rw [getElem?_eq_getElem hi]
  show (memo.entries.eraseIdx i).length + 1 = _
  rw [length_eraseIdx_of_lt hi]
  omega

section Evict

variable {bytes : ℕ}

theorem capacityBytes_evict (steps : ℕ) (memo : FilterMemo Oid) :
    (FilterMemo.evict bytes steps memo).capacityBytes = memo.capacityBytes := by
  induction steps generalizing memo with
  | zero => rfl
  | succ steps ih =>
    rw [FilterMemo.evict]
    split_ifs
    · rw [ih, capacityBytes_removeAt]
    · rfl

theorem balanced_evict (steps : ℕ) {memo : FilterMemo Oid} (h : Balanced memo) :
    Balanced (FilterMemo.evict bytes steps memo) := by
  induction steps generalizing memo with
  | zero => exact h
  | succ steps ih =>
    rw [FilterMemo.evict]
    split_ifs
    · exact ih (balanced_removeAt h _)
    · exact h

theorem sublist_removeAt (memo : FilterMemo Oid) (i : ℕ) : (memo.removeAt i).entries.Sublist memo.entries := by
  unfold FilterMemo.removeAt
  split
  · exact Sublist.refl _
  · exact eraseIdx_sublist _ _

theorem sublist_evict (steps : ℕ) (memo : FilterMemo Oid) :
    (FilterMemo.evict bytes steps memo).entries.Sublist memo.entries := by
  induction steps generalizing memo with
  | zero => exact Sublist.refl _
  | succ steps ih =>
    rw [FilterMemo.evict]
    split_ifs
    · exact (ih _).trans (sublist_removeAt memo _)
    · exact Sublist.refl _

/-- **Eviction makes room before the table runs empty.** -/
theorem evict_fits {steps : ℕ} {memo : FilterMemo Oid} (h : Balanced memo) (hsteps : memo.entries.length ≤ steps)
    (hbytes : bytes ≤ memo.capacityBytes) (hmemory : memo.usedBytes + bytes < 2 ^ 64) :
    (FilterMemo.evict bytes steps memo).usedBytes + bytes ≤ memo.capacityBytes := by
  induction steps generalizing memo with
  | zero =>
    -- nothing is counted in an empty table
    have hnil : memo.entries = [] := length_eq_zero_iff.mp (by omega)
    have hused : memo.usedBytes = 0 := by rw [h.used, hnil]; rfl
    rw [FilterMemo.evict, hused]
    omega
  | succ steps ih =>
    rw [FilterMemo.evict, saturatingAdd_of_lt hmemory]
    split_ifs with hover
    · have hsome : 0 < memo.entries.length := by
        refine length_pos_of_ne_nil fun hnil => ?_
        have hused : memo.usedBytes = 0 := by rw [h.used, hnil]; rfl
        omega
      have hlength := length_removeAt (Nat.mod_lt (memo.firstKey (memo.entries.map Prod.fst)) hsome)
      have hless := usedBytes_removeAt_le memo (memo.firstKey (memo.entries.map Prod.fst) % memo.entries.length)
      rw [← capacityBytes_removeAt memo] at hbytes ⊢
      exact ih (balanced_removeAt h _) (by omega) hbytes (by omega)
    · exact not_lt.mp hover

end Evict

/-! ### Inserting -/

/-- What holds of the memo after every insert. -/
structure Accounted (capacity : ℕ) (memo : FilterMemo Oid) : Prop where
  balanced : Balanced memo
  sized : memo.capacityBytes = capacity
  within : memo.usedBytes ≤ capacity

theorem accounted_withCapacity (capacity : ℕ) (firstKey : List (MemoKey Oid) → ℕ) :
    Accounted capacity (.withCapacity capacity firstKey : FilterMemo Oid) := ⟨⟨rfl, nodup_nil⟩, rfl, Nat.zero_le _⟩

variable [DecidableEq Oid]

/-- The previous entry of the key is gone. -/
theorem key_not_mem_removeAt {memo : FilterMemo Oid} (h : Balanced memo) (key : MemoKey Oid) :
    key ∉ (memo.removeAt (memo.entries.findIdx fun entry => entry.1 == key)).entries.map Prod.fst := by
  unfold FilterMemo.removeAt
  split
  · next hnone =>
    intro hmem
    obtain ⟨entry, hentry, rfl⟩ := mem_map.mp hmem
    have hlt : memo.entries.findIdx (fun e => e.1 == entry.1) < memo.entries.length :=
      findIdx_lt_length_of_exists ⟨entry, hentry, by simp⟩
    rw [getElem?_eq_getElem hlt] at hnone
    cases hnone
  · next found value heq =>
    have hkeys : (found :: (memo.entries.eraseIdx _).map Prod.fst).Nodup :=
      (((perm_eraseIdx heq).map Prod.fst).nodup_iff).mp h.keys
    obtain ⟨hlt, hget⟩ := List.getElem?_eq_some_iff.mp heq
    have hfound : (memo.entries[memo.entries.findIdx fun entry => entry.1 == key].1 == key) = true :=
      findIdx_getElem (p := fun entry : MemoKey Oid × MemoValue Oid => entry.1 == key) (w := hlt)
    rw [hget, beq_iff_eq] at hfound
    have hgone := (nodup_cons.mp hkeys).1
    rwa [show found = key from hfound] at hgone

variable (kind : HashKind Oid)

/-- The memo with room for a new entry of the key. -/
def roomFor (memo : FilterMemo Oid) (key : MemoKey Oid) (bytes : ℕ) : FilterMemo Oid :=
  let memo := memo.removeAt (memo.entries.findIdx fun entry => entry.1 == key)
  FilterMemo.evict bytes memo.entries.length memo

theorem insert_of_fits {memo : FilterMemo Oid} {key : MemoKey Oid} {output : FilterOutput Oid} {bytes : ℕ}
    (hbytes : FilterMemo.entryBytes kind key output = bytes) (hfits : bytes ≤ memo.capacityBytes) :
    memo.insert kind key output =
      { roomFor memo key bytes with
        usedBytes := saturatingAdd (roomFor memo key bytes).usedBytes bytes
        entries := (key, ⟨output, bytes⟩) :: (roomFor memo key bytes).entries } := by
  rw [FilterMemo.insert, hbytes, if_neg (by omega)]
  rfl

theorem roomFor_spec {memo : FilterMemo Oid} (h : Balanced memo) (key : MemoKey Oid) {bytes : ℕ}
    (hfits : bytes ≤ memo.capacityBytes) (hmemory : memo.usedBytes + bytes < 2 ^ 64) :
    Balanced (roomFor memo key bytes) ∧ (roomFor memo key bytes).capacityBytes = memo.capacityBytes ∧
      (roomFor memo key bytes).usedBytes + bytes ≤ memo.capacityBytes ∧
      key ∉ (roomFor memo key bytes).entries.map Prod.fst := by
  have hremoved := balanced_removeAt h (memo.entries.findIdx fun entry => entry.1 == key)
  have hsame := capacityBytes_removeAt memo (memo.entries.findIdx fun entry => entry.1 == key)
  have hless := usedBytes_removeAt_le memo (memo.entries.findIdx fun entry => entry.1 == key)
  refine ⟨balanced_evict _ hremoved, ?_, ?_, fun hmem => ?_⟩
  · rw [roomFor, capacityBytes_evict, hsame]
  · have hroom : (roomFor memo key bytes).usedBytes + bytes ≤ _ := evict_fits hremoved le_rfl (by omega) (by omega)
    rw [hsame] at hroom
    exact hroom
  · exact key_not_mem_removeAt h key (((sublist_evict _ _).map _).subset hmem)

/-- **One insert keeps the account.** -/
theorem accounted_insert {capacity : ℕ} {memo : FilterMemo Oid} (h : Accounted capacity memo) {key : MemoKey Oid}
    {output : FilterOutput Oid} (hmemory : memo.usedBytes + FilterMemo.entryBytes kind key output < 2 ^ 64) :
    Accounted capacity (memo.insert kind key output) := by
  obtain ⟨hbalanced, hsame, hwithin⟩ := h
  obtain ⟨bytes, hbytes⟩ : ∃ bytes, FilterMemo.entryBytes kind key output = bytes := ⟨_, rfl⟩
  rw [hbytes] at hmemory
  by_cases hfits : bytes ≤ memo.capacityBytes
  · obtain ⟨⟨hused, hkeys⟩, hroom, hspace, hfresh⟩ := roomFor_spec hbalanced key hfits hmemory
    have hwhole : entriesBytes (roomFor memo key bytes).entries ≤ entriesBytes memo.entries :=
      (((sublist_evict _ _).trans (sublist_removeAt memo _)).map _).sum_le_sum (by simp)
    have hsum : saturatingAdd (roomFor memo key bytes).usedBytes bytes = (roomFor memo key bytes).usedBytes + bytes :=
      saturatingAdd_of_lt (by rw [hused]; rw [hbalanced.used] at hmemory; omega)
    rw [insert_of_fits kind hbytes hfits, hsum]
    refine ⟨⟨?_, nodup_cons.mpr ⟨hfresh, hkeys⟩⟩, hroom.trans hsame, by rw [← hsame]; exact hspace⟩
    show (roomFor memo key bytes).usedBytes + bytes = entriesBytes ((key, ⟨output, bytes⟩) :: _)
    rw [hused, entriesBytes_cons, Nat.add_comm]
  · rw [FilterMemo.insert, hbytes, if_pos (by omega)]
    exact ⟨hbalanced, hsame, hwithin⟩

theorem get_insert {memo : FilterMemo Oid} {key : MemoKey Oid} {output : FilterOutput Oid}
    (hfits : FilterMemo.entryBytes kind key output ≤ memo.capacityBytes) :
    (memo.insert kind key output).get key = some ⟨output, FilterMemo.entryBytes kind key output⟩ := by
  rw [insert_of_fits kind rfl hfits, FilterMemo.get, lookup_cons_self]

/-! ### Runs -/

/-- One insert, and the order in which the hash map yields keys during it. -/
structure MemoInsert (Oid : Type) where
  key : MemoKey Oid
  output : FilterOutput Oid
  firstKey : List (MemoKey Oid) → ℕ

def MemoInsert.apply (memo : FilterMemo Oid) (step : MemoInsert Oid) : FilterMemo Oid :=
  { memo with firstKey := step.firstKey }.insert kind step.key step.output

/-- The entries that are held and the new one are in one address space. -/
def Addressable (memo : FilterMemo Oid) (step : MemoInsert Oid) : Prop :=
  entriesBytes memo.entries + FilterMemo.entryBytes kind step.key step.output < 2 ^ 64

def insertAll (memo : FilterMemo Oid) (steps : List (MemoInsert Oid)) : FilterMemo Oid :=
  Run.run (MemoInsert.apply kind) memo steps

/-- **The account of a memo**, after any inserts and with any eviction order: the count is the sum of the recorded
sizes and within the capacity, and a further insert that fits leaves its entry there. -/
theorem memo_accounting (capacity : ℕ) (firstKey : List (MemoKey Oid) → ℕ) (steps : List (MemoInsert Oid))
    (hmemory : Run.Meets (MemoInsert.apply kind) (Addressable kind) (.withCapacity capacity firstKey) steps) :
    let memo := insertAll kind (.withCapacity capacity firstKey) steps
    memo.usedBytes = entriesBytes memo.entries ∧ memo.usedBytes ≤ capacity ∧
      ∀ step : MemoInsert Oid, FilterMemo.entryBytes kind step.key step.output ≤ capacity →
        (step.apply kind memo).get step.key =
          some ⟨step.output, FilterMemo.entryBytes kind step.key step.output⟩ := by
  intro memo
  obtain ⟨hbalanced, hsame, hwithin⟩ : Accounted capacity memo :=
    Run.run_invariant_of_meets (fun before step hroom h => accounted_insert kind
      ⟨⟨h.balanced.used, h.balanced.keys⟩, h.sized, h.within⟩ (h.balanced.used ▸ hroom)) steps hmemory
      (accounted_withCapacity capacity firstKey)
  refine ⟨hbalanced.used, hwithin, fun step hfits => get_insert kind ?_⟩
  show FilterMemo.entryBytes kind step.key step.output ≤ memo.capacityBytes
  rw [hsame]
  exact hfits

/-- Ids of 40 characters, and every tree has 30 bytes. -/
def smallTrees : HashKind Bool where
  treeHash _ := true
  dataLen _ := 30
  idLen := 40

/-- Inserts an output of two trees under the filter, in an entry of 141 bytes. -/
def insertTwoTrees (filter : Char) : MemoInsert Bool where
  key := ⟨[filter], true⟩
  output := ⟨true, [(false, Tree.nil), (true, Tree.nil)]⟩
  firstKey _ := 0

/-- The third of the inserts evicts an entry. -/
theorem memo_accounting_sample :
    let memo := insertAll smallTrees (.withCapacity 300 fun _ => 0) (['a', 'b', 'c'].map insertTwoTrees)
    memo.entries.length = 2 ∧ memo.usedBytes = entriesBytes memo.entries ∧ memo.usedBytes ≤ 300 ∧
      ∀ step : MemoInsert Bool, FilterMemo.entryBytes smallTrees step.key step.output ≤ 300 →
        (step.apply smallTrees memo).get step.key =
          some ⟨step.output, FilterMemo.entryBytes smallTrees step.key step.output⟩ :=
  ⟨by decide, memo_accounting smallTrees 300 (fun _ => 0) (['a', 'b', 'c'].map insertTwoTrees)
    ⟨by unfold Addressable; decide, by unfold Addressable; decide, by unfold Addressable; decide, trivial⟩⟩

end View
end Mega
