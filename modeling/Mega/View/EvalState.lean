/-
# Sound states of the evaluator

A state of the evaluator is sound if the trees at hand are what their ids say
and every memo entry is right. An entry is right if its output is what some
filter of the entry's text means, and if every tree below the output is kept
in the entry or lies below the input (`EntrySound`).

The trees kept with an output are those a walk over the trees at hand finds
(`collectOutputTrees`). The walk stops at trees that are not at hand; those lie
below the input, because everything else was built by the run
(`outputFor_covers`).

Key definitions: `Covered`, `EntrySound`, `MemoSound`, `Sound`.
Key theorems: `collectOutputTrees_spec`, `outputFor_covers`,
`memoSound_insert`.
-/
import Mega.View.Independence

namespace Mega
namespace View

open List

variable {Oid : Type}
variable {trees available : List (Oid × Tree Oid)} {ins : List Oid} {r x : Oid} {memo : FilterMemo Oid}
  {source : TreeSource Oid}

/-! ### Trees at hand -/

def treeIds (trees : List (Oid × Tree Oid)) : List Oid := trees.map Prod.fst

/-- Every tree is stored under its own id. -/
def Genuine (kind : HashKind Oid) (trees : List (Oid × Tree Oid)) : Prop :=
  ∀ entry ∈ trees, kind.treeHash entry.2.items = entry.1

/-- Everything below `r` is at hand or lies below one of the inputs. -/
def Covered (kind : HashKind Oid) [Contents kind] (trees : List (Oid × Tree Oid)) (ins : List Oid) (r : Oid) : Prop :=
  ∀ y, Reach kind r y → y = emptyTreeId kind ∨ y ∈ treeIds trees ∨ ∃ x ∈ ins, Reach kind x y

variable {kind : HashKind Oid} [Contents kind]

theorem Covered.of_mem (hx : x ∈ ins) (h : Reach kind x r) : Covered kind trees ins r :=
  fun _ hy => .inr (.inr ⟨x, hx, h.trans hy⟩)

theorem covered_empty (trees : List (Oid × Tree Oid))
    (ins : List Oid) : Covered kind trees ins (emptyTreeId kind) :=
  fun _ hy => .inl (reach_empty hy)

theorem Covered.mono {trees' : List (Oid × Tree Oid)} (h : Covered kind trees ins r)
    (hsub : treeIds trees ⊆ treeIds trees') : Covered kind trees' ins r :=
  fun y hy => (h y hy).imp id (.imp (fun hm => hsub hm) id)

/-- What is covered by covered inputs is covered. -/
theorem Covered.trans {mid : List Oid} (h : Covered kind trees mid r) (hmid : ∀ x ∈ mid, Covered kind trees ins x) :
    Covered kind trees ins r := by
  intro y hy
  rcases h y hy with h | h | ⟨x, hx, hxy⟩
  · exact .inl h
  · exact .inr (.inl h)
  · exact hmid x hx y hxy

theorem Genuine.content_eq (h : Genuine kind trees) {tree : Tree Oid}
    (hmem : (x, tree) ∈ trees) : tree.items = content kind x := by
  rw [← show kind.treeHash tree.items = x from h _ hmem, content_treeHash tree.unique]

section Lookup

variable [DecidableEq Oid]

theorem lookup_isSome_iff_mem : (trees.lookup x).isSome = true ↔ x ∈ treeIds trees := by
  simp [lookup_isSome_iff, treeIds]

theorem mem_of_lookup {tree : Tree Oid} (h : trees.lookup x = some tree) : (x, tree) ∈ trees := by
  obtain ⟨l, l', rfl, -⟩ := lookup_eq_some_iff.mp h
  simp

theorem lookup_eq_none_iff_notMem : trees.lookup x = none ↔ x ∉ treeIds trees := by
  rw [← lookup_isSome_iff_mem, Option.not_isSome_iff_eq_none]

/-! ### The walk over the trees at hand -/

/-- How many trees at hand are not collected yet. -/
def remaining (available trees : List (Oid × Tree Oid)) : ℕ :=
  (available.filter fun entry => entry.1 ∉ treeIds trees).length

theorem remaining_mono {trees' : List (Oid × Tree Oid)} (h : treeIds trees ⊆ treeIds trees') :
    remaining available trees' ≤ remaining available trees := by
  refine List.Sublist.length_le (monotone_filter_right _ fun entry => ?_)
  simpa using fun hnot hmem => hnot (h hmem)

theorem remaining_lt {tree : Tree Oid} (hx : (x, tree) ∈ available) (hnot : x ∉ treeIds trees) :
    remaining available ((x, tree) :: trees) < remaining available trees := by
  have hsub : remaining available ((x, tree) :: trees) =
      ((available.filter fun entry => entry.1 ∉ treeIds trees).filter fun entry => entry.1 ≠ x).length := by
    rw [remaining, filter_filter]
    congr 1
    refine filter_congr fun entry _ => ?_
    rw [Bool.eq_iff_iff, Bool.and_eq_true, decide_eq_true_iff, decide_eq_true_iff, decide_eq_true_iff]
    simp [treeIds]
  rw [hsub]
  refine length_filter_lt_length_iff_exists.mpr ⟨(x, tree), ?_, by simp⟩
  simp [hx, hnot]

/-- What the walk adds to the trees collected. -/
structure Collected (kind : HashKind Oid) [Contents kind] (available trees trees' : List (Oid × Tree Oid)) : Prop where
  mono : treeIds trees ⊆ treeIds trees'
  source : ∀ entry ∈ trees', entry ∈ trees ∨ entry ∈ available
  closed : ∀ z ∈ treeIds trees', z ∉ treeIds trees → ∀ y, Edge kind z y → y ∈ treeIds available →
    y ∈ treeIds trees'

omit [DecidableEq Oid] in
theorem Collected.refl (available trees : List (Oid × Tree Oid)) : Collected kind available trees trees :=
  ⟨fun _ h => h, fun _ h => .inl h, fun _ h hnot => absurd h hnot⟩

omit [DecidableEq Oid] in
theorem Collected.trans {t₁ t₂ t₃ : List (Oid × Tree Oid)} (h : Collected kind available t₁ t₂)
    (h' : Collected kind available t₂ t₃) : Collected kind available t₁ t₃ where
  mono := fun _ hx => h'.mono (h.mono hx)
  source entry he := (h'.source entry he).elim (h.source entry) .inr
  closed z hz hnot y hzy hy := by
    by_cases hz₂ : z ∈ treeIds t₂
    · exact h'.mono (h.closed z hz₂ hnot y hzy hy)
    · exact h'.closed z hz hz₂ y hzy hy

/-- The loop over the entries of one tree. -/
theorem collected_foldl {depth : ℕ}
    (ih : ∀ x trees, remaining available trees < depth →
      Collected kind available trees (collectOutputTrees available depth x trees) ∧
        (x ∈ treeIds available → x ∈ treeIds (collectOutputTrees available depth x trees))) :
    ∀ (items : List (TreeItem Oid)) (trees : List (Oid × Tree Oid)), remaining available trees < depth →
      let trees' := items.foldl (fun trees item =>
        if item.mode = .tree then collectOutputTrees available depth item.id trees else trees) trees
      Collected kind available trees trees' ∧
        ∀ item ∈ items, item.mode = .tree → item.id ∈ treeIds available → item.id ∈ treeIds trees'
  | [], trees, _ => ⟨.refl _ _, by simp⟩
  | item :: items, trees, hrem => by
    simp only [foldl_cons]
    split
    · rename_i hm
      obtain ⟨hfirst, hx⟩ := ih item.id trees hrem
      obtain ⟨hrest, hitems⟩ := collected_foldl ih items _ ((remaining_mono hfirst.mono).trans_lt hrem)
      refine ⟨hfirst.trans hrest, fun item' hmem hm' hav => ?_⟩
      rcases mem_cons.mp hmem with rfl | hmem
      · exact hrest.mono (hx hav)
      · exact hitems item' hmem hm' hav
    · rename_i hm
      obtain ⟨hrest, hitems⟩ := collected_foldl ih items trees hrem
      refine ⟨hrest, fun item' hmem hm' hav => ?_⟩
      rcases mem_cons.mp hmem with rfl | hmem
      · exact absurd hm' hm
      · exact hitems item' hmem hm' hav

/-- **The walk finds every tree at hand that it can get to.** -/
theorem collectOutputTrees_spec (hav : Genuine kind available) (depth : ℕ)
    (x : Oid) (trees : List (Oid × Tree Oid)) (hrem : remaining available trees < depth) :
    Collected kind available trees (collectOutputTrees available depth x trees) ∧
      (x ∈ treeIds available → x ∈ treeIds (collectOutputTrees available depth x trees)) := by
  induction depth generalizing x trees with
  | zero => exact absurd hrem (Nat.not_lt_zero _)
  | succ depth ih =>
    unfold collectOutputTrees
    split
    · rename_i hnone
      exact ⟨.refl _ _, fun h => absurd h (lookup_eq_none_iff_notMem.mp hnone)⟩
    rename_i tree hsome
    have hmem := mem_of_lookup hsome
    split
    · rename_i hin
      exact ⟨.refl _ _, fun _ => lookup_isSome_iff_mem.mp hin⟩
    rename_i hnot
    have hnot' : x ∉ treeIds trees := fun h => hnot (lookup_isSome_iff_mem.mpr h)
    have hlt := remaining_lt hmem hnot'
    obtain ⟨hcol, hitems⟩ := collected_foldl ih tree.items ((x, tree) :: trees) (by omega)
    have hx := hcol.mono (show x ∈ treeIds ((x, tree) :: trees) by simp [treeIds])
    refine ⟨⟨fun y hy => hcol.mono (by simp only [treeIds, map_cons, mem_cons]; exact .inr hy),
      fun entry he => ?_, fun z hz hnz y hzy hy => ?_⟩, fun _ => hx⟩
    · rcases hcol.source entry he with h | h
      · rcases mem_cons.mp h with rfl | h
        · exact .inr hmem
        · exact .inl h
      · exact .inr h
    · -- the new tree is closed because the loop went over its entries
      by_cases hzx : z = x
      · subst hzx
        obtain ⟨item, hi, hm, rfl⟩ := hzy
        rw [← hav.content_eq hmem] at hi
        exact hitems item hi hm hy
      · refine hcol.closed z hz ?_ y hzy hy
        simpa only [treeIds, map_cons, mem_cons, not_or] using ⟨hzx, hnz⟩

/-- **The trees kept with an output cover it**, together with the input. -/
theorem outputFor_covers (hav : Genuine kind available)
    (hr : Covered kind available ins r) : Covered kind (outputFor kind available r).trees ins r := by
  unfold outputFor
  split
  · rename_i hempty
    rw [hempty]
    exact covered_empty _ ins
  have hrem : remaining available [] < available.length + 1 :=
    Nat.lt_succ_of_le (length_filter_le _ _)
  obtain ⟨hcol, hroot⟩ := collectOutputTrees_spec hav (available.length + 1) r [] hrem
  intro y hy
  induction hy with
  | refl =>
    rcases hr r (reach_refl r) with h | h | h
    · exact .inl h
    · exact .inr (.inl (hroot h))
    · exact .inr (.inr h)
  | @tail z y hz hzy ih =>
    rcases ih with rfl | hmem | ⟨x, hx, hxz⟩
    · exact .inl (reach_empty (.single hzy))
    · rcases hr y (hz.tail hzy) with h | h | h
      · exact .inl h
      · exact .inr (.inl (hcol.closed z hmem (by simp [treeIds]) y hzy h))
      · exact .inr (.inr h)
    · exact .inr (.inr ⟨x, hx, hxz.tail hzy⟩)

theorem genuine_outputFor (hav : Genuine kind available) (r : Oid) :
    Genuine kind (outputFor kind available r).trees := by
  unfold outputFor
  split
  · rename_i hempty
    intro entry he
    rw [mem_singleton.mp he, hempty]
    rfl
  · have hrem : remaining available [] < available.length + 1 :=
      Nat.lt_succ_of_le (length_filter_le _ _)
    have hcol := (collectOutputTrees_spec hav (available.length + 1) r [] hrem).1
    exact fun entry he => hav entry ((hcol.source entry he).resolve_left (by simp))

omit [Contents kind] in
theorem treeId_outputFor (available : List (Oid × Tree Oid)) (r : Oid) :
    (outputFor kind available r).treeId = r := by
  unfold outputFor
  split <;> rfl

/-! ### Sound memos -/

/-- The output kept under a key is the one the key stands for. -/
structure EntrySound (kind : HashKind Oid) [Contents kind] (key : MemoKey Oid) (output : FilterOutput Oid) : Prop where
  meaning : ∃ f, noEmptyCompose f = true ∧ print f = key.filter ∧ output.treeId = sem kind f key.inputTree
  genuine : Genuine kind output.trees
  covers : Covered kind output.trees [key.inputTree] output.treeId

def MemoSound (kind : HashKind Oid) [Contents kind] (memo : FilterMemo Oid) : Prop :=
  ∀ entry ∈ memo.entries, EntrySound kind entry.1 entry.2.output

omit [DecidableEq Oid] in
theorem mem_entries_removeAt {i : ℕ} {entry : MemoKey Oid × MemoValue Oid} (h : entry ∈ (memo.removeAt i).entries) :
    entry ∈ memo.entries := by
  unfold FilterMemo.removeAt at h
  split at h
  · exact h
  · exact mem_of_mem_eraseIdx h

omit [DecidableEq Oid] in
theorem mem_entries_evict {bytes steps : ℕ} {entry : MemoKey Oid × MemoValue Oid}
    (h : entry ∈ (FilterMemo.evict bytes steps memo).entries) : entry ∈ memo.entries := by
  induction steps generalizing memo with
  | zero => exact h
  | succ steps ih =>
    unfold FilterMemo.evict at h
    split at h
    · exact mem_entries_removeAt (ih h)
    · exact h

omit [Contents kind] in
/-- Inserting forgets entries and adds at most the new one. -/
theorem mem_entries_insert {key : MemoKey Oid} {output : FilterOutput Oid} {entry : MemoKey Oid × MemoValue Oid}
    (h : entry ∈ (memo.insert kind key output).entries) :
    entry ∈ memo.entries ∨ entry.1 = key ∧ entry.2.output = output := by
  unfold FilterMemo.insert at h
  dsimp only at h
  split at h
  · exact .inl h
  · rcases mem_cons.mp h with rfl | h
    · exact .inr ⟨rfl, rfl⟩
    · exact .inl (mem_entries_removeAt (mem_entries_evict h))

theorem memoSound_insert (hmemo : MemoSound kind memo) {key : MemoKey Oid} {output : FilterOutput Oid}
    (h : EntrySound kind key output) : MemoSound kind (memo.insert kind key output) := by
  intro entry he
  rcases mem_entries_insert he with he | ⟨hkey, hout⟩
  · exact hmemo entry he
  · rw [hkey, hout]
    exact h

theorem memoSound_withCapacity (capacityBytes : ℕ) (firstKey : List (MemoKey Oid) → ℕ) :
    MemoSound kind (FilterMemo.withCapacity capacityBytes firstKey) := by
  intro entry he
  cases he

theorem entrySound_of_get (hmemo : MemoSound kind memo) {key : MemoKey Oid} {value : MemoValue Oid}
    (h : memo.get key = some value) : EntrySound kind key value.output := by
  obtain ⟨l, l', heq, -⟩ := lookup_eq_some_iff.mp h
  exact hmemo (key, value) (by rw [heq]; simp)

end Lookup

/-! ### Sound states -/

section State

variable [DecidableEq Oid]

structure Sound (kind : HashKind Oid) [Contents kind] (s : EvalState Oid) : Prop where
  available : Genuine kind s.available
  memo : MemoSound kind s.memo

/-- The state after a sound step: sound, and nothing at hand got lost. -/
structure Extends (kind : HashKind Oid) [Contents kind] (s s' : EvalState Oid) : Prop where
  sound : Sound kind s'
  mono : treeIds s.available ⊆ treeIds s'.available

theorem Sound.extends {s : EvalState Oid} (h : Sound kind s) : Extends kind s s := ⟨h, fun _ h => h⟩

theorem Extends.trans {s s' s'' : EvalState Oid} (h : Extends kind s s') (h' : Extends kind s' s'') :
    Extends kind s s'' :=
  ⟨h'.sound, fun _ hx => h'.mono (h.mono hx)⟩

/-- Reading some tree below the inputs gives this error in the state `s`. -/
def MissesBelow (kind : HashKind Oid) [Contents kind] (source : TreeSource Oid) (s : EvalState Oid) (ins : List Oid)
    (object : MissingObject Oid) : Prop :=
  ∃ x ∈ ins, ∃ y, Reach kind x y ∧ readTree kind (overlayTreeSource source s.available) y = .error object

omit [Contents kind] in
theorem readTree_of_mem {y : Oid} (h : y ∈ treeIds trees) :
    ∃ tree, readTree kind (overlayTreeSource source trees) y = .ok tree := by
  unfold readTree
  split
  · exact ⟨_, rfl⟩
  · obtain ⟨tree, ht⟩ := Option.isSome_iff_exists.mp (lookup_isSome_iff_mem.mpr h)
    exact ⟨tree, by rw [overlayTreeSource, ht]⟩

omit [Contents kind] in
theorem readTree_empty (source : TreeSource Oid) :
    readTree kind source (emptyTreeId kind) = .ok Tree.nil := by
  simp [readTree]

omit [Contents kind] in
/-- What cannot be read now could not be read with fewer trees at hand. -/
theorem readTree_error_mono {trees' : List (Oid × Tree Oid)} (hsub : treeIds trees ⊆ treeIds trees') {y : Oid}
    {object : MissingObject Oid} (h : readTree kind (overlayTreeSource source trees') y = .error object) :
    readTree kind (overlayTreeSource source trees) y = .error object := by
  have hy : y ∉ treeIds trees' := by
    intro hmem
    obtain ⟨tree, htree⟩ := readTree_of_mem hmem
    rw [h] at htree
    cases htree
  have hnone := lookup_eq_none_iff_notMem.mpr hy
  have hnone' := lookup_eq_none_iff_notMem.mpr fun hm => hy (hsub hm)
  unfold readTree overlayTreeSource at h ⊢
  rw [hnone] at h
  rw [hnone']
  exact h

/-- What is missing below covered inputs is missing below what covers them. -/
theorem MissesBelow.of_covered {s s' : EvalState Oid} (hs : Extends kind s s') {mid : List Oid}
    (hmid : ∀ r ∈ mid, Covered kind s'.available ins r) {object : MissingObject Oid}
    (h : MissesBelow kind source s' mid object) : MissesBelow kind source s ins object := by
  obtain ⟨r, hr, y, hry, hread⟩ := h
  rcases hmid r hr y hry with rfl | hmem | ⟨x, hx, hxy⟩
  · rw [readTree_empty] at hread
    cases hread
  · obtain ⟨tree, htree⟩ := readTree_of_mem hmem
    rw [hread] at htree
    cases htree
  · exact ⟨x, hx, y, hxy, readTree_error_mono hs.mono hread⟩

/-- Trees at hand that are genuine keep the source content-addressed. -/
theorem contentAddressed_overlay (hs : ContentAddressed kind source) (ht : Genuine kind trees) :
    ContentAddressed kind (overlayTreeSource source trees) := by
  intro x tree h
  unfold overlayTreeSource at h
  split at h
  · rename_i tree' hsome
    cases h
    exact ht.content_eq (mem_of_lookup hsome)
  · exact hs x tree h

end State

end View
end Mega
