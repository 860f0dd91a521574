/-
# The evaluator computes what filters mean

From a sound state, running a filter leaves a sound state, and if it returns, it
returns what the filter means. It stops in three cases only: a tree below the
input cannot be read; a merge meets entries it cannot merge, with this fuel and
with any more (`clash`); or a merge is deeper than the fuel (`deep`). All of
this holds whatever the memo knows already, as long as its entries are right.

`Yields` packs the three; one lemma for each function of the evaluator says
what it yields, and `filterTree_spec` puts them together.

Key definition: `Yields`.
Key theorems: `overlay_yields`, `memoized_yields`, `eval_yields`,
`filterTree_spec`.
-/
import Mega.View.EvalState

namespace Mega
namespace View

open List Prog

variable {Oid : Type} [DecidableEq Oid] {kind : HashKind Oid} [Contents kind] {source : TreeSource Oid}
variable {memo : FilterMemo Oid}

/-! ### What a run yields -/

variable (kind source) in
/-- Why a run from `s` with these inputs stopped. -/
structure Stopped (s : EvalState Oid) (ins : List Oid) (clash deep : Prop) (e : FilterTreeError Oid)
    (s' : EvalState Oid) : Prop where
  extend : Extends kind s s'
  missing : ∀ object, e = .missing object → MissesBelow kind source s ins object
  invariant : e = .invariant → clash
  outOfFuel : e = .outOfFuel → deep

variable (kind source) in
/-- A run from `s` that reads below `ins` keeps the state sound; its value has
`Q`, or it stopped for one of the reasons given. -/
def Yields {α : Type} (x : EvalM Oid α) (s : EvalState Oid) (ins : List Oid)
    (Q : α → EvalState Oid → Prop) (clash deep : Prop) : Prop :=
  Triple x s (fun a s' => Extends kind s s' ∧ Q a s') (Stopped kind source s ins clash deep)

section Rules

variable {α β : Type} {x : EvalM Oid α} {f : α → EvalM Oid β} {s : EvalState Oid} {ins : List Oid}
  {Q Q' : α → EvalState Oid → Prop} {R : β → EvalState Oid → Prop} {clash deep clash' deep' : Prop}

theorem Yields.pure {a : α} (hs : Sound kind s) (h : Q a s) :
    Yields kind source (pure a : EvalM Oid α) s ins Q clash deep :=
  Triple.pure ⟨hs.extends, h⟩

theorem Yields.conseq (h : Yields kind source x s ins Q clash deep)
    (hQ : ∀ a s', Extends kind s s' → Q a s' → Q' a s') (hc : clash → clash') (hd : deep → deep') :
    Yields kind source x s ins Q' clash' deep' :=
  Triple.conseq h (fun a s' h => ⟨h.1, hQ a s' h.1 h.2⟩)
    fun _ _ he => ⟨he.extend, he.missing, fun h => hc (he.invariant h), fun h => hd (he.outOfFuel h)⟩

/-- A run whose inputs are covered by `ins` reads below `ins`. -/
theorem Yields.of_covered {s₀ : EvalState Oid} {mid : List Oid} (hext : Extends kind s₀ s)
    (hmid : ∀ y ∈ mid, Covered kind s.available ins y) (h : Yields kind source x s mid Q clash deep) :
    Triple x s (fun a s' => Extends kind s₀ s' ∧ Q a s') (Stopped kind source s₀ ins clash deep) := by
  refine .conseq h (fun _ _ h => ⟨hext.trans h.1, h.2⟩) fun _ _ he =>
    ⟨hext.trans he.extend, fun object hobj => ?_, he.invariant, he.outOfFuel⟩
  exact (he.missing object hobj).of_covered hext hmid

theorem Yields.bind (hx : Yields kind source x s ins Q clash deep)
    (hf : ∀ a s', Extends kind s s' → Q a s' →
      ∃ mid, (∀ y ∈ mid, Covered kind s'.available ins y) ∧ Yields kind source (f a) s' mid R clash deep) :
    Yields kind source (x >>= f) s ins R clash deep := by
  refine Triple.bind hx ?_
  rintro a s' ⟨hext, ha⟩
  obtain ⟨mid, hmid, hyields⟩ := hf a s' hext ha
  exact hyields.of_covered hext hmid

/-- As `bind`, when the second part reads below the same inputs. -/
theorem Yields.bind_same (hx : Yields kind source x s ins Q clash deep)
    (hf : ∀ a s', Extends kind s s' → Q a s' → Yields kind source (f a) s' ins R clash deep) :
    Yields kind source (x >>= f) s ins R clash deep :=
  hx.bind fun a s' hext ha => ⟨ins, fun _ hy => .of_mem hy (reach_refl _), hf a s' hext ha⟩

/-- Inputs may be named through what covers them. -/
theorem Yields.weaken_ins {mid : List Oid} (hs : Sound kind s)
    (hmid : ∀ y ∈ mid, Covered kind s.available ins y) (h : Yields kind source x s mid Q clash deep) :
    Yields kind source x s ins Q clash deep :=
  h.of_covered hs.extends hmid

end Rules

/-! ### Reading and building -/

section Operators

variable (hsrc : ContentAddressed kind source)

include hsrc

theorem read_yields {s : EvalState Oid} (hs : Sound kind s) (x : Oid) :
    Yields kind source (read kind source x) s [x] (fun tree s' => s' = s ∧ tree.items = content kind x)
      False False := by
  refine .get_bind ?_
  split <;> rename_i hread
  · exact .pure ⟨hs.extends, rfl,
      content_of_readTree (contentAddressed_overlay hsrc hs.available) hread⟩
  · refine .throw ⟨hs.extends, fun object hobj => ?_, nofun, nofun⟩
    cases hobj
    exact ⟨x, by simp, x, reach_refl x, hread⟩

/-- `lookup_path` reads trees on the way and finds the tree at the path. -/
theorem lookupPath_spec : ∀ (path : Path) (x : Oid),
    match lookupPath kind source x path with
    | .ok (.tree y) => y = view kind x path
    | .ok _ => view kind x path = emptyTreeId kind
    | .error object => ∃ y, Reach kind x y ∧ readTree kind source y = .error object
  | [], x => rfl
  | segment :: path, x => by
    rw [lookupPath]
    cases hread : readTree kind source x with
    | error missing => exact ⟨x, reach_refl x, hread⟩
    | ok tree =>
      have hitems := content_of_readTree hsrc hread
      simp only [hitems]
      cases hf : (content kind x).find? (fun item => item.name == segment) with
      | none =>
        simp only
        rw [view_cons, child, hf]
        exact view_empty path
      | some item =>
        have hmem : item ∈ content kind x := mem_of_find?_eq_some hf
        simp only
        by_cases hm : item.mode = .tree
        · have hchild : child kind x segment = item.id := by
            rw [child, hf]
            simp [hm]
          rw [if_neg (not_not.mpr hm), view_cons, hchild]
          have ih := lookupPath_spec path item.id
          cases hl : lookupPath kind source item.id path with
          | error missing =>
            rw [hl] at ih
            obtain ⟨y, hy, hmiss⟩ := ih
            exact ⟨y, (reach_of_mem hmem hm).trans hy, hmiss⟩
          | ok found =>
            rw [hl] at ih
            cases found <;> exact ih
        · rw [if_pos hm, view_cons, child, hf]
          simp only [if_neg hm]
          exact view_empty path

theorem evalSubdir_yields {s : EvalState Oid} (hs : Sound kind s) (x : Oid) (path : Path) :
    Yields kind source (evalSubdir kind source x path) s [x]
      (fun a s' => a = view kind x path ∧ Covered kind s'.available [x] a) False False := by
  have hspec := lookupPath_spec (contentAddressed_overlay hsrc hs.available) path x
  have hcov : ∀ trees, Covered kind trees [x] (view kind x path) := fun trees => by
    rcases @reach_view _ kind _ x path with h | h
    · rw [h]
      exact covered_empty trees [x]
    · exact .of_mem (by simp) h
  refine .get_bind ?_
  split <;> rename_i hlook <;> rw [hlook] at hspec
  · subst hspec
    exact .pure ⟨hs.extends, rfl, hcov _⟩
  · exact .pure ⟨hs.extends, hspec.symm, hspec ▸ hcov _⟩
  · exact .pure ⟨hs.extends, hspec.symm, hspec ▸ hcov _⟩
  · refine .throw ⟨hs.extends, fun object hobj => ?_, nofun, nofun⟩
    cases hobj
    obtain ⟨y, hy, hmiss⟩ := hspec
    exact ⟨x, by simp, y, hy, hmiss⟩

omit [DecidableEq Oid] hsrc in
theorem covered_mkTree {trees : List (Oid × Tree Oid)} {ins : List Oid} {items : List (TreeItem Oid)}
    (hn : (itemNames items).Nodup) (hmem : mkTree kind items ∈ treeIds trees)
    (h : ∀ item ∈ items, item.mode = .tree → Covered kind trees ins item.id) :
    Covered kind trees ins (mkTree kind items) := by
  intro y hy
  rcases reach_cases hy with rfl | ⟨item, hi, hm, hy⟩
  · exact Or.inr (Or.inl hmem)
  · exact h item ((mem_content_mkTree hn).mp hi) hm y hy

omit hsrc in
theorem makeTree_yields {s : EvalState Oid} (hs : Sound kind s) {items : List (TreeItem Oid)}
    (hn : (itemNames items).Nodup) (ins : List Oid) :
    Yields kind source (makeTree kind items) s ins
      (fun a s' => a = mkTree kind items ∧ a ∈ treeIds s'.available) False False := by
  unfold makeTree buildTree
  rw [dif_pos hn]
  refine .modify_bind (.pure ?_)
  split
  · rename_i hin
    exact ⟨hs.extends, rfl, lookup_isSome_iff_mem.mp hin⟩
  · refine ⟨⟨⟨fun entry he => ?_, hs.memo⟩, fun y hy => ?_⟩, rfl, by simp [treeIds]⟩
    · rcases mem_cons.mp he with rfl | he
      · rfl
      · exact hs.available entry he
    · simp only [treeIds, map_cons, mem_cons]
      exact Or.inr hy

omit hsrc in
theorem wrapTree_yields {s : EvalState Oid} (hs : Sound kind s) (x : Oid) : ∀ path : Path,
    Yields kind source (wrapTree kind x path) s [x]
      (fun a s' => a = semWrap kind x path ∧ Covered kind s'.available [x] a) False False
  | [] => .pure hs ⟨rfl, .of_mem (by simp) (reach_refl x)⟩
  | segment :: path => by
    refine (wrapTree_yields hs x path).bind_same ?_
    rintro current s' hext ⟨hcur, hcov⟩
    refine (makeTree_yields hext.sound (nodup_singleton_item _) [x]).conseq
      (fun a s'' hext' h => ?_) id id
    obtain ⟨ha, hmem⟩ := h
    subst hcur ha
    refine ⟨rfl, covered_mkTree (nodup_singleton_item _) hmem fun item hitem _ => ?_⟩
    rw [mem_singleton.mp hitem]
    exact hcov.mono hext'.mono

omit hsrc in
theorem evalPrefixed_yields {s : EvalState Oid} (hs : Sound kind s) (x : Oid) (path : Path) :
    Yields kind source (evalPrefixed kind x path) s [x]
      (fun a s' => a = semPrefixed kind x path ∧ Covered kind s'.available [x] a) False False := by
  unfold evalPrefixed semPrefixed
  split
  · exact .pure hs ⟨rfl, .of_mem (by simp) (reach_refl x)⟩
  · exact wrapTree_yields hs x path

/-! ### Excluding -/

omit hsrc in
theorem excludeItem_yields {inner : Oid → List SelectorRef → EvalM Oid (RewriteResult Oid)}
    {inner' : Oid → List SelectorRef → RewriteResult Oid} {s : EvalState Oid} (hs : Sound kind s)
    (hinner : ∀ x sels, Yields kind source (inner x sels) s [x]
      (fun r s' => r = inner' x sels ∧ Covered kind s'.available [x] r.treeId) False False)
    (sels : List SelectorRef) (item : TreeItem Oid) {ins : List Oid}
    (hcov : item.mode = .tree → Covered kind s.available ins item.id) :
    Yields kind source (excludeItem kind inner sels item) s ins
      (fun r s' => r = excludedItem kind inner' sels item ∧
        ∀ it ∈ r.2, it.mode = .tree → Covered kind s'.available ins it.id) False False := by
  rw [excludedItem_eq]
  unfold excludeItem
  by_cases hr : removes (matching sels item.name) item.mode = true
  · rw [if_pos hr]
    simp only [if_pos hr]
    exact .pure hs ⟨rfl, by simp⟩
  simp only [if_neg hr]
  by_cases hdesc : ((descendants (matching sels item.name)).isEmpty || item.mode != .tree) = true
  · rw [if_pos hdesc]
    simp only [if_pos hdesc]
    refine .pure hs ⟨rfl, fun it hit => ?_⟩
    rwa [mem_singleton.mp hit]
  simp only [if_neg hdesc]
  have hm : item.mode = .tree := by
    by_contra h
    exact hdesc (by simp [h])
  refine ((hinner item.id _).weaken_ins hs fun y hy => ?_).bind_same ?_
  · rw [mem_singleton.mp hy]
    exact hcov hm
  rintro r s' hext ⟨hr, hrcov⟩
  subst hr
  have hchild := hrcov.trans fun y hy => by
    rw [mem_singleton.mp hy]
    exact (hcov hm).mono hext.mono
  change Yields kind source (if (innerResult inner' sels item).changed = true then _ else _) _ _ _ _ _
  split
  · refine .pure hext.sound ⟨rfl, fun it hit _ => ?_⟩
    split at hit
    · cases hit
    · rwa [mem_singleton.mp hit]
  · refine .pure hext.sound ⟨rfl, fun it hit _ => ?_⟩
    rw [mem_singleton.mp hit]
    exact (hcov hm).mono hext.mono

omit hsrc in
theorem excludeItems_yields {inner : Oid → List SelectorRef → EvalM Oid (RewriteResult Oid)}
    {inner' : Oid → List SelectorRef → RewriteResult Oid}
    (hinner : ∀ s, Sound kind s → ∀ x sels, Yields kind source (inner x sels) s [x]
      (fun r s' => r = inner' x sels ∧ Covered kind s'.available [x] r.treeId) False False)
    (sels : List SelectorRef) {ins : List Oid} : ∀ (items : List (TreeItem Oid)) (s : EvalState Oid),
    Sound kind s → (∀ item ∈ items, item.mode = .tree → Covered kind s.available ins item.id) →
    Yields kind source (excludeItems kind inner sels items) s ins
      (fun r s' => r = (items.any fun item => (excludedItem kind inner' sels item).1,
          items.flatMap fun item => (excludedItem kind inner' sels item).2) ∧
        ∀ it ∈ r.2, it.mode = .tree → Covered kind s'.available ins it.id) False False
  | [], s, hs, _ => .pure hs ⟨rfl, by simp⟩
  | item :: items, s, hs, hcov => by
    refine (excludeItem_yields hs (hinner s hs) sels item (hcov item (by simp))).bind_same ?_
    rintro r s' hext ⟨hr, hrcov⟩
    refine (excludeItems_yields hinner sels items s' hext.sound fun it hit hm =>
      (hcov it (by simp [hit]) hm).mono hext.mono).bind_same ?_
    rintro r' s'' hext' ⟨hr', hrcov'⟩
    subst hr hr'
    refine .pure hext'.sound ⟨by simp, fun it hit hm => ?_⟩
    rcases mem_append.mp hit with hit | hit
    · exact (hrcov it hit hm).mono hext'.mono
    · exact hrcov' it hit hm

theorem excludeInner_yields : ∀ (depth : ℕ) (s : EvalState Oid), Sound kind s →
    ∀ (x : Oid) (sels : List SelectorRef),
    Yields kind source (excludeInner kind source depth x sels) s [x]
      (fun r s' => r = semExcludeInner kind depth x sels ∧ Covered kind s'.available [x] r.treeId) False False
  | 0, s, hs, x, sels => .pure hs ⟨rfl, .of_mem (by simp) (reach_refl x)⟩
  | depth + 1, s, hs, x, sels => by
    refine (read_yields hsrc hs x).bind_same ?_
    rintro tree s₁ hext ⟨hs₁, hitems⟩
    subst hs₁
    have hcov : ∀ item ∈ tree.items, item.mode = .tree → Covered kind s₁.available [x] item.id := by
      intro item hitem hm
      rw [hitems] at hitem
      exact .of_mem (by simp) (reach_of_mem hitem hm)
    refine (excludeItems_yields (excludeInner_yields depth) sels tree.items s₁ hs hcov).bind_same ?_
    rintro ⟨changed, items⟩ s₂ hext₂ ⟨hr, hrcov⟩
    obtain ⟨rfl, rfl⟩ := Prod.mk.inj hr
    rw [semExcludeInner_succ]
    have hchanges : (tree.items.any fun item => (excludedItem kind (semExcludeInner kind depth) sels item).1) =
        changesItems kind depth x sels := by rw [changesItems, hitems]
    dsimp only
    rw [hchanges]
    split
    · have hleft : ((tree.items.flatMap fun item =>
          (excludedItem kind (semExcludeInner kind depth) sels item).2).filter
            fun item => item.mode != .tree || item.id != emptyTreeId kind) = leftItems kind depth x sels := by
        rw [leftItems, hitems]
      rw [hleft]
      refine (makeTree_yields hext₂.sound (nodup_leftItems depth x sels) [x]).bind_same ?_
      rintro a s₃ hext₃ ⟨ha, hmem⟩
      subst ha
      refine .pure hext₃.sound ⟨rfl, covered_mkTree (nodup_leftItems depth x sels) hmem ?_⟩
      intro item hitem hm
      rw [← hleft] at hitem
      exact (hrcov item (mem_filter.mp hitem).1 hm).mono hext₃.mono
    · exact .pure hext₂.sound ⟨rfl, .of_mem (by simp) (reach_refl x)⟩

theorem evalExclude_yields {s : EvalState Oid} (hs : Sound kind s) (x : Oid) (sels : List Selector) :
    Yields kind source (evalExclude kind source x sels) s [x]
      (fun a s' => a = semExclude kind x sels ∧ Covered kind s'.available [x] a) False False := by
  unfold evalExclude
  split
  · rename_i hnil
    rw [isEmpty_iff.mp hnil]
    exact .pure hs ⟨rfl, .of_mem (by simp) (reach_refl x)⟩
  · refine (excludeInner_yields hsrc _ s hs x _).bind_same ?_
    rintro r s' hext ⟨hr, hcov⟩
    exact .pure hext.sound ⟨by rw [hr]; rfl, hcov⟩

/-! ### Merging -/

theorem readItems_yields {s : EvalState Oid} (hs : Sound kind s) : ∀ xs : List Oid,
    Yields kind source (readItems kind source xs) s xs
      (fun items s' => s' = s ∧ items = xs.flatMap (content kind)) False False
  | [] => .pure hs ⟨rfl, rfl⟩
  | x :: xs => by
    refine ((read_yields hsrc hs x).weaken_ins hs fun y hy => ?_).bind_same ?_
    · exact .of_mem (mem_cons.mpr (Or.inl (mem_singleton.mp hy))) (reach_refl y)
    rintro tree s' hext ⟨hs', hitems⟩
    subst hs'
    refine ((readItems_yields hs xs).weaken_ins hs fun y hy => ?_).bind_same ?_
    · exact .of_mem (mem_cons_of_mem x hy) (reach_refl y)
    rintro items s' hext ⟨hs', hrest⟩
    subst hs'
    exact .pure hs ⟨rfl, by rw [hitems, hrest, flatMap_cons]⟩

variable (kind source) in
/-- The run `o xs` does what `o' xs` says. -/
def Merges (o : List Oid → EvalM Oid Oid) (o' : List Oid → Except (FilterTreeError Oid) Oid) : Prop :=
  ∀ s, Sound kind s → ∀ xs, Yields kind source (o xs) s xs
    (fun a s' => o' xs = .ok a ∧ Covered kind s'.available xs a)
    (o' xs = .error .invariant) (o' xs = .error .outOfFuel)

omit hsrc in
theorem overlayName_yields {o : List Oid → EvalM Oid Oid}
    {o' : List Oid → Except (FilterTreeError Oid) Oid} (ho : Merges kind source o o') {s : EvalState Oid}
    (hs : Sound kind s) (name : Text) (candidates : List (TreeItem Oid)) {ins : List Oid}
    (hcov : ∀ item ∈ candidates, item.mode = .tree → Covered kind s.available ins item.id) :
    Yields kind source (overlayName kind o name candidates) s ins
      (fun r s' => overlayName kind o' name candidates = .ok r ∧
        ∀ it ∈ r, it.mode = .tree → Covered kind s'.available ins it.id)
      (overlayName kind o' name candidates = .error .invariant)
      (overlayName kind o' name candidates = .error .outOfFuel) := by
  unfold overlayName
  split
  · rename_i item
    refine .pure hs ⟨rfl, fun it hit => ?_⟩
    split at hit
    · cases hit
      exact hcov item (by simp)
    · cases hit
  · split
    · rename_i hall
      have htree : ∀ item ∈ candidates, item.mode = .tree := fun item hitem => by
        simpa using all_eq_true.mp hall item hitem
      have hins : ∀ y ∈ candidates.map (·.id), Covered kind s.available ins y := by
        intro y hy
        obtain ⟨item, hitem, rfl⟩ := mem_map.mp hy
        exact hcov item hitem (htree item hitem)
      have hmerge := (ho s hs (candidates.map (·.id))).weaken_ins hs hins
      refine (hmerge.conseq (fun _ _ _ h => h) (fun h => by rw [h]; rfl) fun h => by rw [h]; rfl).bind_same ?_
      rintro a s' hext ⟨ha, hacov⟩
      refine .pure hext.sound ⟨by rw [ha]; rfl, fun it hit _ => ?_⟩
      split at hit
      · cases hit
      · cases hit
        exact hacov.trans fun y hy => (hins y hy).mono hext.mono
    · exact .throw ⟨hs.extends, nofun, fun _ => rfl, nofun⟩

omit hsrc in
theorem overlayNames_yields {o : List Oid → EvalM Oid Oid}
    {o' : List Oid → Except (FilterTreeError Oid) Oid} (ho : Merges kind source o o') {ins : List Oid} :
    ∀ (groups : List (Text × List (TreeItem Oid))) (s : EvalState Oid), Sound kind s →
    (∀ g ∈ groups, ∀ item ∈ g.2, item.mode = .tree → Covered kind s.available ins item.id) →
    Yields kind source (overlayNames kind o groups) s ins
      (fun items s' => overlayNames kind o' groups = .ok items ∧
        ∀ it ∈ items, it.mode = .tree → Covered kind s'.available ins it.id)
      (overlayNames kind o' groups = .error .invariant)
      (overlayNames kind o' groups = .error .outOfFuel)
  | [], s, hs, _ => .pure hs ⟨rfl, by simp⟩
  | (name, candidates) :: groups, s, hs, hcov => by
    have hfirst := overlayName_yields ho hs name candidates fun item hitem => hcov (name, candidates) (by simp) item hitem
    refine (hfirst.conseq (fun _ _ _ h => h) (fun h => ?_) fun h => ?_).bind_same ?_
    · rw [overlayNames, h]; rfl
    · rw [overlayNames, h]; rfl
    rintro r s' hext ⟨hr, hrcov⟩
    have hrest := overlayNames_yields ho groups s' hext.sound fun g hg item hitem hm =>
      (hcov g (by simp [hg]) item hitem hm).mono hext.mono
    refine (hrest.conseq (fun _ _ _ h => h) (fun h => ?_) fun h => ?_).bind_same ?_
    · rw [overlayNames, hr, h]; rfl
    · rw [overlayNames, hr, h]; rfl
    rintro items s'' hext' ⟨hitems, hicov⟩
    refine .pure hext'.sound ⟨by rw [overlayNames, hr, hitems]; rfl, fun it hit hm => ?_⟩
    rcases mem_append.mp hit with hit | hit
    · exact (hrcov it (by simpa using hit) hm).mono hext'.mono
    · exact hicov it hit hm

omit [Contents kind] hsrc in
/-- The items kept have the names of their groups. -/
theorem itemNames_overlayNames {o : List Oid → Except (FilterTreeError Oid) Oid} :
    ∀ {groups : List (Text × List (TreeItem Oid))} {items : List (TreeItem Oid)},
    (∀ g ∈ groups, ∀ item ∈ g.2, item.name = g.1) → overlayNames kind o groups = .ok items →
    (itemNames items).Sublist (groups.map Prod.fst)
  | [], items, _, h => by cases h; exact List.Sublist.refl _
  | (name, candidates) :: groups, items, hg, h => by
    have hname : ∀ r, overlayName kind o name candidates = .ok r → (itemNames r.toList).Sublist [name] := by
      intro r hr
      unfold overlayName at hr
      split at hr
      · rename_i item
        cases hr
        split
        · have : item.name = name := hg (name, [item]) (by simp) item (by simp)
          simp [itemNames, this]
        · simp [itemNames]
      · split at hr
        · cases ho : o (candidates.map (·.id)) with
          | error e => rw [ho] at hr; cases hr
          | ok a =>
            rw [ho] at hr
            cases hr
            split
            · simp [itemNames]
            · simp [itemNames, treeItem]
        · cases hr
    cases hr : overlayName kind o name candidates with
    | error e => rw [overlayNames, hr] at h; cases h
    | ok r =>
      cases hrest : overlayNames kind o groups with
      | error e => rw [overlayNames, hr, hrest] at h; cases h
      | ok rest =>
        rw [overlayNames, hr, hrest] at h
        cases h
        rw [itemNames, map_append, map_cons, ← singleton_append]
        exact (hname r hr).append (itemNames_overlayNames (fun g hg' => hg g (by simp [hg'])) hrest)

/-- The part of `overlay` for two or more trees. -/
theorem overlayMany_yields {o : List Oid → EvalM Oid Oid}
    {o' : List Oid → Except (FilterTreeError Oid) Oid} (ho : Merges kind source o o') {s : EvalState Oid}
    (hs : Sound kind s) (xs : List Oid) :
    Yields kind source
      (do
        let items ← readItems kind source xs
        let items ← overlayNames kind o (byName items)
        makeTree kind items) s xs
      (fun a s' => (do
          let items ← overlayNames kind o' (byName (xs.flatMap (content kind)))
          pure (mkTree kind items)) = .ok a ∧
        Covered kind s'.available xs a)
      (overlayNames kind o' (byName (xs.flatMap (content kind))) = .error .invariant)
      (overlayNames kind o' (byName (xs.flatMap (content kind))) = .error .outOfFuel) := by
  refine ((readItems_yields hsrc hs xs).conseq (fun _ _ _ h => h) False.elim False.elim).bind_same ?_
  rintro items s' hext ⟨hs', hitems⟩
  subst hs' hitems
  have hgroup : ∀ g ∈ byName (xs.flatMap (content kind)), ∀ item ∈ g.2,
      item.name = g.1 ∧ ∃ x ∈ xs, item ∈ content kind x := by
    intro g hg item hitem
    rw [(mem_byName.mp hg).2] at hitem
    obtain ⟨hmem, hname⟩ := mem_filter.mp hitem
    exact ⟨by simpa using hname, mem_flatMap.mp hmem⟩
  have hcov : ∀ g ∈ byName (xs.flatMap (content kind)), ∀ item ∈ g.2, item.mode = .tree →
      Covered kind s'.available xs item.id := by
    intro g hg item hitem hm
    obtain ⟨x, hx, hix⟩ := (hgroup g hg item hitem).2
    exact .of_mem hx (reach_of_mem hix hm)
  refine (overlayNames_yields ho _ s' hs hcov).bind_same ?_
  rintro items s'' hext' ⟨hitems, hicov⟩
  have hn : (itemNames items).Nodup :=
    (nodup_byName _).sublist (itemNames_overlayNames (fun g hg item hitem => (hgroup g hg item hitem).1) hitems)
  refine (makeTree_yields hext'.sound hn xs).conseq (fun a s₃ hext₃ h => ?_) False.elim False.elim
  obtain ⟨ha, hmem⟩ := h
  subst ha
  refine ⟨by rw [hitems]; rfl, covered_mkTree hn hmem fun item hitem hm => ?_⟩
  exact (hicov item hitem hm).mono hext₃.mono

/-- **`overlay` merges as `semOverlay` says.** -/
theorem overlay_yields : ∀ fuel : ℕ, Merges kind source (overlay kind source fuel) (semOverlay kind fuel)
  | 0 => fun s hs xs => .throw ⟨hs.extends, nofun, nofun, fun _ => rfl⟩
  | fuel + 1 => by
    intro s hs xs
    have hsub : ∀ y ∈ xs.filter (fun x => x != emptyTreeId kind), y ∈ xs := fun y hy => (mem_filter.mp hy).1
    unfold overlay semOverlay
    generalize xs.filter (fun x => x != emptyTreeId kind) = nonEmpty at hsub
    have hcov : ∀ {trees}, ∀ y ∈ nonEmpty, Covered kind trees xs y := fun y hy => .of_mem (hsub y hy) (reach_refl y)
    rcases nonEmpty with _ | ⟨x, _ | ⟨y, rest⟩⟩
    · exact .pure hs ⟨rfl, covered_empty _ _⟩
    · exact .pure hs ⟨rfl, hcov x (by simp)⟩
    · have hmany := (overlayMany_yields hsrc (overlay_yields fuel) hs (x :: y :: rest)).weaken_ins hs hcov
      refine hmany.conseq (fun a s' _ h => ⟨h.1, h.2.trans hcov⟩) (fun h => ?_) fun h => ?_
      · simp only [h]; rfl
      · simp only [h]; rfl

/-! ### The whole evaluator -/

omit hsrc in
/-- A memoized run does what the run does. -/
theorem memoized_yields {f : Filter} (hf : noEmptyCompose f = true) {x : Oid} {compute : EvalM Oid Oid}
    {s : EvalState Oid} (hs : Sound kind s) {clash deep : Prop}
    (h : Yields kind source compute s [x] (fun a s' => a = sem kind f x ∧ Covered kind s'.available [x] a)
      clash deep) :
    Yields kind source (memoized kind f x compute) s [x]
      (fun a s' => a = sem kind f x ∧ Covered kind s'.available [x] a) clash deep := by
  refine .get_bind ?_
  split
  · -- a hit: the key is the text of some filter, and the text determines the meaning
    rename_i value hget
    have hentry := entrySound_of_get hs.memo hget
    obtain ⟨g, hg, hprint, hmeaning⟩ := hentry.meaning
    have hmono : ∀ {l l' : List (Oid × Tree Oid)}, treeIds l ⊆ treeIds (l ++ l') ∧ treeIds l' ⊆ treeIds (l ++ l') :=
      fun {l l'} => by simp [treeIds]
    refine .modify_bind (.pure ⟨⟨⟨fun entry he => ?_, hs.memo⟩, hmono.2⟩, ?_, ?_⟩)
    · exact (mem_append.mp he).elim (hentry.genuine entry) (hs.available entry)
    · rw [hmeaning, sem_eq_of_print_eq hg hf hprint]
    · exact hentry.covers.mono hmono.1
  · refine .bind h ?_
    rintro a s' ⟨hext, ha, hcov⟩
    refine .modify_bind (.pure ⟨⟨⟨hext.sound.available, ?_⟩, hext.mono⟩, ha, hcov⟩)
    refine memoSound_insert hext.sound.memo ⟨⟨f, hf, rfl, ?_⟩, ?_, ?_⟩
    · rw [treeId_outputFor, ha]
    · exact genuine_outputFor hext.sound.available a
    · rw [treeId_outputFor]
      exact outputFor_covers hext.sound.available hcov

/-- The end of a compose: the merge of the outputs that are not empty. -/
theorem composeOutputs_yields {s : EvalState Oid} (hs : Sound kind s) (fuel : ℕ) (outs : List Oid) :
    Yields kind source (composeOutputs kind source fuel (nonEmptyIds kind outs)) s (nonEmptyIds kind outs)
      (fun a s' => a = semUnion kind outs ∧ Covered kind s'.available (nonEmptyIds kind outs) a)
      (semOverlay kind fuel outs = .error .invariant) (semOverlay kind fuel outs = .error .outOfFuel) := by
  have hmerge := overlay_yields hsrc fuel s hs (nonEmptyIds kind outs)
  rw [semOverlay_nonEmptyIds] at hmerge
  have hone : semOverlay kind 1 (nonEmptyIds kind outs) = semOverlay kind 1 outs := semOverlay_nonEmptyIds 1 outs
  have hsame : (nonEmptyIds kind outs).filter (fun x => x != emptyTreeId kind) = nonEmptyIds kind outs := by
    simp [nonEmptyIds]
  rw [semOverlay, hsame] at hone
  generalize nonEmptyIds kind outs = ids at hmerge hone
  rcases ids with _ | ⟨x, _ | ⟨y, rest⟩⟩
  · exact .pure hs ⟨(semUnion_eq hone.symm).symm, covered_empty _ _⟩
  · exact .pure hs ⟨(semUnion_eq hone.symm).symm, .of_mem (by simp) (reach_refl x)⟩
  · exact hmerge.conseq (fun a s' _ h => ⟨(semUnion_eq h.1).symm, h.2⟩) id id

variable (kind source) in
/-- `eval` of `f` is right, with this fuel, from every sound state. -/
def EvalRight (fuel : ℕ) (f : Filter) : Prop :=
  ∀ s, Sound kind s → ∀ x, Yields kind source (eval kind source fuel f x) s [x]
    (fun a s' => a = sem kind f x ∧ Covered kind s'.available [x] a)
    (∀ k, fuel ≤ k → ¬ Fits kind k f x) (¬ Fits kind fuel f x)

omit hsrc in
theorem evalMembers_yields {fuel : ℕ} (x : Oid) : ∀ (ms : List Filter),
    (∀ m ∈ ms, EvalRight kind source fuel m) → ∀ s, Sound kind s →
    Yields kind source (evalMembers kind source fuel ms x) s [x]
      (fun outs s' => outs = nonEmptyIds kind (ms.map (sem kind · x)) ∧
        ∀ o ∈ outs, Covered kind s'.available [x] o)
      (∀ k, fuel ≤ k → ¬ FitsAll kind k ms x) (¬ FitsAll kind fuel ms x)
  | [], _, s, hs => .pure hs ⟨rfl, by simp⟩
  | m :: ms, h, s, hs => by
    refine ((h m (by simp) s hs x).conseq (fun _ _ _ h => h) (fun h k hk hfit => h k hk hfit.1)
      fun h hfit => h hfit.1).bind_same ?_
    rintro out s' hext ⟨hout, hcov⟩
    refine ((evalMembers_yields x ms (fun m hm => h m (by simp [hm])) s' hext.sound).conseq (fun _ _ _ h => h)
      (fun h k hk hfit => h k hk hfit.2) fun h hfit => h hfit.2).bind_same ?_
    rintro outs s'' hext' ⟨houts, hcovs⟩
    subst hout houts
    refine .pure hext'.sound ?_
    split
    · rename_i hempty
      exact ⟨by simp [nonEmptyIds, hempty], hcovs⟩
    · rename_i hne
      refine ⟨by simp [nonEmptyIds, hne], fun o ho => ?_⟩
      rcases mem_cons.mp ho with rfl | ho
      · exact hcov.mono hext'.mono
      · exact hcovs o ho

omit hsrc in
theorem evalChain_yields {fuel : ℕ} : ∀ (ops : List Filter), (∀ op ∈ ops, EvalRight kind source fuel op) →
    ∀ s, Sound kind s → ∀ x, Yields kind source (evalChain kind source fuel ops x) s [x]
      (fun a s' => a = semChain kind ops x ∧ Covered kind s'.available [x] a)
      (∀ k, fuel ≤ k → ¬ FitsChain kind k ops x) (¬ FitsChain kind fuel ops x)
  | [], _, s, hs, x => .pure hs ⟨rfl, .of_mem (by simp) (reach_refl x)⟩
  | op :: ops, h, s, hs, x => by
    refine ((h op (by simp) s hs x).conseq (fun _ _ _ h => h) (fun h k hk hfit => h k hk hfit.1)
      fun h hfit => h hfit.1).bind_same ?_
    rintro out s' hext ⟨hout, hcov⟩
    subst hout
    have hrest := evalChain_yields ops (fun o ho => h o (by simp [ho])) s' hext.sound (sem kind op x)
    have hins : ∀ {trees}, treeIds s'.available ⊆ treeIds trees →
        ∀ y ∈ [sem kind op x], Covered kind trees [x] y := fun hsub y hy => by
      rw [mem_singleton.mp hy]
      exact hcov.mono hsub
    refine (hrest.weaken_ins hext.sound (hins fun _ h => h)).conseq
      (fun a s'' hext' h => ⟨h.1, h.2.trans (hins hext'.mono)⟩)
      (fun h k hk hfit => h k hk hfit.2) fun h hfit => h hfit.2

/-- **`eval` computes what the filter means.** -/
theorem eval_yields (fuel : ℕ) {f : Filter} (hf : noEmptyCompose f = true) : EvalRight kind source fuel f := by
  induction f using Filter.induction with
  | subdir p =>
    exact fun s hs x => memoized_yields hf hs ((evalSubdir_yields hsrc hs x _).conseq
      (fun _ _ _ h => h) False.elim False.elim)
  | prefixed p =>
    exact fun s hs x => memoized_yields hf hs ((evalPrefixed_yields hs x _).conseq
      (fun _ _ _ h => h) False.elim False.elim)
  | exclude sels =>
    exact fun s hs x => memoized_yields hf hs ((evalExclude_yields hsrc hs x _).conseq
      (fun _ _ _ h => h) False.elim False.elim)
  | compose ms ih =>
    intro s hs x
    have hms := fun m hm => ih m hm ((noEmptyCompose_compose.mp hf).2 m hm)
    refine memoized_yields hf hs ?_
    refine ((evalMembers_yields x ms hms s hs).conseq (fun _ _ _ h => h) (fun h k hk hfit => h k hk hfit.1)
      fun h hfit => h hfit.1).bind ?_
    rintro outs s' hext ⟨houts, hcovs⟩
    subst houts
    refine ⟨_, hcovs, ?_⟩
    refine (composeOutputs_yields hsrc hext.sound fuel (ms.map (sem kind · x))).conseq
      (fun a s'' hext' h => ⟨?_, h.2.trans fun y hy => (hcovs y hy).mono hext'.mono⟩)
      (fun hclash k hk hfit => ?_) fun hdeep hfit => ?_
    · rw [h.1, sem_compose]
    · obtain ⟨-, r, hr⟩ := hfit
      rw [semOverlay_mono hk _ (by rw [hclash]; simp), hclash] at hr
      cases hr
    · obtain ⟨-, r, hr⟩ := hfit
      rw [hdeep] at hr
      cases hr
  | chain ops ih =>
    intro s hs x
    refine memoized_yields hf hs ?_
    exact evalChain_yields ops (fun op hop => ih op hop (noEmptyCompose_chain.mp hf op hop)) s hs x
  | nop => exact fun s hs x => .pure hs ⟨rfl, .of_mem (by simp) (reach_refl x)⟩
  | empty => exact fun s hs x => .pure hs ⟨rfl, covered_empty _ _⟩

/-- Everything below a fully readable tree can be read. -/
theorem readTree_of_fullyReadable {x y : Oid} (h : FullyReadable kind source x) (hy : Reach kind x y) :
    ∃ tree, readTree kind source y = .ok tree := by
  have hpath : Relation.ReflTransGen (Subtree kind source) x y := by
    induction hy with
    | refl => exact .refl
    | tail _ hzy ih =>
      obtain ⟨item, hi, hm, rfl⟩ := hzy
      obtain ⟨tree, htree⟩ := h _ ih
      refine ih.tail ⟨tree, htree, item, ?_, hm, rfl⟩
      rwa [content_of_readTree hsrc htree]
  exact h y hpath

/-- The output of a filter on `x`, with the trees that were built for it. -/
structure OutputRight (kind : HashKind Oid) [Contents kind] (f : Filter) (x : Oid) (output : FilterOutput Oid) : Prop where
  treeId : output.treeId = sem kind f x
  genuine : Genuine kind output.trees
  covers : Covered kind output.trees [x] output.treeId

/-- Reading some tree below `x` gives this error. -/
def Misses (kind : HashKind Oid) [Contents kind] (source : TreeSource Oid) (x : Oid) (object : MissingObject Oid) : Prop :=
  ∃ y, Reach kind x y ∧ readTree kind source y = .error object

/-- What `filter_tree` may answer. -/
def FilterAnswer (kind : HashKind Oid) [Contents kind] (source : TreeSource Oid) (f : Filter) (fuel : ℕ) (x : Oid) :
    Except (FilterTreeError Oid) (FilterOutput Oid) → Prop
  | .ok output => OutputRight kind f x output
  | .error (.missing object) => Misses kind source x object
  | .error .invariant => ∀ k, fuel ≤ k → ¬ Fits kind k f x
  | .error .outOfFuel => ¬ Fits kind fuel f x

/-- **What `filter_tree` returns.** -/
theorem filterTree_spec (fuel : ℕ) {f : Filter} (hf : noEmptyCompose f = true) (hm : MemoSound kind memo) (x : Oid) :
    MemoSound kind (filterTree kind source fuel memo f x).2 ∧
      FilterAnswer kind source f fuel x (filterTree kind source fuel memo f x).1 := by
  have hs : Sound kind (⟨memo, []⟩ : EvalState Oid) := ⟨nofun, hm⟩
  have h := eval_yields hsrc fuel hf ⟨memo, []⟩ hs x
  unfold filterTree
  cases hexec : (eval kind source fuel f x).exec ⟨memo, []⟩ with
  | mk r s' =>
    cases r with
    | ok a =>
      obtain ⟨hext, ha, hcov⟩ := h.of_ok hexec
      refine ⟨hext.sound.memo, ?_, genuine_outputFor hext.sound.available a, ?_⟩
      · rw [treeId_outputFor, ha]
      · rw [treeId_outputFor]
        exact outputFor_covers hext.sound.available hcov
    | error e =>
      have he := h.of_error hexec
      refine ⟨he.extend.sound.memo, ?_⟩
      cases e with
      | missing object =>
        obtain ⟨y, hy, z, hz, hread⟩ := he.missing object rfl
        rw [mem_singleton.mp hy] at hz
        exact ⟨z, hz, hread⟩
      | invariant => exact he.invariant rfl
      | outOfFuel => exact he.outOfFuel rfl

/-- A readable input and fuel for every merge: the run succeeds. -/
theorem filterTree_ok {fuel : ℕ} {f : Filter} (hf : noEmptyCompose f = true) (hm : MemoSound kind memo) {x : Oid}
    (hread : FullyReadable kind source x) (hfits : Fits kind fuel f x) :
    ∃ o, (filterTree kind source fuel memo f x).1 = .ok o ∧ o.treeId = sem kind f x := by
  have h := (filterTree_spec hsrc fuel hf hm x).2
  cases hrun : (filterTree kind source fuel memo f x).1 with
  | ok o =>
    rw [hrun] at h
    exact ⟨o, rfl, h.treeId⟩
  | error e =>
    rw [hrun] at h
    cases e with
    | missing object =>
      obtain ⟨y, hy, hmiss⟩ := h
      obtain ⟨tree, htree⟩ := readTree_of_fullyReadable hsrc hread hy
      rw [hmiss] at htree
      cases htree
    | invariant => exact absurd hfits (h fuel le_rfl)
    | outOfFuel => exact absurd hfits h

/-- **Filters that write disjoint paths succeed** on readable trees. -/
theorem exists_filterTree_ok {f : Filter} (hf : noEmptyCompose f = true) (hd : WritesDisjoint f)
    (hm : MemoSound kind memo) {x : Oid} (hread : FullyReadable kind source x) :
    ∃ n₀, ∀ n, n₀ ≤ n → ∃ o, (filterTree kind source n memo f x).1 = .ok o ∧ o.treeId = sem kind f x := by
  obtain ⟨n₀, hn₀⟩ := fits_of_disjoint kind hd x
  exact ⟨n₀, fun n hn => filterTree_ok hsrc hf hm hread (hn₀ n hn)⟩

/-- Such filters never clash, whatever the fuel. -/
theorem filterTree_ne_invariant {f : Filter} (hf : noEmptyCompose f = true) (hd : WritesDisjoint f)
    (hm : MemoSound kind memo) (x : Oid) (fuel : ℕ) :
    (filterTree kind source fuel memo f x).1 ≠ .error .invariant := by
  intro heq
  have h := (filterTree_spec hsrc fuel hf hm x).2
  rw [heq] at h
  obtain ⟨n₀, hn₀⟩ := fits_of_disjoint kind hd x
  exact h (max fuel n₀) (le_max_left _ _) (hn₀ _ (le_max_right _ _))

end Operators

end View
end Mega
