/-
# What the result of a filter depends on

Three facts about the meaning of filters whose composes write disjoint paths.
The result depends on the input only at the filter's source paths
(`view_sem_congr`). It does not depend on the order in which composes list
their members (`sem_reorder`). And for any filter without an empty compose it is
determined by the printed text, which is the memo key (`sem_eq_of_print_eq`).

Key definitions: `Reorder`, `semSeq`.
Key theorems: `view_sem_congr`, `sem_eq_of_source_paths`, `sem_reorder`,
`sem_eq_of_print_eq`.
-/
import Mega.View.FilterLaws

namespace Mega
namespace View

open List KeySort PathCone

variable {Oid : Type} [DecidableEq Oid] {kind : HashKind Oid} [Contents kind]

/-! ### The source paths are all a filter reads -/

theorem view_semPrefixed_append (x : Oid) (q p : Path) :
    view kind (semPrefixed kind x q) (q ++ p) = view kind x p := by
  unfold semPrefixed
  split
  · rename_i hx
    rw [hx, view_empty, view_empty]
  · exact view_semWrap_append x q p

theorem view_semPrefixed_of_apart (x : Oid) {q p : Path}
    (hqp : ¬ q <+: p) (hpq : ¬ p <+: q) : view kind (semPrefixed kind x q) p = emptyTreeId kind := by
  unfold semPrefixed
  split
  · rename_i hx
    rw [hx, view_empty]
  · exact view_semWrap x q p hqp hpq

/-- **What a filter writes at `C` depends on what it reads for `C` alone.** -/
theorem view_sem_congr {f : Filter} (hf : WritesDisjoint f)
    {C : Set Path} (hC : UpClosed C) {x y : Oid}
    (h : ∀ p ∈ pullSet f C, view kind x p = view kind y p) :
    ∀ p ∈ C, view kind (sem kind f x) p = view kind (sem kind f y) p := by
  induction hf generalizing C x y with
  | subdir q =>
    intro p hp
    have hq := h (q.segments ++ p) ⟨p, hp, rfl⟩
    rwa [view_append, view_append] at hq
  | prefixed q =>
    intro p hp
    change view kind (semPrefixed kind x q.segments) p = view kind (semPrefixed kind y q.segments) p
    by_cases hqp : q.segments <+: p
    · obtain ⟨e, rfl⟩ := hqp
      rw [view_semPrefixed_append, view_semPrefixed_append]
      exact h e hp
    by_cases hpq : p <+: q.segments
    · -- a path above the new directory: the whole input is below it
      have hxy : x = y := h [] (by simpa [pullSet] using hC.of_isPrefix hp hpq)
      rw [hxy]
    · rw [view_semPrefixed_of_apart x hqp hpq, view_semPrefixed_of_apart y hqp hpq]
  | exclude sels => exact fun p hp => view_semExclude_congr sels (h p hp)
  | compose ms hdis hms ih =>
    intro p hp
    have hmem : ∀ m ∈ ms, view kind (sem kind m x) p = view kind (sem kind m y) p := fun m hm =>
      ih m hm hC (fun p' hp' => h p' (mem_pullSet_compose.mpr ⟨m, hm, hp'⟩)) p hp
    obtain ⟨d, hx, -⟩ := unionOf_compose kind (.compose ms hdis hms) x
    obtain ⟨e, hy, -⟩ := unionOf_compose kind (.compose ms hdis hms) y
    have hclosed := fun z => @upClosed_of_mem_memberPieces _ kind _ Set.univ z ms _ upClosed_univ
    have hpieces : piecesAt kind (memberPieces kind Set.univ x ms) p =
        piecesAt kind (memberPieces kind Set.univ y ms) p := by
      simp only [piecesAt, memberPieces, map_map]
      exact map_congr_left fun m hm => by simp [hmem m hm]
    have hy' := hy.piecesAt (hclosed y) p
    rw [← hpieces] at hy'
    refine (hx.piecesAt (hclosed x) p).unique ?_ hy'
    intro _ hmem
    obtain ⟨q, hq, rfl⟩ := mem_map.mp hmem
    exact (hclosed x q hq).strip p
  | chain ops hops ih =>
    rw [pullSet_chain] at h
    simp only [sem_chain]
    induction ops generalizing x y with
    | nil => exact h
    | cons op ops ihops =>
      refine ihops (fun o ho => hops o (by simp [ho])) (fun o ho => ih o (by simp [ho])) ?_
      have hC' : UpClosed (ops.foldr pullSet C) := by
        rw [← pullSet_chain]
        exact upClosed_pullSet hC _
      exact ih op (by simp) hC' h
  | nop => exact h
  | empty => exact fun p _ => rfl

/-- Inputs that agree at the source paths have the same output. -/
theorem sem_eq_of_source_paths {f : Filter} (hf : WritesDisjoint f)
    {x y : Oid} (h : ∀ path ∈ srcPaths f, view kind x (pathSegments path) = view kind y (pathSegments path)) :
    sem kind f x = sem kind f y := by
  refine view_sem_congr hf upClosed_univ (fun p hp => ?_) [] (Set.mem_univ _)
  rw [← cone_srcPaths] at hp
  obtain ⟨q, hq, e, rfl⟩ := hp
  obtain ⟨path, hpath, rfl⟩ := mem_map.mp hq
  rw [view_append, view_append, h path hpath]

/-! ### The order of compose members -/

/-- `g` is `f` with the members of some composes listed in another order. -/
inductive Reorder : Filter → Filter → Prop
  | refl (f) : Reorder f f
  | perm {ms ms' : List Filter} : ms.Perm ms' → Reorder (.compose ms) (.compose ms')
  | member {f g : Filter} (before after : List Filter) : Reorder f g →
      Reorder (.compose (before ++ f :: after)) (.compose (before ++ g :: after))
  | op {f g : Filter} (before after : List Filter) : Reorder f g →
      Reorder (.chain (before ++ f :: after)) (.chain (before ++ g :: after))
  | trans {f g h : Filter} : Reorder f g → Reorder g h → Reorder f h

theorem Reorder.pushSet_eq {f g : Filter} (h : Reorder f g) (C : Set Path) : pushSet f C = pushSet g C := by
  induction h generalizing C with
  | refl => rfl
  | perm hp => ext p; simp only [mem_pushSet_compose, hp.mem_iff]
  | member before after _ ih => ext p; simp [mem_pushSet_compose, or_and_right, exists_or, ih]
  | op before after _ ih => simp only [pushSet_chain, foldl_append, foldl_cons, ih]
  | trans _ _ ih ih' => rw [ih, ih']

theorem forall_mem_of_replace {P : Filter → Prop} {f g : Filter} {before after : List Filter}
    (h : ∀ m ∈ before ++ f :: after, P m) (hfg : P f → P g) : ∀ m ∈ before ++ g :: after, P m := by
  intro m hm
  rcases mem_append.mp hm with hm | hm
  · exact h m (by simp [hm])
  rcases mem_cons.mp hm with rfl | hm
  · exact hfg (h _ (by simp))
  · exact h m (by simp [hm])

theorem Reorder.noEmptyCompose {f g : Filter} (h : Reorder f g) (hf : noEmptyCompose f = true) :
    View.noEmptyCompose g = true := by
  induction h with
  | refl => exact hf
  | perm hp =>
    obtain ⟨hne, hall⟩ := noEmptyCompose_compose.mp hf
    exact noEmptyCompose_compose.mpr ⟨fun h => hne (by rw [h] at hp; exact hp.eq_nil),
      fun m hm => hall m (hp.mem_iff.mpr hm)⟩
  | member before after _ ih =>
    exact noEmptyCompose_compose.mpr ⟨by simp, forall_mem_of_replace (noEmptyCompose_compose.mp hf).2 ih⟩
  | op before after _ ih =>
    exact noEmptyCompose_chain.mpr (forall_mem_of_replace (noEmptyCompose_chain.mp hf) ih)
  | trans _ _ ih ih' => exact ih' (ih hf)

theorem Reorder.writesDisjoint {f g : Filter} (h : Reorder f g) (hf : WritesDisjoint f) :
    WritesDisjoint g := by
  induction h with
  | refl => exact hf
  | perm hp =>
    cases hf with
    | compose _ hdis hms =>
      exact .compose _ ((hp.pairwise_iff fun h => h.symm).mp hdis) fun m hm => hms m (hp.mem_iff.mpr hm)
  | member before after hr ih =>
    cases hf with
    | compose _ hdis hms =>
      refine .compose _ ?_ (forall_mem_of_replace hms ih)
      -- the members write the same paths as before
      rw [← pairwise_map (f := (pushSet · Set.univ)) (R := Disjoint)] at hdis ⊢
      simpa only [map_append, map_cons, hr.pushSet_eq] using hdis
  | op before after _ ih =>
    cases hf with
    | chain _ hops => exact .chain _ (forall_mem_of_replace hops ih)
  | trans _ _ ih ih' => exact ih' (ih hf)

/-- **The order of the members does not matter.** -/
theorem sem_reorder {f g : Filter} (h : Reorder f g)
    (hf : WritesDisjoint f) (x : Oid) : sem kind f x = sem kind g x := by
  induction h generalizing x with
  | refl => rfl
  | @perm ms ms' hp =>
    obtain ⟨d, hunion, -⟩ := unionOf_compose kind hf x
    obtain ⟨e, hunion', -⟩ := unionOf_compose kind ((Reorder.perm hp).writesDisjoint hf) x
    refine (hunion.of_mem fun q => ?_).unique (upClosed_of_mem_memberPieces upClosed_univ) hunion'
    simp [memberPieces, hp.mem_iff]
  | member before after _ ih =>
    cases hf with
    | compose _ _ hms => simp only [sem_compose, map_append, map_cons, ih (hms _ (by simp))]
  | op before after _ ih =>
    cases hf with
    | chain _ hops => simp only [sem_chain, foldl_append, foldl_cons, ih (hops _ (by simp))]
  | trans hfg _ ih ih' => rw [ih hf, ih' (hfg.writesDisjoint hf)]

/-! ### The printed text -/

section Print

variable (kind)

mutual

/-- The meaning of a filter without chains. -/
noncomputable def semFlat : Flat → Oid → Oid
  | .subdir path, x => view kind x path.segments
  | .prefixed path, x => semPrefixed kind x path.segments
  | .exclude selectors, x => semExclude kind x selectors
  | .compose first rest, x => semUnion kind (semSeq first x :: semSeqs rest x)
  | .nop, x => x
  | .empty, _ => emptyTreeId kind

noncomputable def semSeq : List Flat → Oid → Oid
  | [], x => x
  | a :: l, x => semSeq l (semFlat a x)

noncomputable def semSeqs : List (List Flat) → Oid → List Oid
  | [], _ => []
  | l :: ls, x => semSeq l x :: semSeqs ls x

end

variable {kind}

theorem semSeqs_eq_map (x : Oid) : ∀ ls : List (List Flat), semSeqs kind ls x = ls.map (semSeq kind · x)
  | [] => rfl
  | l :: ls => by rw [semSeqs, semSeqs_eq_map x ls, map_cons]

theorem semSeq_append : ∀ (l l' : List Flat) (x : Oid),
    semSeq kind (l ++ l') x = semSeq kind l' (semSeq kind l x)
  | [], _, _ => rfl
  | a :: l, l', x => semSeq_append l l' (semFlat kind a x)

/-- Dissolving chains keeps the meaning. -/
theorem sem_eq_semSeq_flat (f : Filter) (x : Oid) : sem kind f x = semSeq kind (flat f) x := by
  induction f using Filter.induction generalizing x with
  | subdir | prefixed | exclude | nop | empty => rfl
  | compose ms ih =>
    have hmap : ms.map (sem kind · x) = ms.map fun m => semSeq kind (flat m) x :=
      map_congr_left fun m hm => ih m hm x
    rw [sem_compose, hmap]
    match ms with
    | [] => exact semUnion_eq (semOverlay_of_all_empty (by simp) 0)
    | m :: ms =>
      simp only [flat, flatAll_eq_map, map_cons, semSeq, semFlat, semSeqs_eq_map, map_map,
        Function.comp_def]
  | chain ops ih =>
    rw [sem_chain, flat, flatAll_eq_map]
    induction ops generalizing x with
    | nil => rfl
    | cons op ops ihops =>
      rw [foldl_cons, map_cons, flatten_cons, semSeq_append, ← ih op (by simp)]
      exact ihops (fun o ho => ih o (by simp [ho])) _

/-- **The text of a filter determines its meaning**, if no compose is empty. -/
theorem sem_eq_of_print_eq {f g : Filter} (hf : noEmptyCompose f = true) (hg : noEmptyCompose g = true)
    (h : print f = print g) (x : Oid) : sem kind f x = sem kind g x := by
  rw [sem_eq_semSeq_flat, sem_eq_semSeq_flat, flat_eq_of_print_eq hf hg h]

end Print

end View
end Mega
