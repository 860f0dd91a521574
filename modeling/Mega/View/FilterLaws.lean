/-
# Laws of filters whose composes do not overlap

`ceres/view/filter` accepts only filters whose compose members write disjoint
paths. Such a filter builds a tree above the paths it writes (`sem_built`), so
no merge fails (`fits_of_disjoint`). Canonicalizing it keeps its composes
disjoint (`writesDisjoint_canonicalize`) and does not change what it means
(`sem_canonicalize`): chains are fused as `ChainLaws` allows, and a compose is
the union of its members however they are nested and ordered.

Key definitions: `WritesDisjoint`, `Fits`.
Key theorems: `chainLaws_semEnd`, `sem_built`, `fits_of_disjoint`,
`sem_canonicalize`.
-/
import Mega.View.Shape
import Mega.View.Validate

namespace Mega
namespace View

open List KeySort PathCone

variable {Oid : Type} {kind : HashKind Oid} [Contents kind]
variable {C : Set Path} {x : Oid} {ms cs : List Filter} {f : Filter}

/-- In every compose, the members write below disjoint paths. -/
abbrev WritesDisjoint (f : Filter) : Prop := ComposeDisjoint (pushSet · Set.univ) f

/-! ### The path operators compose as paths -/

omit [Contents kind] in
theorem semWrap_append (x : Oid) : ∀ p q : Path, semWrap kind x (p ++ q) = semWrap kind (semWrap kind x q) p
  | [], _ => rfl
  | n :: p, q => by rw [cons_append, semWrap, semWrap, semWrap_append x p q]

theorem nodup_singleton_item (item : TreeItem Oid) : (itemNames [item]).Nodup := nodup_singleton _

theorem child_mkTree_singleton (n m : Text) (x : Oid) :
    child kind (mkTree kind [treeItem n x]) m = if n = m then x else emptyTreeId kind := by
  have hmem := fun it => @mem_content_mkTree _ kind _ _ it (nodup_singleton_item (treeItem n x))
  split
  · rename_i h
    subst h
    exact child_of_mem ((hmem (treeItem n x)).mpr (mem_singleton_self _)) rfl
  · rename_i h
    by_contra hc
    have heq := mem_singleton.mp ((hmem _).mp (mem_of_child_ne hc))
    exact h (congrArg TreeItem.name heq).symm

/-- What a wrapped tree has at a path: below the path, on the way, or aside. -/
theorem view_semWrap (x : Oid) :
    ∀ p q : Path, ¬ p <+: q → ¬ q <+: p → view kind (semWrap kind x p) q = emptyTreeId kind
  | [], _, h, _ => absurd nil_prefix h
  | _ :: _, [], _, h => absurd nil_prefix h
  | n :: p, m :: q, hpq, hqp => by
    rw [view_cons, semWrap, child_mkTree_singleton]
    split
    · rename_i hnm
      subst hnm
      exact view_semWrap x p q (fun h => hpq (cons_prefix_cons.mpr ⟨rfl, h⟩))
        fun h => hqp (cons_prefix_cons.mpr ⟨rfl, h⟩)
    · exact view_empty q

theorem view_semWrap_append (x : Oid) :
    ∀ p q : Path, view kind (semWrap kind x p) (p ++ q) = view kind x q
  | [], _ => rfl
  | n :: p, q => by
    rw [cons_append, view_cons, semWrap, child_mkTree_singleton, if_pos rfl]
    exact view_semWrap_append x p q

/-! ### Every filter keeps the empty tree, and a chain composes its operations -/

omit [Contents kind] in
theorem semEnd_ext {e e' : (PointedEnd Oid (emptyTreeId kind))ᵐᵒᵖ}
    (h : ∀ x, e.unop.toFun x = e'.unop.toFun x) : e = e' :=
  MulOpposite.unop_injective (PointedEnd.ext (funext h))

variable [DecidableEq Oid]

theorem semOverlay_of_all_empty {xs : List Oid} (h : ∀ x ∈ xs, x = emptyTreeId kind) (n : ℕ) :
    semOverlay kind (n + 1) xs = .ok (emptyTreeId kind) := by
  have hnil : xs.filter (fun x => x != emptyTreeId kind) = [] :=
    filter_eq_nil_iff.mpr fun x hx => by simp [h x hx]
  rw [semOverlay, hnil]

theorem sem_empty (f : Filter) :
    sem kind f (emptyTreeId kind) = emptyTreeId kind := by
  induction f using Filter.induction with
  | subdir p => exact view_empty _
  | prefixed p => simp [sem, semPrefixed]
  | exclude sels => exact semExclude_empty sels
  | compose ms ih =>
    rw [sem_compose]
    refine semUnion_eq (semOverlay_of_all_empty (fun x hx => ?_) 0)
    obtain ⟨m, hm, rfl⟩ := mem_map.mp hx
    exact ih m hm
  | chain ops ih =>
    rw [sem_chain]
    induction ops with
    | nil => rfl
    | cons op ops ihops =>
      rw [foldl_cons, ih op (by simp)]
      exact ihops fun o ho => ih o (by simp [ho])
  | nop => rfl
  | empty => rfl

/-- The meaning of `f`, in the monoid of maps that keep the empty tree. -/
noncomputable def semEnd (kind : HashKind Oid) [Contents kind] (f : Filter) :
    (PointedEnd Oid (emptyTreeId kind))ᵐᵒᵖ :=
  .op ⟨sem kind f, sem_empty f⟩

theorem chainLaws_semEnd : ChainLaws (semEnd kind) where
  nop := rfl
  empty := rfl
  chain ops := semEnd_ext fun x => (sem_chain ops x).trans
    (PointedEnd.unop_prod_map_apply (fun f => ⟨sem kind f, sem_empty f⟩) ops x).symm
  subdir_subdir a b := semEnd_ext fun x => (view_append x _ _).symm
  prefixed_prefixed a b := semEnd_ext fun x => by
    change semPrefixed kind (semPrefixed kind x a.segments) b.segments =
      semPrefixed kind x (b.segments ++ a.segments)
    by_cases hx : x = emptyTreeId kind
    · simp [semPrefixed, hx]
    · rw [semPrefixed, semPrefixed, if_neg hx, if_neg (semWrap_ne_empty hx _), semPrefixed, if_neg hx,
        semWrap_append]
  cancel p := semEnd_ext fun x => by
    change view kind (semPrefixed kind x p.segments) p.segments = x
    by_cases hx : x = emptyTreeId kind
    · simp [semPrefixed, hx, view_empty]
    · have hview : view kind _ _ = _ := view_semWrap_append x p.segments []
      rw [append_nil] at hview
      rw [semPrefixed, if_neg hx, hview, view_nil]
  incomparable p q hpq hqp := semEnd_ext fun x => by
    change view kind (semPrefixed kind x p.segments) q.segments = emptyTreeId kind
    by_cases hx : x = emptyTreeId kind
    · simp [semPrefixed, hx, view_empty]
    · rw [semPrefixed, if_neg hx, view_semWrap x _ _ hpq hqp]

/-! ### The tree a filter builds -/

/-- What the members of a compose make of `x`, each with the paths it writes. -/
noncomputable def memberPieces (kind : HashKind Oid) [Contents kind] (C : Set Path) (x : Oid) (ms : List Filter) :
    List (Piece Oid) :=
  ms.map fun m => (pushSet m C, sem kind m x)

theorem map_snd_memberPieces (C : Set Path) (x : Oid) (ms : List Filter) :
    (memberPieces kind C x ms).map Prod.snd = ms.map (sem kind · x) := by
  simp [memberPieces, Function.comp_def]

theorem mem_unionCone_memberPieces {p : Path} :
    p ∈ unionCone (memberPieces kind C x ms) ↔ ∃ m ∈ ms, p ∈ pushSet m C := by
  simp [unionCone, memberPieces]

theorem upClosed_of_mem_memberPieces (hC : UpClosed C) : ∀ q ∈ memberPieces kind C x ms, UpClosed q.1 := by
  intro _ hq
  obtain ⟨m, -, rfl⟩ := mem_map.mp hq
  exact upClosed_pushSet hC m

theorem exists_common_depth :
    ∀ {ms : List Filter}, (∀ m ∈ ms, ∃ d, Built kind d (pushSet m C) (sem kind m x)) →
    ∃ d, ∀ m ∈ ms, Built kind d (pushSet m C) (sem kind m x)
  | [], _ => ⟨0, by simp⟩
  | m :: ms, h => by
    obtain ⟨d, hd⟩ := h m (by simp)
    obtain ⟨e, he⟩ := exists_common_depth fun m' (hm' : m' ∈ ms) => h m' (by simp [hm'])
    refine ⟨max d e, fun m' hm' => ?_⟩
    rcases mem_cons.mp hm' with rfl | hm'
    · exact hd.of_le (le_max_left d e)
    · exact (he m' hm').of_le (le_max_right d e)

theorem mergeable_memberPieces (hC : UpClosed C) {d : ℕ}
    (hdis : ms.Pairwise fun a b => Disjoint (pushSet a Set.univ) (pushSet b Set.univ))
    (hb : ∀ m ∈ ms, Built kind d (pushSet m C) (sem kind m x)) :
    Mergeable kind d (memberPieces kind C x ms) where
  closed := upClosed_of_mem_memberPieces hC
  built := by
    intro _ hq
    obtain ⟨m, hm, rfl⟩ := mem_map.mp hq
    exact hb m hm
  disjoint := by
    rw [memberPieces, pairwise_map]
    exact hdis.imp fun {a b} h => h.mono (pushSet_mono (Set.subset_univ C) a) (pushSet_mono (Set.subset_univ C) b)

/-- Members that write disjoint paths merge, and the compose is their union. -/
theorem unionOf_sem_compose (hC : UpClosed C)
    (hdis : ms.Pairwise fun a b => Disjoint (pushSet a Set.univ) (pushSet b Set.univ))
    (hb : ∀ m ∈ ms, ∃ d, Built kind d (pushSet m C) (sem kind m x)) :
    ∃ d, UnionOf kind d (memberPieces kind C x ms) (sem kind (.compose ms) x) ∧
      ∀ n, d < n → semOverlay kind n (ms.map (sem kind · x)) = .ok (sem kind (.compose ms) x) := by
  obtain ⟨d, hd⟩ := exists_common_depth hb
  have hmerge := mergeable_memberPieces hC hdis hd
  have hsome : ∀ n, d < n → ∃ r, semOverlay kind n (ms.map (sem kind · x)) = .ok r ∧
      UnionOf kind d (memberPieces kind C x ms) r := by
    intro n hn
    rw [← map_snd_memberPieces C]
    exact semOverlay_union hmerge hn
  refine ⟨d, ?_, fun n hn => ?_⟩
  · obtain ⟨r, hr, hunion⟩ := hsome (d + 1) (by omega)
    rwa [sem_compose, semUnion_eq hr]
  · obtain ⟨r, hr, -⟩ := hsome n hn
    rw [hr, sem_compose, semUnion_eq hr]

theorem built_semPrefixed {d : ℕ} (h : Built kind d C x) (path : Path) :
    Built kind (d + path.length) (plant path C) (semPrefixed kind x path) := by
  unfold semPrefixed
  split
  · rename_i hx
    rw [hx]
    exact built_empty _ _
  · rename_i hx
    exact built_semWrap h hx path

/-- **A filter builds its output above the paths it writes.** -/
theorem sem_built (hf : WritesDisjoint f) (hC : UpClosed C) {d : ℕ}
    (hx : Built kind d C x) : ∃ e, Built kind e (pushSet f C) (sem kind f x) := by
  induction hf generalizing C d x with
  | subdir p => exact ⟨d, hx.view hC p.segments⟩
  | prefixed p => exact ⟨_, built_semPrefixed hx p.segments⟩
  | exclude sels =>
    rw [pushSet_exclude]
    exact ⟨d, built_semExcludeInner _ hx _⟩
  | compose ms hdis hms ih =>
    obtain ⟨e, hunion, -⟩ := unionOf_sem_compose hC hdis fun m hm => ih m hm hC hx
    refine ⟨e, hunion.built.mono fun p hp => ?_⟩
    exact mem_pushSet_compose.mpr (mem_unionCone_memberPieces.mp hp)
  | chain ops hops ih =>
    rw [pushSet_chain, sem_chain]
    induction ops generalizing C d x with
    | nil => exact ⟨d, hx⟩
    | cons op ops ihops =>
      obtain ⟨e, he⟩ := ih op (by simp) hC hx
      exact ihops (fun o ho => hops o (by simp [ho])) (fun o ho => ih o (by simp [ho]))
        (upClosed_pushSet hC op) he
  | nop => exact ⟨d, hx⟩
  | empty => exact ⟨0, .inr rfl⟩

/-- The members of a compose, from any input, merge into what the compose means. -/
theorem unionOf_compose (kind : HashKind Oid) [Contents kind] (hf : WritesDisjoint (.compose ms)) (x : Oid) :
    ∃ d, UnionOf kind d (memberPieces kind Set.univ x ms) (sem kind (.compose ms) x) ∧
      ∀ n, d < n → semOverlay kind n (ms.map (sem kind · x)) = .ok (sem kind (.compose ms) x) := by
  cases hf with
  | compose _ hdis hms =>
    exact unionOf_sem_compose upClosed_univ hdis fun m hm =>
      sem_built (hms m hm) upClosed_univ (built_univ x)

/-! ### Enough fuel for every merge -/

mutual

/-- Every merge in the evaluation of a filter succeeds with `n` levels of fuel. -/
def Fits (kind : HashKind Oid) [Contents kind] (n : ℕ) : Filter → Oid → Prop
  | .compose members, x => FitsAll kind n members x ∧ ∃ r, semOverlay kind n (members.map (sem kind · x)) = .ok r
  | .chain ops, x => FitsChain kind n ops x
  | _, _ => True

def FitsAll (kind : HashKind Oid) [Contents kind] (n : ℕ) : List Filter → Oid → Prop
  | [], _ => True
  | f :: fs, x => Fits kind n f x ∧ FitsAll kind n fs x

def FitsChain (kind : HashKind Oid) [Contents kind] (n : ℕ) : List Filter → Oid → Prop
  | [], _ => True
  | op :: ops, x => Fits kind n op x ∧ FitsChain kind n ops (sem kind op x)

end

/-- **No merge of a filter fails** if its composes write disjoint paths. -/
theorem fits_of_disjoint (kind : HashKind Oid) [Contents kind] (hf : WritesDisjoint f) (x : Oid) :
    ∃ n₀, ∀ n, n₀ ≤ n → Fits kind n f x := by
  induction hf generalizing x with
  | subdir | prefixed | exclude | nop | empty => exact ⟨0, fun n _ => by simp [Fits]⟩
  | compose ms hdis hms ih =>
    obtain ⟨d, -, hd⟩ := unionOf_compose kind (.compose ms hdis hms) x
    have hall : ∃ n₀, ∀ n, n₀ ≤ n → FitsAll kind n ms x := by
      clear hd hdis
      induction ms with
      | nil => exact ⟨0, fun n _ => by simp [FitsAll]⟩
      | cons m ms ihms =>
        obtain ⟨a, ha⟩ := ih m (by simp) x
        obtain ⟨b, hb⟩ := ihms (fun m hm => hms m (by simp [hm])) fun m hm => ih m (by simp [hm])
        exact ⟨max a b, fun n hn => ⟨ha n (by omega), hb n (by omega)⟩⟩
    obtain ⟨a, ha⟩ := hall
    exact ⟨max a (d + 1), fun n hn => ⟨ha n (by omega), _, hd n (by omega)⟩⟩
  | chain ops hops ih =>
    induction ops generalizing x with
    | nil => exact ⟨0, fun n _ => by simp [Fits, FitsChain]⟩
    | cons op ops ihops =>
      obtain ⟨a, ha⟩ := ih op (by simp) x
      obtain ⟨b, hb⟩ := ihops (fun o ho => hops o (by simp [ho])) (fun o ho => ih o (by simp [ho])) (sem kind op x)
      exact ⟨max a b, fun n hn => ⟨ha n (by omega), hb n (by omega)⟩⟩

/-! ### Canonicalization -/

theorem mem_composeMembers {m : Filter} (h : m ∈ composeMembers cs) :
    m ∈ cs ∨ ∃ nested, .compose nested ∈ cs ∧ m ∈ nested := by
  fun_induction composeMembers cs with
  | case1 => simp at h
  | case2 cs ih => exact (ih h).imp (by simp_all) (by simp_all)
  | case3 cs nested ih =>
    rcases mem_append.mp h with h | h
    · exact .inr ⟨nested, by simp, h⟩
    · rcases ih h with hm | ⟨nested', hn, hm⟩
      · exact .inl (by simp [hm])
      · exact .inr ⟨nested', by simp [hn], hm⟩
  | case4 cs c _ _ ih =>
    rcases mem_cons.mp h with rfl | h
    · exact .inl (by simp)
    · rcases ih h with hm | ⟨nested', hn, hm⟩
      · exact .inl (by simp [hm])
      · exact .inr ⟨nested', by simp [hn], hm⟩

/-- A member kept writes below some child. -/
theorem exists_pushSet_subset {m : Filter} (h : m ∈ composeMembers cs) (C : Set Path) :
    ∃ c ∈ cs, pushSet m C ⊆ pushSet c C := by
  rcases mem_composeMembers h with h | ⟨nested, hn, hm⟩
  · exact ⟨m, h, subset_rfl⟩
  · exact ⟨_, hn, fun p hp => mem_pushSet_compose.mpr ⟨m, hm, hp⟩⟩

theorem pairwise_composeMembers (hdis : cs.Pairwise fun a b => Disjoint (pushSet a Set.univ) (pushSet b Set.univ))
    (hcs : ∀ c ∈ cs, WritesDisjoint c) :
    (composeMembers cs).Pairwise fun a b => Disjoint (pushSet a Set.univ) (pushSet b Set.univ) := by
  have hrest : ∀ {c : Filter} {cs : List Filter}, (∀ b ∈ cs, Disjoint (pushSet c Set.univ) (pushSet b Set.univ)) →
      ∀ b ∈ composeMembers cs, Disjoint (pushSet c Set.univ) (pushSet b Set.univ) := by
    intro c cs h b hb
    obtain ⟨b', hb', hsub⟩ := exists_pushSet_subset hb Set.univ
    exact (h b' hb').mono_right hsub
  fun_induction composeMembers cs with
  | case1 => exact List.Pairwise.nil
  | case2 cs ih => exact ih (pairwise_cons.mp hdis).2 fun c hc => hcs c (by simp [hc])
  | case3 cs nested ih =>
    obtain ⟨hc, hdis⟩ := pairwise_cons.mp hdis
    refine pairwise_append.mpr ⟨?_, ih hdis fun c hc => hcs c (by simp [hc]), fun a ha b hb => ?_⟩
    · cases hcs _ mem_cons_self with
      | compose _ h _ => exact h
    · exact (hrest hc b hb).mono_left fun p hp => mem_pushSet_compose.mpr ⟨a, ha, hp⟩
  | case4 cs c _ _ ih =>
    obtain ⟨hc, hdis⟩ := pairwise_cons.mp hdis
    exact pairwise_cons.mpr ⟨hrest hc, ih hdis fun c hc => hcs c (by simp [hc])⟩

/-- The members of a canonical compose write disjoint paths, sorted or not. -/
theorem writesDisjoint_sorted_members
    (hdis : cs.Pairwise fun a b => Disjoint (pushSet a Set.univ) (pushSet b Set.univ))
    (hcs : ∀ c ∈ cs, WritesDisjoint c) : WritesDisjoint (.compose (sortBy print (composeMembers cs))) := by
  refine .compose _ ?_ fun m hm => ?_
  · exact ((sortBy_perm print _).pairwise_iff fun h => h.symm).mpr (pairwise_composeMembers hdis hcs)
  · refine composeMembers_forall hcs ?_ m ((mem_sortBy print).mp hm)
    rintro ms (_ | _ | _ | ⟨_, _, hms⟩) m hm
    exact hms m hm

theorem writesDisjoint_canonicalizeCompose
    (hdis : cs.Pairwise fun a b => Disjoint (pushSet a Set.univ) (pushSet b Set.univ))
    (hcs : ∀ c ∈ cs, WritesDisjoint c) : WritesDisjoint (canonicalizeCompose cs) := by
  have h := writesDisjoint_sorted_members hdis hcs
  unfold canonicalizeCompose
  generalize sortBy print (composeMembers cs) = ms at h
  match ms, h with
  | [], _ => exact .empty
  | [m], .compose _ _ hms => exact hms m (by simp)
  | _ :: _ :: _, h => exact h

theorem writesDisjoint_canonicalizeChain (hcs : ∀ c ∈ cs, WritesDisjoint c) :
    WritesDisjoint (canonicalizeChain cs) := by
  have hI : ∀ ops, chainLoop [] cs = some ops → ∀ op ∈ ops, WritesDisjoint op := by
    intro ops
    refine chainLoop_induction (P := WritesDisjoint) (I := fun ops => ∀ op ∈ ops, WritesDisjoint op)
      (fun ops c ops' hops hc => pushOp_forall .subdir .prefixed ops c hops hc ops')
      [] cs ops (by simp) (fun c hc _ => hcs c hc) fun nested hn c hc => ?_
    cases hcs _ hn with
    | chain _ h => exact h c hc
  unfold canonicalizeChain
  split
  · exact .empty
  · exact .nop
  · rename_i op heq
    exact hI _ heq op (by simp)
  · rename_i ops _ _ heq
    exact .chain _ fun op hop => hI ops heq op (mem_reverse.mp hop)

theorem pairwise_map_canonicalize (hdis : ms.Pairwise fun a b => Disjoint (pushSet a Set.univ) (pushSet b Set.univ)) :
    (ms.map canonicalize).Pairwise fun a b => Disjoint (pushSet a Set.univ) (pushSet b Set.univ) := by
  rw [pairwise_map]
  exact hdis.imp fun h => by simpa only [pushSet_canonicalize] using h

theorem writesDisjoint_canonicalize (hf : WritesDisjoint f) : WritesDisjoint (canonicalize f) := by
  induction hf with
  | subdir p => exact .subdir p
  | prefixed p => exact .prefixed p
  | exclude sels =>
    change WritesDisjoint (canonicalizeExclude sels)
    unfold canonicalizeExclude
    split
    · exact .nop
    · exact .exclude _
  | compose ms hdis hms ih =>
    rw [canonicalize_compose]
    exact writesDisjoint_canonicalizeCompose (pairwise_map_canonicalize hdis) (by simpa using ih)
  | chain ops hops ih =>
    rw [canonicalize_chain]
    exact writesDisjoint_canonicalizeChain (by simpa using ih)
  | nop => exact .nop
  | empty => exact .empty

/-- Splicing nested composes in and dropping `:empty` does not change the union. -/
theorem unionOf_composeMembers (kind : HashKind Oid) [Contents kind] (hf : WritesDisjoint (.compose cs))
    (x : Oid) :
    ∃ d, UnionOf kind d (memberPieces kind Set.univ x (composeMembers cs)) (sem kind (.compose cs) x) := by
  obtain ⟨d, hunion, -⟩ := unionOf_compose kind hf x
  have hview : ∀ c ∈ cs, ∀ p ∈ pushSet c Set.univ,
      view kind (sem kind (.compose cs) x) p = view kind (sem kind c x) p := fun c hc =>
    hunion.view _ (mem_map.mpr ⟨c, hc, rfl⟩)
  refine ⟨d, hunion.built.mono fun p hp => ?_, fun _ hq p hp => ?_⟩
  · rw [mem_unionCone_memberPieces] at hp ⊢
    exact (exists_mem_composeMembers (S := (pushSet · Set.univ)) rfl (fun _ _ => mem_pushSet_compose) cs p).mpr hp
  · obtain ⟨m, hm, rfl⟩ := mem_map.mp hq
    rcases mem_composeMembers hm with hm | ⟨nested, hn, hm⟩
    · exact hview m hm p hp
    · cases hf with
      | compose _ _ hcs =>
        obtain ⟨e, hnested, -⟩ := unionOf_compose kind (hcs _ hn) x
        rw [hview _ hn p (mem_pushSet_compose.mpr ⟨m, hm, hp⟩)]
        exact hnested.view _ (mem_map.mpr ⟨m, hm, rfl⟩) p hp

theorem sem_canonicalizeCompose (hf : WritesDisjoint (.compose cs))
    (x : Oid) : sem kind (canonicalizeCompose cs) x = sem kind (.compose cs) x := by
  obtain ⟨d, hunion⟩ := unionOf_composeMembers kind hf x
  have hsorted : UnionOf kind d (memberPieces kind Set.univ x (sortBy print (composeMembers cs)))
      (sem kind (.compose cs) x) :=
    hunion.of_mem fun q => by simp [memberPieces]
  have hdis : WritesDisjoint (.compose (sortBy print (composeMembers cs))) := by
    cases hf with
    | compose _ hdis hcs => exact writesDisjoint_sorted_members hdis hcs
  unfold canonicalizeCompose
  generalize sortBy print (composeMembers cs) = ms at hsorted hdis
  have hclosed := @upClosed_of_mem_memberPieces _ kind _ Set.univ x ms _ upClosed_univ
  match ms, hdis with
  | [], _ =>
    have hnone : unionCone (memberPieces kind Set.univ x []) = ∅ := by simp [memberPieces, unionCone]
    have hb := hsorted.built
    rw [hnone] at hb
    exact hb.eq_empty.symm
  | [m], .compose _ _ hms =>
    obtain ⟨e, he⟩ : ∃ e, Built kind e _ _ := sem_built (hms m (by simp)) upClosed_univ (built_univ x)
    have hone : UnionOf kind e (memberPieces kind Set.univ x [m]) (sem kind m x) := by
      refine ⟨he.mono fun p hp => mem_unionCone_memberPieces.mpr ⟨m, by simp, hp⟩, fun q hq p _ => ?_⟩
      rw [mem_singleton.mp hq]
    exact hone.unique hclosed hsorted
  | _ :: _ :: _, hdis =>
    obtain ⟨e, he, -⟩ := unionOf_compose kind hdis x
    exact he.unique hclosed hsorted

theorem sem_canonicalizeExclude (sels : List Selector) (x : Oid) :
    sem kind (canonicalizeExclude sels) x = sem kind (.exclude sels) x := by
  have hmem : ∀ s, s ∈ (sortBy printSelector sels).destutter (· ≠ ·) ↔ s ∈ sels := fun s =>
    (mem_destutter_ne _ s).trans (mem_sortBy printSelector)
  have hcongr := @semExclude_congr _ _ kind _ x _ _ hmem
  unfold canonicalizeExclude
  split
  · rename_i hnil
    rw [hnil] at hcongr
    exact (semExclude_nil x).symm.trans hcongr
  · exact hcongr

/-- **Canonicalization keeps the meaning** of a filter whose composes write
disjoint paths. -/
theorem sem_canonicalize (hf : WritesDisjoint f) (x : Oid) :
    sem kind (canonicalize f) x = sem kind f x := by
  induction hf generalizing x with
  | subdir | prefixed | nop | empty => rfl
  | exclude sels => exact sem_canonicalizeExclude sels x
  | compose ms hdis hms ih =>
    have hcan : WritesDisjoint (.compose (ms.map canonicalize)) :=
      .compose _ (pairwise_map_canonicalize hdis) fun c hc => by
        obtain ⟨m, hm, rfl⟩ := mem_map.mp hc
        exact writesDisjoint_canonicalize (hms m hm)
    have hmap : (ms.map canonicalize).map (sem kind · x) = ms.map (sem kind · x) := by
      rw [map_map]
      exact map_congr_left fun m hm => ih m hm x
    rw [canonicalize_compose, sem_canonicalizeCompose hcan, sem_compose, sem_compose, hmap]
  | chain ops hops ih =>
    have hprod := (@chainLaws_semEnd _ kind _ _).canonicalizeChain_eq (ops.map canonicalize)
    have hmap : (ops.map canonicalize).map (semEnd kind) = ops.map (semEnd kind) := by
      rw [map_map]
      exact map_congr_left fun op hop => semEnd_ext (ih op hop)
    rw [hmap, ← chainLaws_semEnd.chain, ← canonicalize_chain] at hprod
    exact congrArg (fun e => e.unop.toFun x) hprod

end View
end Mega
