/-
# The memo does not show

A run of a filter that starts with a memo left by earlier runs answers what it
answers with a fresh one. Earlier runs leave a right memo (`memoSound_reached`),
and a run from a right memo can only fail where a tree is missing, where a merge
clashes or where the fuel ends. The last two stop a run from a fresh memo too
(`fits_of_fresh`). This leaves the missing trees, and here the memo may show: a
later operator may have to read a tree from the source that a fresh run has at
hand. With all trees below the input in the source it can.

Key definitions: `FilterCall`, `reachedMemo`, `KeepsMemo`, `MemoFits`.
Key theorems: `fits_eq_of_print_eq`, `fits_of_fresh`,
`filterTree_memo_transparent`.
-/
import Mega.View.EvalRefines
import Mega.View.StructuralHash

namespace Mega
namespace View

open Prog

variable {Oid : Type}

/-! ### Operators leave the memo alone -/

section Keeps

variable {α β : Type}

/-- A program that does not change the memo. -/
def KeepsMemo (x : EvalM Oid α) : Prop := ∀ s, (x.exec s).2.memo = s.memo

theorem KeepsMemo.pure (a : α) : KeepsMemo (pure a : EvalM Oid α) := fun _ => rfl

theorem KeepsMemo.throw (e : FilterTreeError Oid) : KeepsMemo (throw e : EvalM Oid α) := fun _ => rfl

theorem KeepsMemo.bind {x : EvalM Oid α} {f : α → EvalM Oid β} (hx : KeepsMemo x) (hf : ∀ a, KeepsMemo (f a)) :
    KeepsMemo (x >>= f) := by
  intro s
  have hfirst := hx s
  rw [exec_bind]
  rcases hrun : x.exec s with ⟨_ | a, s'⟩
  · rw [hrun] at hfirst
    exact hfirst
  · rw [hrun] at hfirst
    exact (hf a s').trans hfirst

/-- What follows may look at the state. -/
theorem KeepsMemo.get_bind {f : EvalState Oid → EvalM Oid α} (hf : ∀ s, KeepsMemo (f s)) :
    KeepsMemo (MonadStateOf.get >>= f) := fun s => hf s s

variable [DecidableEq Oid] {kind : HashKind Oid} {source : TreeSource Oid}

theorem keepsMemo_read (treeId : Oid) : KeepsMemo (read kind source treeId) := by
  refine KeepsMemo.get_bind fun s => ?_
  split
  · exact .pure _
  · exact .throw _

theorem keepsMemo_evalSubdir (x : Oid) (path : Path) : KeepsMemo (evalSubdir kind source x path) := by
  refine KeepsMemo.get_bind fun s => ?_
  split
  · exact .pure _
  · exact .pure _
  · exact .pure _
  · exact .throw _

theorem keepsMemo_makeTree (items : List (TreeItem Oid)) : KeepsMemo (makeTree kind items) := by
  unfold makeTree
  split
  · exact .throw _
  · rename_i treeId tree _
    refine KeepsMemo.bind (fun s => ?_) fun _ => .pure _
    show (if (s.available.lookup treeId).isSome then s
      else { s with available := (treeId, tree) :: s.available }).memo = s.memo
    split <;> rfl

theorem keepsMemo_wrapTree (x : Oid) : ∀ path : Path, KeepsMemo (wrapTree kind x path)
  | [] => .pure _
  | _ :: path => (keepsMemo_wrapTree x path).bind fun _ => keepsMemo_makeTree _

theorem keepsMemo_evalPrefixed (x : Oid) (path : Path) : KeepsMemo (evalPrefixed kind x path) := by
  unfold evalPrefixed
  split
  · exact .pure _
  · exact keepsMemo_wrapTree x path

theorem keepsMemo_excludeItems {inner : Oid → List SelectorRef → EvalM Oid (RewriteResult Oid)}
    (hinner : ∀ x selectors, KeepsMemo (inner x selectors)) (selectors : List SelectorRef) :
    ∀ items : List (TreeItem Oid), KeepsMemo (excludeItems kind inner selectors items)
  | [] => .pure _
  | item :: items => by
    have hitem : KeepsMemo (excludeItem kind inner selectors item) := by
      unfold excludeItem
      dsimp only
      split
      · exact .pure _
      · split
        · exact .pure _
        · refine (hinner _ _).bind fun child => ?_
          split
          · exact .pure _
          · exact .pure _
    exact hitem.bind fun _ => (keepsMemo_excludeItems hinner selectors items).bind fun _ => .pure _

theorem keepsMemo_excludeInner : ∀ (depth : ℕ) (x : Oid) (selectors : List SelectorRef),
    KeepsMemo (excludeInner kind source depth x selectors)
  | 0, _, _ => .pure _
  | depth + 1, x, selectors => by
    refine (keepsMemo_read x).bind fun tree => ?_
    refine (keepsMemo_excludeItems (keepsMemo_excludeInner depth) selectors tree.items).bind fun result => ?_
    dsimp only
    split
    · exact (keepsMemo_makeTree _).bind fun _ => .pure _
    · exact .pure _

theorem keepsMemo_evalExclude (x : Oid) (selectors : List Selector) :
    KeepsMemo (evalExclude kind source x selectors) := by
  unfold evalExclude
  split
  · exact .pure _
  · exact (keepsMemo_excludeInner _ _ _).bind fun _ => .pure _

theorem keepsMemo_readItems : ∀ xs : List Oid, KeepsMemo (readItems kind source xs)
  | [] => .pure _
  | x :: xs => (keepsMemo_read x).bind fun _ => (keepsMemo_readItems xs).bind fun _ => .pure _

theorem keepsMemo_overlayNames {merge : List Oid → EvalM Oid Oid} (hmerge : ∀ xs, KeepsMemo (merge xs)) :
    ∀ groups : List (Text × List (TreeItem Oid)), KeepsMemo (overlayNames kind merge groups)
  | [] => .pure _
  | (name, candidates) :: groups => by
    have hname : KeepsMemo (overlayName kind merge name candidates) := by
      unfold overlayName
      split
      · exact .pure _
      · split
        · exact (hmerge _).bind fun _ => .pure _
        · exact .throw _
    exact hname.bind fun _ => (keepsMemo_overlayNames hmerge groups).bind fun _ => .pure _

theorem keepsMemo_overlay : ∀ (fuel : ℕ) (xs : List Oid), KeepsMemo (overlay kind source fuel xs)
  | 0, _ => .throw _
  | fuel + 1, xs => by
    unfold overlay
    split
    · exact .pure _
    · exact .pure _
    · exact (keepsMemo_readItems _).bind fun _ =>
        (keepsMemo_overlayNames (keepsMemo_overlay fuel) _).bind fun _ => keepsMemo_makeTree _

theorem keepsMemo_composeOutputs (fuel : ℕ) (outputs : List Oid) :
    KeepsMemo (composeOutputs kind source fuel outputs) := by
  unfold composeOutputs
  split
  · exact .pure _
  · exact .pure _
  · exact keepsMemo_overlay fuel _

end Keeps

variable [DecidableEq Oid] {kind : HashKind Oid} [Contents kind] {source : TreeSource Oid} {f : Filter} {n : ℕ}

/-! ### The text of a filter determines which fuel fits -/

section Print

variable (kind) in
mutual

/-- Every merge in the evaluation of an operator succeeds with `n` levels of fuel. -/
def FitsFlat (n : ℕ) : Flat → Oid → Prop
  | .compose first rest, x =>
    FitsSeq n first x ∧ FitsSeqs n rest x ∧
      ∃ r, semOverlay kind n (semSeq kind first x :: semSeqs kind rest x) = .ok r
  | _, _ => True

def FitsSeq (n : ℕ) : List Flat → Oid → Prop
  | [], _ => True
  | a :: l, x => FitsFlat n a x ∧ FitsSeq n l (semFlat kind a x)

def FitsSeqs (n : ℕ) : List (List Flat) → Oid → Prop
  | [], _ => True
  | l :: ls, x => FitsSeq n l x ∧ FitsSeqs n ls x

end

theorem fitsSeqs_iff (n : ℕ) (x : Oid) : ∀ ls : List (List Flat),
    FitsSeqs kind n ls x ↔ ∀ l ∈ ls, FitsSeq kind n l x
  | [] => by simp [FitsSeqs]
  | l :: ls => by simp [FitsSeqs, fitsSeqs_iff n x ls]

theorem fitsAll_iff (n : ℕ) (x : Oid) : ∀ fs : List Filter,
    FitsAll kind n fs x ↔ ∀ f ∈ fs, Fits kind n f x
  | [] => by simp [FitsAll]
  | f :: fs => by simp [FitsAll, fitsAll_iff n x fs]

theorem fitsSeq_append (n : ℕ) : ∀ (l l' : List Flat) (x : Oid),
    FitsSeq kind n (l ++ l') x ↔ FitsSeq kind n l x ∧ FitsSeq kind n l' (semSeq kind l x)
  | [], _, _ => by simp [FitsSeq, semSeq]
  | a :: l, l', x => by simp [FitsSeq, semSeq, fitsSeq_append n l l', and_assoc]

/-- Dissolving chains keeps the merges. -/
theorem fits_iff_fitsSeq_flat (n : ℕ) (hf : noEmptyCompose f = true) (x : Oid) :
    Fits kind n f x ↔ FitsSeq kind n (flat f) x := by
  induction f using Filter.induction generalizing x with
  | subdir | prefixed | exclude | nop | empty => simp [Fits, flat, FitsSeq, FitsFlat]
  | compose ms ih =>
    obtain ⟨hne, hms⟩ := noEmptyCompose_compose.mp hf
    cases ms with
    | nil => exact absurd rfl hne
    | cons m ms =>
      have hmembers : FitsAll kind n (m :: ms) x ↔ ∀ f ∈ m :: ms, FitsSeq kind n (flat f) x := by
        rw [fitsAll_iff]
        exact forall₂_congr fun f hf => ih f hf (hms f hf) x
      have houts : (m :: ms).map (sem kind · x) = (m :: ms).map fun f => semSeq kind (flat f) x :=
        List.map_congr_left fun f _ => sem_eq_semSeq_flat f x
      rw [Fits, hmembers, houts]
      simp [flat, FitsSeq, FitsFlat, fitsSeqs_iff, semSeqs_eq_map, Function.comp_def, and_assoc]
  | chain ops ih =>
    have hops := noEmptyCompose_chain.mp hf
    rw [Fits, flat, flatAll_eq_map]
    clear hf
    induction ops generalizing x with
    | nil => simp [FitsChain, FitsSeq]
    | cons op ops ihops =>
      have hrest := ihops (fun o ho => ih o (List.mem_cons_of_mem _ ho)) (semSeq kind (flat op) x)
        fun o ho => hops o (List.mem_cons_of_mem _ ho)
      rw [FitsChain, List.map_cons, List.flatten_cons, fitsSeq_append, ih op (by simp) (hops op (by simp)),
        sem_eq_semSeq_flat]
      exact and_congr_right fun _ => hrest

/-- **The text of a filter determines which fuel fits**, if no compose is empty. -/
theorem fits_eq_of_print_eq (n : ℕ) {g : Filter} (hf : noEmptyCompose f = true) (hg : noEmptyCompose g = true)
    (h : print f = print g) (x : Oid) : Fits kind n f x ↔ Fits kind n g x := by
  rw [fits_iff_fitsSeq_flat n hf, fits_iff_fitsSeq_flat n hg, flat_eq_of_print_eq hf hg h]

end Print

/-! ### A run from a fresh memo -/

section Fresh

variable (kind) in
/-- Every entry is the output of a filter whose merges succeed with this fuel. -/
def MemoFits (n : ℕ) (memo : FilterMemo Oid) : Prop :=
  ∀ entry ∈ memo.entries, ∃ f, noEmptyCompose f = true ∧ print f = entry.1.filter ∧ Fits kind n f entry.1.inputTree

theorem memoFits_insert {memo : FilterMemo Oid} (hmemo : MemoFits kind n memo) (hf : noEmptyCompose f = true)
    {x : Oid} (hfits : Fits kind n f x) (output : FilterOutput Oid) :
    MemoFits kind n (memo.insert kind ⟨print f, x⟩ output) := by
  intro entry hentry
  rcases mem_entries_insert hentry with hentry | ⟨hkey, -⟩
  · exact hmemo entry hentry
  · rw [hkey]
    exact ⟨f, hf, rfl, hfits⟩

variable (kind source) in
/-- A run that succeeds shows that the merges succeed. -/
def RunFits {α : Type} (n : ℕ) (x : EvalM Oid α) (s : EvalState Oid) (fits : Prop) : Prop :=
  Triple x s (fun _ s' => MemoFits kind n s'.memo ∧ fits) (fun _ s' => MemoFits kind n s'.memo)

theorem RunFits.of_keepsMemo {α : Type} {x : EvalM Oid α} {s : EvalState Oid} (hkeeps : KeepsMemo x)
    (hmemo : MemoFits kind n s.memo) : RunFits kind n x s True := by
  have hkept := hkeeps s
  unfold RunFits Triple
  rcases hrun : x.exec s with ⟨_ | _, s'⟩
  · rw [hrun] at hkept
    show MemoFits kind n s'.memo
    rwa [show s'.memo = s.memo from hkept]
  · rw [hrun] at hkept
    refine ⟨?_, trivial⟩
    rwa [show s'.memo = s.memo from hkept]

/-- A hit was put there by a run that made the merges. -/
theorem memoized_runFits (hf : noEmptyCompose f = true) {x : Oid} {compute : EvalM Oid Oid} {s : EvalState Oid}
    (hmemo : MemoFits kind n s.memo) (h : RunFits kind n compute s (Fits kind n f x)) :
    RunFits kind n (memoized kind f x compute) s (Fits kind n f x) := by
  refine .get_bind ?_
  split
  · rename_i value hget
    obtain ⟨l, l', heq, -⟩ := List.lookup_eq_some_iff.mp hget
    obtain ⟨g, hg, hprint, hfits⟩ := hmemo (⟨print f, x⟩, value) (by rw [heq]; simp)
    exact .modify_bind (.pure ⟨hmemo, (fits_eq_of_print_eq n hg hf hprint x).mp hfits⟩)
  · refine .bind h ?_
    rintro a s' ⟨hmemo', hfits⟩
    exact .modify_bind (.pure ⟨memoFits_insert hmemo' hf hfits _, hfits⟩)

variable (hsrc : ContentAddressed kind source)
include hsrc

variable (kind source) in
omit hsrc in
/-- `eval` of `f` succeeds from a state it could have reached itself only if its
merges succeed. -/
def EvalFits (n : ℕ) (f : Filter) : Prop :=
  ∀ s, Sound kind s → MemoFits kind n s.memo → ∀ x, RunFits kind n (eval kind source n f x) s (Fits kind n f x)

theorem evalMembers_runFits (x : Oid) : ∀ ms : List Filter,
    (∀ m ∈ ms, noEmptyCompose m = true ∧ EvalFits kind source n m) → ∀ s, Sound kind s → MemoFits kind n s.memo →
    RunFits kind n (evalMembers kind source n ms x) s (FitsAll kind n ms x)
  | [], _, s, _, hmemo => .pure ⟨hmemo, trivial⟩
  | m :: ms, h, s, hs, hmemo => by
    obtain ⟨hm, heval⟩ := h m (by simp)
    have hright := eval_yields hsrc n hm s hs x
    refine .bind ((heval s hs hmemo x).and hright |>.conseq (fun _ _ h => h) fun _ _ h => h.1) ?_
    rintro out s' ⟨⟨hmemo', hfits⟩, hext, -⟩
    have hrest := evalMembers_runFits x ms (fun m hm => h m (List.mem_cons_of_mem _ hm)) s' hext.sound hmemo'
    refine .bind hrest ?_
    rintro outs s'' ⟨hmemo'', hfitsAll⟩
    exact .pure ⟨hmemo'', hfits, hfitsAll⟩

theorem evalChain_runFits : ∀ ops : List Filter,
    (∀ op ∈ ops, noEmptyCompose op = true ∧ EvalFits kind source n op) → ∀ s, Sound kind s →
    MemoFits kind n s.memo → ∀ x, RunFits kind n (evalChain kind source n ops x) s (FitsChain kind n ops x)
  | [], _, s, _, hmemo, _ => .pure ⟨hmemo, trivial⟩
  | op :: ops, h, s, hs, hmemo, x => by
    obtain ⟨hop, heval⟩ := h op (by simp)
    have hright := eval_yields hsrc n hop s hs x
    refine .bind ((heval s hs hmemo x).and hright |>.conseq (fun _ _ h => h) fun _ _ h => h.1) ?_
    rintro out s' ⟨⟨hmemo', hfits⟩, hext, hout, -⟩
    subst hout
    have hrest := evalChain_runFits ops (fun o ho => h o (List.mem_cons_of_mem _ ho)) s' hext.sound hmemo' (sem kind op x)
    exact hrest.conseq (fun _ _ h => ⟨h.1, hfits, h.2⟩) fun _ _ h => h

/-- A compose whose outputs were merged. -/
theorem composeOutputs_runFits (hn : 0 < n) {s : EvalState Oid} (hs : Sound kind s) (hmemo : MemoFits kind n s.memo)
    (outs : List Oid) :
    RunFits kind n (composeOutputs kind source n (nonEmptyIds kind outs)) s (∃ r, semOverlay kind n outs = .ok r) := by
  have hkeeps : RunFits kind n (composeOutputs kind source n (nonEmptyIds kind outs)) s True :=
    .of_keepsMemo (keepsMemo_composeOutputs n _) hmemo
  have hmerge := overlay_yields hsrc n s hs (nonEmptyIds kind outs)
  have hnonEmpty : (nonEmptyIds kind outs).filter (fun x => x != emptyTreeId kind) = nonEmptyIds kind outs := by
    simp [nonEmptyIds]
  obtain ⟨k, rfl⟩ : ∃ k, n = k + 1 := ⟨n - 1, by omega⟩
  rw [← semOverlay_nonEmptyIds]
  generalize nonEmptyIds kind outs = ids at hkeeps hmerge hnonEmpty
  rcases ids with _ | ⟨x, _ | ⟨y, rest⟩⟩
  · exact ⟨hmemo, _, by rw [semOverlay]; rfl⟩
  · exact ⟨hmemo, x, by rw [semOverlay, hnonEmpty]⟩
  · exact (hkeeps.and hmerge).conseq (fun a _ h => ⟨h.1.1, a, h.2.2.1⟩) fun _ _ h => h.1

theorem eval_runFits (hn : 0 < n) (hf : noEmptyCompose f = true) : EvalFits kind source n f := by
  induction f using Filter.induction with
  | subdir p =>
    intro s _ hmemo x
    have hrun : RunFits kind n (evalSubdir kind source x p.segments) s True :=
      .of_keepsMemo (keepsMemo_evalSubdir x _) hmemo
    exact memoized_runFits hf hmemo hrun
  | prefixed p =>
    intro s _ hmemo x
    have hrun : RunFits kind n (evalPrefixed kind x p.segments) s True :=
      .of_keepsMemo (keepsMemo_evalPrefixed x _) hmemo
    exact memoized_runFits hf hmemo hrun
  | exclude sels =>
    intro s _ hmemo x
    have hrun : RunFits kind n (evalExclude kind source x sels) s True :=
      .of_keepsMemo (keepsMemo_evalExclude x _) hmemo
    exact memoized_runFits hf hmemo hrun
  | compose ms ih =>
    intro s hs hmemo x
    have hms := (noEmptyCompose_compose.mp hf).2
    refine memoized_runFits hf hmemo ?_
    have hmembers := evalMembers_yields x ms (fun m hm => eval_yields hsrc n (hms m hm)) s hs
    have hfits := evalMembers_runFits hsrc x ms (fun m hm => ⟨hms m hm, ih m hm (hms m hm)⟩) s hs hmemo
    refine .bind (hfits.and hmembers |>.conseq (fun _ _ h => h) fun _ _ h => h.1) ?_
    rintro outs s' ⟨⟨hmemo', hall⟩, hext, houts, -⟩
    subst houts
    exact (composeOutputs_runFits hsrc hn hext.sound hmemo' _).conseq (fun _ _ h => ⟨h.1, hall, h.2⟩)
      fun _ _ h => h
  | chain ops ih =>
    intro s hs hmemo x
    have hops := noEmptyCompose_chain.mp hf
    exact memoized_runFits hf hmemo
      (evalChain_runFits hsrc ops (fun op hop => ⟨hops op hop, ih op hop (hops op hop)⟩) s hs hmemo x)
  | nop => exact fun s _ hmemo x => .pure ⟨hmemo, trivial⟩
  | empty => exact fun s _ hmemo x => .pure ⟨hmemo, trivial⟩

/-- **A fresh run succeeds only if its merges do.** -/
theorem fits_of_fresh (hn : 0 < n) (hf : noEmptyCompose f = true) {capacityBytes : ℕ}
    {firstKey : List (MemoKey Oid) → ℕ} {x : Oid} {o : FilterOutput Oid}
    (h : (filterTree kind source n (.withCapacity capacityBytes firstKey) f x).1 = .ok o) : Fits kind n f x := by
  have hs : Sound kind (⟨.withCapacity capacityBytes firstKey, []⟩ : EvalState Oid) :=
    ⟨nofun, memoSound_withCapacity _ _⟩
  have hrun := eval_runFits hsrc hn hf _ hs nofun x
  unfold filterTree at h
  cases hexec : (eval kind source n f x).exec ⟨.withCapacity capacityBytes firstKey, []⟩ with
  | mk r s' =>
    rw [hexec] at h
    cases r with
    | error e => cases h
    | ok a => exact (hrun.of_ok hexec).2

end Fresh

/-! ### Memos that runs leave -/

/-- A call of `filter_tree`. -/
structure FilterCall (Oid : Type) where
  fuel : ℕ
  filter : Filter
  treeId : Oid

variable (kind source) in
/-- The memo after some calls on one source. -/
def reachedMemo (memo : FilterMemo Oid) (calls : List (FilterCall Oid)) : FilterMemo Oid :=
  calls.foldl (fun memo call => (filterTree kind source call.fuel memo call.filter call.treeId).2) memo

theorem memoSound_reached (hsrc : ContentAddressed kind source) :
    ∀ (calls : List (FilterCall Oid)) {memo : FilterMemo Oid}, (∀ call ∈ calls, noEmptyCompose call.filter = true) →
      MemoSound kind memo → MemoSound kind (reachedMemo kind source memo calls)
  | [], _, _, hmemo => hmemo
  | call :: calls, _, hcalls, hmemo =>
    memoSound_reached hsrc calls (fun c hc => hcalls c (List.mem_cons_of_mem _ hc))
      (filterTree_spec hsrc call.fuel (hcalls call (by simp)) hmemo call.treeId).1

/-- **The memo does not show.** If a filter succeeds on a readable tree with a
fresh memo, it succeeds with every memo that calls on the source leave, with the
same tree id, and every tree below the result is returned under its own id or can
be read from the source. -/
theorem filterTree_memo_transparent (hsrc : ContentAddressed kind source)
    {calls : List (FilterCall Oid)} (hcalls : ∀ call ∈ calls, noEmptyCompose call.filter = true) {f : Filter}
    (hf : noEmptyCompose f = true) {t : Oid} (ht : FullyReadable kind source t) {n : ℕ} (hn : 0 < n)
    {freshCapacity capacity : ℕ} {freshFirst first : List (MemoKey Oid) → ℕ} {o : FilterOutput Oid}
    (hfresh : (filterTree kind source n (.withCapacity freshCapacity freshFirst) f t).1 = .ok o) :
    ∃ o', (filterTree kind source n (reachedMemo kind source (.withCapacity capacity first) calls) f t).1 = .ok o' ∧
      o'.treeId = o.treeId ∧
      ∀ y, Reach kind o'.treeId y →
        (∃ tree, (y, tree) ∈ o'.trees ∧ kind.treeHash tree.items = y) ∨ ∃ tree, readTree kind source y = .ok tree := by
  have hfits := fits_of_fresh hsrc hn hf hfresh
  have hstart : MemoSound kind (.withCapacity capacity first) := memoSound_withCapacity _ _
  have hreached := memoSound_reached hsrc calls hcalls hstart
  obtain ⟨o₁, ho₁, hid₁⟩ := filterTree_ok hsrc hf (memoSound_withCapacity freshCapacity freshFirst) ht hfits
  obtain ⟨o', ho', hid⟩ := filterTree_ok hsrc hf hreached ht hfits
  have hanswer := (filterTree_spec hsrc n hf hreached t).2
  rw [ho'] at hanswer
  rw [hfresh] at ho₁
  cases ho₁
  refine ⟨o', ho', hid.trans hid₁.symm, fun y hy => ?_⟩
  rcases hanswer.covers y hy with rfl | hmem | ⟨x, hx, hxy⟩
  · exact .inr ⟨_, readTree_empty source⟩
  · obtain ⟨⟨y', tree⟩, hentry, rfl⟩ := List.mem_map.mp hmem
    exact .inl ⟨tree, hentry, hanswer.genuine _ hentry⟩
  · rw [List.mem_singleton.mp hx] at hxy
    exact .inr (readTree_of_fullyReadable hsrc ht hxy)

/-- The directory `a`, moved to `x`. -/
def movedA : Filter := .chain [.subdir pathA, .prefixed pathX]

theorem filterTree_memo_transparent_movedA :
    (filterTree structuralKind structuralSource 1 freshMemo movedA abcRoot).1.map (·.treeId) =
        .ok (.tree [treeItem ['x'] (dirOf 1)]) ∧
      ∃ o', (filterTree structuralKind structuralSource 1
          (reachedMemo structuralKind structuralSource freshMemo [⟨1, .subdir pathA, abcRoot⟩]) movedA abcRoot).1 =
            .ok o' ∧
        o'.treeId = .tree [treeItem ['x'] (dirOf 1)] ∧
        ∀ y, Reach structuralKind o'.treeId y →
          (∃ tree, (y, tree) ∈ o'.trees ∧ structuralKind.treeHash tree.items = y) ∨
            ∃ tree, readTree structuralKind structuralSource y = .ok tree := by
  have hcalls : ∀ call ∈ [(⟨1, .subdir pathA, abcRoot⟩ : FilterCall ObjectId)],
      noEmptyCompose call.filter = true := by simp [noEmptyCompose]
  have hfresh : (filterTree structuralKind structuralSource 1 freshMemo movedA abcRoot).1 =
      .ok ⟨.tree [treeItem ['x'] (dirOf 1)],
        [(.tree [treeItem ['x'] (dirOf 1)], ⟨[treeItem ['x'] (dirOf 1)], by simp [itemNames]⟩)]⟩ := rfl
  exact ⟨rfl, filterTree_memo_transparent contentAddressed_structuralSource hcalls
    (by decide) (fullyReadable_of_wellFormed (by decide)) Nat.one_pos hfresh⟩

/-! ### Where the memo shows -/

/-- The trees without the directory that holds file 1 only. -/
def withoutDir : TreeSource ObjectId := fun treeId =>
  if treeId = dirOf 1 then .error ⟨treeId, .absent⟩ else structuralSource treeId

/-- Two files in `a`; the directory below `b` is what is left of `a` without `x`. -/
def twinRoot : ObjectId :=
  .tree [treeItem ['a'] (.tree [⟨.blob, .blob 1, ['n']⟩, ⟨.blob, .blob 2, ['x']⟩]),
    treeItem ['b'] (.tree [treeItem ['c'] (dirOf 1)])]

def pathAX : ViewPath := ⟨[['a'], ['x']], by simp, by decide⟩

def pathCX : ViewPath := ⟨[['c'], ['x']], by simp, by decide⟩

/-- Builds the missing directory in `a`, and then only looks at `b`. -/
def builtAside : Filter := .chain [.exclude [.entry pathAX], .subdir pathB]

/-- Reads the directory in `b` that was built in `a`. -/
def readBack : Filter := .chain [builtAside, .exclude [.entry pathCX]]

/-- A memo with the empty compose answers for the compose of the empty chain. A
memo with `builtAside` keeps its output and not the tree built aside, so a tree
that is missing in the source is missing then. And a tree that is not looked at
is returned whether or not it can be read. -/
theorem filterTree_memo_shows :
    ((filterTree structuralKind structuralSource 1 freshMemo (.compose [.chain []]) abcRoot).1.map (·.treeId) =
          .ok abcRoot ∧
        (filterTree structuralKind structuralSource 1
            (reachedMemo structuralKind structuralSource freshMemo [⟨1, .compose [], abcRoot⟩])
            (.compose [.chain []]) abcRoot).1.map (·.treeId) = .ok (emptyTreeId structuralKind)) ∧
      ContentAddressed structuralKind withoutDir ∧
      ((filterTree structuralKind withoutDir 1 freshMemo readBack twinRoot).1.map (·.treeId) =
          .ok (.tree [treeItem ['c'] (dirOf 1)]) ∧
        (filterTree structuralKind withoutDir 1
            (reachedMemo structuralKind withoutDir freshMemo [⟨1, builtAside, twinRoot⟩]) readBack twinRoot).1.map
              (·.treeId) = .error (.missing ⟨dirOf 1, .absent⟩)) ∧
      ((filterTree structuralKind withoutDir 1 freshMemo .nop (dirOf 1)).1 = .ok ⟨dirOf 1, []⟩ ∧
        readTree structuralKind withoutDir (dirOf 1) = .error ⟨dirOf 1, .absent⟩) := by
  refine ⟨⟨rfl, rfl⟩, fun x tree h => ?_, ⟨by decide +kernel, by decide +kernel⟩, rfl, rfl⟩
  unfold withoutDir at h
  split at h
  · cases h
  · exact contentAddressed_structuralSource x tree h

end View
end Mega
