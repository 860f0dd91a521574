/-
# Canonicalization of view filters

`canonicalize` of `ceres/view/filter/canonical.rs`: selectors sorted and
deduplicated, composes flattened, stripped of `:empty` members and sorted by
text, chains flattened and adjacent path operators fused by `pushOp`.

What it returns is `Canonical`, a predicate that says which shapes are left, and it
does nothing to a filter that is `Canonical` already; so it is idempotent. And
fusing a chain keeps every reading of chains as products in which the path
operators satisfy the `ChainLaws`: maps of trees or of path sets.

Key definitions: `canonicalize`, `pushOp`, `Canonical`, `ChainLaws`,
`CanonicalLaws`.
Key theorems: `canonical_canonicalize`, `canonicalize_of_canonical`,
`ChainLaws.canonicalizeChain_eq`, `CanonicalLaws.canonicalize_eq`.
-/
import Mathlib
import Mega.Lib.SortBy
import Mega.View.Filter

namespace Mega
namespace View

open List KeySort

variable {children : List Filter}

/-! ### The pass -/

/-- How many leading segments two paths share. -/
def commonLen : Path → Path → ℕ
  | a :: p, b :: q => if a = b then commonLen p q + 1 else 0
  | _, _ => 0

/-- Pushes `current` on the stack `ops` (last operator first), fusing it with
the operators before it. `none` is the source's `false`: the chain selects
nothing. The source's `ChainOp` is a filter whose segments sit in a deque. -/
def pushOp : List Filter → Filter → Option (List Filter)
  | [], current => some [current]
  | previous :: ops, current =>
    match previous, current with
    | .subdir a, .subdir b => pushOp ops (.subdir (a.append b))
    | .prefixed a, .prefixed b => pushOp ops (.prefixed (b.append a))
    | .prefixed p, .subdir q =>
      let common := commonLen p.segments q.segments
      if common < min p.segments.length q.segments.length then none
      else
        match p.dropFront common, q.dropFront common with
        | none, none => some ops
        | none, some q' => pushOp ops (.subdir q')
        | some p', _ => pushOp ops (.prefixed p')
    | a, b => some (b :: a :: ops)

/-- Pushes the operators of a nested chain one after the other. -/
def pushOps : List Filter → List Filter → Option (List Filter)
  | ops, [] => some ops
  | ops, op :: rest => (pushOp ops op).bind fun ops' => pushOps ops' rest

/-- The loop of `canonicalize_chain` over the canonicalized children. -/
def chainLoop : List Filter → List Filter → Option (List Filter)
  | ops, [] => some ops
  | ops, child :: children =>
    match child with
    | .empty => none
    | .nop => chainLoop ops children
    | .chain nested => (pushOps ops nested).bind fun ops' => chainLoop ops' children
    | other => (pushOp ops other).bind fun ops' => chainLoop ops' children

def canonicalizeChain (children : List Filter) : Filter :=
  match chainLoop [] children with
  | none => .empty
  | some [] => .nop
  | some [op] => op
  | some ops => .chain ops.reverse

/-- The members a compose keeps: no `:empty`, nested composes spliced in. -/
def composeMembers : List Filter → List Filter
  | [] => []
  | child :: children =>
    match child with
    | .empty => composeMembers children
    | .compose nested => nested ++ composeMembers children
    | other => other :: composeMembers children

def canonicalizeCompose (children : List Filter) : Filter :=
  match sortBy print (composeMembers children) with
  | [] => .empty
  | [m] => m
  | ms => .compose ms

def canonicalizeExclude (selectors : List Selector) : Filter :=
  match (sortBy printSelector selectors).destutter (· ≠ ·) with
  | [] => .nop
  | sels => .exclude sels

mutual

def canonicalize : Filter → Filter
  | .subdir path => .subdir path
  | .prefixed path => .prefixed path
  | .exclude selectors => canonicalizeExclude selectors
  | .compose children => canonicalizeCompose (canonicalizeAll children)
  | .chain children => canonicalizeChain (canonicalizeAll children)
  | .nop => .nop
  | .empty => .empty

def canonicalizeAll : List Filter → List Filter
  | [] => []
  | f :: fs => canonicalize f :: canonicalizeAll fs

end

@[simp] theorem canonicalizeAll_eq_map : ∀ fs : List Filter, canonicalizeAll fs = fs.map canonicalize
  | [] => rfl
  | f :: fs => by rw [canonicalizeAll, canonicalizeAll_eq_map fs, map_cons]

theorem canonicalize_compose (ms : List Filter) :
    canonicalize (.compose ms) = canonicalizeCompose (ms.map canonicalize) := by
  rw [canonicalize, canonicalizeAll_eq_map]

theorem canonicalize_chain (ops : List Filter) :
    canonicalize (.chain ops) = canonicalizeChain (ops.map canonicalize) := by
  rw [canonicalize, canonicalizeAll_eq_map]

/-! ### What `pushOp` does to two path operators -/

/-- The three ways two paths can lie, as `pushOp` tells them apart. -/
theorem commonLen_cases : ∀ p q : Path,
    (commonLen p q < min p.length q.length ∧ ¬ p <+: q ∧ ¬ q <+: p) ∨
    (commonLen p q = p.length ∧ p <+: q) ∨ (commonLen p q = q.length ∧ q <+: p)
  | [], _ => .inr (.inl ⟨rfl, nil_prefix⟩)
  | _ :: _, [] => .inr (.inr ⟨rfl, nil_prefix⟩)
  | a :: p, b :: q => by
    by_cases h : a = b
    · subst h
      simp only [commonLen, if_true, length_cons, cons_prefix_cons, true_and]
      rcases commonLen_cases p q with ⟨h1, h2⟩ | ⟨h1, h2⟩ | ⟨h1, h2⟩
      · exact .inl ⟨by omega, h2⟩
      · exact .inr (.inl ⟨by omega, h2⟩)
      · exact .inr (.inr ⟨by omega, h2⟩)
    · refine .inl ⟨by simp [commonLen, h], ?_, ?_⟩
      · exact fun hp => h (cons_prefix_cons.mp hp).1
      · exact fun hp => h (cons_prefix_cons.mp hp).1.symm

/-- What is left of `:prefix=p:/q` when the two paths are comparable. -/
theorem dropFront_cases (p q : ViewPath) :
    ¬ commonLen p.segments q.segments < min p.segments.length q.segments.length →
    (p.dropFront (commonLen p.segments q.segments) = none ∧
      q.dropFront (commonLen p.segments q.segments) = none ∧ p = q) ∨
    (∃ r, p.dropFront (commonLen p.segments q.segments) = none ∧
      q.dropFront (commonLen p.segments q.segments) = some r ∧ q = p.append r) ∨
    (∃ r, p.dropFront (commonLen p.segments q.segments) = some r ∧ p = q.append r) := by
  intro hlt
  rcases commonLen_cases p.segments q.segments with ⟨h, -⟩ | ⟨h, t, ht⟩ | ⟨h, t, ht⟩
  · exact absurd h hlt
  · -- `q` goes on below `p`
    rw [h]
    have hp : p.dropFront p.segments.length = none := ViewPath.dropFront_eq_none.mpr (by simp)
    cases hq : q.dropFront p.segments.length with
    | none =>
      have : t = [] := by simpa [← ht] using ViewPath.dropFront_eq_none.mp hq
      exact .inl ⟨hp, rfl, ViewPath.ext (by rw [← ht, this, append_nil])⟩
    | some r =>
      refine .inr (.inl ⟨r, hp, rfl, ViewPath.ext ?_⟩)
      rw [ViewPath.append_segments, ViewPath.segments_of_dropFront hq, ← ht, drop_left]
  · -- `p` goes on below `q`
    rw [h]
    have hq : q.dropFront q.segments.length = none := ViewPath.dropFront_eq_none.mpr (by simp)
    cases hp : p.dropFront q.segments.length with
    | none =>
      have : t = [] := by simpa [← ht] using ViewPath.dropFront_eq_none.mp hp
      exact .inl ⟨rfl, hq, ViewPath.ext (by rw [← ht, this, append_nil])⟩
    | some r =>
      refine .inr (.inr ⟨r, rfl, ViewPath.ext ?_⟩)
      rw [ViewPath.append_segments, ViewPath.segments_of_dropFront hp, ← ht, drop_left]

/-- Whether `pushOp` combines `b` with an operator `a` before it. -/
def fusable : Filter → Filter → Bool
  | .subdir _, .subdir _ | .prefixed _, .prefixed _ | .prefixed _, .subdir _ => true
  | _, _ => false

theorem pushOp_of_not_fusable {a b : Filter} (h : fusable a b = false) (ops : List Filter) :
    pushOp (a :: ops) b = some (b :: a :: ops) := by
  cases a <;> cases b <;> first | rfl | cases h

/-- All `pushOp` can do, one case for each branch. -/
@[elab_as_elim]
theorem pushOp_induction {motive : List Filter → Filter → Option (List Filter) → Prop}
    (single : ∀ c, motive [] c (some [c]))
    (subdirs : ∀ ops a b res, motive ops (.subdir (a.append b)) res →
      motive (.subdir a :: ops) (.subdir b) res)
    (prefixes : ∀ ops a b res, motive ops (.prefixed (b.append a)) res →
      motive (.prefixed a :: ops) (.prefixed b) res)
    (apart : ∀ ops p q, ¬ p.segments <+: q.segments → ¬ q.segments <+: p.segments →
      motive (.prefixed p :: ops) (.subdir q) none)
    (cancel : ∀ ops p, motive (.prefixed p :: ops) (.subdir p) (some ops))
    (deeper : ∀ ops p r res, motive ops (.subdir r) res →
      motive (.prefixed p :: ops) (.subdir (p.append r)) res)
    (higher : ∀ ops q r res, motive ops (.prefixed r) res →
      motive (.prefixed (q.append r) :: ops) (.subdir q) res)
    (other : ∀ ops a b, fusable a b = false → motive (a :: ops) b (some (b :: a :: ops)))
    (ops : List Filter) (c : Filter) : motive ops c (pushOp ops c) := by
  induction ops generalizing c with
  | nil => exact single c
  | cons previous ops ih =>
    cases hf : fusable previous c with
    | false => rw [pushOp_of_not_fusable hf]; exact other ops previous c hf
    | true =>
      match previous, c, hf with
      | .subdir a, .subdir b, _ => exact subdirs ops a b _ (ih _)
      | .prefixed a, .prefixed b, _ => exact prefixes ops a b _ (ih _)
      | .prefixed p, .subdir q, _ =>
        by_cases hlt : commonLen p.segments q.segments < min p.segments.length q.segments.length
        · obtain ⟨-, hpq, hqp⟩ | ⟨he, -⟩ | ⟨he, -⟩ := commonLen_cases p.segments q.segments
          · simpa only [pushOp, if_pos hlt] using apart ops p q hpq hqp
          · omega
          · omega
        · simp only [pushOp, if_neg hlt]
          obtain ⟨h1, h2, rfl⟩ | ⟨r, h1, h2, rfl⟩ | ⟨r, h1, rfl⟩ := dropFront_cases p q hlt
          · simpa only [h1] using cancel ops p
          · simpa only [h1, h2] using deeper ops p r _ (ih _)
          · simpa only [h1] using higher ops q r _ (ih _)

/-! ### Fusing keeps every reading of chains -/

/-- A reading `d` of filters in which a chain is the product of its operators
in order, and in which the path operators compose as paths do. -/
structure ChainLaws {M : Type*} [MonoidWithZero M] (d : Filter → M) : Prop where
  nop : d .nop = 1
  empty : d .empty = 0
  chain : ∀ ops, d (.chain ops) = (ops.map d).prod
  subdir_subdir : ∀ a b, d (.subdir a) * d (.subdir b) = d (.subdir (a.append b))
  prefixed_prefixed : ∀ a b, d (.prefixed a) * d (.prefixed b) = d (.prefixed (b.append a))
  cancel : ∀ p, d (.prefixed p) * d (.subdir p) = 1
  incomparable : ∀ p q : ViewPath, ¬ p.segments <+: q.segments → ¬ q.segments <+: p.segments →
    d (.prefixed p) * d (.subdir q) = 0

namespace ChainLaws

variable {M : Type*} [MonoidWithZero M] {d : Filter → M}

/-- The product of a stack of operators, the last one first. -/
def stackProd (d : Filter → M) (ops : List Filter) : M :=
  (ops.reverse.map d).prod

theorem stackProd_cons (op : Filter) (ops : List Filter) :
    stackProd d (op :: ops) = stackProd d ops * d op := by
  simp [stackProd]

theorem prefixed_subdir_append (h : ChainLaws d) (p r : ViewPath) :
    d (.prefixed p) * d (.subdir (p.append r)) = d (.subdir r) := by
  rw [← h.subdir_subdir, ← mul_assoc, h.cancel, one_mul]

theorem prefixed_append_subdir (h : ChainLaws d) (q r : ViewPath) :
    d (.prefixed (q.append r)) * d (.subdir q) = d (.prefixed r) := by
  rw [← h.prefixed_prefixed, mul_assoc, h.cancel, mul_one]

/-- One push multiplies the stack by the operator pushed. -/
theorem pushOp_eq (h : ChainLaws d) (ops : List Filter) (c : Filter) :
    (pushOp ops c).elim 0 (stackProd d) = stackProd d ops * d c := by
  induction ops, c using pushOp_induction with
  | single c => simp [stackProd]
  | subdirs ops a b _ ih => rw [ih, stackProd_cons, mul_assoc, h.subdir_subdir]
  | prefixes ops a b _ ih => rw [ih, stackProd_cons, mul_assoc, h.prefixed_prefixed]
  | apart ops p q hpq hqp => simp [stackProd_cons, mul_assoc, h.incomparable p q hpq hqp]
  | cancel ops p => simp [stackProd_cons, mul_assoc, h.cancel]
  | deeper ops p r _ ih => rw [ih, stackProd_cons, mul_assoc, h.prefixed_subdir_append]
  | higher ops q r _ ih => rw [ih, stackProd_cons, mul_assoc, h.prefixed_append_subdir]
  | other ops a b hab => simp [stackProd_cons]

theorem pushOps_eq (h : ChainLaws d) : ∀ ops nested : List Filter,
    (pushOps ops nested).elim 0 (stackProd d) = stackProd d ops * (nested.map d).prod
  | ops, [] => by simp [pushOps]
  | ops, op :: nested => by
    rw [pushOps, map_cons, prod_cons, ← mul_assoc, ← h.pushOp_eq]
    cases pushOp ops op with
    | none => simp
    | some ops' => simpa using h.pushOps_eq ops' nested

theorem chainLoop_eq (h : ChainLaws d) : ∀ ops children : List Filter,
    (chainLoop ops children).elim 0 (stackProd d) = stackProd d ops * (children.map d).prod
  | ops, [] => by simp [chainLoop]
  | ops, child :: children => by
    have one : ∀ c, ((pushOp ops c).bind fun ops' => chainLoop ops' children).elim 0 (stackProd d) =
        stackProd d ops * d c * (children.map d).prod := by
      intro c
      rw [← h.pushOp_eq]
      cases pushOp ops c with
      | none => simp
      | some ops' => simpa using h.chainLoop_eq ops' children
    rw [map_cons, prod_cons, ← mul_assoc]
    cases child with
    | empty => simp [chainLoop, h.empty]
    | nop => simpa [chainLoop, h.nop] using h.chainLoop_eq ops children
    | chain nested =>
      rw [chainLoop, h.chain, ← h.pushOps_eq]
      cases pushOps ops nested with
      | none => simp
      | some ops' => simpa using h.chainLoop_eq ops' children
    | subdir | prefixed | exclude | compose => exact one _

/-- **Fusing a chain keeps its meaning**, whatever the reading. -/
theorem canonicalizeChain_eq (h : ChainLaws d) (children : List Filter) :
    d (canonicalizeChain children) = (children.map d).prod := by
  have hloop := h.chainLoop_eq [] children
  unfold canonicalizeChain
  generalize chainLoop [] children = res at hloop ⊢
  match res with
  | none => simpa [stackProd, h.empty] using hloop
  | some [] => simpa [stackProd, h.nop] using hloop
  | some [op] => simpa [stackProd] using hloop
  | some (a :: b :: ops) => simpa [stackProd, h.chain] using hloop

end ChainLaws

/-- A reading of filters that none of the rewrites of `canonicalize` changes. -/
structure CanonicalLaws {M : Type*} [MonoidWithZero M] (d : Filter → M) : Prop extends ChainLaws d where
  exclude : ∀ sels, d (canonicalizeExclude sels) = d (.exclude sels)
  compose : ∀ cs, d (canonicalizeCompose cs) = d (.compose cs)
  compose_congr : ∀ cs cs', cs.map d = cs'.map d → d (.compose cs) = d (.compose cs')

theorem CanonicalLaws.canonicalize_eq {M : Type*} [MonoidWithZero M] {d : Filter → M}
    (h : CanonicalLaws d) (f : Filter) : d (canonicalize f) = d f := by
  induction f using Filter.induction with
  | subdir | prefixed | nop | empty => rfl
  | exclude sels => exact h.exclude sels
  | compose ms ih =>
    rw [canonicalize_compose, h.compose]
    refine h.compose_congr _ _ ?_
    rw [map_map]
    exact map_congr_left ih
  | chain ops ih =>
    rw [canonicalize_chain, h.canonicalizeChain_eq, h.chain, map_map]
    exact congrArg List.prod (map_congr_left ih)

theorem exists_mem_composeMembers {β : Type*} {S : Filter → Set β} (hempty : S .empty = ∅)
    (hunion : ∀ ms x, x ∈ S (.compose ms) ↔ ∃ m ∈ ms, x ∈ S m) (cs : List Filter) (x : β) :
    (∃ m ∈ composeMembers cs, x ∈ S m) ↔ ∃ m ∈ cs, x ∈ S m := by
  fun_induction composeMembers cs with
  | case1 => simp
  | case2 cs ih => simp [ih, hempty]
  | case3 cs nested ih => simp [or_and_right, exists_or, ih, hunion]
  | case4 cs c _ _ ih => simp [ih]

/-- A reading of composes as unions does not see how they are nested, ordered,
or padded with `:empty`. -/
theorem canonicalizeCompose_eq_of_union {β : Type*} {S : Filter → Set β} (hempty : S .empty = ∅)
    (hunion : ∀ ms x, x ∈ S (.compose ms) ↔ ∃ m ∈ ms, x ∈ S m) (cs : List Filter) :
    S (canonicalizeCompose cs) = S (.compose cs) := by
  ext x
  have hsort : (∃ m ∈ composeMembers cs, x ∈ S m) ↔ ∃ m ∈ sortBy print (composeMembers cs), x ∈ S m := by
    simp
  rw [hunion, ← exists_mem_composeMembers hempty hunion, hsort, canonicalizeCompose]
  split
  · rename_i h; simp [h, hempty]
  · rename_i m h; simp [h]
  · exact hunion _ x

/-! ### The shapes that are left -/

/-- What a canonical chain is made of. -/
def isOp : Filter → Bool
  | .chain _ | .nop | .empty => false
  | _ => true

/-- What a canonical compose is made of. -/
def isMember : Filter → Bool
  | .compose _ | .empty => false
  | _ => true

/-- The filters `canonicalize` returns. -/
inductive Canonical : Filter → Prop
  | subdir (p) : Canonical (.subdir p)
  | prefixed (p) : Canonical (.prefixed p)
  | exclude (sels : List Selector) : sels ≠ [] →
      sels.Pairwise (fun a b => printSelector a ≤ printSelector b) → sels.IsChain (· ≠ ·) →
      Canonical (.exclude sels)
  | compose (ms : List Filter) : 2 ≤ ms.length → (∀ m ∈ ms, Canonical m) →
      (∀ m ∈ ms, isMember m = true) → ms.Pairwise (fun a b => print a ≤ print b) →
      Canonical (.compose ms)
  | chain (ops : List Filter) : 2 ≤ ops.length → (∀ op ∈ ops, Canonical op) →
      (∀ op ∈ ops, isOp op = true) → ops.IsChain (fun a b => fusable a b = false) →
      Canonical (.chain ops)
  | nop : Canonical .nop
  | empty : Canonical .empty

/-- A property of all operators pushed that path operators have holds of the
whole stack. -/
theorem pushOp_forall {P : Filter → Prop} (hsub : ∀ p, P (.subdir p)) (hpre : ∀ p, P (.prefixed p))
    (ops : List Filter) (c : Filter) : (∀ op ∈ ops, P op) → P c →
    ∀ ops', pushOp ops c = some ops' → ∀ op ∈ ops', P op := by
  induction ops, c using pushOp_induction with
  | single c => rintro - hc _ ⟨⟩ op hop; rw [mem_singleton.mp hop]; exact hc
  | subdirs ops a b _ ih => exact fun h _ => ih (fun op hop => h op (by simp [hop])) (hsub _)
  | prefixes ops a b _ ih => exact fun h _ => ih (fun op hop => h op (by simp [hop])) (hpre _)
  | apart ops p q _ _ => rintro - - _ ⟨⟩
  | cancel ops p => rintro h - _ ⟨⟩ op hop; exact h op (by simp [hop])
  | deeper ops p r _ ih => exact fun h _ => ih (fun op hop => h op (by simp [hop])) (hsub _)
  | higher ops q r _ ih => exact fun h _ => ih (fun op hop => h op (by simp [hop])) (hpre _)
  | other ops a b _ =>
    rintro h hc _ ⟨⟩ op hop
    rcases mem_cons.mp hop with rfl | hop
    · exact hc
    · exact h op hop

/-- `pushOp` leaves no two neighbours that it would fuse. -/
theorem pushOp_isChain (ops : List Filter) (c : Filter) :
    ops.IsChain (fun b a => fusable a b = false) → ∀ ops', pushOp ops c = some ops' →
    ops'.IsChain (fun b a => fusable a b = false) := by
  induction ops, c using pushOp_induction with
  | single c => rintro - _ ⟨⟩; exact isChain_singleton _
  | subdirs ops a b _ ih => exact fun h => ih h.tail
  | prefixes ops a b _ ih => exact fun h => ih h.tail
  | apart ops p q _ _ => rintro - _ ⟨⟩
  | cancel ops p => rintro h _ ⟨⟩; exact h.tail
  | deeper ops p r _ ih => exact fun h => ih h.tail
  | higher ops q r _ ih => exact fun h => ih h.tail
  | other ops a b hab => rintro h _ ⟨⟩; exact isChain_cons_cons.mpr ⟨hab, h⟩

/-- What one push keeps, the loop over the children keeps, if the operators of
every nested chain have `P`. -/
theorem chainLoop_induction {P : Filter → Prop} {I : List Filter → Prop}
    (hpush : ∀ ops c ops', I ops → P c → pushOp ops c = some ops' → I ops') :
    ∀ ops children ops', I ops →
    (∀ c ∈ children, isOp c = true → P c) → (∀ nested, .chain nested ∈ children → ∀ c ∈ nested, P c) →
    chainLoop ops children = some ops' → I ops' := by
  have hnested : ∀ (nested ops ops' : List Filter), I ops → (∀ c ∈ nested, P c) →
      pushOps ops nested = some ops' → I ops' := by
    intro nested
    induction nested with
    | nil => rintro ops _ hI - ⟨⟩; exact hI
    | cons c nested ih =>
      intro ops ops' hI hP h
      obtain ⟨ops₁, h₁, h₂⟩ := Option.bind_eq_some_iff.mp h
      exact ih ops₁ ops' (hpush ops c ops₁ hI (hP c (by simp)) h₁) (fun c hc => hP c (by simp [hc])) h₂
  intro ops children
  induction children generalizing ops with
  | nil => rintro _ hI - - ⟨⟩; exact hI
  | cons child children ih =>
    intro ops' hI hop hch h
    have hop' : ∀ c ∈ children, isOp c = true → P c := fun c hc => hop c (by simp [hc])
    have hch' : ∀ nested, .chain nested ∈ children → ∀ c ∈ nested, P c :=
      fun nested hn => hch nested (by simp [hn])
    cases child with
    | empty => cases h
    | nop => exact ih ops ops' hI hop' hch' h
    | chain nested =>
      obtain ⟨ops₁, h₁, h₂⟩ := Option.bind_eq_some_iff.mp h
      exact ih ops₁ ops' (hnested nested ops ops₁ hI (hch nested (by simp)) h₁) hop' hch' h₂
    | subdir | prefixed | exclude | compose =>
      obtain ⟨ops₁, h₁, h₂⟩ := Option.bind_eq_some_iff.mp h
      exact ih ops₁ ops' (hpush ops _ ops₁ hI (hop _ (by simp) rfl) h₁) hop' hch' h₂

theorem canonical_canonicalizeExclude (sels : List Selector) : Canonical (canonicalizeExclude sels) := by
  unfold canonicalizeExclude
  split
  · exact .nop
  · rename_i hne
    refine .exclude _ hne ?_ (isChain_destutter _ _)
    exact (sortBy_pairwise _ _).sublist (destutter_sublist _ _)

/-- A property of the children that nested composes pass to their members holds
of all members kept. -/
theorem composeMembers_forall {P : Filter → Prop} (h : ∀ c ∈ children, P c)
    (hnested : ∀ ms, P (.compose ms) → ∀ m ∈ ms, P m) : ∀ m ∈ composeMembers children, P m := by
  fun_induction composeMembers children with
  | case1 => simp
  | case2 children ih => exact ih fun c hc => h c (by simp [hc])
  | case3 children nested ih =>
    exact forall_mem_append.mpr ⟨hnested nested (h _ (by simp)), ih (fun c hc => h c (by simp [hc]))⟩
  | case4 children child _ _ ih =>
    exact forall_mem_cons.mpr ⟨h _ (by simp), ih (fun c hc => h c (by simp [hc]))⟩

theorem isMember_of_mem_composeMembers (h : ∀ c ∈ children, Canonical c) :
    ∀ m ∈ composeMembers children, isMember m = true := by
  fun_induction composeMembers children with
  | case1 => simp
  | case2 children ih => exact ih fun c hc => h c (by simp [hc])
  | case3 children nested ih =>
    intro m hm
    rcases mem_append.mp hm with hm | hm
    · cases h _ mem_cons_self with
      | compose _ _ _ hmem _ => exact hmem m hm
    · exact ih (fun c hc => h c (by simp [hc])) m hm
  | case4 children child hne hnc ih =>
    intro m hm
    rcases mem_cons.mp hm with rfl | hm
    · cases m with
      | empty => exact (hne rfl).elim
      | compose ms => exact (hnc ms rfl).elim
      | subdir | prefixed | exclude | chain | nop => rfl
    · exact ih (fun c hc => h c (by simp [hc])) m hm

theorem canonical_canonicalizeCompose (h : ∀ c ∈ children, Canonical c) :
    Canonical (canonicalizeCompose children) := by
  have hcan : ∀ m ∈ sortBy print (composeMembers children), Canonical m := by
    intro m hm
    refine composeMembers_forall h ?_ m ((mem_sortBy print).mp hm)
    rintro ms (_ | _ | _ | ⟨_, _, hms, _, _⟩) m hm
    exact hms m hm
  unfold canonicalizeCompose
  split
  · exact .empty
  · rename_i m heq
    exact hcan m (by simp [heq])
  · rename_i hnil hone
    refine .compose _ ?_ hcan ?_ (sortBy_pairwise _ _)
    · generalize sortBy print (composeMembers children) = ms at hnil hone
      match ms with
      | [] => exact absurd rfl hnil
      | [m] => exact absurd rfl (hone m)
      | _ :: _ :: _ => simp
    · exact fun m hm => isMember_of_mem_composeMembers h m ((mem_sortBy print).mp hm)

theorem canonical_canonicalizeChain (h : ∀ c ∈ children, Canonical c) : Canonical (canonicalizeChain children) := by
  have hI : ∀ ops, chainLoop [] children = some ops →
      (∀ op ∈ ops, Canonical op ∧ isOp op = true) ∧ ops.IsChain (fun b a => fusable a b = false) := by
    intro ops
    refine chainLoop_induction (P := fun c => Canonical c ∧ isOp c = true)
      (I := fun ops => (∀ op ∈ ops, Canonical op ∧ isOp op = true) ∧
        ops.IsChain (fun b a => fusable a b = false)) ?_ [] children ops (by simp) ?_ ?_
    · rintro ops c ops' ⟨hops, hch⟩ hc hpush
      exact ⟨pushOp_forall (fun p => ⟨.subdir p, rfl⟩) (fun p => ⟨.prefixed p, rfl⟩) ops c hops hc ops' hpush,
        pushOp_isChain ops c hch ops' hpush⟩
    · exact fun c hc hop => ⟨h c hc, hop⟩
    · intro nested hn c hc
      cases h _ hn with
      | chain _ _ hcan hop _ => exact ⟨hcan c hc, hop c hc⟩
  unfold canonicalizeChain
  split
  · exact .empty
  · exact .nop
  · rename_i op heq
    exact ((hI _ heq).1 op (by simp)).1
  · rename_i ops hnil hone heq
    obtain ⟨hall, hch⟩ := hI _ heq
    refine .chain _ ?_ ?_ ?_ (isChain_reverse.mpr hch)
    · match ops with
      | [] => exact absurd rfl hnil
      | [op] => exact absurd rfl (hone op)
      | _ :: _ :: _ => simp
    · exact fun op hop => (hall op (mem_reverse.mp hop)).1
    · exact fun op hop => (hall op (mem_reverse.mp hop)).2

/-- **Canonicalization reaches canonical form.** -/
theorem canonical_canonicalize (f : Filter) : Canonical (canonicalize f) := by
  induction f using Filter.induction with
  | subdir p => exact .subdir p
  | prefixed p => exact .prefixed p
  | exclude sels => exact canonical_canonicalizeExclude sels
  | compose ms ih =>
    rw [canonicalize_compose]
    exact canonical_canonicalizeCompose (by simpa using ih)
  | chain ops ih =>
    rw [canonicalize_chain]
    exact canonical_canonicalizeChain (by simpa using ih)
  | nop => exact .nop
  | empty => exact .empty

/-! ### Canonical filters are left alone -/

theorem composeMembers_eq_self {ms : List Filter} (h : ∀ m ∈ ms, isMember m = true) :
    composeMembers ms = ms := by
  fun_induction composeMembers ms with
  | case1 => rfl
  | case2 children ih => exact absurd (h .empty (by simp)) (by simp [isMember])
  | case3 children nested ih => exact absurd (h (.compose nested) (by simp)) (by simp [isMember])
  | case4 children child _ _ ih => rw [ih fun m hm => h m (by simp [hm])]

theorem chainLoop_of_isChain : ∀ (ops stack : List Filter), (∀ op ∈ ops, isOp op = true) →
    (stack.reverse ++ ops).IsChain (fun a b => fusable a b = false) →
    chainLoop stack ops = some (ops.reverse ++ stack)
  | [], stack, _, _ => rfl
  | op :: ops, stack, hop, hch => by
    have hpush : pushOp stack op = some (op :: stack) := by
      cases stack with
      | nil => rfl
      | cons a stack =>
        refine pushOp_of_not_fusable ?_ stack
        rw [reverse_cons, append_assoc] at hch
        exact (isChain_cons_cons.mp (isChain_append.mp hch).2.1).1
    have hloop : chainLoop stack (op :: ops) = (pushOp stack op).bind fun ops' => chainLoop ops' ops := by
      cases op with
      | chain | nop | empty => cases hop _ mem_cons_self
      | subdir | prefixed | exclude | compose => rfl
    rw [hloop, hpush, Option.bind_some, chainLoop_of_isChain ops (op :: stack)]
    · simp
    · exact fun o ho => hop o (by simp [ho])
    · simpa using hch

/-- **A canonical filter is its own canonical form.** -/
theorem canonicalize_of_canonical {f : Filter} (h : Canonical f) : canonicalize f = f := by
  induction h with
  | subdir | prefixed | nop | empty => rfl
  | exclude sels hne hsort hch =>
    rw [canonicalize, canonicalizeExclude, sortBy_eq_self hsort, destutter_of_isChain _ _ hch]
    cases sels with
    | nil => exact absurd rfl hne
    | cons => rfl
  | compose ms hlen _ hmem hsort ih =>
    have hms : ms.map canonicalize = ms := by simpa using map_congr_left ih
    rw [canonicalize_compose, hms, canonicalizeCompose, composeMembers_eq_self hmem,
      sortBy_eq_self hsort]
    match ms, hlen with
    | _ :: _ :: _, _ => rfl
  | chain ops hlen _ hop hch ih =>
    have hops : ops.map canonicalize = ops := by simpa using map_congr_left ih
    rw [canonicalize_chain, hops, canonicalizeChain,
      chainLoop_of_isChain ops [] hop (by simpa using hch), append_nil]
    have hlen' : 2 ≤ ops.reverse.length := by simpa using hlen
    rw [← reverse_reverse ops]
    generalize ops.reverse = rops at hlen' ⊢
    match rops, hlen' with
    | _ :: _ :: _, _ => simp

theorem canonical_of_canonicalize_eq {f : Filter} (h : canonicalize f = f) : Canonical f :=
  h ▸ canonical_canonicalize f

end View
end Mega
