/-
# Source and destination paths of a filter

`ceres/view/filter/semantics.rs`: which paths of the input a filter reads
(`srcPaths`), its inverse, and which paths of the output it writes
(`dstPaths`). The source computes with lists of paths that stand for
everything below them; here each such list is read as its cone, and `pull` as
the map `pullSet` of cones it computes (`cone_pull`). Canonicalization does not
change that map (`pullSet_canonicalize`), so the inverse, which canonicalizes
at every level, is the forward map `pushSet`.

Key definitions: `invert`, `pull`, `srcPaths`, `dstPaths`, `srcPathsLimited`,
`pullSet`, `pushSet`.
Key theorems: `cone_pull`, `pullSet_canonicalize`, `pushSet_chain`,
`cone_srcPaths`, `cone_dstPaths`, `srcPathsLimited_eq`.
-/
import Mega.Lib.PathCone
import Mega.Lib.PointedEnd
import Mega.View.Canonical

namespace Mega
namespace View

open List KeySort PathCone

variable {paths : List Path} {p : Path} {C : Set Path}

/-! ### The code -/

mutual

def invert : Filter → Filter
  | .subdir path => canonicalize (.prefixed path)
  | .prefixed path => canonicalize (.subdir path)
  | .exclude selectors => canonicalize (.exclude selectors)
  | .compose members => canonicalize (.compose (invertAll members))
  | .chain ops => canonicalize (.chain (invertAll ops).reverse)
  | .nop => canonicalize .nop
  | .empty => canonicalize .empty

def invertAll : List Filter → List Filter
  | [] => []
  | f :: fs => invert f :: invertAll fs

end

def isPrefix (ancestor descendant : Path) : Bool :=
  ancestor.length ≤ descendant.length && (ancestor.zip descendant).all fun x => x.1 == x.2

/-- The loop of `normalized_paths`: keeps a path unless one above it was kept. -/
def keepMinimal : List Path → List Path → List Path
  | minimal, [] => minimal
  | minimal, path :: paths =>
    if minimal.any (isPrefix · path) then keepMinimal minimal paths
    else keepMinimal (minimal ++ [path]) paths

def normalizedPaths (paths : List Path) : List Path :=
  keepMinimal [] ((sortBy id paths).destutter (· ≠ ·))

def pullPrefix (pre output : Path) : Option Path :=
  if isPrefix pre output then some (output.drop pre.length)
  else if isPrefix output pre then some []
  else none

mutual

/-- The paths of the input that the given paths of the output depend on. -/
def pull : Filter → List Path → List Path
  | .subdir path, paths => normalizedPaths (paths.map (path.segments ++ ·))
  | .prefixed path, paths => normalizedPaths (paths.filterMap (pullPrefix path.segments))
  | .exclude _, paths => normalizedPaths paths
  | .nop, paths => normalizedPaths paths
  | .empty, _ => normalizedPaths []
  | .compose members, paths => normalizedPaths (pullMembers members paths [])
  | .chain ops, paths => normalizedPaths (pullChain ops paths)

def pullMembers : List Filter → List Path → List Path → List Path
  | [], _, output => output
  | member :: members, paths, output =>
    pullMembers members paths (normalizedPaths (output ++ pull member paths))

/-- The loop over `ops.iter().rev()`. -/
def pullChain : List Filter → List Path → List Path
  | [], output => output
  | op :: ops, output => normalizedPaths (pull op (pullChain ops output))

end

/-- `if paths.len() > max_paths { return Err(SrcPathLimitExceeded) }`. -/
def checkLimit (maxPaths : ℕ) (paths : List Path) : Option (List Path) :=
  if paths.length > maxPaths then none else some paths

mutual

/-- `pull` that gives up when a list of paths grows over `maxPaths`. -/
def pullLimited (maxPaths : ℕ) : Filter → List Path → Option (List Path)
  | .subdir path, paths => checkLimit maxPaths (normalizedPaths (paths.map (path.segments ++ ·)))
  | .prefixed path, paths =>
    checkLimit maxPaths (normalizedPaths (paths.filterMap (pullPrefix path.segments)))
  | .exclude _, paths => checkLimit maxPaths (normalizedPaths paths)
  | .nop, paths => checkLimit maxPaths (normalizedPaths paths)
  | .empty, _ => checkLimit maxPaths (normalizedPaths [])
  | .compose members, paths => do
    checkLimit maxPaths (normalizedPaths (← pullMembersLimited maxPaths members paths []))
  | .chain ops, paths => do
    checkLimit maxPaths (normalizedPaths (← pullChainLimited maxPaths ops paths))

def pullMembersLimited (maxPaths : ℕ) : List Filter → List Path → List Path → Option (List Path)
  | [], _, output => some output
  | member :: members, paths, output => do
    let pulled ← pullLimited maxPaths member paths
    pullMembersLimited maxPaths members paths (← checkLimit maxPaths (normalizedPaths (output ++ pulled)))

def pullChainLimited (maxPaths : ℕ) : List Filter → List Path → Option (List Path)
  | [], output => some output
  | op :: ops, output => do
    let output ← pullChainLimited maxPaths ops output
    checkLimit maxPaths (normalizedPaths (← pullLimited maxPaths op output))

end

def displayPath (path : Path) : Text :=
  if path.isEmpty then ['/'] else '/' :: List.intercalate ['/'] path

def pathSegments (path : Text) : Path :=
  match path with
  | '/' :: rest => if rest.isEmpty then [] else rest.splitOn '/'
  | _ => []

/-- The paths of the input tree a filter reads. -/
def srcPaths (filter : Filter) : List Text :=
  sortBy id ((normalizedPaths (pull filter [[]])).map displayPath)

/-- The paths of the output tree a filter writes. -/
def dstPaths (filter : Filter) : List Text :=
  srcPaths (invert filter)

def srcPathsLimited (filter : Filter) (maxPaths : ℕ) : Option (List Text) := do
  let paths := normalizedPaths (← pullLimited maxPaths filter [[]])
  let paths ← checkLimit maxPaths paths
  return sortBy id (paths.map displayPath)

/-- The source paths of all members of a compose, one after the other. -/
def memberSourcePathsLimited (maxPaths : ℕ) : List Filter → Option (List Path)
  | [] => some []
  | m :: ms => do
    return (← srcPathsLimited m maxPaths).map pathSegments ++ (← memberSourcePathsLimited maxPaths ms)

mutual

/-- For every compose of the filter, the source paths of all its members. -/
def allComposeSourcePathsLimited (maxPaths : ℕ) : Filter → Option (List (List Path))
  | .compose members => do
    let paths ← memberSourcePathsLimited maxPaths members
    return paths :: (← allOfComposeSourcePathsLimited maxPaths members)
  | .chain ops => allOfComposeSourcePathsLimited maxPaths ops
  | _ => some []

def allOfComposeSourcePathsLimited (maxPaths : ℕ) : List Filter → Option (List (List Path))
  | [] => some []
  | f :: fs => do
    return (← allComposeSourcePathsLimited maxPaths f) ++ (← allOfComposeSourcePathsLimited maxPaths fs)

end

@[simp] theorem invertAll_eq_map : ∀ fs : List Filter, invertAll fs = fs.map invert
  | [] => rfl
  | f :: fs => by rw [invertAll, invertAll_eq_map fs, map_cons]

theorem invert_compose (ms : List Filter) :
    invert (.compose ms) = canonicalize (.compose (ms.map invert)) := by
  rw [invert, invertAll_eq_map]

theorem invert_chain (ops : List Filter) :
    invert (.chain ops) = canonicalize (.chain (ops.map invert).reverse) := by
  rw [invert, invertAll_eq_map]

/-! ### Lists of paths as cones -/

theorem isPrefix_iff : ∀ {a d : Path}, isPrefix a d = true ↔ a <+: d
  | [], d => by simp [isPrefix]
  | x :: a, [] => by simp [isPrefix]
  | x :: a, y :: d => by
    have ih := isPrefix_iff (a := a) (d := d)
    simp only [isPrefix, Bool.and_eq_true, decide_eq_true_eq] at ih
    simp only [isPrefix, length_cons, Nat.add_le_add_iff_right, zip_cons_cons, all_cons,
      Bool.and_eq_true, decide_eq_true_eq, beq_iff_eq, cons_prefix_cons]
    rw [← ih]
    tauto

theorem mem_destutter_ne {α : Type*} [DecidableEq α] (l : List α) (a : α) :
    a ∈ l.destutter (· ≠ ·) ↔ a ∈ l := by
  refine ⟨fun h => (destutter_sublist _ l).mem h, fun h => ?_⟩
  cases l with
  | nil => exact h
  | cons b l =>
    rw [destutter_cons']
    induction l generalizing b with
    | nil => exact h
    | cons c l ih =>
      by_cases hbc : b = c
      · rw [List.destutter'_cons_neg l (by simpa using hbc)]
        exact ih b (by simpa [← hbc] using h)
      · rw [List.destutter'_cons_pos l (by simpa using hbc)]
        rcases mem_cons.mp h with rfl | h
        · exact mem_cons_self
        · exact mem_cons_of_mem _ (ih c h)

theorem mem_of_mem_keepMinimal : ∀ (paths minimal : List Path) {p : Path},
    p ∈ keepMinimal minimal paths → p ∈ minimal ∨ p ∈ paths
  | [], minimal, p, h => .inl h
  | q :: paths, minimal, p, h => by
    unfold keepMinimal at h
    split at h
    · exact (mem_of_mem_keepMinimal paths minimal h).imp id (mem_cons_of_mem q)
    · rcases mem_of_mem_keepMinimal paths _ h with h | h
      · rcases mem_append.mp h with h | h
        · exact .inl h
        · exact .inr (by rw [mem_singleton.mp h]; exact mem_cons_self)
      · exact .inr (mem_cons_of_mem q h)

theorem cone_keepMinimal : ∀ (paths minimal : List Path),
    cone (keepMinimal minimal paths) = cone (minimal ++ paths)
  | [], minimal => by rw [keepMinimal, append_nil]
  | q :: paths, minimal => by
    unfold keepMinimal
    split
    · rename_i hany
      obtain ⟨a, ha, haq⟩ := any_eq_true.mp hany
      -- `q` is below `a`, so it adds nothing
      rw [cone_keepMinimal paths minimal]
      ext x
      simp only [mem_cone, mem_append, mem_cons]
      constructor
      · rintro ⟨p, hp | hp, hx⟩
        · exact ⟨p, .inl hp, hx⟩
        · exact ⟨p, .inr (.inr hp), hx⟩
      · rintro ⟨p, hp | rfl | hp, hx⟩
        · exact ⟨p, .inl hp, hx⟩
        · exact ⟨a, .inl ha, (isPrefix_iff.mp haq).trans hx⟩
        · exact ⟨p, .inr hp, hx⟩
    · rw [cone_keepMinimal paths (minimal ++ [q])]
      exact cone_congr fun p => by simp

theorem mem_of_mem_normalizedPaths (h : p ∈ normalizedPaths paths) : p ∈ paths := by
  rcases mem_of_mem_keepMinimal _ _ h with h | h
  · cases h
  · rwa [mem_destutter_ne, mem_sortBy] at h

/-- Normalizing a list of paths keeps what lies below it. -/
@[simp] theorem cone_normalizedPaths (paths : List Path) : cone (normalizedPaths paths) = cone paths := by
  rw [normalizedPaths, cone_keepMinimal, nil_append]
  exact cone_congr fun p => by rw [mem_destutter_ne, mem_sortBy]

theorem cone_filterMap_pullPrefix (q : Path) (paths : List Path) :
    cone (paths.filterMap (pullPrefix q)) = strip q (cone paths) := by
  ext x
  simp only [mem_cone, mem_filterMap, mem_strip]
  constructor
  · rintro ⟨r, ⟨p, hp, hr⟩, hx⟩
    refine ⟨p, hp, ?_⟩
    unfold pullPrefix at hr
    split at hr
    · rename_i h
      obtain ⟨t, rfl⟩ := isPrefix_iff.mp h
      obtain rfl : t = r := by simpa using hr
      exact prefix_append_right_inj q |>.mpr hx
    · split at hr
      · rename_i h
        exact (isPrefix_iff.mp h).trans (prefix_append q x)
      · cases hr
  · rintro ⟨p, hp, hx⟩
    rcases prefix_or_prefix_of_prefix hx (prefix_append q x) with hpq | ⟨t, rfl⟩
    · by_cases hqp : q <+: p
      · obtain rfl := hqp.eq_of_length_le hpq.length_le
        exact ⟨[], ⟨q, hp, by simp [pullPrefix, isPrefix_iff.mpr prefix_rfl]⟩, nil_prefix⟩
      · refine ⟨[], ⟨p, hp, ?_⟩, nil_prefix⟩
        have h1 : isPrefix q p = false := by simpa using mt isPrefix_iff.mp hqp
        simp [pullPrefix, h1, isPrefix_iff.mpr hpq]
    · refine ⟨t, ⟨q ++ t, hp, ?_⟩, (prefix_append_right_inj q).mp hx⟩
      simp [pullPrefix, isPrefix_iff.mpr (prefix_append q t)]

/-! ### `pull` as a map of cones -/

mutual

/-- The paths of the input that the paths `C` of the output depend on. -/
def pullSet : Filter → Set Path → Set Path
  | .subdir path, C => plant path.segments C
  | .prefixed path, C => strip path.segments C
  | .exclude _, C => C
  | .nop, C => C
  | .empty, _ => ∅
  | .compose members, C => pullSetMembers members C
  | .chain ops, C => pullSetChain ops C

def pullSetMembers : List Filter → Set Path → Set Path
  | [], _ => ∅
  | m :: ms, C => pullSet m C ∪ pullSetMembers ms C

def pullSetChain : List Filter → Set Path → Set Path
  | [], C => C
  | op :: ops, C => pullSet op (pullSetChain ops C)

end

theorem mem_pullSetMembers {x : Path} : ∀ {ms : List Filter},
    x ∈ pullSetMembers ms C ↔ ∃ m ∈ ms, x ∈ pullSet m C
  | [] => by simp [pullSetMembers]
  | m :: ms => by
    have ih := @mem_pullSetMembers x ms
    simp [pullSetMembers, ih]

theorem mem_pullSet_compose {ms : List Filter} {x : Path} :
    x ∈ pullSet (.compose ms) C ↔ ∃ m ∈ ms, x ∈ pullSet m C := by
  rw [pullSet, mem_pullSetMembers]

theorem pullSetChain_eq_foldr (C : Set Path) : ∀ ops : List Filter,
    pullSetChain ops C = ops.foldr pullSet C
  | [] => rfl
  | op :: ops => by rw [pullSetChain, pullSetChain_eq_foldr C ops, foldr_cons]

theorem pullSet_chain (ops : List Filter) (C : Set Path) :
    pullSet (.chain ops) C = ops.foldr pullSet C := by
  rw [pullSet, pullSetChain_eq_foldr]

/-- **`pull` computes `pullSet`** on the cones of its path lists. -/
theorem cone_pull (f : Filter) (paths : List Path) : cone (pull f paths) = pullSet f (cone paths) := by
  induction f using Filter.induction generalizing paths with
  | subdir p => rw [pull, cone_normalizedPaths, cone_map_append, pullSet]
  | prefixed p => rw [pull, cone_normalizedPaths, cone_filterMap_pullPrefix, pullSet]
  | exclude | nop | empty => simp [pull, pullSet]
  | compose ms ih =>
    have hms : ∀ ms : List Filter, (∀ m ∈ ms, ∀ ps, cone (pull m ps) = pullSet m (cone ps)) →
        ∀ out, cone (pullMembers ms paths out) = cone out ∪ pullSetMembers ms (cone paths) := by
      intro ms
      induction ms with
      | nil => intro _ out; simp [pullMembers, pullSetMembers]
      | cons m ms ihms =>
        intro h out
        rw [pullMembers, ihms (fun m hm => h m (by simp [hm])), cone_normalizedPaths, cone_append,
          h m (by simp), pullSetMembers, Set.union_assoc]
    rw [pull, cone_normalizedPaths, hms ms ih, cone_nil, Set.empty_union, pullSet]
  | chain ops ih =>
    rw [pull, cone_normalizedPaths, pullSet]
    induction ops with
    | nil => rfl
    | cons op ops ihops =>
      rw [pullChain, cone_normalizedPaths, ih op (by simp), pullSetChain,
        ihops fun o ho => ih o (by simp [ho])]

theorem pullSet_empty (f : Filter) : pullSet f ∅ = ∅ := by
  induction f using Filter.induction with
  | subdir | exclude | nop | empty => simp [pullSet]
  | prefixed => rfl
  | compose ms ih =>
    ext x
    simp only [mem_pullSet_compose, Set.mem_empty_iff_false, iff_false, not_exists, not_and]
    exact fun m hm => by simp [ih m hm]
  | chain ops ih =>
    rw [pullSet_chain]
    induction ops with
    | nil => rfl
    | cons op ops ihops => rw [foldr_cons, ihops fun o ho => ih o (by simp [ho]), ih op (by simp)]

theorem upClosed_pullSet (hC : UpClosed C) (f : Filter) : UpClosed (pullSet f C) := by
  induction f using Filter.induction generalizing C with
  | subdir p => exact hC.plant _
  | prefixed p => exact hC.strip _
  | exclude | nop => exact hC
  | empty => exact upClosed_empty
  | compose ms ih =>
    intro x hx q
    obtain ⟨m, hm, hx⟩ := mem_pullSet_compose.mp hx
    exact mem_pullSet_compose.mpr ⟨m, hm, ih m hm hC hx q⟩
  | chain ops ih =>
    rw [pullSet_chain]
    induction ops with
    | nil => exact hC
    | cons op ops ihops => exact ih op (by simp) (ihops fun o ho => ih o (by simp [ho]))

theorem pullSet_mono {D : Set Path} (h : C ⊆ D) (f : Filter) : pullSet f C ⊆ pullSet f D := by
  induction f using Filter.induction generalizing C D with
  | subdir p => exact plant_mono h _
  | prefixed p => exact strip_mono h _
  | exclude | nop => exact h
  | empty => exact le_rfl
  | compose ms ih =>
    intro x hx
    obtain ⟨m, hm, hx⟩ := mem_pullSet_compose.mp hx
    exact mem_pullSet_compose.mpr ⟨m, hm, ih m hm h hx⟩
  | chain ops ih =>
    rw [pullSet_chain, pullSet_chain]
    induction ops with
    | nil => exact h
    | cons op ops ihops => exact ih op (by simp) (ihops fun o ho => ih o (by simp [ho]))

/-- `pullSet f` as an element of the monoid of maps that fix `∅`. -/
def pullEnd (f : Filter) : PointedEnd (Set Path) ∅ := ⟨pullSet f, pullSet_empty f⟩

theorem canonicalLaws_pullEnd : CanonicalLaws pullEnd where
  nop := rfl
  empty := rfl
  chain ops := by
    ext1; funext C
    rw [PointedEnd.prod_map_apply]
    exact pullSet_chain ops C
  subdir_subdir a b := by ext1; funext C; exact (plant_append _ _ C).symm
  prefixed_prefixed a b := by ext1; funext C; exact (strip_append _ _ C).symm
  cancel p := by ext1; funext C; exact strip_plant_self p.segments C
  incomparable p q hpq hqp := by ext1; funext C; exact strip_plant_eq_empty hqp hpq C
  exclude sels := by
    ext1; funext C
    unfold canonicalizeExclude
    split <;> rfl
  compose cs := by
    ext1; funext C
    exact canonicalizeCompose_eq_of_union (S := (pullSet · C)) rfl (fun _ _ => mem_pullSet_compose) cs
  compose_congr cs cs' h := by
    ext1; funext C
    have hmem : ∀ {cs : List Filter} {x : Path},
        x ∈ (pullEnd (.compose cs)).toFun C ↔ ∃ e ∈ cs.map pullEnd, x ∈ e.toFun C := by
      intro cs x
      simpa [pullEnd] using mem_pullSet_compose
    ext x
    rw [hmem, hmem, h]

/-- **Canonicalization keeps the paths a filter reads**, for every set of
output paths. -/
theorem pullSet_canonicalize (f : Filter) (C : Set Path) : pullSet (canonicalize f) C = pullSet f C :=
  congrArg (fun e => e.toFun C) (canonicalLaws_pullEnd.canonicalize_eq f)

/-! ### The inverse as a forward map -/

/-- The paths of the output that the paths `C` of the input end up at. -/
def pushSet (f : Filter) (C : Set Path) : Set Path :=
  pullSet (invert f) C

@[simp] theorem pushSet_exclude (sels : List Selector) (C : Set Path) : pushSet (.exclude sels) C = C := by
  rw [pushSet, invert, pullSet_canonicalize, pullSet]

theorem mem_pushSet_compose {ms : List Filter} {x : Path} :
    x ∈ pushSet (.compose ms) C ↔ ∃ m ∈ ms, x ∈ pushSet m C := by
  simp only [pushSet, invert_compose, pullSet_canonicalize, mem_pullSet_compose, mem_map,
    exists_exists_and_eq_and]

theorem pushSet_chain (ops : List Filter) (C : Set Path) :
    pushSet (.chain ops) C = ops.foldl (fun C op => pushSet op C) C := by
  rw [pushSet, invert_chain, pullSet_canonicalize, pullSet_chain, foldr_reverse, foldl_map]
  rfl

theorem pushSet_empty (f : Filter) : pushSet f ∅ = ∅ := pullSet_empty _

theorem upClosed_pushSet (hC : UpClosed C) (f : Filter) : UpClosed (pushSet f C) :=
  upClosed_pullSet hC _

theorem pushSet_mono {D : Set Path} (h : C ⊆ D) (f : Filter) : pushSet f C ⊆ pushSet f D :=
  pullSet_mono h _

/-- `pushSet f` in the opposite monoid: the first operator of a chain acts first. -/
def pushEnd (f : Filter) : (PointedEnd (Set Path) ∅)ᵐᵒᵖ := .op ⟨pushSet f, pushSet_empty f⟩

theorem pushEnd_ext {e e' : (PointedEnd (Set Path) ∅)ᵐᵒᵖ} (h : ∀ C, e.unop.toFun C = e'.unop.toFun C) :
    e = e' :=
  MulOpposite.unop_injective (PointedEnd.ext (funext h))

theorem canonicalLaws_pushEnd : CanonicalLaws pushEnd where
  nop := rfl
  empty := rfl
  chain ops := by
    refine pushEnd_ext fun C => (pushSet_chain ops C).trans ?_
    exact (PointedEnd.unop_prod_map_apply (fun f => ⟨pushSet f, pushSet_empty f⟩) ops C).symm
  subdir_subdir a b := pushEnd_ext fun C => (strip_append _ _ C).symm
  prefixed_prefixed a b := pushEnd_ext fun C => (plant_append _ _ C).symm
  cancel p := pushEnd_ext fun C => strip_plant_self p.segments C
  incomparable p q hpq hqp := pushEnd_ext fun C => strip_plant_eq_empty hpq hqp C
  exclude sels := by
    refine pushEnd_ext fun C => (Eq.trans ?_ (pushSet_exclude sels C).symm)
    unfold canonicalizeExclude
    split
    · rfl
    · exact pushSet_exclude _ C
  compose cs := pushEnd_ext fun C =>
    canonicalizeCompose_eq_of_union (S := (pushSet · C)) rfl (fun _ _ => mem_pushSet_compose) cs
  compose_congr cs cs' h := by
    refine pushEnd_ext fun C => ?_
    have hmem : ∀ {cs : List Filter} {x : Path},
        x ∈ (pushEnd (.compose cs)).unop.toFun C ↔ ∃ e ∈ cs.map pushEnd, x ∈ e.unop.toFun C := by
      intro cs x
      simpa [pushEnd] using mem_pushSet_compose
    ext x
    rw [hmem, hmem, h]

/-- Canonicalization keeps where a filter puts things. -/
theorem pushSet_canonicalize (f : Filter) (C : Set Path) : pushSet (canonicalize f) C = pushSet f C :=
  congrArg (fun e => e.unop.toFun C) (canonicalLaws_pushEnd.canonicalize_eq f)

/-! ### Path texts -/

/-- The segments of `ValidPath`s can be told apart in a text. -/
def ValidPath (p : Path) : Prop :=
  ∀ s ∈ p, validPathSegment s = true

theorem ne_nil_of_valid {s : Text} (h : validPathSegment s = true) : s ≠ [] := by
  rintro rfl; simp [validPathSegment] at h

theorem slash_notMem_of_valid {s : Text} (h : validPathSegment s = true) : '/' ∉ s := by
  simp only [validPathSegment, Bool.and_eq_true, Bool.not_eq_true'] at h
  simpa using h.1.1.1.1.2

theorem intercalate_ne_nil {sep s : Text} (hs : s ≠ []) (rest : List Text) :
    List.intercalate sep (s :: rest) ≠ [] := by
  cases rest with
  | nil => simpa using hs
  | cons => simp [hs]

/-- Reading back the text of a path gives the path. -/
theorem pathSegments_displayPath (h : ValidPath p) : pathSegments (displayPath p) = p := by
  cases p with
  | nil => rfl
  | cons s p =>
    have hne : List.intercalate ['/'] (s :: p) ≠ [] := intercalate_ne_nil (ne_nil_of_valid (h s (by simp))) p
    rw [displayPath, if_neg (by simp), pathSegments, if_neg (by simpa using hne)]
    exact splitOn_intercalate '/' (fun t ht => slash_notMem_of_valid (h t ht)) (by simp)

theorem validPath_append {q : Path} (hp : ValidPath p) (hq : ValidPath q) : ValidPath (p ++ q) :=
  fun s hs => (mem_append.mp hs).elim (hp s) (hq s)

theorem validPath_pullPrefix {q r : Path} (hp : ValidPath p) (h : pullPrefix q p = some r) : ValidPath r := by
  unfold pullPrefix at h
  split at h
  · cases h; exact fun s hs => hp s (mem_of_mem_drop hs)
  · split at h
    · cases h; exact fun s hs => absurd hs not_mem_nil
    · cases h

/-- The paths a filter reads are made of segments of its own paths. -/
theorem validPath_pull (f : Filter) (h : ∀ p ∈ paths, ValidPath p) : ∀ p ∈ pull f paths, ValidPath p := by
  induction f using Filter.induction generalizing paths with
  | subdir q =>
    intro p hp
    obtain ⟨r, hr, rfl⟩ := mem_map.mp (mem_of_mem_normalizedPaths hp)
    exact validPath_append q.valid (h r hr)
  | prefixed q =>
    intro p hp
    obtain ⟨r, hr, hrp⟩ := mem_filterMap.mp (mem_of_mem_normalizedPaths hp)
    exact validPath_pullPrefix (h r hr) hrp
  | exclude | nop => exact fun p hp => h p (mem_of_mem_normalizedPaths hp)
  | empty => exact fun p hp => absurd (mem_of_mem_normalizedPaths hp) not_mem_nil
  | compose ms ih =>
    have hms : ∀ ms : List Filter, (∀ m ∈ ms, ∀ p ∈ pull m paths, ValidPath p) → ∀ out : List Path,
        (∀ p ∈ out, ValidPath p) → ∀ p ∈ pullMembers ms paths out, ValidPath p := by
      intro ms
      induction ms with
      | nil => exact fun _ out hout => hout
      | cons m ms ihms =>
        intro hm out hout
        refine ihms (fun m' hm' => hm m' (by simp [hm'])) _ fun p hp => ?_
        rcases mem_append.mp (mem_of_mem_normalizedPaths hp) with hp | hp
        · exact hout p hp
        · exact hm m (by simp) p hp
    exact fun p hp => hms ms (fun m hm => ih m hm h) [] (by simp) p (mem_of_mem_normalizedPaths hp)
  | chain ops ih =>
    intro p hp
    replace hp := mem_of_mem_normalizedPaths hp
    induction ops generalizing p with
    | nil => exact h p hp
    | cons op ops ihops =>
      exact ih op (by simp) (fun q hq => ihops (fun o ho => ih o (by simp [ho])) q hq) p
        (mem_of_mem_normalizedPaths hp)

theorem validPath_of_mem_pull {f : Filter} (h : p ∈ pull f [[]]) : ValidPath p :=
  validPath_pull f (by simp [ValidPath]) p h

theorem mem_map_pathSegments_srcPaths {f : Filter} :
    p ∈ (srcPaths f).map pathSegments ↔ p ∈ normalizedPaths (pull f [[]]) := by
  simp only [srcPaths, mem_map, mem_sortBy]
  constructor
  · rintro ⟨_, ⟨q, hq, rfl⟩, rfl⟩
    rwa [pathSegments_displayPath (validPath_of_mem_pull (mem_of_mem_normalizedPaths hq))]
  · intro hp
    exact ⟨displayPath p, ⟨p, hp, rfl⟩,
      pathSegments_displayPath (validPath_of_mem_pull (mem_of_mem_normalizedPaths hp))⟩

/-- **The cone of `src_paths` is what the whole output depends on.** -/
theorem cone_srcPaths (f : Filter) : cone ((srcPaths f).map pathSegments) = pullSet f Set.univ := by
  rw [cone_congr (fun p => mem_map_pathSegments_srcPaths), cone_normalizedPaths, cone_pull,
    cone_singleton_nil]

/-- **The cone of `dst_paths` is where the whole input can end up.** -/
theorem cone_dstPaths (f : Filter) : cone ((dstPaths f).map pathSegments) = pushSet f Set.univ :=
  cone_srcPaths (invert f)

/-! ### The limited computation is the exact one, or gives up -/

theorem checkLimit_eq_some {k : ℕ} {out : List Path} (h : checkLimit k paths = some out) : out = paths := by
  unfold checkLimit at h
  split at h
  · cases h
  · exact (Option.some.inj h).symm

theorem pullLimited_eq {k : ℕ} (f : Filter) {out : List Path} (h : pullLimited k f paths = some out) :
    out = pull f paths := by
  induction f using Filter.induction generalizing paths out with
  | subdir | prefixed | exclude | nop | empty => exact checkLimit_eq_some h
  | compose ms ih =>
    obtain ⟨res, hres, hlim⟩ := Option.bind_eq_some_iff.mp h
    rw [checkLimit_eq_some hlim, pull]
    congr 1
    clear h hlim
    generalize ([] : List Path) = acc at hres ⊢
    induction ms generalizing acc with
    | nil => exact (Option.some.inj hres).symm
    | cons m ms ihms =>
      obtain ⟨p, hp, hres⟩ := Option.bind_eq_some_iff.mp hres
      obtain ⟨acc', hacc, hres⟩ := Option.bind_eq_some_iff.mp hres
      rw [checkLimit_eq_some hacc, ih m (by simp) hp] at hres
      exact ihms (fun m' hm' => ih m' (by simp [hm'])) _ hres
  | chain ops ih =>
    obtain ⟨res, hres, hlim⟩ := Option.bind_eq_some_iff.mp h
    rw [checkLimit_eq_some hlim, pull]
    congr 1
    clear h hlim
    induction ops generalizing res with
    | nil => exact (Option.some.inj hres).symm
    | cons op ops ihops =>
      obtain ⟨mid, hmid, hres⟩ := Option.bind_eq_some_iff.mp hres
      obtain ⟨p, hp, hres⟩ := Option.bind_eq_some_iff.mp hres
      rw [checkLimit_eq_some hres, ih op (by simp) hp,
        ihops (fun o ho => ih o (by simp [ho])) mid hmid, pullChain]

/-- `src_paths_limited` answers `src_paths` when it answers. -/
theorem srcPathsLimited_eq {k : ℕ} {f : Filter} {out : List Text}
    (h : srcPathsLimited f k = some out) : out = srcPaths f := by
  obtain ⟨ps, hps, h⟩ := Option.bind_eq_some_iff.mp h
  obtain ⟨qs, hqs, h⟩ := Option.bind_eq_some_iff.mp h
  rw [checkLimit_eq_some hqs, pullLimited_eq f hps] at h
  exact (Option.some.inj h).symm

end View
end Mega
