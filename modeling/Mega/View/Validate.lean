/-
# The registration check

`ceres/view/filter/validate.rs`: which filters may be registered. The check
canonicalizes the filter, bounds its size, and refuses it when two members of
one compose overlap, in the paths they read or in the paths they write. The
written paths are those the inverse reads.

`ComposeDisjoint S f` says that the members of every compose of `f` have
disjoint sets `S`. The overlap scan only compares neighbours of a sorted list,
and it looks at the compose nodes of the inverse; both are enough
(`composeDisjoint_of_validate`).

Key definitions: `validateForRegistration`, `firstOverlap`, `ComposeDisjoint`.
Key theorems: `firstOverlap_eq_none`, `validate_ok`,
`composeDisjoint_of_validate`.
-/
import Mega.View.Invert

namespace Mega
namespace View

open KeySort PathCone

/-! ### The code -/

/-- The part of `MonoConfig` the path policy reads. -/
structure MonoConfig where
  importDir : Text
  rootDirs : List Text

def isSameOrUnder (path dir : Text) : Bool :=
  path == dir || (dir.isPrefixOf? path).any fun rest => rest.head? == some '/'

def inImportNamespace (config : MonoConfig) (canonicalPath : Text) : Bool :=
  isSameOrUnder canonicalPath config.importDir

def isImportDirAncestor (config : MonoConfig) (canonicalPath : Text) : Bool :=
  canonicalPath == ['/'] ||
    (canonicalPath != config.importDir && isSameOrUnder config.importDir canonicalPath)

def viewUrlReservedNames : List Text :=
  [['.', 'v', 'i', 'e', 'w'], ['.', 'f', 'i', 'l', 't', 'e', 'r']]

structure ScaleLimits where
  members : ℕ
  selectors : ℕ
  k : ℕ

def registerScaleLimits : ScaleLimits := ⟨64, 256, 64⟩

inductive ScaleLimitKind where
  | members
  | selectors
  | k
deriving DecidableEq

inductive RegistrationRejection where
  | trivial
  | scaleLimit (which : ScaleLimitKind) (limit actual : ℕ)
  | composeOverlap (first second : Text)
  | importNamespace (path : Text)
  | reservedFirstSegment (path : Text)
deriving DecidableEq

structure RegistrationCheck where
  srcPaths : List Text
  pushEnabled : Bool
deriving DecidableEq

mutual

/-- The numbers of compose members and of selectors in a filter. -/
def countScale : Filter → ℕ × ℕ
  | .exclude selectors => (0, selectors.length)
  | .compose members =>
    let (nestedMembers, nestedSelectors) := countScaleAll members
    (members.length + nestedMembers, nestedSelectors)
  | .chain ops => countScaleAll ops
  | _ => (0, 0)

def countScaleAll : List Filter → ℕ × ℕ
  | [] => (0, 0)
  | f :: fs =>
    let (m, s) := countScale f
    let (ms, ss) := countScaleAll fs
    (m + ms, s + ss)

end

/-- The first two neighbours of which one is above the other. -/
def firstOverlapOfSorted : List Path → Option (Text × Text)
  | first :: second :: rest =>
    if isPrefix first second then some (displayPath first, displayPath second)
    else firstOverlapOfSorted (second :: rest)
  | _ => none

def firstOverlap (paths : List Path) : Option (Text × Text) :=
  firstOverlapOfSorted (sortBy id paths)

def scaleLimit (which : ScaleLimitKind) (limit : ℕ) : RegistrationRejection :=
  .scaleLimit which limit (limit + 1)

def pushEnabledFor (path : Text) (config : MonoConfig) : Bool :=
  path != ['/'] && !inImportNamespace config path && !isImportDirAncestor config path &&
    (pathSegments path).head?.any fun first => config.rootDirs.contains first

/-- Why a source path may not be registered, if it may not. -/
def rejectSrcPath (config : MonoConfig) (path : Text) : Option RegistrationRejection :=
  if inImportNamespace config path then some (.importNamespace path)
  else if (pathSegments path).head?.any fun first => viewUrlReservedNames.contains first then
    some (.reservedFirstSegment path)
  else none

def isTrivial : Filter → Bool
  | .nop | .empty => true
  | _ => false

def validateWithLimits (filter : Filter) (config : MonoConfig) (limits : ScaleLimits) :
    Except RegistrationRejection RegistrationCheck :=
  let filter := canonicalize filter
  if isTrivial filter then .error .trivial
  else
    let (members, selectors) := countScale filter
    if members > limits.members then .error (.scaleLimit .members limits.members members)
    else if selectors > limits.selectors then .error (.scaleLimit .selectors limits.selectors selectors)
    else
      match srcPathsLimited filter limits.k, allComposeSourcePathsLimited limits.k filter,
        allComposeSourcePathsLimited limits.k (invert filter) with
      | some srcPaths, some sourceGroups, some destinationGroups =>
        match (destinationGroups ++ sourceGroups).findSome? firstOverlap with
        | some (first, second) => .error (.composeOverlap first second)
        | none =>
          if srcPaths.isEmpty then .error .trivial
          else
            match srcPaths.findSome? (rejectSrcPath config) with
            | some rejection => .error rejection
            | none => .ok ⟨srcPaths, srcPaths.all fun path => pushEnabledFor path config⟩
      | _, _, _ => .error (scaleLimit .k limits.k)

def validateForRegistration (filter : Filter) (config : MonoConfig) :
    Except RegistrationRejection RegistrationCheck :=
  validateWithLimits filter config registerScaleLimits

/-! ### What an accepted filter satisfies -/

/-- Everything the check has established when it accepts. -/
structure Registered (filter : Filter) (config : MonoConfig) (limits : ScaleLimits)
    (check : RegistrationCheck) : Prop where
  notTrivial : isTrivial (canonicalize filter) = false
  srcPaths : srcPathsLimited (canonicalize filter) limits.k = some check.srcPaths
  srcPaths_ne : check.srcPaths ≠ []
  sources : ∃ groups, allComposeSourcePathsLimited limits.k (canonicalize filter) = some groups ∧
    ∀ g ∈ groups, firstOverlap g = none
  destinations : ∃ groups,
    allComposeSourcePathsLimited limits.k (invert (canonicalize filter)) = some groups ∧
    ∀ g ∈ groups, firstOverlap g = none
  allowed : ∀ path ∈ check.srcPaths, rejectSrcPath config path = none

theorem validate_ok {filter : Filter} {config : MonoConfig} {limits : ScaleLimits}
    {check : RegistrationCheck} (h : validateWithLimits filter config limits = .ok check) :
    Registered filter config limits check := by
  unfold validateWithLimits at h
  simp only at h
  split at h
  · cases h
  rename_i htriv
  split at h
  · cases h
  split at h
  · cases h
  split at h
  · rename_i srcs sgroups dgroups hsrc hsg hdg
    split at h
    · cases h
    rename_i hover
    split at h
    · cases h
    rename_i hne
    split at h
    · cases h
    rename_i hallow
    cases h
    rw [List.findSome?_eq_none_iff] at hover hallow
    exact {
      notTrivial := by simpa using htriv
      srcPaths := hsrc
      srcPaths_ne := by simpa using hne
      sources := ⟨sgroups, hsg, fun g hg => hover g (List.mem_append_right _ hg)⟩
      destinations := ⟨dgroups, hdg, fun g hg => hover g (List.mem_append_left _ hg)⟩
      allowed := hallow }
  · cases h

/-! ### The overlap scan -/

/-- Two paths of which neither is above the other. -/
def Apart (p q : Path) : Prop := ¬ p <+: q ∧ ¬ q <+: p

theorem Apart.symm {p q : Path} (h : Apart p q) : Apart q p := ⟨h.2, h.1⟩

theorem firstOverlapOfSorted_eq_none : ∀ {l : List Path},
    firstOverlapOfSorted l = none ↔ l.IsChain (fun a b => ¬ a <+: b)
  | [] => iff_of_true rfl List.isChain_nil
  | [_] => iff_of_true rfl (List.isChain_singleton _)
  | a :: b :: l => by
    rw [firstOverlapOfSorted, List.isChain_cons_cons, ← firstOverlapOfSorted_eq_none, ← isPrefix_iff]
    by_cases hab : isPrefix a b = true
    · simp [hab]
    · simp [hab]

/-- **The scan of neighbours misses no overlap.** -/
theorem firstOverlap_eq_none {paths : List Path} (h : firstOverlap paths = none) :
    paths.Pairwise Apart :=
  ((sortBy_perm id paths).pairwise_iff Apart.symm).mp
    (pairwise_incomparable_of_chain (sortBy_pairwise id paths) (firstOverlapOfSorted_eq_none.mp h))

/-- Paths that are apart have no overlap among the neighbours either. -/
theorem firstOverlap_of_apart {paths : List Path} (h : paths.Pairwise Apart) : firstOverlap paths = none := by
  have hsorted : (sortBy id paths).Pairwise Apart := ((sortBy_perm id paths).pairwise_iff Apart.symm).mpr h
  exact firstOverlapOfSorted_eq_none.mpr (hsorted.isChain.imp fun _ _ hapart => hapart.1)

/-- **No overlap is found exactly if no path is equal to another one or above it.** -/
theorem firstOverlap_eq_none_iff (paths : List Path) : firstOverlap paths = none ↔
    ∀ (i j : ℕ) (p q : Path), i ≠ j → paths[i]? = some p → paths[j]? = some q → p ≠ q ∧ ¬ p <+: q ∧ ¬ q <+: p := by
  constructor
  · intro h i j p q hij hp hq
    have hpairs := List.pairwise_iff_getElem.mp (firstOverlap_eq_none h)
    obtain ⟨hi, rfl⟩ := List.getElem?_eq_some_iff.mp hp
    obtain ⟨hj, rfl⟩ := List.getElem?_eq_some_iff.mp hq
    have hapart : Apart paths[i] paths[j] := by
      rcases Nat.lt_or_gt_of_ne hij with hlt | hgt
      · exact hpairs i j hi hj hlt
      · exact (hpairs j i hj hi hgt).symm
    exact ⟨fun heq => hapart.1 (heq ▸ List.prefix_rfl), hapart⟩
  · intro h
    refine firstOverlap_of_apart (List.pairwise_iff_getElem.mpr fun i j hi hj hlt => ?_)
    exact (h i j _ _ hlt.ne (List.getElem?_eq_getElem hi) (List.getElem?_eq_getElem hj)).2

/-- In every compose of the filter, the sets `S` of the members are disjoint. -/
inductive ComposeDisjoint (S : Filter → Set Path) : Filter → Prop
  | subdir (p) : ComposeDisjoint S (.subdir p)
  | prefixed (p) : ComposeDisjoint S (.prefixed p)
  | exclude (sels) : ComposeDisjoint S (.exclude sels)
  | compose (ms : List Filter) : ms.Pairwise (fun a b => Disjoint (S a) (S b)) →
      (∀ m ∈ ms, ComposeDisjoint S m) → ComposeDisjoint S (.compose ms)
  | chain (ops : List Filter) : (∀ op ∈ ops, ComposeDisjoint S op) → ComposeDisjoint S (.chain ops)
  | nop : ComposeDisjoint S .nop
  | empty : ComposeDisjoint S .empty

theorem memberSourcePathsLimited_eq {k : ℕ} : ∀ {ms : List Filter} {paths : List Path},
    memberSourcePathsLimited k ms = some paths →
    paths = ms.flatMap fun m => (srcPaths m).map pathSegments
  | [], paths, h => (Option.some.inj h).symm
  | m :: ms, paths, h => by
    obtain ⟨ps, hps, h⟩ := Option.bind_eq_some_iff.mp h
    obtain ⟨qs, hqs, h⟩ := Option.bind_eq_some_iff.mp h
    rw [← Option.some.inj h, srcPathsLimited_eq hps, memberSourcePathsLimited_eq hqs, List.flatMap_cons]

/-- Members whose path lists are apart read disjoint sets of paths. -/
theorem pairwise_disjoint_of_apart {ms : List Filter}
    (h : (ms.flatMap fun m => (srcPaths m).map pathSegments).Pairwise Apart) :
    ms.Pairwise fun a b => Disjoint (pullSet a Set.univ) (pullSet b Set.univ) := by
  refine (List.pairwise_flatMap.mp h).2.imp fun {a b} hab => ?_
  rw [← cone_srcPaths, ← cone_srcPaths, disjoint_cone_iff]
  exact hab

theorem composeDisjoint_all {k : ℕ} (fs : List Filter)
    (ih : ∀ f ∈ fs, ∀ {groups}, allComposeSourcePathsLimited k f = some groups →
      (∀ g ∈ groups, firstOverlap g = none) → ComposeDisjoint (pullSet · Set.univ) f)
    {groups : List (List Path)} (h : allOfComposeSourcePathsLimited k fs = some groups)
    (hg : ∀ g ∈ groups, firstOverlap g = none) : ∀ f ∈ fs, ComposeDisjoint (pullSet · Set.univ) f := by
  induction fs generalizing groups with
  | nil => simp
  | cons f fs ihfs =>
    obtain ⟨gs, hgs, h⟩ := Option.bind_eq_some_iff.mp h
    obtain ⟨rest, hrest, h⟩ := Option.bind_eq_some_iff.mp h
    cases h
    intro f' hf'
    rcases List.mem_cons.mp hf' with rfl | hf'
    · exact ih _ (by simp) hgs fun g hg' => hg g (by simp [hg'])
    · exact ihfs (fun f hf => ih f (by simp [hf])) hrest (fun g hg' => hg g (by simp [hg'])) f' hf'

theorem composeDisjoint_of_groups {k : ℕ} (f : Filter) {groups : List (List Path)}
    (h : allComposeSourcePathsLimited k f = some groups) (hg : ∀ g ∈ groups, firstOverlap g = none) :
    ComposeDisjoint (pullSet · Set.univ) f := by
  induction f using Filter.induction generalizing groups with
  | subdir p => exact .subdir p
  | prefixed p => exact .prefixed p
  | exclude sels => exact .exclude sels
  | nop => exact .nop
  | empty => exact .empty
  | compose ms ih =>
    obtain ⟨paths, hpaths, h⟩ := Option.bind_eq_some_iff.mp h
    obtain ⟨rest, hrest, h⟩ := Option.bind_eq_some_iff.mp h
    cases h
    refine .compose ms ?_ (composeDisjoint_all ms ih hrest fun g hg' => hg g (by simp [hg']))
    have hnone := hg paths (by simp)
    rw [memberSourcePathsLimited_eq hpaths] at hnone
    exact pairwise_disjoint_of_apart (firstOverlap_eq_none hnone)
  | chain ops ih => exact .chain ops (composeDisjoint_all ops ih h hg)

/-- The compose nodes of the inverse of a canonical filter are the filter's. -/
theorem composeDisjoint_of_invert {f : Filter} (hc : Canonical f)
    (h : ComposeDisjoint (pullSet · Set.univ) (invert f)) : ComposeDisjoint (pushSet · Set.univ) f := by
  induction hc with
  | subdir p => exact .subdir p
  | prefixed p => exact .prefixed p
  | exclude sels => exact .exclude sels
  | nop => exact .nop
  | empty => exact .empty
  | compose ms hlen hcan hmem hsort ih =>
    rw [invert_compose_of_canonical (.compose ms hlen hcan hmem hsort)] at h
    cases h with
    | compose _ hpw hall =>
      refine .compose ms ?_ fun m hm => ih m hm (hall _ (by simpa using ⟨m, hm, rfl⟩))
      have := ((sortBy_perm print (ms.map invert)).pairwise_iff (fun h => h.symm)).mp hpw
      rwa [List.pairwise_map] at this
  | chain ops hlen hcan hop hch ih =>
    rw [invert_chain_of_canonical (.chain ops hlen hcan hop hch)] at h
    cases h with
    | chain _ hall => exact .chain ops fun o ho => ih o ho (hall _ (by simpa using ⟨o, ho, rfl⟩))

/-- **Accepted filters write disjoint paths.** In the canonical form of a
registered filter the members of every compose write below disjoint paths. -/
theorem composeDisjoint_of_validate {filter : Filter} {config : MonoConfig} {limits : ScaleLimits}
    {check : RegistrationCheck} (h : validateWithLimits filter config limits = .ok check) :
    ComposeDisjoint (pushSet · Set.univ) (canonicalize filter) := by
  obtain ⟨groups, hgroups, hnone⟩ := (validate_ok h).destinations
  exact composeDisjoint_of_invert (canonical_canonicalize filter)
    (composeDisjoint_of_groups _ hgroups hnone)

end View
end Mega
