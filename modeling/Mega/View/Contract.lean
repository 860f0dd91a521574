/-
# What filtering promises

The promises of `ceres/view` about `filter_tree`, proved of the evaluator with
its memo. Canonicalization does not change the output (`filterTree_canonicalize`).
The output depends only on the trees at `src_paths` (`filterTree_eq_of_lookups`).
A registered filter, in canonical form, never clashes, in any order of its
compose members (`filterTree_registered`).

Memos are any sound memos; a fresh one is sound (`memoSound_withCapacity`), and
`filter_tree` keeps it so (`filterTree_spec`).

Key definitions: `composeMembersAreDisjoint`, `sameLookup`.
Key theorems: `filterTree_canonicalize`, `filterTree_eq_of_lookups`,
`filterTree_registered`.
-/
import Mega.View.EvalRefines
import Mega.View.StructuralHash

namespace Mega
namespace View

open PathCone

variable {Oid : Type} [DecidableEq Oid]

/-! ### Members that do not overlap -/

def pathOverlap (left right : Text) : Bool :=
  isPrefix (pathSegments left) (pathSegments right) || isPrefix (pathSegments right) (pathSegments left)

def pathsOverlap (left right : List Text) : Bool :=
  left.any fun l => right.any fun r => pathOverlap l r

/-- Two members read or write paths that overlap. -/
def membersOverlap (left right : Filter) : Bool :=
  pathsOverlap (srcPaths left) (srcPaths right) || pathsOverlap (dstPaths left) (dstPaths right)

def pairwiseDisjoint : List Filter → Bool
  | [] => true
  | left :: rights => (rights.all fun right => !membersOverlap left right) && pairwiseDisjoint rights

mutual

/-- In every compose, the source paths of the members are pairwise apart, and
so are their destination paths. -/
def composeMembersAreDisjoint : Filter → Bool
  | .compose members => pairwiseDisjoint members && allMembersAreDisjoint members
  | .chain ops => allMembersAreDisjoint ops
  | _ => true

def allMembersAreDisjoint : List Filter → Bool
  | [] => true
  | f :: fs => composeMembersAreDisjoint f && allMembersAreDisjoint fs

end

theorem allMembersAreDisjoint_iff : ∀ {fs : List Filter},
    allMembersAreDisjoint fs = true ↔ ∀ f ∈ fs, composeMembersAreDisjoint f = true
  | [] => by simp [allMembersAreDisjoint]
  | f :: fs => by
    have ih := @allMembersAreDisjoint_iff fs
    simp [allMembersAreDisjoint, ih]

theorem disjoint_of_not_membersOverlap {a b : Filter} (h : membersOverlap a b = false) :
    Disjoint (pushSet a Set.univ) (pushSet b Set.univ) := by
  have hdst : pathsOverlap (dstPaths a) (dstPaths b) = false := by
    rw [membersOverlap, Bool.or_eq_false_iff] at h
    exact h.2
  rw [← cone_dstPaths, ← cone_dstPaths, disjoint_cone_iff]
  intro p hp q hq
  obtain ⟨l, hl, rfl⟩ := List.mem_map.mp hp
  obtain ⟨r, hr, rfl⟩ := List.mem_map.mp hq
  have hlr : pathOverlap l r = false := by
    rw [pathsOverlap, List.any_eq_false] at hdst
    have := hdst l hl
    rw [Bool.not_eq_true, List.any_eq_false] at this
    exact Bool.not_eq_true _ ▸ this r hr
  rw [pathOverlap, Bool.or_eq_false_iff] at hlr
  exact ⟨fun h => by rw [isPrefix_iff.mpr h] at hlr; simp at hlr,
    fun h => by rw [isPrefix_iff.mpr h] at hlr; simp at hlr⟩

theorem pairwise_of_pairwiseDisjoint : ∀ {ms : List Filter}, pairwiseDisjoint ms = true →
    ms.Pairwise fun a b => Disjoint (pushSet a Set.univ) (pushSet b Set.univ)
  | [], _ => List.Pairwise.nil
  | m :: ms, h => by
    rw [pairwiseDisjoint, Bool.and_eq_true, List.all_eq_true] at h
    refine List.pairwise_cons.mpr ⟨fun m' hm' => ?_, pairwise_of_pairwiseDisjoint h.2⟩
    exact disjoint_of_not_membersOverlap (by simpa using h.1 m' hm')

/-- Members whose path lists are apart write disjoint sets of paths. -/
theorem writesDisjoint_of_composeMembersAreDisjoint {f : Filter} (h : composeMembersAreDisjoint f = true) :
    WritesDisjoint f := by
  induction f using Filter.induction with
  | subdir p => exact .subdir p
  | prefixed p => exact .prefixed p
  | exclude sels => exact .exclude sels
  | compose ms ih =>
    rw [composeMembersAreDisjoint, Bool.and_eq_true, allMembersAreDisjoint_iff] at h
    exact .compose ms (pairwise_of_pairwiseDisjoint h.1) fun m hm => ih m hm (h.2 m hm)
  | chain ops ih =>
    rw [composeMembersAreDisjoint, allMembersAreDisjoint_iff] at h
    exact .chain ops fun op hop => ih op hop (h op hop)
  | nop => exact .nop
  | empty => exact .empty

/-! ### Canonicalization -/

variable {kind : HashKind Oid} [Contents kind] {source : TreeSource Oid}

/-- **Canonicalization preserves meaning.** With enough fuel for the merges, a
filter and its canonical form both succeed on every readable tree, with the
same tree id. -/
theorem filterTree_canonicalize
    (hsrc : ContentAddressed kind source) {f : Filter} (hdis : composeMembersAreDisjoint f = true)
    (hne : noEmptyCompose f = true) {memo memo' : FilterMemo Oid} (hm : MemoSound kind memo)
    (hm' : MemoSound kind memo') {t : Oid} (ht : FullyReadable kind source t) :
    ∃ n₀, ∀ n, n₀ ≤ n → ∃ o o',
      (filterTree kind source n memo (canonicalize f) t).1 = .ok o ∧
      (filterTree kind source n memo' f t).1 = .ok o' ∧ o.treeId = o'.treeId := by
  have hd := writesDisjoint_of_composeMembersAreDisjoint hdis
  obtain ⟨a, ha⟩ := exists_filterTree_ok hsrc (noEmptyCompose_of_canonical (canonical_canonicalize f))
    (writesDisjoint_canonicalize hd) hm ht
  obtain ⟨b, hb⟩ := exists_filterTree_ok hsrc hne hd hm' ht
  refine ⟨max a b, fun n hn => ?_⟩
  obtain ⟨o, ho, hid⟩ := ha n (le_trans (le_max_left a b) hn)
  obtain ⟨o', ho', hid'⟩ := hb n (le_trans (le_max_right a b) hn)
  exact ⟨o, o', ho, ho', by rw [hid, hid', sem_canonicalize hd]⟩

/-- Two members, one of them nested with `:empty`, that come out merged. -/
def nestedCompose : Filter :=
  .compose [.chain [.subdir pathA, .prefixed pathX], .compose [.empty, .chain [.subdir pathB, .prefixed pathC]]]

theorem filterTree_canonicalize_nestedCompose :
    composeMembersAreDisjoint nestedCompose = true ∧ noEmptyCompose nestedCompose = true ∧
      ∃ n₀, ∀ n, n₀ ≤ n → ∃ o o',
        (filterTree structuralKind structuralSource n freshMemo (canonicalize nestedCompose) abcRoot).1 = .ok o ∧
        (filterTree structuralKind structuralSource n freshMemo nestedCompose abcRoot).1 = .ok o' ∧
        o.treeId = o'.treeId :=
  ⟨by decide, by decide, filterTree_canonicalize contentAddressed_structuralSource
    (by decide) (by decide) (memoSound_withCapacity _ _) (memoSound_withCapacity _ _)
    (fullyReadable_of_wellFormed (by decide))⟩

/-- The empty compose prints like the compose of the empty chain. -/
def emptyComposes : Filter :=
  .compose [.chain [.subdir pathA, .compose []], .chain [.subdir pathA, .compose [.chain []]]]

/-- Without members to tell them apart by, the memo answers the second member
with the result of the first, while the canonical form is just `:/a`. -/
theorem filterTree_canonicalize_emptyComposes :
    composeMembersAreDisjoint emptyComposes = true ∧
      FullyReadable structuralKind structuralSource abcRoot ∧
      ∀ n, (filterTree structuralKind structuralSource n freshMemo (canonicalize emptyComposes) abcRoot).1.map
            (·.treeId) = .ok (dirOf 1) ∧
        (filterTree structuralKind structuralSource n freshMemo emptyComposes abcRoot).1.map (·.treeId) =
            .ok (emptyTreeId structuralKind) ∧
        dirOf 1 ≠ emptyTreeId structuralKind :=
  ⟨by decide, fullyReadable_of_wellFormed (by decide), fun _ => ⟨rfl, rfl, by decide⟩⟩

/-! ### The source paths are the read set -/

/-- The tree a lookup found, if it found one. -/
def PathLookup.treeId? : PathLookup Oid → Option Oid
  | .tree treeId => some treeId
  | _ => none

/-- The same tree at both places, or no tree at either. -/
def sameLookup : Except (MissingObject Oid) (PathLookup Oid) → Except (MissingObject Oid) (PathLookup Oid) → Bool
  | .ok left, .ok right => left.treeId? == right.treeId?
  | _, _ => false

theorem view_eq_of_sameLookup {source₁ source₂ : TreeSource Oid}
    (h₁ : ContentAddressed kind source₁) (h₂ : ContentAddressed kind source₂) {x y : Oid} {path : Path}
    (h : sameLookup (lookupPath kind source₁ x path) (lookupPath kind source₂ y path) = true) :
    view kind x path = view kind y path := by
  have hx := lookupPath_spec h₁ path x
  have hy := lookupPath_spec h₂ path y
  cases hl : lookupPath kind source₁ x path with
  | error missing => rw [hl] at h; cases h
  | ok left =>
    cases hr : lookupPath kind source₂ y path with
    | error missing => rw [hl, hr] at h; cases h
    | ok right =>
      rw [hl] at h hx
      rw [hr] at h hy
      cases left <;> cases right <;> simp_all [sameLookup, PathLookup.treeId?]

/-- **`src_paths` is a sound read set.** A registered filter gives the same tree
for two root trees that agree at its source paths. -/
theorem filterTree_eq_of_lookups {source₁ source₂ : TreeSource Oid}
    (hsrc₁ : ContentAddressed kind source₁) (hsrc₂ : ContentAddressed kind source₂) {f : Filter}
    (hcan : canonicalize f = f) {config : MonoConfig} {check : RegistrationCheck}
    (hreg : validateForRegistration f config = .ok check) {memo₁ memo₂ : FilterMemo Oid}
    (hm₁ : MemoSound kind memo₁) (hm₂ : MemoSound kind memo₂) {t₁ t₂ : Oid}
    (ht₁ : FullyReadable kind source₁ t₁) (ht₂ : FullyReadable kind source₂ t₂)
    (hsame : ∀ path ∈ srcPaths f, sameLookup (lookupPath kind source₁ t₁ (pathSegments path))
      (lookupPath kind source₂ t₂ (pathSegments path)) = true) :
    ∃ n₀, ∀ n, n₀ ≤ n → ∃ o₁ o₂,
      (filterTree kind source₁ n memo₁ f t₁).1 = .ok o₁ ∧
      (filterTree kind source₂ n memo₂ f t₂).1 = .ok o₂ ∧ o₁.treeId = o₂.treeId := by
  have hd : WritesDisjoint f := by
    have h := composeDisjoint_of_validate hreg
    rwa [hcan] at h
  have hne := noEmptyCompose_of_canonical (canonical_of_canonicalize_eq hcan)
  obtain ⟨a, ha⟩ := exists_filterTree_ok hsrc₁ hne hd hm₁ ht₁
  obtain ⟨b, hb⟩ := exists_filterTree_ok hsrc₂ hne hd hm₂ ht₂
  refine ⟨max a b, fun n hn => ?_⟩
  obtain ⟨o₁, ho₁, hid₁⟩ := ha n (le_trans (le_max_left a b) hn)
  obtain ⟨o₂, ho₂, hid₂⟩ := hb n (le_trans (le_max_right a b) hn)
  refine ⟨o₁, o₂, ho₁, ho₂, ?_⟩
  rw [hid₁, hid₂]
  exact sem_eq_of_source_paths hd fun path hpath => view_eq_of_sameLookup hsrc₁ hsrc₂ (hsame path hpath)

/-- `:[:/a:prefix=x,:/b:prefix=c]`. -/
def twoMembers : Filter :=
  .compose [.chain [.subdir pathA, .prefixed pathX], .chain [.subdir pathB, .prefixed pathC]]

def sampleConfig : MonoConfig := ⟨['/', 'i', 'm', 'p', 'o', 'r', 't'], [['a'], ['b'], ['c']]⟩

theorem validate_twoMembers :
    validateForRegistration twoMembers sampleConfig = .ok ⟨[['/', 'a'], ['/', 'b']], true⟩ := rfl

/-- `abcRoot` with another directory `c`. -/
def otherRoot : ObjectId := .tree [treeItem ['a'] (dirOf 1), treeItem ['b'] (dirOf 2), treeItem ['c'] (dirOf 4)]

theorem filterTree_eq_of_lookups_twoMembers :
    validateForRegistration twoMembers sampleConfig = .ok ⟨[['/', 'a'], ['/', 'b']], true⟩ ∧ abcRoot ≠ otherRoot ∧
      ∃ n₀, ∀ n, n₀ ≤ n → ∃ o₁ o₂,
        (filterTree structuralKind structuralSource n freshMemo twoMembers abcRoot).1 = .ok o₁ ∧
        (filterTree structuralKind structuralSource n freshMemo twoMembers otherRoot).1 = .ok o₂ ∧
        o₁.treeId = o₂.treeId :=
  ⟨rfl, by decide, filterTree_eq_of_lookups contentAddressed_structuralSource
    contentAddressed_structuralSource rfl validate_twoMembers (memoSound_withCapacity _ _)
    (memoSound_withCapacity _ _) (fullyReadable_of_wellFormed (by decide))
    (fullyReadable_of_wellFormed (by decide)) (by decide)⟩

/-! ### Registered filters never collide -/

/-- **Registered filters never collide.** The canonical form of a registered
filter, with the members of its composes in any order, never fails with
`Invariant`; all its merges succeed, and every order gives the same tree. -/
theorem filterTree_registered (hsrc : ContentAddressed kind source)
    {f : Filter} {config : MonoConfig} {check : RegistrationCheck}
    (hreg : validateForRegistration f config = .ok check) {g : Filter} (hg : Reorder (canonicalize f) g)
    {memo memo' : FilterMemo Oid} (hm : MemoSound kind memo) (hm' : MemoSound kind memo') {t : Oid}
    (ht : FullyReadable kind source t) :
    (∀ n, (filterTree kind source n memo' g t).1 ≠ .error .invariant) ∧
      ∃ n₀, ∀ n, n₀ ≤ n → Fits kind n g t ∧ ∃ o o',
        (filterTree kind source n memo (canonicalize f) t).1 = .ok o ∧
        (filterTree kind source n memo' g t).1 = .ok o' ∧ o.treeId = o'.treeId := by
  have hd : WritesDisjoint (canonicalize f) := composeDisjoint_of_validate hreg
  have hne := noEmptyCompose_of_canonical (canonical_canonicalize f)
  have hdg := hg.writesDisjoint hd
  have hneg := hg.noEmptyCompose hne
  refine ⟨filterTree_ne_invariant hsrc hneg hdg hm' t, ?_⟩
  obtain ⟨a, ha⟩ := exists_filterTree_ok hsrc hne hd hm ht
  obtain ⟨b, hb⟩ := exists_filterTree_ok hsrc hneg hdg hm' ht
  obtain ⟨c, hc⟩ := fits_of_disjoint kind hdg t
  refine ⟨max a (max b c), fun n hn => ⟨hc n (by omega), ?_⟩⟩
  obtain ⟨o, ho, hid⟩ := ha n (by omega)
  obtain ⟨o', ho', hid'⟩ := hb n (by omega)
  exact ⟨o, o', ho, ho', by rw [hid, hid', sem_reorder hg hd]⟩

/-- `twoMembers` with its members swapped. -/
def swappedMembers : Filter :=
  .compose [.chain [.subdir pathB, .prefixed pathC], .chain [.subdir pathA, .prefixed pathX]]

theorem reorder_twoMembers : Reorder (canonicalize twoMembers) swappedMembers :=
  .perm (List.Perm.swap _ _ [])

theorem filterTree_registered_twoMembers :
    validateForRegistration twoMembers sampleConfig = .ok ⟨[['/', 'a'], ['/', 'b']], true⟩ ∧
    (∀ n, (filterTree structuralKind structuralSource n freshMemo swappedMembers abcRoot).1 ≠
        .error .invariant) ∧
      ∃ n₀, ∀ n, n₀ ≤ n → Fits structuralKind n swappedMembers abcRoot ∧ ∃ o o',
        (filterTree structuralKind structuralSource n freshMemo (canonicalize twoMembers) abcRoot).1 = .ok o ∧
        (filterTree structuralKind structuralSource n freshMemo swappedMembers abcRoot).1 = .ok o' ∧
        o.treeId = o'.treeId :=
  ⟨rfl, filterTree_registered contentAddressed_structuralSource validate_twoMembers
    reorder_twoMembers (memoSound_withCapacity _ _) (memoSound_withCapacity _ _)
    (fullyReadable_of_wellFormed (by decide))⟩

/-- A compose of two directories that nothing is left of, beside a third. -/
def hiddenClash : Filter :=
  .compose [.chain [.compose [.subdir pathA, .subdir pathB], .empty], .chain [.subdir pathC, .prefixed pathX]]

/-- The check looks at the canonical form, from which the clashing compose is
gone; evaluated as written, the filter fails. -/
theorem filterTree_hiddenClash :
    validateForRegistration hiddenClash sampleConfig = .ok ⟨[['/', 'c']], true⟩ ∧
      FullyReadable structuralKind structuralSource abcRoot ∧
      ∀ n, (filterTree structuralKind structuralSource (n + 1) freshMemo hiddenClash abcRoot).1 =
        .error .invariant :=
  ⟨rfl, fullyReadable_of_wellFormed (by decide), fun _ => rfl⟩

end View
end Mega
