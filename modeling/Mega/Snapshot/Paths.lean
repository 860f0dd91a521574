/-
# Paths of a scope

`validate_scope_relative_path` of `ceres/snapshot/view.rs` and the components of a
path: absolute, without trailing slash, of at most 256 components of at most 255
bytes each.

Key definitions: `validateScopeRelativePath`, `components`, `appendAbsolute`.
Key theorems: `checkComponents_eq_ok`, `components_of_valid`, `components_appendAbsolute`.
-/
import Mega.Lib.Fallible
import Mega.Lib.Splits
import Mega.View.Filter

namespace Mega
namespace Snapshot

open List View

/-- What is wrong with a path. -/
inductive PathFault where
  /-- "path must start with '/'" -/
  | noLeadingSlash
  /-- "path longer than 4096 bytes" -/
  | tooLong
  /-- "trailing slash" -/
  | trailingSlash
  /-- "NUL in path" -/
  | nul
  /-- "path has more than 256 components" -/
  | tooManyComponents
  /-- "empty path component" -/
  | emptyComponent
  /-- "dot component" -/
  | dotComponent
  /-- "path component over 255 bytes" -/
  | componentTooLong
  /-- "subtree exceeds full-path budget at this prefix" -/
  | overBudget
deriving DecidableEq

inductive SnapshotError where
  | scopeInvalid (fault : PathFault)
  /-- "MTP2 build failed for …: …" -/
  | pageBuild (relPath reason : Text)
deriving DecidableEq

def checkComponents : ℕ → List Text → Except SnapshotError Unit
  | _, [] => .ok ()
  | componentCount, comp :: rest =>
    if componentCount + 1 > 256 then .error (.scopeInvalid .tooManyComponents)
    else if comp = [] then .error (.scopeInvalid .emptyComponent)
    else if comp = ['.'] ∨ comp = ['.', '.'] then .error (.scopeInvalid .dotComponent)
    else if utf8Len comp > 255 then .error (.scopeInvalid .componentTooLong)
    else checkComponents (componentCount + 1) rest

def validateScopeRelativePath (path : Text) : Except SnapshotError Unit :=
  if path.head? ≠ some '/' then .error (.scopeInvalid .noLeadingSlash)
  else if utf8Len path > 4096 then .error (.scopeInvalid .tooLong)
  else if path ≠ ['/'] ∧ path.getLast? = some '/' then .error (.scopeInvalid .trailingSlash)
  else if Char.ofNat 0 ∈ path then .error (.scopeInvalid .nul)
  else if path = ['/'] then .ok ()
  else checkComponents 0 (path.tail.splitOn '/')

def components (path : Text) : List Text := if path = ['/'] then [] else path.tail.splitOn '/'

def appendAbsolute (parent name : Text) : Text := if parent = ['/'] then '/' :: name else parent ++ '/' :: name

variable {comps : List Text} {name : Text}

/-! ### Paths and their components -/

/-- A name of one level. -/
def IsName (name : Text) : Prop := name ≠ [] ∧ '/' ∉ name

/-- A component that a path may have. -/
def GoodComponent (comp : Text) : Prop := comp ≠ [] ∧ ¬(comp = ['.'] ∨ comp = ['.', '.']) ∧ utf8Len comp ≤ 255

theorem checkComponents_eq_ok : ∀ {comps : List Text} {count : ℕ}, checkComponents count comps = .ok () ↔
    (comps ≠ [] → count + comps.length ≤ 256) ∧ ∀ comp ∈ comps, GoodComponent comp
  | [], _ => by simp [checkComponents]
  | comp :: rest, count => by
    have ih : checkComponents (count + 1) rest = .ok () ↔ _ := checkComponents_eq_ok
    rw [checkComponents, Fallible.guard_eq_ok, Fallible.guard_eq_ok, Fallible.guard_eq_ok, Fallible.guard_eq_ok, ih,
      forall_mem_cons, GoodComponent]
    cases rest <;> grind

/-- The components of a valid path are names, and the path is made of them. -/
theorem components_of_valid {path : Text} (h : validateScopeRelativePath path = .ok ()) :
    (∀ comp ∈ components path, IsName comp) ∧ path = '/' :: joinSlash (components path) := by
  rw [validateScopeRelativePath, Fallible.guard_eq_ok, Fallible.guard_eq_ok, Fallible.guard_eq_ok,
    Fallible.guard_eq_ok] at h
  obtain ⟨hhead, -, -, -, h⟩ := h
  obtain ⟨tail, rfl⟩ : ∃ tail, path = '/' :: tail := List.head?_eq_some_iff.mp (not_not.mp hhead)
  by_cases hroot : '/' :: tail = ['/']
  · rw [hroot]
    exact ⟨by simp [components], rfl⟩
  · rw [if_neg hroot] at h
    rw [components, if_neg hroot, tail_cons]
    refine ⟨fun comp hcomp => ⟨((checkComponents_eq_ok.mp h).2 comp hcomp).1, Splits.not_mem_of_mem_splitOn hcomp⟩, ?_⟩
    rw [joinSlash, intercalate_splitOn]

theorem joinSlash_concat (hne : comps ≠ []) (name : Text) :
    joinSlash (comps ++ [name]) = joinSlash comps ++ '/' :: name := by
  induction comps with
  | nil => exact absurd rfl hne
  | cons comp rest ih =>
    cases rest with
    | nil => simp [joinSlash, List.intercalate]
    | cons next rest =>
      have ih' := ih (cons_ne_nil _ _)
      simp only [joinSlash, List.intercalate, cons_append, intersperse_cons_cons, flatten_cons,
        append_assoc] at ih' ⊢
      rw [ih']

/-- The components of made-up paths. -/
theorem components_joinSlash (h : ∀ comp ∈ comps, IsName comp) : components ('/' :: joinSlash comps) = comps := by
  by_cases hne : comps = []
  · subst hne
    rfl
  · have hsplit := splitOn_intercalate '/' (fun c hc => (h c hc).2) hne
    have hroot : '/' :: joinSlash comps ≠ ['/'] := by
      intro hroot
      rw [show ['/'].intercalate comps = [] from (cons.inj hroot).2, splitOn_nil] at hsplit
      exact (h [] (hsplit ▸ mem_singleton_self _)).1 rfl
    rwa [components, if_neg hroot]

theorem components_appendAbsolute {path : Text} (hpath : validateScopeRelativePath path = .ok ())
    (hname : IsName name) : components (appendAbsolute path name) = components path ++ [name] := by
  obtain ⟨hcomps, heq⟩ := components_of_valid hpath
  have happend : appendAbsolute path name = '/' :: joinSlash (components path ++ [name]) := by
    by_cases hroot : path = ['/']
    · subst hroot
      simp [appendAbsolute, components, joinSlash, List.intercalate]
    · have hne : components path ≠ [] := by
        intro hnil
        rw [hnil] at heq
        exact hroot heq
      rw [appendAbsolute, if_neg hroot, joinSlash_concat hne]
      conv_lhs => rw [heq]
      rfl
  rw [happend]
  exact components_joinSlash (forall_mem_append.mpr ⟨hcomps, forall_mem_singleton.mpr hname⟩)

end Snapshot
end Mega
