/-
# View filters: syntax and canonical text

A view filter selects and rearranges part of the monorepo tree. This module is
the syntax of `ceres/view/filter/mod.rs` and the printer of
`ceres/view/filter/canonical.rs`: paths, selectors, the seven filter forms, and
the text under which a filter is stored and memoized.

A Rust `String` is the list of its characters (the byte order of UTF-8 is the
order of the code points, so sorting strings is sorting lists of characters).

Key definitions: `ViewPath`, `Selector`, `Filter`, `print`, `printPath`.
Key theorem: `Filter.induction`, the induction every later proof uses.
-/
import Mathlib

namespace Mega
namespace View

/-- A string, as the list of its characters. -/
abbrev Text := List Char

/-- A path below some tree: one name per level. -/
abbrev Path := List Text

/-- The length of a string in bytes. -/
def utf8Len (text : Text) : ℕ := (text.map Char.utf8Size).sum

/-- `join("/")`. -/
def joinSlash (parts : List Text) : Text := ['/'].intercalate parts

/-! ### Characters -/

/-- `char::is_control`: the general category `Cc`. -/
def isControl (ch : Char) : Bool :=
  ch.toNat < 0x20 || (0x7f ≤ ch.toNat && ch.toNat < 0xa0)

/-- `char::is_whitespace`: the Unicode property `White_Space`. -/
def isWhitespace (ch : Char) : Bool :=
  let n := ch.toNat
  (0x09 ≤ n && n ≤ 0x0d) || n == 0x20 || n == 0x85 || n == 0xa0 || n == 0x1680 ||
    (0x2000 ≤ n && n ≤ 0x200a) || n == 0x2028 || n == 0x2029 || n == 0x202f || n == 0x205f || n == 0x3000

def isAscii (ch : Char) : Bool :=
  ch.toNat < 0x80

def isAsciiAlphanumeric (ch : Char) : Bool :=
  let n := ch.toNat
  (0x30 ≤ n && n ≤ 0x39) || (0x41 ≤ n && n ≤ 0x5a) || (0x61 ≤ n && n ≤ 0x7a)

/-- Characters a path may hold without quotes. -/
def isSafe (ch : Char) : Bool :=
  isAsciiAlphanumeric ch || ch == '.' || ch == '_' || ch == '-' ||
    (!isAscii ch && !isWhitespace ch && !isControl ch)

def validPathSegment (segment : Text) : Bool :=
  !segment.isEmpty && segment != ['.'] && segment != ['.', '.'] &&
    !segment.contains '/' && !segment.contains '\\' &&
    !segment.any isControl && !segment.head?.any isWhitespace && !segment.getLast?.any isWhitespace

/-! ### Paths and selectors -/

/-- A non-empty path of valid segments. The constructor of the source asserts
both; here they are fields. -/
structure ViewPath where
  segments : Path
  nonempty : segments ≠ []
  valid : ∀ s ∈ segments, validPathSegment s = true
deriving DecidableEq

theorem ViewPath.ext {p q : ViewPath} (h : p.segments = q.segments) : p = q := by
  cases p; cases q; cases h; rfl

/-- The segments of `p` followed by those of `q`. -/
def ViewPath.append (p q : ViewPath) : ViewPath where
  segments := p.segments ++ q.segments
  nonempty := by simp [p.nonempty]
  valid := fun s hs => (List.mem_append.mp hs).elim (p.valid s) (q.valid s)

@[simp] theorem ViewPath.append_segments (p q : ViewPath) :
    (p.append q).segments = p.segments ++ q.segments := rfl

/-- `p` without its first `n` segments, if any segment is left. -/
def ViewPath.dropFront (p : ViewPath) (n : ℕ) : Option ViewPath :=
  if h : p.segments.drop n = [] then none
  else some ⟨p.segments.drop n, h, fun s hs => p.valid s (List.mem_of_mem_drop hs)⟩

theorem ViewPath.dropFront_eq_none {p : ViewPath} {n : ℕ} :
    p.dropFront n = none ↔ p.segments.drop n = [] := by
  simp [dropFront]

theorem ViewPath.segments_of_dropFront {p q : ViewPath} {n : ℕ} (h : p.dropFront n = some q) :
    q.segments = p.segments.drop n := by
  unfold dropFront at h
  split at h
  · cases h
  · rw [← Option.some.inj h]

/-- What an exclusion removes: an entry of any kind, or only a tree. -/
inductive Selector where
  | entry (path : ViewPath)
  | tree (path : ViewPath)
deriving DecidableEq

def Selector.path : Selector → ViewPath
  | .entry p | .tree p => p

/-- A view filter. `prefixed` is the source's `Prefix`. -/
inductive Filter where
  | subdir (path : ViewPath)
  | prefixed (path : ViewPath)
  | exclude (selectors : List Selector)
  | compose (members : List Filter)
  | chain (ops : List Filter)
  | nop
  | empty

/-- Induction over filters, with the hypothesis for every member of a list of
filters. -/
@[elab_as_elim]
theorem Filter.induction {motive : Filter → Prop}
    (subdir : ∀ p, motive (.subdir p)) (prefixed : ∀ p, motive (.prefixed p))
    (exclude : ∀ sels, motive (.exclude sels))
    (compose : ∀ ms, (∀ m ∈ ms, motive m) → motive (.compose ms))
    (chain : ∀ ops, (∀ op ∈ ops, motive op) → motive (.chain ops))
    (nop : motive .nop) (empty : motive .empty) (f : Filter) : motive f :=
  @Filter.rec motive (fun fs => ∀ f ∈ fs, motive f)
    subdir prefixed exclude compose chain nop empty
    (fun _ h => absurd h List.not_mem_nil)
    (fun _ _ hf hfs g hg => (List.mem_cons.mp hg).elim (fun h => h ▸ hf) (hfs g)) f

/-! ### The printer -/

/-- `text.replace('"', "\\\"")`. -/
def escapeQuotes (text : Text) : Text :=
  text.flatMap fun ch => if ch = '"' then ['\\', '"'] else [ch]

def printPath (path : ViewPath) : Text :=
  let text := List.intercalate ['/'] path.segments
  if text.all (fun ch => ch == '/' || isSafe ch) then text else ['"'] ++ escapeQuotes text ++ ['"']

def printSelector : Selector → Text
  | .entry path => [':', ':'] ++ printPath path
  | .tree path => [':', ':'] ++ printPath path ++ ['/']

mutual

/-- The text of a filter. It is the key under which filter results are
memoized. -/
def print : Filter → Text
  | .subdir path => [':', '/'] ++ printPath path
  | .prefixed path => [':', 'p', 'r', 'e', 'f', 'i', 'x', '='] ++ printPath path
  | .exclude selectors =>
    [':', 'e', 'x', 'c', 'l', 'u', 'd', 'e', '['] ++ List.intercalate [','] (selectors.map printSelector) ++ [']']
  | .compose members => [':', '['] ++ List.intercalate [','] (printAll members) ++ [']']
  | .chain ops => (printAll ops).flatten
  | .nop => [':', 'n', 'o', 'p']
  | .empty => [':', 'e', 'm', 'p', 't', 'y']

def printAll : List Filter → List Text
  | [] => []
  | f :: fs => print f :: printAll fs

end

@[simp] theorem printAll_eq_map : ∀ fs : List Filter, printAll fs = fs.map print
  | [] => rfl
  | f :: fs => by rw [printAll, printAll_eq_map fs, List.map_cons]

end View
end Mega
