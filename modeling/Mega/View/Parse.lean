/-
# Parsing view filters

`ceres/view/filter/parse.rs`, and `parse_for_registration` and
`recheck_definition` of `ceres/view/filter/mod.rs`: the text of a filter is read
by a recursive descent that counts how deep composes are nested. A definition is
registered under the text of its canonical form, and that text is parsed again
whenever the definition is loaded.

The parser keeps the text and a position; here every function takes the rest of
the text and answers what is left of it. The recursion takes fuel;
`parseWithMax` gives it twice the length of the text, which is always enough. The
constructor of paths asserts that its segments are valid; a failed assertion is an
error of the model's own, and it never happens (`parseWithMax_answers`).

Key definitions: `parsePath`, `parseOps`, `parseWithMax`,
`parseForRegistration`, `recheckDefinition`.
-/
import Mega.View.Canonical
import Mega.View.FilterTree

namespace Mega
namespace View

inductive FilterParseError where
  /-- "backslash is not allowed in a path" -/
  | backslash
  /-- "a path segment has edge whitespace" -/
  | segmentEdgeWhitespace
  /-- "invalid path segment" -/
  | invalidSegment
  /-- "path needs quoting" -/
  | needsQuoting
  /-- "path may only be quoted as a whole" -/
  | partialQuote
  /-- "unterminated quoted path" -/
  | unterminatedQuote
  /-- "control character in path" -/
  | controlChar
  /-- "empty selector segment" -/
  | emptySelectorSegment
  /-- "exclude arguments must be selectors" -/
  | excludeArgNotSelector
  /-- "invalid filter syntax" -/
  | invalidSyntax
  /-- "filter spec exceeds the registration byte limit" -/
  | specTooLarge
  /-- "filter nesting exceeds the supported limit" -/
  | nestingTooDeep
  /-- The model's own: "ViewPath requires valid, non-empty path segments". -/
  | assertionFailed
  /-- The model's own: the fuel ran out. -/
  | outOfFuel
deriving DecidableEq

inductive PathKind where
  | operator
  | selector
deriving DecidableEq

abbrev ParseM := Except FilterParseError

/-! ### Characters -/

def isSpace (ch : Char) : Bool := ch == ' ' || ch == '\t' || ch == '\n' || ch == '\r'

/-- Eats a word if the text starts with it. -/
def eat (word rest : Text) : Option Text :=
  if word.isPrefixOf rest then some (rest.drop word.length) else none

def skipSpace (rest : Text) : Text := rest.dropWhile isSpace

/-! ### Paths -/

/-- The text up to the closing quote. -/
def readQuoted : Text → ParseM (Text × Text)
  | [] => .error .unterminatedQuote
  | ch :: rest =>
    if ch == '"' then .ok ([], rest)
    else if ch == '\\' then
      match rest with
      | [] => .error .backslash
      | next :: rest =>
        if next == '"' then (readQuoted rest).map fun result => ('"' :: result.1, result.2)
        else .error .backslash
    else if isControl ch then .error .controlChar
    else (readQuoted rest).map fun result => (ch :: result.1, result.2)

/-- The text up to the end of an unquoted path. -/
def readPlain : Text → ParseM (Text × Text)
  | [] => .ok ([], [])
  | ch :: rest =>
    if ch == ':' || ch == ',' || ch == ']' then .ok ([], ch :: rest)
    else if isSpace ch then .ok ([], ch :: rest)
    else if ch == '"' then .error .partialQuote
    else if ch == '\\' then .error .backslash
    else if isControl ch then .error .controlChar
    else if ch == '/' || isSafe ch then (readPlain rest).map fun result => (ch :: result.1, result.2)
    else .error .needsQuoting

/-- Blanks after an unquoted path have to end the member or the filter. -/
def checkPlainEnd (rest : Text) : ParseM Unit :=
  if rest.head?.any isSpace then
    match (skipSpace rest).head? with
    | some ':' => .error .invalidSyntax
    | some ',' => .ok ()
    | some ']' => .ok ()
    | none => .ok ()
    | some _ => .error .needsQuoting
  else .ok ()

/-- What may follow the closing quote. -/
def checkQuotedEnd (rest : Text) : ParseM Unit :=
  match rest.head? with
  | none => .ok ()
  | some ch =>
    if ch == '\\' then .error .backslash
    else if ch == '/' || isSafe ch then .error .partialQuote
    else if ch == ':' || ch == ',' || ch == ']' || isSpace ch then .ok ()
    else .error .invalidSyntax

def dropFirstSlash (raw : Text) : Text := if raw.head? = some '/' then raw.tail else raw

def dropLastSlash (raw : Text) : Text := if raw.getLast? = some '/' then raw.dropLast else raw

/-- Takes off the slashes that are not part of the path: the path, whether it
names a tree, and the rest. -/
def trimPath (kind : PathKind) (quoted : Bool) (raw rest : Text) : Text × Bool × Text :=
  match kind with
  | .selector =>
    if quoted then
      match eat ['/'] rest with
      | some rest => (raw, true, rest)
      | none => (raw, false, rest)
    else (dropLastSlash raw, raw.getLast? = some '/', rest)
  | .operator => (dropLastSlash (dropFirstSlash raw), false, rest)

/-- The checks of one segment; `last` says whether it is the last one. -/
def checkSegment (kind : PathKind) (last : Bool) (segment : Text) : ParseM Unit :=
  if segment.isEmpty then
    if kind = .selector ∧ last = true then .error .emptySelectorSegment else .error .invalidSegment
  else if segment == ['.'] || segment == ['.', '.'] then .error .invalidSegment
  else if segment.head?.any isWhitespace || segment.getLast?.any isWhitespace then .error .segmentEdgeWhitespace
  else .ok ()

def checkSegments (kind : PathKind) : List Text → ParseM Unit
  | [] => .ok ()
  | segment :: segments => do
    checkSegment kind segments.isEmpty segment
    checkSegments kind segments

/-- `ViewPath::new`. -/
def newViewPath (segments : Path) : ParseM ViewPath :=
  if h : segments ≠ [] ∧ ∀ s ∈ segments, validPathSegment s = true then .ok ⟨segments, h.1, h.2⟩
  else .error .assertionFailed

/-- The characters of a path, whether they were quoted, and the rest. -/
def readPath (rest : Text) : ParseM (Text × Bool × Text) :=
  match eat ['"'] rest with
  | some rest => do
    let (raw, rest) ← readQuoted rest
    pure (raw, true, rest)
  | none => do
    let (raw, rest) ← readPlain rest
    checkPlainEnd rest
    pure (raw, false, rest)

def checkEnd (quoted : Bool) (rest : Text) : ParseM Unit := if quoted then checkQuotedEnd rest else .ok ()

def parsePath (kind : PathKind) (rest : Text) : ParseM (ViewPath × Bool × Text) := do
  let (raw, quoted, rest) ← readPath rest
  let trimmed := trimPath kind quoted raw rest
  checkEnd quoted trimmed.2.2
  checkSegments kind (trimmed.1.splitOn '/')
  let path ← newViewPath (trimmed.1.splitOn '/')
  pure (path, trimmed.2)

/-! ### Filters -/

/-- The selectors of an exclusion. Each takes at least two characters, so the
length of the text bounds their number. -/
def parseSelectors : ℕ → Text → ParseM (List Selector × Text)
  | 0, _ => .error .outOfFuel
  | fuel + 1, rest =>
    match eat [':', ':'] rest with
    | none => .error .excludeArgNotSelector
    | some rest => do
      let (path, tree, rest) ← parsePath .selector rest
      let selector := if tree then Selector.tree path else .entry path
      let rest := skipSpace rest
      match eat [','] rest with
      | some rest => do
        let (selectors, rest) ← parseSelectors fuel (skipSpace rest)
        pure (selector :: selectors, rest)
      | none =>
        match eat [']'] rest with
        | some rest => pure ([selector], rest)
        | none => .error .invalidSyntax

def parseExclude (rest : Text) : ParseM (Filter × Text) := do
  let (selectors, rest) ← parseSelectors (rest.length + 1) (skipSpace rest)
  pure (.exclude selectors, rest)

/-- `parse_chain` at its end. -/
def chainOf : List Filter → Filter
  | [op] => op
  | ops => .chain ops

mutual

/-- The operators of a chain. -/
def parseOps (maxNesting : ℕ) : ℕ → (nesting : ℕ) → Text → ParseM (List Filter × Text)
  | 0, _, _ => .error .outOfFuel
  | fuel + 1, nesting, rest =>
    if rest.head? ≠ some ':' then .error .invalidSyntax
    else do
      let (op, rest) ← parseOp maxNesting fuel nesting rest
      let next := skipSpace rest
      match next.head? with
      | some ':' =>
        if next.length ≠ rest.length then .error .invalidSyntax
        else do
          let (ops, rest) ← parseOps maxNesting fuel nesting next
          pure (op :: ops, rest)
      | some ',' => pure ([op], next)
      | some ']' => pure ([op], next)
      | none => pure ([op], next)
      | some _ => .error .invalidSyntax

def parseOp (maxNesting : ℕ) : ℕ → (nesting : ℕ) → Text → ParseM (Filter × Text)
  | 0, _, _ => .error .outOfFuel
  | fuel + 1, nesting, rest =>
    match eat [':', 'p', 'r', 'e', 'f', 'i', 'x', '='] rest with
    | some rest => (parsePath .operator rest).map fun result => (.prefixed result.1, result.2.2)
    | none =>
      match eat [':', 'e', 'x', 'c', 'l', 'u', 'd', 'e', '['] rest with
      | some rest => parseExclude rest
      | none =>
        match eat [':', '['] rest with
        | some rest =>
          if nesting + 1 > maxNesting then .error .nestingTooDeep
          else (parseMembers maxNesting fuel (nesting + 1) (skipSpace rest)).map fun result =>
            (.compose result.1, result.2)
        | none =>
          match eat [':', '/'] rest with
          | some rest => (parsePath .operator rest).map fun result => (.subdir result.1, result.2.2)
          | none =>
            match eat [':', 'n', 'o', 'p'] rest with
            | some rest => .ok (.nop, rest)
            | none =>
              match eat [':', 'e', 'm', 'p', 't', 'y'] rest with
              | some rest => .ok (.empty, rest)
              | none => .error .invalidSyntax

/-- The members of a compose, up to its closing bracket. -/
def parseMembers (maxNesting : ℕ) : ℕ → (nesting : ℕ) → Text → ParseM (List Filter × Text)
  | 0, _, _ => .error .outOfFuel
  | fuel + 1, nesting, rest => do
    let (ops, rest) ← parseOps maxNesting fuel nesting rest
    let rest := skipSpace rest
    match eat [','] rest with
    | some rest => do
      let (members, rest) ← parseMembers maxNesting fuel nesting (skipSpace rest)
      pure (chainOf ops :: members, rest)
    | none =>
      match eat [']'] rest with
      | some rest => pure ([chainOf ops], rest)
      | none => .error .invalidSyntax

end

def parseWithMax (text : Text) (maxNesting : ℕ) : ParseM Filter := do
  let (ops, rest) ← parseOps maxNesting (2 * text.length + 3) 0 (skipSpace text)
  if skipSpace rest ≠ [] then .error .invalidSyntax else pure (chainOf ops)

/-! ### Definitions -/

def registerMaxSpecBytes : ℕ := 16384

def registerMaxNesting : ℕ := 16

def parseMaxNesting : ℕ := 64

def parse (text : Text) : ParseM Filter := parseWithMax text parseMaxNesting

structure CanonicalFilter where
  filter : Filter
  canonicalText : Text
  filterId : Text

inductive RecheckFailure where
  | roundTrip
  | filterIdMismatch
deriving DecidableEq

section Definitions

-- `filter_id`, the hash of a canonical text
variable (filterId : Text → Text)

def parseForRegistration (spec : Text) : ParseM CanonicalFilter :=
  if utf8Len spec > registerMaxSpecBytes then .error .specTooLarge
  else do
    let filter ← parseWithMax spec registerMaxNesting
    let filter := canonicalize filter
    pure ⟨filter, print filter, filterId (print filter)⟩

def recheckDefinition (canonicalSpec expectedFilterId : Text) : Except RecheckFailure CanonicalFilter :=
  match parseWithMax canonicalSpec parseMaxNesting with
  | .error _ => .error .roundTrip
  | .ok filter =>
    let filter := canonicalize filter
    if print filter ≠ canonicalSpec then .error .roundTrip
    else if filterId canonicalSpec ≠ expectedFilterId then .error .filterIdMismatch
    else .ok ⟨filter, print filter, filterId canonicalSpec⟩

end Definitions

end View
end Mega
