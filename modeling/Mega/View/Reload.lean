/-
# Registered definitions load again

What is registered is the text of a canonical filter, and whenever it is loaded
the text is parsed again. The parser reads back what the printer wrote: paths with
and without quotes (`parsePath_printPath`), exclusions, and by induction over the
canonical form composes and chains (`parse_print`). Canonicalizing does not nest
composes deeper (`depth_canonicalize_le`), so a definition that was within the
limit for registration is within the larger limit for loading.

Key definitions: `Closes`.
Key theorems: `parsePath_printPath`, `parse_print`, `depth_canonicalize_le`,
`recheck_of_registered`.
-/
import Mega.View.ParseTotal

namespace Mega
namespace View

open List

variable {r : Text} {maxNesting : ℕ} {f : Filter}

/-! ### Words and blanks -/

theorem eat_append (word rest : Text) : eat word (word ++ rest) = some rest := by
  simp [eat]

theorem skipSpace_of_stops (h : Stops r) : skipSpace r = r := by
  rcases h with rfl | ⟨c, u, rfl, hc⟩
  · rfl
  · have hspace : isSpace c = false := by rcases hc with rfl | rfl | rfl <;> decide
    simp [skipSpace, hspace]

/-- What a printed filter may be followed by: the end, or the end of a member. -/
def Closes (r : Text) : Prop := r = [] ∨ Ends r

theorem Closes.stops (h : Closes r) : Stops r := h.elim Or.inl Ends.stops

/-! ### Paths -/

/-- Characters of an unquoted path are none that the parser treats in another
way. -/
theorem isPathChar_spec {ch : Char} (h : isPathChar ch = true) :
    (ch == ':' || ch == ',' || ch == ']') = false ∧ isSpace ch = false ∧ (ch == '"') = false ∧
      (ch == '\\') = false ∧ isControl ch = false := by
  have hother : ∀ c : Char, isPathChar c = false → (ch == c) = false := by
    intro c hc
    rw [beq_eq_false_iff_ne]
    rintro rfl
    rw [h] at hc
    cases hc
  have hcontrol : isControl ch = false := by
    rw [isPathChar, Bool.or_eq_true, beq_iff_eq] at h
    rcases h with rfl | h
    · decide
    · simp only [isSafe, Bool.or_eq_true, beq_iff_eq, Bool.and_eq_true, Bool.not_eq_true'] at h
      rcases h with (((h | rfl) | rfl) | rfl) | h
      · simp only [isAsciiAlphanumeric, Bool.or_eq_true, Bool.and_eq_true, decide_eq_true_eq] at h
        simp only [isControl, Bool.or_eq_false_iff, Bool.and_eq_false_iff, decide_eq_false_iff_not]
        omega
      · decide
      · decide
      · decide
      · exact h.2
  refine ⟨?_, ?_, hother '"' (by decide), hother '\\' (by decide), hcontrol⟩
  · rw [hother ':' (by decide), hother ',' (by decide), hother ']' (by decide)]
    rfl
  · rw [isSpace, hother ' ' (by decide), hother '\t' (by decide), hother '\n' (by decide), hother '\r' (by decide)]
    rfl

theorem readPlain_append : ∀ {t r : Text}, (∀ ch ∈ t, isPathChar ch = true) → Stops r →
    readPlain (t ++ r) = .ok (t, r)
  | [], r, _, hr => by
    rcases hr with rfl | ⟨c, u, rfl, hc⟩
    · rfl
    · have hstop : (c == ':' || c == ',' || c == ']') = true := by rcases hc with rfl | rfl | rfl <;> decide
      rw [nil_append, readPlain, if_pos hstop]
  | ch :: t, r, ht, hr => by
    have hch : isPathChar ch = true := ht ch (by simp)
    obtain ⟨hstop, hspace, hquote, hback, hcontrol⟩ := isPathChar_spec hch
    have hrest := readPlain_append (fun c hc => ht c (mem_cons_of_mem _ hc)) hr
    rw [isPathChar] at hch
    simp [readPlain, hstop, hspace, hquote, hback, hcontrol, hch, hrest, Except.map]

theorem readQuoted_append : ∀ {t : Text}, (∀ ch ∈ t, pathLetter ch) → ∀ r : Text,
    readQuoted (escapeQuotes t ++ '"' :: r) = .ok (t, r)
  | [], _, r => by
    show readQuoted ('"' :: r) = .ok ([], r)
    unfold readQuoted
    rfl
  | ch :: t, ht, r => by
    obtain ⟨hback, hcontrol⟩ := ht ch (by simp)
    have hrest := readQuoted_append (fun c hc => ht c (mem_cons_of_mem _ hc)) r
    have hcons : escapeQuotes (ch :: t) = (if ch = '"' then ['\\', '"'] else [ch]) ++ escapeQuotes t := rfl
    by_cases hquote : ch = '"'
    · subst hquote
      rw [hcons, if_pos rfl]
      show readQuoted ('\\' :: '"' :: (escapeQuotes t ++ '"' :: r)) = .ok ('"' :: t, r)
      unfold readQuoted
      simp [hrest, Except.map]
    · rw [hcons, if_neg hquote]
      show readQuoted (ch :: (escapeQuotes t ++ '"' :: r)) = .ok (ch :: t, r)
      unfold readQuoted
      simp [hquote, hback, hcontrol, hrest, Except.map]

theorem pathLetter_of_valid {segment : Text} (h : validPathSegment segment = true) : ∀ ch ∈ segment, pathLetter ch := by
  intro ch hch
  refine ⟨fun heq => backslash_notMem_of_valid h (heq ▸ hch), ?_⟩
  simp only [validPathSegment, Bool.and_eq_true, Bool.not_eq_true'] at h
  have hany := h.1.1.2
  rw [any_eq_false] at hany
  simpa using hany ch hch

theorem pathLetter_pathText (p : ViewPath) : ∀ ch ∈ pathText p, pathLetter ch := by
  intro ch hch
  rcases mem_intercalate hch with hslash | ⟨s, hs, hmem⟩
  · rw [mem_singleton.mp hslash]
    exact ⟨by decide, by decide⟩
  · exact pathLetter_of_valid (p.valid s hs) ch hmem

theorem checked_of_valid {segment : Text} (h : validPathSegment segment = true) : Checked segment := by
  simp only [validPathSegment, Bool.and_eq_true, Bool.not_eq_true', bne_iff_ne, ne_eq] at h
  obtain ⟨⟨⟨⟨⟨⟨⟨hne, hdot⟩, hdots⟩, -⟩, -⟩, -⟩, hfirst⟩, hlast⟩ := h
  exact ⟨by simpa using hne, hdot, hdots, hfirst, hlast⟩

theorem checkSegments_of_valid (kind : PathKind) : ∀ {segments : List Text},
    (∀ s ∈ segments, validPathSegment s = true) → checkSegments kind segments = .ok ()
  | [], _ => rfl
  | segment :: segments, h => by
    have hchecked := checked_of_valid (h segment (by simp))
    have hfirst : checkSegment kind segments.isEmpty segment = .ok () := by
      simp [checkSegment, hchecked.nonempty, hchecked.notDot, hchecked.notDots, hchecked.first, hchecked.last]
    rw [checkSegments, hfirst]
    exact checkSegments_of_valid kind fun s hs => h s (mem_cons_of_mem _ hs)

/-- A path text does not start with a slash. -/
theorem head_pathText (p : ViewPath) : ∃ c t, pathText p = c :: t ∧ c ≠ '/' := by
  obtain ⟨s, rest, hsegments⟩ := exists_cons_of_ne_nil p.nonempty
  have hs := p.valid s (by simp [hsegments])
  obtain ⟨c, s', rfl⟩ := exists_cons_of_ne_nil (ne_nil_of_valid hs)
  have hc : c ≠ '/' := fun heq => slash_notMem_of_valid hs (by simp [heq])
  cases rest with
  | nil => exact ⟨c, s', by simp [pathText, hsegments], hc⟩
  | cons s'' rest => exact ⟨c, _, by rw [pathText, hsegments, intercalate_cons_cons]; rfl, hc⟩

/-- The slashes that are not part of the path come off again. -/
theorem trimPath_plain (kind : PathKind) (p : ViewPath) {b : Bool} (hb : kind = .operator → b = false) (r : Text) :
    trimPath kind false (pathText p ++ slashIf b) r = (pathText p, b, r) := by
  obtain ⟨t, c, hlast, hc⟩ := getLast_pathText p
  have hkeep : dropLastSlash (pathText p) = pathText p := by
    rw [dropLastSlash, hlast, List.getLast?_concat, if_neg (by simpa using hc)]
  cases kind with
  | operator =>
    obtain ⟨c', t', hfirst, hc'⟩ := head_pathText p
    have hfirstKeep : dropFirstSlash (pathText p) = pathText p := by
      rw [dropFirstSlash, hfirst, List.head?_cons, if_neg (by simpa using hc')]
    rw [hb rfl, slashIf, if_neg (by simp), append_nil, trimPath, hfirstKeep, hkeep]
  | selector =>
    simp only [trimPath]
    cases b with
    | false =>
      have hnot : ¬(pathText p).getLast? = some '/' := by
        rw [hlast, List.getLast?_concat]
        simpa using hc
      simp [slashIf, hkeep, hnot]
    | true => simp [slashIf, dropLastSlash]

theorem trimPath_quoted (kind : PathKind) (p : ViewPath) {b : Bool} (hb : kind = .operator → b = false)
    (hr : Stops r) : trimPath kind true (pathText p) (slashIf b ++ r) = (pathText p, b, r) := by
  cases kind with
  | operator =>
    have hplain := trimPath_plain .operator p (fun _ => rfl) r
    rw [hb rfl]
    simpa [trimPath, slashIf] using hplain
  | selector =>
    cases b with
    | true => simp [trimPath, slashIf, eat]
    | false =>
      have hnone : eat ['/'] r = none := by
        rcases hr with rfl | ⟨c, u, rfl, hc⟩
        · rfl
        · rcases hc with rfl | rfl | rfl <;> simp [eat]
      simp [trimPath, slashIf, hnone]

/-- **The parser reads back a printed path**, with or without the slash of a
tree selector. -/
theorem parsePath_printPath (kind : PathKind) (p : ViewPath) {b : Bool} (hb : kind = .operator → b = false)
    (hr : Stops r) : parsePath kind (printPath p ++ (slashIf b ++ r)) = .ok (p, b, r) := by
  have hsplit : (pathText p).splitOn '/' = p.segments :=
    splitOn_intercalate '/' (fun t ht => slash_notMem_of_valid (p.valid t ht)) p.nonempty
  have hnew : newViewPath p.segments = .ok p := by
    rw [newViewPath, dif_pos ⟨p.nonempty, p.valid⟩]
  -- after reading and trimming the path both ways end alike
  have hfinish : ∀ {raw left : Text} {quoted : Bool},
      readPath (printPath p ++ (slashIf b ++ r)) = .ok (raw, quoted, left) →
      trimPath kind quoted raw left = (pathText p, b, r) → checkEnd quoted r = .ok () →
      parsePath kind (printPath p ++ (slashIf b ++ r)) = .ok (p, b, r) := by
    intro raw left quoted hread htrim hend
    simp only [parsePath, hread, htrim, hend, hsplit, checkSegments_of_valid kind p.valid, hnew, bind, Except.bind,
      pure, Except.pure]
  rcases printPath_eq p with ⟨hplain, hprint⟩ | hprint
  · refine hfinish ?_ (trimPath_plain kind p hb r) rfl
    obtain ⟨c, t, hfirst, -⟩ := head_pathText p
    have hnoQuote : eat ['"'] (pathText p ++ (slashIf b ++ r)) = none := by
      have hc := (isPathChar_spec (hplain c (by simp [hfirst]))).2.2.1
      have hne : '"' ≠ c := fun heq => by simp [← heq] at hc
      rw [hfirst]
      simp [eat, hne]
    have hchars : ∀ ch ∈ pathText p ++ slashIf b, isPathChar ch = true := by
      intro ch hch
      rcases mem_append.mp hch with hch | hch
      · exact hplain ch hch
      · cases b with
        | false => cases hch
        | true =>
          rw [mem_singleton.mp hch]
          rfl
    have hread := readPlain_append hchars hr
    have hend : checkPlainEnd r = .ok () := by
      rcases hr with rfl | ⟨c, u, rfl, hc⟩
      · rfl
      · rcases hc with rfl | rfl | rfl <;> rfl
    rw [append_assoc] at hread
    simp [readPath, hprint, hnoQuote, hread, hend, bind, Except.bind, pure, Except.pure]
  · refine hfinish ?_ (trimPath_quoted kind p hb hr) ?_
    · have hread := readQuoted_append (pathLetter_pathText p) (slashIf b ++ r)
      have heat : eat ['"'] ('"' :: (escapeQuotes (pathText p) ++ ['"']) ++ (slashIf b ++ r)) =
          some (escapeQuotes (pathText p) ++ '"' :: (slashIf b ++ r)) := by
        simp [eat]
      rw [hprint, readPath, heat]
      simp [hread, bind, Except.bind, pure, Except.pure]
    · rcases hr with rfl | ⟨c, u, rfl, hc⟩
      · rfl
      · rcases hc with rfl | rfl | rfl <;> rfl

theorem parsePath_operator (p : ViewPath) (hr : Stops r) :
    parsePath .operator (printPath p ++ r) = .ok (p, false, r) :=
  parsePath_printPath .operator p (fun _ => rfl) hr

/-! ### Exclusions -/

def Selector.isTree : Selector → Bool
  | .entry _ => false
  | .tree _ => true

theorem printSelector_isTree (sel : Selector) :
    printSelector sel = [':', ':'] ++ (printPath sel.path ++ slashIf sel.isTree) := by
  cases sel <;> simp [printSelector, Selector.path, Selector.isTree, slashIf]

theorem stops_printSelectors (sel : Selector) (sels : List Selector) (r : Text) :
    Stops (List.intercalate [','] ((sel :: sels).map printSelector) ++ r) := by
  have hcolon : ∀ rest : Text, Stops (printSelector sel ++ rest) := by
    intro rest
    rw [printSelector_isTree]
    exact stops_cons _ (.inl rfl)
  cases sels with
  | nil => simpa using hcolon r
  | cons sel' sels =>
    rw [map_cons, map_cons, intercalate_cons_cons, append_assoc, append_assoc]
    exact hcolon _

theorem length_le_intercalate (pr : Selector → Text) (hpr : ∀ sel, 1 ≤ (pr sel).length) : ∀ sels : List Selector,
    sels.length ≤ (List.intercalate [','] (sels.map pr)).length
  | [] => by simp
  | [sel] => by simpa using hpr sel
  | sel :: sel' :: sels => by
    have hrest := length_le_intercalate pr hpr (sel' :: sels)
    simp only [map_cons, length_cons, intercalate_cons_cons, length_append] at hrest ⊢
    omega

theorem parseSelectors_print : ∀ (sel : Selector) (sels : List Selector) (fuel : ℕ) (r : Text), sels.length < fuel →
    parseSelectors fuel (List.intercalate [','] ((sel :: sels).map printSelector) ++ ']' :: r) =
      .ok (sel :: sels, r)
  | sel, sels, 0, r, h => absurd h (Nat.not_lt_zero _)
  | sel, sels, fuel + 1, r, h => by
    have hstops : Stops (listTail printSelector sels r) := (ends_listTail printSelector sels r).stops
    have hpath : parsePath .selector
        (printPath sel.path ++ (slashIf sel.isTree ++ listTail printSelector sels r)) =
          .ok (sel.path, sel.isTree, listTail printSelector sels r) :=
      parsePath_printPath .selector sel.path (fun hkind => by cases hkind) hstops
    have hsel : (if sel.isTree = true then Selector.tree sel.path else .entry sel.path) = sel := by
      cases sel <;> rfl
    have htext : List.intercalate [','] ((sel :: sels).map printSelector) ++ ']' :: r =
        [':', ':'] ++ (printPath sel.path ++ (slashIf sel.isTree ++ listTail printSelector sels r)) := by
      rw [intercalate_eq_listTail, printSelector_isTree, append_assoc, append_assoc]
    rw [htext, parseSelectors, eat_append]
    simp only [hpath, bind, Except.bind, hsel, skipSpace_of_stops hstops]
    cases sels with
    | nil => simp [listTail, eat, pure, Except.pure]
    | cons sel' sels =>
      have hnext := parseSelectors_print sel' sels fuel r (by simpa using h)
      have hcomma : eat [','] (listTail printSelector (sel' :: sels) r) =
          some (List.intercalate [','] ((sel' :: sels).map printSelector) ++ ']' :: r) := by
        simp [listTail, eat]
      rw [hcomma]
      simp only [skipSpace_of_stops (stops_printSelectors sel' sels _), hnext, pure, Except.pure]

theorem parseExclude_print {sels : List Selector} (hsels : sels ≠ []) (r : Text) :
    parseExclude (List.intercalate [','] (sels.map printSelector) ++ ']' :: r) = .ok (.exclude sels, r) := by
  obtain ⟨sel, sels, rfl⟩ := exists_cons_of_ne_nil hsels
  have hlen := length_le_intercalate printSelector (fun sel => by rw [printSelector_isTree]; simp) (sel :: sels)
  have hfuel : sels.length < (List.intercalate [','] ((sel :: sels).map printSelector) ++ ']' :: r).length + 1 := by
    rw [length_append]
    simp only [length_cons] at hlen ⊢
    omega
  rw [parseExclude, skipSpace_of_stops (stops_printSelectors sel sels _), parseSelectors_print sel sels _ r hfuel]
  rfl

/-! ### Composes and chains -/

/-- The operators of a filter that is read as a chain. -/
def opsOf : Filter → List Filter
  | .chain ops => ops
  | f => [f]

/-- The parser reads back the text of an operator. -/
def ReadsOp (maxNesting : ℕ) (op : Filter) : Prop :=
  ∀ fuel nesting r, 2 * (print op).length + 2 ≤ fuel → nesting + depth op ≤ maxNesting → Stops r →
    parseOp maxNesting fuel nesting (print op ++ r) = .ok (op, r)

/-- The text of an operator starts with a colon. -/
def Opens (op : Filter) : Prop := ∃ t, print op = ':' :: t

/-- A chain of operators that are read back is read back. -/
theorem parseOps_print : ∀ {op : Filter} {ops : List Filter},
    (∀ o ∈ op :: ops, ReadsOp maxNesting o ∧ Opens o) → ∀ (fuel nesting : ℕ) (r : Text),
    2 * (((op :: ops).map print).flatten).length + 3 ≤ fuel → nesting + depthAll (op :: ops) ≤ maxNesting → Closes r →
    parseOps maxNesting fuel nesting (((op :: ops).map print).flatten ++ r) = .ok (op :: ops, r)
  | op, ops, h, 0, _, _, hfuel, _, _ => by omega
  | op, ops, h, fuel + 1, nesting, r, hfuel, hdepth, hr => by
    obtain ⟨hread, t, hprint⟩ := h op (by simp)
    have hstops : Stops ((ops.map print).flatten ++ r) := by
      cases ops with
      | nil => simpa using hr.stops
      | cons op' ops =>
        obtain ⟨-, t', hprint'⟩ := h op' (by simp)
        rw [map_cons, flatten_cons, hprint']
        exact stops_cons _ (.inl rfl)
    rw [depthAll] at hdepth
    simp only [map_cons, flatten_cons, length_append] at hfuel
    have hop := hread fuel nesting ((ops.map print).flatten ++ r) (by omega) (by omega) hstops
    have hhead : ¬(print op ++ ((ops.map print).flatten ++ r)).head? ≠ some ':' := by simp [hprint]
    rw [map_cons, flatten_cons, append_assoc, parseOps, if_neg hhead]
    simp only [hop, bind, Except.bind, skipSpace_of_stops hstops]
    cases ops with
    | nil =>
      rcases hr with rfl | ⟨c, u, rfl, rfl | rfl⟩ <;> rfl
    | cons op' ops =>
      obtain ⟨-, t', hprint'⟩ := h op' (by simp)
      have hnext := parseOps_print (fun o ho => h o (mem_cons_of_mem _ ho)) fuel nesting r
        (by simp only [hprint, length_cons] at hfuel; omega) (by omega) hr
      have hhead' : (((op' :: ops).map print).flatten ++ r).head? = some ':' := by simp [hprint']
      rw [hhead']
      simp only [hnext, pure, Except.pure, ne_eq, not_true_eq_false, if_false]

theorem chainOf_opsOf (hf : Canonical f) : chainOf (opsOf f) = f := by
  cases hf with
  | chain ops hlen hops hisOp hchain =>
    obtain ⟨a, b, rest, rfl⟩ : ∃ a b rest, ops = a :: b :: rest := by
      rcases ops with _ | ⟨a, _ | ⟨b, rest⟩⟩
      · simp at hlen
      · simp at hlen
      · exact ⟨a, b, rest, rfl⟩
    rfl
  | _ => rfl

theorem print_eq_flatten_opsOf (f : Filter) : print f = ((opsOf f).map print).flatten := by
  cases f with
  | chain ops => simp [print, opsOf]
  | _ => simp [opsOf]

theorem depthAll_opsOf (f : Filter) : depthAll (opsOf f) = depth f := by
  cases f with
  | chain ops => simp [opsOf, depth]
  | _ => simp [opsOf, depthAll]

/-- What the induction over canonical filters carries: the operators of the
filter are read back. -/
def ReadsBack (maxNesting : ℕ) (f : Filter) : Prop :=
  opsOf f ≠ [] ∧ ∀ op ∈ opsOf f, ReadsOp maxNesting op ∧ Opens op

theorem ReadsBack.parseOps (h : ReadsBack maxNesting f) {fuel nesting : ℕ} (hfuel : 2 * (print f).length + 3 ≤ fuel)
    (hdepth : nesting + depth f ≤ maxNesting) (hr : Closes r) :
    parseOps maxNesting fuel nesting (print f ++ r) = .ok (opsOf f, r) := by
  obtain ⟨op, ops, hops⟩ := exists_cons_of_ne_nil h.1
  have hread := h.2
  rw [hops] at hread
  rw [print_eq_flatten_opsOf, hops] at hfuel ⊢
  rw [← depthAll_opsOf, hops] at hdepth
  exact parseOps_print hread fuel nesting r hfuel hdepth hr

theorem ReadsBack.stops (h : ReadsBack maxNesting f) (r : Text) : Stops (print f ++ r) := by
  obtain ⟨op, ops, hops⟩ := exists_cons_of_ne_nil h.1
  obtain ⟨-, t, hprint⟩ := h.2 op (by simp [hops])
  rw [print_eq_flatten_opsOf, hops, map_cons, flatten_cons, hprint]
  exact stops_cons _ (.inl rfl)

theorem parseMembers_print : ∀ {m : Filter} {ms : List Filter},
    (∀ x ∈ m :: ms, Canonical x ∧ ReadsBack maxNesting x) → ∀ (fuel nesting : ℕ) (r : Text),
    2 * (List.intercalate [','] ((m :: ms).map print)).length + 4 ≤ fuel →
    nesting + depthAll (m :: ms) ≤ maxNesting →
    parseMembers maxNesting fuel nesting (List.intercalate [','] ((m :: ms).map print) ++ ']' :: r) = .ok (m :: ms, r)
  | m, ms, h, 0, _, _, hfuel, _ => by omega
  | m, ms, h, fuel + 1, nesting, r, hfuel, hdepth => by
    obtain ⟨hcanonical, hread⟩ := h m (by simp)
    have hends := ends_listTail print ms r
    rw [depthAll] at hdepth
    have hlen : (print m).length ≤ (List.intercalate [','] ((m :: ms).map print)).length := by
      cases ms with
      | nil => simp
      | cons m' ms => simp [intercalate_cons_cons]
    have hops : parseOps maxNesting fuel nesting (print m ++ listTail print ms r) =
        .ok (opsOf m, listTail print ms r) := hread.parseOps (by omega) (by omega) (.inr hends)
    rw [intercalate_eq_listTail, parseMembers]
    simp only [hops, bind, Except.bind, skipSpace_of_stops hends.stops, chainOf_opsOf hcanonical]
    cases ms with
    | nil => simp [listTail, eat, pure, Except.pure]
    | cons m' ms =>
      have hread' := (h m' (by simp)).2
      have hfuel' : 2 * (List.intercalate [','] ((m' :: ms).map print)).length + 4 ≤ fuel := by
        rw [map_cons, map_cons, intercalate_cons_cons] at hfuel
        simp only [length_append, length_cons, length_nil] at hfuel
        rw [map_cons]
        omega
      have hnext := parseMembers_print (fun x hx => h x (mem_cons_of_mem _ hx)) fuel nesting r hfuel' (by omega)
      have hcomma : eat [','] (listTail print (m' :: ms) r) =
          some (List.intercalate [','] ((m' :: ms).map print) ++ ']' :: r) := by
        simp [listTail, eat]
      have hstops : Stops (List.intercalate [','] ((m' :: ms).map print) ++ ']' :: r) := by
        rw [intercalate_eq_listTail]
        exact hread'.stops _
      rw [hcomma]
      simp only [skipSpace_of_stops hstops, hnext, pure, Except.pure]

/-- An operator that is no chain is its own only operator. -/
theorem ReadsBack.single (hops : opsOf f = [f]) (hopens : Opens f)
    (h : ∀ fuel nesting r, 2 * (print f).length + 1 ≤ fuel → nesting + depth f ≤ maxNesting → Stops r →
      parseOp maxNesting (fuel + 1) nesting (print f ++ r) = .ok (f, r)) : ReadsBack maxNesting f := by
  refine ⟨by simp [hops], fun op hop => ?_⟩
  rw [hops, mem_singleton] at hop
  subst hop
  refine ⟨fun fuel nesting r hfuel hdepth hr => ?_, hopens⟩
  obtain ⟨n, rfl⟩ : ∃ n, fuel = n + 1 := ⟨fuel - 1, by omega⟩
  exact h n nesting r (by omega) hdepth hr

/-- **The parser reads back a canonical filter.** -/
theorem readsBack_of_canonical (maxNesting : ℕ) (hf : Canonical f) : ReadsBack maxNesting f := by
  induction hf with
  | subdir p =>
    refine .single rfl ⟨_, rfl⟩ fun fuel nesting r _ _ hr => ?_
    simp [print, parseOp, eat, parsePath_operator p hr, Except.map]
  | prefixed p =>
    refine .single rfl ⟨_, rfl⟩ fun fuel nesting r _ _ hr => ?_
    simp [print, parseOp, eat, parsePath_operator p hr, Except.map]
  | exclude sels hsels _ _ =>
    refine .single rfl ⟨_, rfl⟩ fun fuel nesting r _ _ hr => ?_
    have hexclude := parseExclude_print hsels r
    simp [print, parseOp, eat, hexclude]
  | compose ms hlen hms _ _ ih =>
    refine .single rfl ⟨_, rfl⟩ fun fuel nesting r hfuel hdepth hr => ?_
    have hne : ms ≠ [] := by rintro rfl; simp at hlen
    obtain ⟨m, ms, rfl⟩ := exists_cons_of_ne_nil hne
    have hread : ∀ x ∈ m :: ms, Canonical x ∧ ReadsBack maxNesting x := fun x hx => ⟨hms x hx, ih x hx⟩
    simp only [print, printAll_eq_map, length_append, length_cons, length_nil] at hfuel
    rw [depth] at hdepth
    have hmembers := parseMembers_print hread fuel (nesting + 1) r (by omega) (by omega)
    have hstops : Stops (List.intercalate [','] ((m :: ms).map print) ++ ']' :: r) := by
      rw [intercalate_eq_listTail]
      exact (ih m (by simp)).stops _
    have hnesting : ¬nesting + 1 > maxNesting := by omega
    have htext : print (.compose (m :: ms)) ++ r =
        [':', '['] ++ (List.intercalate [','] ((m :: ms).map print) ++ ']' :: r) := by
      simp [print]
    have hnone : ∀ {c : Char} {word rest : Text}, c ≠ '[' → eat (':' :: c :: word) ([':', '['] ++ rest) = none := by
      intro c word rest hc
      simp [eat, hc]
    rw [htext, parseOp, hnone (by decide), hnone (by decide)]
    simp only [eat_append]
    rw [if_neg hnesting, skipSpace_of_stops hstops, hmembers]
    rfl
  | chain ops hlen hops hisOp _ ih =>
    refine ⟨by rintro h; simp [opsOf] at h; simp [h] at hlen, fun op hop => ?_⟩
    have hop : op ∈ ops := hop
    have hself : opsOf op = [op] := by
      have h := hisOp op hop
      cases op <;> first | rfl | cases h
    exact (ih op hop).2 op (by simp [hself])
  | nop =>
    refine .single rfl ⟨_, rfl⟩ fun fuel nesting r _ _ hr => ?_
    simp [print, parseOp, eat]
  | empty =>
    refine .single rfl ⟨_, rfl⟩ fun fuel nesting r _ _ hr => ?_
    simp [print, parseOp, eat]

/-- **The parser reads back what the printer wrote.** -/
theorem parse_print (hf : Canonical f) (hdepth : depth f ≤ maxNesting) :
    parseWithMax (print f) maxNesting = .ok f := by
  have hread := readsBack_of_canonical maxNesting hf
  have hstops : Stops (print f) := by
    have h := hread.stops []
    rwa [append_nil] at h
  have hops : parseOps maxNesting (2 * (print f).length + 3) 0 (print f ++ []) = .ok (opsOf f, []) :=
    hread.parseOps le_rfl (by omega) (.inl rfl)
  rw [append_nil] at hops
  simp only [parseWithMax, skipSpace_of_stops hstops, hops, bind, Except.bind]
  rw [if_neg (by simp [skipSpace]), chainOf_opsOf hf]
  rfl

/-! ### Canonicalizing does not nest deeper -/

theorem depth_canonicalizeCompose_le {n : ℕ} {children : List Filter} (h : ∀ c ∈ children, depth c ≤ n) :
    depth (canonicalizeCompose children) ≤ n + 1 := by
  have hnested : ∀ ms, depth (.compose ms) ≤ n → ∀ m ∈ ms, depth m ≤ n := by
    intro ms hms
    rw [depth] at hms
    exact depthAll_le_iff.mp (Nat.le_of_succ_le hms)
  have hmembers : ∀ m ∈ KeySort.sortBy print (composeMembers children), depth m ≤ n :=
    fun m hm => composeMembers_forall h hnested m ((KeySort.mem_sortBy print).mp hm)
  unfold canonicalizeCompose
  split
  · simp [depth]
  · rename_i m hsort
    exact (hmembers m (by simp [hsort])).trans (Nat.le_succ n)
  · rename_i ms _ _
    rw [depth]
    exact Nat.succ_le_succ (depthAll_le_iff.mpr hmembers)

theorem depth_canonicalizeChain_le {n : ℕ} {children : List Filter} (h : ∀ c ∈ children, depth c ≤ n) :
    depth (canonicalizeChain children) ≤ n := by
  have hpush : ∀ (ops : List Filter) (c : Filter) (ops' : List Filter), (∀ op ∈ ops, depth op ≤ n) → depth c ≤ n →
      pushOp ops c = some ops' → ∀ op ∈ ops', depth op ≤ n := by
    intro ops c ops' hops hc
    exact pushOp_forall (by simp [depth]) (by simp [depth]) ops c hops hc ops'
  have hnested : ∀ nested, .chain nested ∈ children → ∀ c ∈ nested, depth c ≤ n := by
    intro nested hmem
    have hchain := h _ hmem
    rw [depth] at hchain
    exact depthAll_le_iff.mp hchain
  have hops : ∀ ops, chainLoop [] children = some ops → ∀ op ∈ ops, depth op ≤ n := fun ops =>
    chainLoop_induction hpush [] children ops (by simp) (fun c hc _ => h c hc) hnested
  unfold canonicalizeChain
  split
  · simp [depth]
  · simp [depth]
  · rename_i op hloop
    exact hops _ hloop op (by simp)
  · rename_i ops _ _ hloop
    rw [depth]
    exact depthAll_le_iff.mpr fun op hop => hops _ hloop op (mem_reverse.mp hop)

/-- **Canonicalizing does not nest composes deeper.** -/
theorem depth_canonicalize_le (f : Filter) : depth (canonicalize f) ≤ depth f := by
  induction f using Filter.induction with
  | subdir | prefixed | nop | empty => simp [canonicalize]
  | exclude sels =>
    rw [canonicalize, canonicalizeExclude]
    split <;> simp [depth]
  | compose ms ih =>
    rw [canonicalize_compose, depth]
    refine depth_canonicalizeCompose_le fun c hc => ?_
    obtain ⟨m, hm, rfl⟩ := mem_map.mp hc
    exact (ih m hm).trans (depthAll_le_iff.mp le_rfl m hm)
  | chain ops ih =>
    rw [canonicalize_chain, depth]
    refine depth_canonicalizeChain_le fun c hc => ?_
    obtain ⟨op, hop, rfl⟩ := mem_map.mp hc
    exact (ih op hop).trans (depthAll_le_iff.mp le_rfl op hop)

/-! ### Definitions -/

/-- **A registered definition always loads again**, as the same filter with the
same text and the same id. -/
theorem recheck_of_registered {filterId : Text → Text} {spec : Text} {c : CanonicalFilter}
    (h : parseForRegistration filterId spec = .ok c) :
    recheckDefinition filterId c.canonicalText c.filterId = .ok c := by
  unfold parseForRegistration at h
  split at h
  · cases h
  have hanswer := parseWithMax_answers spec registerMaxNesting
  cases hparse : parseWithMax spec registerMaxNesting with
  | error e =>
    rw [hparse] at h
    cases h
  | ok filter =>
    rw [hparse] at h hanswer
    cases h
    have hdepth : depth (canonicalize filter) ≤ parseMaxNesting :=
      (depth_canonicalize_le filter).trans (hanswer.trans (by decide))
    have hcanonical := canonical_canonicalize filter
    simp [recheckDefinition, parse_print hcanonical hdepth, canonicalize_of_canonical hcanonical]

/-- A spec with blanks, a quoted path, a nested compose and fusable paths. -/
def sampleSpec : Text := ":[:/a:/\"b c\" , :[:/d:prefix=e/f:exclude[ ::x/ , ::x/ ],:empty]]".toList

theorem recheck_of_registered_sampleSpec :
    ∃ c, parseForRegistration id sampleSpec = .ok c ∧
      c.canonicalText = ":[:/\"a/b c\",:/d:prefix=e/f:exclude[::x/]]".toList ∧
      recheckDefinition id c.canonicalText c.filterId = .ok c := by
  have htext : (parseForRegistration id sampleSpec).map (·.canonicalText) =
      .ok ":[:/\"a/b c\",:/d:prefix=e/f:exclude[::x/]]".toList := by decide +kernel
  cases hparse : parseForRegistration id sampleSpec with
  | error e =>
    rw [hparse] at htext
    cases htext
  | ok c =>
    rw [hparse] at htext
    exact ⟨c, rfl, Except.ok.inj htext, recheck_of_registered hparse⟩

end View
end Mega
