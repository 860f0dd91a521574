/-
# The text of a filter determines what it does

Filter results are memoized under the printed text of the filter. The text
forgets how chains are nested, and the empty compose prints like the compose of
the empty chain. Apart from that it is unambiguous: two filters without empty
composes that print alike are the same up to the nesting of chains
(`flat_eq_of_print_eq`).

`Flat` is a filter with all chains dissolved. Its printer is shown injective by
reading a text from the left: what follows an operator starts with `:`, `,` or
`]`, and none of these can continue a path.

Key definitions: `noEmptyCompose`, `Flat`, `flat`.
Key theorems: `printPath_inj`, `Flat.print_inj`, `flat_eq_of_print_eq`.
-/
import Mega.View.Semantics

namespace Mega
namespace View

open List

variable {r s : Text} {p q : ViewPath}

/-! ### Filters without empty composes -/

mutual

/-- No compose of the filter has an empty list of members. -/
def noEmptyCompose : Filter → Bool
  | .compose members => !members.isEmpty && noEmptyComposeAll members
  | .chain ops => noEmptyComposeAll ops
  | _ => true

def noEmptyComposeAll : List Filter → Bool
  | [] => true
  | f :: fs => noEmptyCompose f && noEmptyComposeAll fs

end

theorem noEmptyComposeAll_iff : ∀ {fs : List Filter},
    noEmptyComposeAll fs = true ↔ ∀ f ∈ fs, noEmptyCompose f = true
  | [] => by simp [noEmptyComposeAll]
  | f :: fs => by
    have ih := @noEmptyComposeAll_iff fs
    simp [noEmptyComposeAll, ih]

theorem noEmptyCompose_compose {ms : List Filter} :
    noEmptyCompose (.compose ms) = true ↔ ms ≠ [] ∧ ∀ m ∈ ms, noEmptyCompose m = true := by
  simp [noEmptyCompose, noEmptyComposeAll_iff]

theorem noEmptyCompose_chain {ops : List Filter} :
    noEmptyCompose (.chain ops) = true ↔ ∀ op ∈ ops, noEmptyCompose op = true := by
  simp [noEmptyCompose, noEmptyComposeAll_iff]

theorem noEmptyCompose_of_canonical {f : Filter} (h : Canonical f) : noEmptyCompose f = true := by
  induction h with
  | subdir | prefixed | exclude | nop | empty => rfl
  | compose ms hlen _ _ _ ih =>
    exact noEmptyCompose_compose.mpr ⟨by rintro rfl; simp at hlen, ih⟩
  | chain ops _ _ _ _ ih => exact noEmptyCompose_chain.mpr ih

/-! ### Paths -/

/-- What may follow a path or an operator in a text. -/
def Stops (r : Text) : Prop :=
  r = [] ∨ ∃ c u, r = c :: u ∧ (c = ':' ∨ c = ',' ∨ c = ']')

theorem stops_nil : Stops [] := Or.inl rfl

theorem stops_cons {c : Char} (u : Text) (h : c = ':' ∨ c = ',' ∨ c = ']') : Stops (c :: u) :=
  .inr ⟨c, u, rfl, h⟩

/-- The characters of an unquoted path. -/
def isPathChar (ch : Char) : Bool := ch == '/' || isSafe ch

theorem Stops.takeWhile {t : Text} (ht : ∀ c ∈ t, isPathChar c = true) (hr : Stops r) :
    (t ++ r).takeWhile isPathChar = t ∧ (t ++ r).dropWhile isPathChar = r := by
  have hrt : r.takeWhile isPathChar = [] ∧ r.dropWhile isPathChar = r := by
    rcases hr with rfl | ⟨c, u, rfl, hc⟩
    · exact ⟨rfl, rfl⟩
    · have : isPathChar c = false := by rcases hc with rfl | rfl | rfl <;> decide
      simp [this]
  rw [takeWhile_append_of_pos ht, dropWhile_append_of_pos ht, hrt.1, hrt.2]
  simp

/-- A quoted text ends at its first unescaped quote. -/
theorem escapeQuotes_inj : ∀ {t t' u v : Text}, '\\' ∉ t → '\\' ∉ t' →
    escapeQuotes t ++ '"' :: u = escapeQuotes t' ++ '"' :: v → t = t' ∧ u = v
  | [], [], u, v, _, _, h => ⟨rfl, List.cons.inj h |>.2⟩
  | [], c :: t', u, v, _, _, h => by
    by_cases hc : c = '"' <;> simp [escapeQuotes, hc] at h
    exact absurd h.1.symm hc
  | c :: t, [], u, v, _, _, h => by
    by_cases hc : c = '"' <;> simp [escapeQuotes, hc] at h
  | c :: t, c' :: t', u, v, ht, ht', h => by
    have htail : ∀ {x : Char}, escapeQuotes t ++ '"' :: u = escapeQuotes t' ++ '"' :: v →
        x :: t = x :: t' ∧ u = v := fun h =>
      (escapeQuotes_inj (fun hm => ht (by simp [hm])) (fun hm => ht' (by simp [hm])) h).imp
        (fun h => by rw [h]) id
    by_cases hc : c = '"' <;> by_cases hc' : c' = '"'
    · subst hc hc'
      exact htail (by simpa [escapeQuotes] using h)
    · -- the escaping backslash against a plain character
      simp only [escapeQuotes, flatMap_cons, hc, hc', if_true, if_false, cons_append,
        List.cons.injEq] at h
      exact absurd (h.1 ▸ by simp) ht'
    · simp only [escapeQuotes, flatMap_cons, hc, hc', if_true, if_false, cons_append,
        List.cons.injEq] at h
      exact absurd (h.1 ▸ by simp) ht
    · simp only [escapeQuotes, flatMap_cons, hc, hc', if_false, cons_append, nil_append,
        List.cons.injEq] at h
      obtain ⟨rfl, h⟩ := h
      exact htail h

theorem backslash_notMem_of_valid (h : validPathSegment s = true) : '\\' ∉ s := by
  simp only [validPathSegment, Bool.and_eq_true, Bool.not_eq_true'] at h
  simpa using h.1.1.1.2

/-- The text of a path, before quoting. -/
def pathText (p : ViewPath) : Text := List.intercalate ['/'] p.segments

theorem mem_intercalate {sep : Text} {c : Char} : ∀ {l : List Text},
    c ∈ List.intercalate sep l → c ∈ sep ∨ ∃ s ∈ l, c ∈ s
  | [], h => by simp at h
  | [s], h => .inr ⟨s, by simp, by simpa using h⟩
  | s :: t :: l, h => by
    rw [intercalate_cons_cons, mem_append, mem_append] at h
    rcases h with (h | h) | h
    · exact .inr ⟨s, by simp, h⟩
    · exact .inl h
    · exact (mem_intercalate h).imp id fun ⟨x, hx, hc⟩ => ⟨x, by simp [hx], hc⟩

theorem backslash_notMem_pathText (p : ViewPath) : '\\' ∉ pathText p := by
  intro h
  rcases mem_intercalate h with h | ⟨s, hs, h⟩
  · simp at h
  · exact backslash_notMem_of_valid (p.valid s hs) h

theorem pathText_inj (h : pathText p = pathText q) : p = q := by
  refine ViewPath.ext ?_
  rw [← splitOn_intercalate '/' (fun t ht => slash_notMem_of_valid (p.valid t ht)) p.nonempty,
    ← splitOn_intercalate '/' (fun t ht => slash_notMem_of_valid (q.valid t ht)) q.nonempty]
  exact congrArg _ h

theorem pathText_ne_nil (p : ViewPath) : pathText p ≠ [] := by
  have hne := p.nonempty
  rw [pathText]
  match hp : p.segments with
  | [] => exact absurd hp hne
  | s :: rest => exact intercalate_ne_nil (ne_nil_of_valid (p.valid s (by simp [hp]))) rest

/-- A path text does not end in a slash. -/
theorem getLast_pathText (p : ViewPath) : ∃ t c, pathText p = t ++ [c] ∧ c ≠ '/' := by
  have key : ∀ l : Path, l ≠ [] → (∀ s ∈ l, validPathSegment s = true) →
      ∃ t c, List.intercalate ['/'] l = t ++ [c] ∧ c ≠ '/' := by
    intro l
    induction l with
    | nil => exact fun h => absurd rfl h
    | cons s l ih =>
      intro _ hv
      cases l with
      | nil =>
        have hs := hv s (by simp)
        refine ⟨s.dropLast, s.getLast (ne_nil_of_valid hs), ?_, fun hc => ?_⟩
        · rw [intercalate_singleton, dropLast_append_getLast]
        · exact slash_notMem_of_valid hs (hc ▸ getLast_mem _)
      | cons s' l =>
        obtain ⟨t, c, ht, hc⟩ := ih (by simp) fun x hx => hv x (by simp [hx])
        exact ⟨s ++ ['/'] ++ t, c, by rw [intercalate_cons_cons, ht, append_assoc _ t], hc⟩
  exact key p.segments p.nonempty p.valid

/-- The slash that marks a tree selector. -/
def slashIf (b : Bool) : Text := if b then ['/'] else []

theorem printPath_eq (p : ViewPath) :
    ((∀ c ∈ pathText p, isPathChar c = true) ∧ printPath p = pathText p) ∨
    printPath p = '"' :: (escapeQuotes (pathText p) ++ ['"']) := by
  unfold printPath
  simp only
  split
  · rename_i h
    exact .inl ⟨all_eq_true.mp h, rfl⟩
  · exact .inr rfl

theorem append_slashIf_inj {b b' : Bool} (h : pathText p ++ slashIf b = pathText q ++ slashIf b') :
    p = q ∧ b = b' := by
  obtain ⟨t, c, hp, hc⟩ := getLast_pathText p
  obtain ⟨t', c', hq, hc'⟩ := getLast_pathText q
  cases b <;> cases b'
  · exact ⟨pathText_inj (by simpa [slashIf] using h), rfl⟩
  · have : t = pathText q ∧ c = '/' := by simpa [slashIf, hp] using h
    exact absurd this.2 hc
  · have : pathText p = t' ∧ '/' = c' := by simpa [slashIf, hq] using h
    exact absurd this.2.symm hc'
  · exact ⟨pathText_inj (by simpa [slashIf] using h), rfl⟩

theorem slashIf_append_inj {b b' : Bool} (hr : Stops r) (hs : Stops s) (h : slashIf b ++ r = slashIf b' ++ s) :
    b = b' ∧ r = s := by
  have hno : ∀ {u v : Text}, Stops u → u = '/' :: v → False := by
    rintro u v (rfl | ⟨c, w, rfl, hc⟩) h
    · cases h
    · obtain ⟨rfl, -⟩ := List.cons.inj h
      rcases hc with hc | hc | hc <;> exact absurd hc (by decide)
  cases b <;> cases b'
  · exact ⟨rfl, h⟩
  · exact (hno hr h).elim
  · exact (hno hs h.symm).elim
  · exact ⟨rfl, List.cons.inj h |>.2⟩

/-- The quote opens no unquoted path. -/
theorem quote_ne_pathText (hp : ∀ c ∈ pathText p, isPathChar c = true) (u v : Text) : pathText p ++ u ≠ '"' :: v := by
  intro h
  match ht : pathText p with
  | [] => exact pathText_ne_nil p ht
  | c :: t =>
    rw [ht, cons_append] at h
    obtain ⟨rfl, -⟩ := List.cons.inj h
    exact absurd (hp '"' (by simp [ht])) (by decide)

/-- **The text of a path ends where the path ends**, with or without the slash
of a tree selector. -/
theorem printPath_inj {b b' : Bool} (hr : Stops r) (hs : Stops s)
    (h : printPath p ++ (slashIf b ++ r) = printPath q ++ (slashIf b' ++ s)) : p = q ∧ b = b' ∧ r = s := by
  have hslash : ∀ b : Bool, ∀ c ∈ slashIf b, isPathChar c = true := by
    intro b c hc
    cases b with
    | false => cases hc
    | true =>
      rw [mem_singleton.mp hc]
      rfl
  rcases printPath_eq p with ⟨hp, hpt⟩ | hpt <;> rcases printPath_eq q with ⟨hq, hqt⟩ | hqt <;>
    rw [hpt, hqt] at h
  · -- both unquoted: the paths are the longest runs of path characters
    rw [← append_assoc, ← append_assoc] at h
    have hp' := hr.takeWhile (t := pathText p ++ slashIf b)
      fun c hc => (mem_append.mp hc).elim (hp c) (hslash b c)
    have hq' := hs.takeWhile (t := pathText q ++ slashIf b')
      fun c hc => (mem_append.mp hc).elim (hq c) (hslash b' c)
    obtain ⟨rfl, rfl⟩ := append_slashIf_inj (hp'.1.symm.trans ((congrArg _ h).trans hq'.1))
    exact ⟨rfl, rfl, hp'.2.symm.trans ((congrArg _ h).trans hq'.2)⟩
  · exact (quote_ne_pathText hp _ _ h).elim
  · exact (quote_ne_pathText hq _ _ h.symm).elim
  · simp only [cons_append, append_assoc, nil_append, List.cons.injEq, true_and] at h
    obtain ⟨ht, h⟩ := escapeQuotes_inj (backslash_notMem_pathText p) (backslash_notMem_pathText q) h
    obtain ⟨rfl, rfl⟩ := slashIf_append_inj hr hs h
    exact ⟨pathText_inj ht, rfl, rfl⟩

theorem printPath_inj_plain (hr : Stops r) (hs : Stops s) (h : printPath p ++ r = printPath q ++ s) : p = q ∧ r = s :=
  (@printPath_inj r s p q false false hr hs h).imp id And.right

/-! ### Comma-separated lists -/

/-- A comma or the closing bracket. -/
def Ends (r : Text) : Prop := ∃ c u, r = c :: u ∧ (c = ',' ∨ c = ']')

theorem Ends.stops : Ends r → Stops r
  | ⟨c, u, h, hc⟩ => .inr ⟨c, u, h, .inr hc⟩

/-- What follows the first item of a bracketed list. -/
def listTail {α : Type*} (pr : α → Text) (l : List α) (r : Text) : Text :=
  match l with
  | [] => ']' :: r
  | b :: l => ',' :: (List.intercalate [','] ((b :: l).map pr) ++ ']' :: r)

theorem intercalate_eq_listTail {α : Type*} (pr : α → Text) (a : α) (l : List α) (r : Text) :
    List.intercalate [','] ((a :: l).map pr) ++ ']' :: r = pr a ++ listTail pr l r := by
  cases l <;> simp [listTail]

theorem ends_listTail {α : Type*} (pr : α → Text) (l : List α) (r : Text) : Ends (listTail pr l r) := by
  cases l with
  | nil => exact ⟨']', r, rfl, .inr rfl⟩
  | cons b l => exact ⟨',', _, rfl, .inl rfl⟩

/-- A bracketed list of items can be read back if each item can. -/
theorem intercalate_inj {α : Type*} {pr : α → Text} {a : α} {l : List α}
    (h : ∀ x ∈ a :: l, ∀ (y : α) (r s : Text), Ends r → Ends s → pr x ++ r = pr y ++ s → x = y ∧ r = s) {b : α}
    {l' : List α} (heq : List.intercalate [','] ((a :: l).map pr) ++ ']' :: r =
      List.intercalate [','] ((b :: l').map pr) ++ ']' :: s) : a = b ∧ l = l' ∧ r = s := by
  induction l generalizing a b l' with
  | nil =>
    rw [intercalate_eq_listTail, intercalate_eq_listTail] at heq
    obtain ⟨hab, ht⟩ := h a (by simp) b _ _ (ends_listTail pr [] r) (ends_listTail pr l' s) heq
    cases l' with
    | nil => exact ⟨hab, rfl, (List.cons.inj ht).2⟩
    | cons c l' => exact absurd ht (by simp [listTail])
  | cons x l ih =>
    rw [intercalate_eq_listTail, intercalate_eq_listTail] at heq
    obtain ⟨hab, ht⟩ := h a (by simp) b _ _ (ends_listTail pr _ r) (ends_listTail pr l' s) heq
    cases l' with
    | nil => exact absurd ht (by simp [listTail])
    | cons c l' =>
      obtain ⟨rfl, rfl, rfl⟩ := ih (fun y hy => h y (mem_cons_of_mem a hy)) (List.cons.inj ht).2
      exact ⟨hab, rfl, rfl⟩

theorem printSelector_eq (s : Selector) :
    printSelector s = ':' :: ':' :: (printPath s.path ++ slashIf (s matches .tree _)) := by
  cases s <;> simp [printSelector, Selector.path, slashIf]

theorem printSelector_inj {x y : Selector} (hr : Stops r) (hs : Stops s)
    (h : printSelector x ++ r = printSelector y ++ s) : x = y ∧ r = s := by
  rw [printSelector_eq, printSelector_eq] at h
  simp only [cons_append, List.cons.injEq, true_and, append_assoc] at h
  obtain ⟨hp, hb, rfl⟩ := printPath_inj hr hs h
  refine ⟨?_, rfl⟩
  cases x <;> cases y <;> simp_all [Selector.path]

/-! ### Filters with chains dissolved -/

/-- An operator, or a compose with at least one member. A member is a sequence
of operators. -/
inductive Flat where
  | subdir (path : ViewPath)
  | prefixed (path : ViewPath)
  | exclude (selectors : List Selector)
  | compose (first : List Flat) (rest : List (List Flat))
  | nop
  | empty

@[elab_as_elim]
theorem Flat.induction {motive : Flat → Prop}
    (subdir : ∀ p, motive (.subdir p)) (prefixed : ∀ p, motive (.prefixed p))
    (exclude : ∀ sels, motive (.exclude sels))
    (compose : ∀ first rest, (∀ l ∈ first :: rest, ∀ a ∈ l, motive a) → motive (.compose first rest))
    (nop : motive .nop) (empty : motive .empty) (a : Flat) : motive a :=
  @Flat.rec motive (fun l => ∀ a ∈ l, motive a) (fun ls => ∀ l ∈ ls, ∀ a ∈ l, motive a)
    subdir prefixed exclude
    (fun first rest hf hr => compose first rest fun l hl =>
      (mem_cons.mp hl).elim (fun h => h ▸ hf) (hr l))
    nop empty
    (fun _ h => absurd h not_mem_nil)
    (fun _ _ ha hl b hb => (mem_cons.mp hb).elim (fun h => h ▸ ha) (hl b))
    (fun _ h => absurd h not_mem_nil)
    (fun _ _ hl hls l' hl' => (mem_cons.mp hl').elim (fun h => h ▸ hl) (hls l')) a

mutual

def Flat.print : Flat → Text
  | .subdir path => [':', '/'] ++ printPath path
  | .prefixed path => [':', 'p', 'r', 'e', 'f', 'i', 'x', '='] ++ printPath path
  | .exclude selectors =>
    [':', 'e', 'x', 'c', 'l', 'u', 'd', 'e', '['] ++
      List.intercalate [','] (selectors.map printSelector) ++ [']']
  | .compose first rest => [':', '['] ++ List.intercalate [','] (printSeq first :: printSeqs rest) ++ [']']
  | .nop => [':', 'n', 'o', 'p']
  | .empty => [':', 'e', 'm', 'p', 't', 'y']

def printSeq : List Flat → Text
  | [] => []
  | a :: l => a.print ++ printSeq l

def printSeqs : List (List Flat) → List Text
  | [] => []
  | l :: ls => printSeq l :: printSeqs ls

end

theorem printSeqs_eq_map : ∀ ls : List (List Flat), printSeqs ls = ls.map printSeq
  | [] => rfl
  | l :: ls => by rw [printSeqs, printSeqs_eq_map ls, map_cons]

theorem printSeq_append : ∀ l l' : List Flat, printSeq (l ++ l') = printSeq l ++ printSeq l'
  | [], _ => rfl
  | a :: l, l' => by rw [cons_append, printSeq, printSeq, printSeq_append l l', append_assoc]

theorem Flat.print_head (a : Flat) : ∃ t, a.print = ':' :: t := by
  cases a <;> exact ⟨_, rfl⟩

theorem stops_printSeq_append (hr : Stops r) : ∀ l : List Flat, Stops (printSeq l ++ r)
  | [] => hr
  | a :: l => by
    obtain ⟨t, ht⟩ := a.print_head
    rw [printSeq, ht]
    exact stops_cons _ (.inl rfl)

/-- `a` can be read off the front of a text. -/
def Readable (a : Flat) : Prop :=
  ∀ b r s, Stops r → Stops s → a.print ++ r = b.print ++ s → a = b ∧ r = s

theorem printSeq_inj : ∀ {l : List Flat}, (∀ a ∈ l, Readable a) → ∀ (l' : List Flat) (r s : Text),
    Ends r → Ends s → printSeq l ++ r = printSeq l' ++ s → l = l' ∧ r = s
  | [], _, [], r, s, _, _, h => ⟨rfl, h⟩
  | [], _, b :: l', r, s, ⟨c, u, hr, hc⟩, _, h => by
    obtain ⟨t, ht⟩ := b.print_head
    rw [printSeq, printSeq, ht, hr] at h
    obtain ⟨rfl, -⟩ := List.cons.inj h
    simp at hc
  | a :: l, _, [], r, s, _, ⟨c, u, hs, hc⟩, h => by
    obtain ⟨t, ht⟩ := a.print_head
    rw [printSeq, printSeq, ht, hs] at h
    obtain ⟨rfl, -⟩ := List.cons.inj h
    simp at hc
  | a :: l, ha, b :: l', r, s, hr, hs, h => by
    rw [printSeq, printSeq, append_assoc, append_assoc] at h
    obtain ⟨hab, htail⟩ := ha a (by simp) b _ _ (stops_printSeq_append hr.stops l)
      (stops_printSeq_append hs.stops l') h
    obtain ⟨hl, hrs⟩ := printSeq_inj (fun x hx => ha x (by simp [hx])) l' r s hr hs htail
    exact ⟨by rw [hab, hl], hrs⟩

/-- **A printed operator can be read back.** -/
theorem Flat.print_inj (a : Flat) : Readable a := by
  induction a using Flat.induction with
  | subdir p =>
    intro b r s hr hs h
    cases b with
    | subdir q =>
      obtain ⟨rfl, rfl⟩ := printPath_inj_plain hr hs (by simpa [Flat.print] using h)
      exact ⟨rfl, rfl⟩
    | prefixed | exclude | compose | nop | empty => simp [Flat.print] at h
  | prefixed p =>
    intro b r s hr hs h
    cases b with
    | prefixed q =>
      obtain ⟨rfl, rfl⟩ := printPath_inj_plain hr hs (by simpa [Flat.print] using h)
      exact ⟨rfl, rfl⟩
    | subdir | exclude | compose | nop | empty => simp [Flat.print] at h
  | exclude sels =>
    intro b r s hr hs h
    cases b with
    | exclude sels' =>
      simp only [Flat.print, append_assoc, append_cancel_left_eq, singleton_append] at h
      cases sels with
      | nil =>
        cases sels' with
        | nil => exact ⟨rfl, (List.cons.inj h).2⟩
        | cons y sels' =>
          rw [intercalate_eq_listTail, printSelector_eq] at h
          exact absurd h (by simp)
      | cons x sels =>
        cases sels' with
        | nil =>
          rw [intercalate_eq_listTail, printSelector_eq] at h
          exact absurd h (by simp)
        | cons y sels' =>
          obtain ⟨rfl, rfl, rfl⟩ := intercalate_inj
            (fun x _ y r s hr hs => printSelector_inj hr.stops hs.stops) h
          exact ⟨rfl, rfl⟩
    | subdir | prefixed | compose | nop | empty => simp [Flat.print] at h
  | compose first rest ih =>
    intro b r s hr hs h
    cases b with
    | compose first' rest' =>
      simp only [Flat.print, append_assoc, append_cancel_left_eq, printSeqs_eq_map,
        ← map_cons, singleton_append] at h
      obtain ⟨rfl, rfl, rfl⟩ := intercalate_inj (fun l hl => printSeq_inj (ih l hl)) h
      exact ⟨rfl, rfl⟩
    | subdir | prefixed | exclude | nop | empty => simp [Flat.print] at h
  | nop =>
    intro b r s hr hs h
    cases b with
    | nop => exact ⟨rfl, by simpa [Flat.print] using h⟩
    | subdir | prefixed | exclude | compose | empty => simp [Flat.print] at h
  | empty =>
    intro b r s hr hs h
    cases b with
    | empty => exact ⟨rfl, by simpa [Flat.print] using h⟩
    | subdir | prefixed | exclude | compose | nop => simp [Flat.print] at h

mutual

/-- The operators of a filter, chains dissolved. -/
def flat : Filter → List Flat
  | .subdir path => [.subdir path]
  | .prefixed path => [.prefixed path]
  | .exclude selectors => [.exclude selectors]
  | .compose members =>
    match flatAll members with
    | [] => [.empty]
    | first :: rest => [.compose first rest]
  | .chain ops => (flatAll ops).flatten
  | .nop => [.nop]
  | .empty => [.empty]

def flatAll : List Filter → List (List Flat)
  | [] => []
  | f :: fs => flat f :: flatAll fs

end

@[simp] theorem flatAll_eq_map : ∀ fs : List Filter, flatAll fs = fs.map flat
  | [] => rfl
  | f :: fs => by rw [flatAll, flatAll_eq_map fs, map_cons]

theorem print_eq_printSeq_flat {f : Filter} (h : noEmptyCompose f = true) : print f = printSeq (flat f) := by
  induction f using Filter.induction with
  | subdir | prefixed | exclude | nop | empty => simp [print, flat, printSeq, Flat.print]
  | compose ms ih =>
    obtain ⟨hne, hms⟩ := noEmptyCompose_compose.mp h
    cases ms with
    | nil => exact absurd rfl hne
    | cons m ms =>
      have hmap : (m :: ms).map print = (m :: ms).map fun m => printSeq (flat m) :=
        map_congr_left fun m hm => ih m hm (hms m hm)
      simp only [print, printAll_eq_map, hmap]
      simp [flat, printSeq, Flat.print, printSeqs_eq_map, Function.comp_def]
  | chain ops ih =>
    have hops := noEmptyCompose_chain.mp h
    simp only [print, printAll_eq_map, flat, flatAll_eq_map]
    clear h
    induction ops with
    | nil => rfl
    | cons op ops ihops =>
      rw [map_cons, flatten_cons, map_cons, flatten_cons, printSeq_append,
        ih op (by simp) (hops op (by simp)),
        ihops (fun o ho => ih o (by simp [ho])) fun o ho => hops o (by simp [ho])]

/-- **Filters that print alike have the same operators.** -/
theorem flat_eq_of_print_eq {f g : Filter} (hf : noEmptyCompose f = true) (hg : noEmptyCompose g = true)
    (h : print f = print g) : flat f = flat g := by
  rw [print_eq_printSeq_flat hf, print_eq_printSeq_flat hg] at h
  exact (printSeq_inj (fun a _ => a.print_inj) (flat g) [']'] [']'] ⟨_, _, rfl, .inr rfl⟩
    ⟨_, _, rfl, .inr rfl⟩ (by rw [h])).1

end View
end Mega
