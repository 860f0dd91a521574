/-
# Text fragments of a transcript

`split_utf8` of `ceres/traces/fragments.rs` cuts a transcript into overlapping
pieces for the keyword index. A piece ends at the last character boundary within
the limit, and the next one starts at the last character boundary that leaves
the overlap.

A text is the list of its characters; byte positions count the UTF-8 bytes of
the characters before. SHA-256 is a parameter.

Key definitions: `isCharBoundary`, `nextStart`, `pieces`, `splitUtf8`.
Key theorems: `pieces_row`, `splitUtf8_covers`.
-/
import Mega.Lib.Utf8
import Mega.Lib.Windows
import Mega.Traces.Objects
import Mega.View.Filter

namespace Mega
namespace Fragments

open List
open View (Text utf8Len)

def maxFragmentBytes : ℕ := 16 * 1024
def minOverlapBytes : ℕ := 256

/-! ### Byte positions -/

/-- `str::is_char_boundary`: a character starts at the position, or the text ends there. -/
def isCharBoundary : Text → ℕ → Bool
  | _, 0 => true
  | [], _ + 1 => false
  | c :: text, index + 1 => c.utf8Size ≤ index + 1 && isCharBoundary text (index + 1 - c.utf8Size)

def dropBytes : ℕ → Text → Text
  | 0, text => text
  | _ + 1, [] => []
  | n + 1, c :: text => dropBytes (n + 1 - c.utf8Size) text

def takeBytes : ℕ → Text → Text
  | 0, _ => []
  | _ + 1, [] => []
  | n + 1, c :: text => c :: takeBytes (n + 1 - c.utf8Size) text

/-- `&text[start..stop]` -/
def slice (text : Text) (start stop : ℕ) : Text := takeBytes (stop - start) (dropBytes start text)

/-! ### The pieces -/

structure TextFragment where
  body : Text
  asciiFold : Text
  contentDigest : Text
deriving DecidableEq

def asciiFold (text : Text) : Text := text.map fun ch => if ch.isUpper then ch.toLower else ch

def fragment (sha256 : List UInt8 → Text) (text : Text) : TextFragment :=
  ⟨text, asciiFold text, sha256 (Utf8.encode text)⟩

section Loop

variable (text : Text)

/-- `while index > low && !text.is_char_boundary(index) { index -= 1 }` -/
def alignDown (low : ℕ) : ℕ → ℕ
  | 0 => 0
  | index + 1 => if low < index + 1 ∧ ¬ isCharBoundary text (index + 1) then alignDown low index else index + 1

/-- `while index < high && !text.is_char_boundary(index) { index += 1 }`, for at most so many rounds. -/
def alignUp (high : ℕ) : ℕ → ℕ → ℕ
  | 0, index => index
  | rounds + 1, index =>
    if index < high ∧ ¬ isCharBoundary text index then alignUp high rounds (index + 1) else index

/-- The loop over `back`, for at most so many rounds. -/
def stepBack (start stop : ℕ) : ℕ → ℕ → ℕ
  | 0, back => back
  | rounds + 1, back =>
    if start < back ∧ stop - back < minOverlapBytes then stepBack start stop rounds (alignDown text start (back - 1))
    else back

/-- Where the piece after `start..stop` starts. -/
def nextStart (start stop : ℕ) : ℕ :=
  let next := alignUp text stop minOverlapBytes (stop - minOverlapBytes)
  if stop - next < minOverlapBytes then
    let back := stepBack text start stop next next
    if start < back ∧ minOverlapBytes ≤ stop - back then back else next
  else next

/-- The loop over the pieces, as the bytes they span. -/
def pieces : ℕ → ℕ → Option (List (ℕ × ℕ))
  | 0, _ => none
  | rounds + 1, start =>
    if utf8Len text ≤ start then some []
    else
      let stop := alignDown text start (min (start + maxFragmentBytes) (utf8Len text))
      if stop = start then none
      else if stop = utf8Len text then some [(start, stop)]
      else
        let next := nextStart text start stop
        if next ≤ start then none
        else (pieces rounds next).map ((start, stop) :: ·)

end Loop

/-- The fragments of a text; the bytes must be UTF-8. -/
def splitUtf8 (sha256 : List UInt8 → Text) (bytes : List UInt8) : Option (List TextFragment) :=
  match Traces.fromUtf8 bytes with
  | none => none
  | some string =>
    let text := string.toList
    if text = [] then some []
    else if utf8Len text ≤ maxFragmentBytes then some [fragment sha256 text]
    else (pieces text (utf8Len text) 0).map fun spans =>
      spans.map fun span => fragment sha256 (slice text span.1 span.2)

/-! ### Boundaries -/

@[simp]
theorem utf8Len_cons (c : Char) (text : Text) : utf8Len (c :: text) = c.utf8Size + utf8Len text := by
  simp [utf8Len]

@[simp]
theorem utf8Len_append (before after : Text) : utf8Len (before ++ after) = utf8Len before + utf8Len after := by
  simp [utf8Len]

theorem eq_nil_of_utf8Len {text : Text} (h : utf8Len text = 0) : text = [] := by
  rcases text with _ | ⟨c, text⟩
  · rfl
  · have hpos : 0 < c.utf8Size := Char.utf8Size_pos c
    rw [utf8Len_cons] at h
    omega

/-- **A boundary is the length of a first part of the text.** -/
theorem isCharBoundary_iff : ∀ {text : Text} {index : ℕ}, isCharBoundary text index = true ↔
    ∃ before after, text = before ++ after ∧ utf8Len before = index
  | text, 0 => by
    simp only [isCharBoundary, true_iff]
    exact ⟨[], text, rfl, rfl⟩
  | [], index + 1 => by
    simp only [isCharBoundary, Bool.false_eq_true, false_iff, not_exists, not_and]
    intro before after htext hlen
    rw [(append_eq_nil_iff.mp htext.symm).1] at hlen
    cases hlen
  | c :: text, index + 1 => by
    simp only [isCharBoundary, Bool.and_eq_true, decide_eq_true_eq]
    constructor
    · intro h
      obtain ⟨before, after, rfl, hlen⟩ := isCharBoundary_iff.mp h.2
      refine ⟨c :: before, after, rfl, ?_⟩
      rw [utf8Len_cons]
      omega
    · intro h
      obtain ⟨before, after, htext, hlen⟩ := h
      rcases before with _ | ⟨d, before⟩
      · cases hlen
      · obtain ⟨rfl, rfl⟩ := cons.inj htext
        rw [utf8Len_cons] at hlen
        exact ⟨by omega, isCharBoundary_iff.mpr ⟨before, after, rfl, by omega⟩⟩

theorem isCharBoundary_utf8Len (text : Text) : isCharBoundary text (utf8Len text) = true :=
  isCharBoundary_iff.mpr ⟨text, [], (append_nil text).symm, rfl⟩

/-- A character has at most four bytes, so a boundary is never more than three bytes away. -/
theorem exists_boundary_below : ∀ (text : Text) (index : ℕ), index ≤ utf8Len text →
    ∃ below, below ≤ index ∧ index ≤ below + 3 ∧ isCharBoundary text below = true
  | [], index, h => by
    have hzero : index = 0 := by simpa [utf8Len] using h
    exact ⟨0, by omega, by omega, by simp [isCharBoundary]⟩
  | c :: text, index, h => by
    rw [utf8Len_cons] at h
    have hsize : c.utf8Size ≤ 4 := Char.utf8Size_le_four c
    have hpos : 0 < c.utf8Size := Char.utf8Size_pos c
    by_cases hlt : index < c.utf8Size
    · exact ⟨0, by omega, by omega, by simp [isCharBoundary]⟩
    · have hrest : index - c.utf8Size ≤ utf8Len text := by omega
      obtain ⟨below, hle, hnear, hboundary⟩ := exists_boundary_below text _ hrest
      obtain ⟨before, after, rfl, hlen⟩ := isCharBoundary_iff.mp hboundary
      refine ⟨below + c.utf8Size, by omega, by omega, isCharBoundary_iff.mpr ⟨c :: before, after, rfl, ?_⟩⟩
      rw [utf8Len_cons]
      omega

/-! ### Slices -/

theorem exists_utf8Len_cons (c : Char) (text : Text) :
    ∃ n, utf8Len (c :: text) = n + 1 ∧ n + 1 - c.utf8Size = utf8Len text := by
  have hpos : 0 < c.utf8Size := Char.utf8Size_pos c
  refine ⟨utf8Len (c :: text) - 1, ?_⟩
  rw [utf8Len_cons]
  omega

theorem dropBytes_append : ∀ (before after : Text), dropBytes (utf8Len before) (before ++ after) = after
  | [], after => by simp [utf8Len, dropBytes]
  | c :: before, after => by
    obtain ⟨n, hn, hrest⟩ := exists_utf8Len_cons c before
    rw [hn, cons_append, dropBytes, hrest, dropBytes_append before after]

theorem takeBytes_append : ∀ (before after : Text), takeBytes (utf8Len before) (before ++ after) = before
  | [], after => by simp [utf8Len, takeBytes]
  | c :: before, after => by
    obtain ⟨n, hn, hrest⟩ := exists_utf8Len_cons c before
    rw [hn, cons_append, takeBytes, hrest, takeBytes_append before after]

/-- Two boundaries cut the text in three, and the slice is the middle. -/
theorem slice_middle {text : Text} {start stop : ℕ} (hstart : isCharBoundary text start = true)
    (hstop : isCharBoundary text stop = true) (hle : start ≤ stop) :
    ∃ before after, text = before ++ (slice text start stop ++ after) ∧ utf8Len before = start ∧
      utf8Len (slice text start stop) = stop - start := by
  obtain ⟨before, rest, rfl, hbefore⟩ := isCharBoundary_iff.mp hstart
  obtain ⟨upTo, after, htext, hupTo⟩ := isCharBoundary_iff.mp hstop
  have hmiddle : ∃ middle, upTo = before ++ middle ∧ rest = middle ++ after := by
    rcases append_eq_append_iff.mp htext with ⟨middle, hup, hrest⟩ | ⟨middle, hbef, hafter⟩
    · exact ⟨middle, hup, hrest⟩
    · have hnil : middle = [] := by
        apply eq_nil_of_utf8Len
        have hlen := congrArg utf8Len hbef
        rw [utf8Len_append] at hlen
        omega
      subst hnil
      exact ⟨[], by simpa using hbef.symm, by simpa using hafter.symm⟩
  obtain ⟨middle, rfl, rfl⟩ := hmiddle
  have hlen : utf8Len middle = stop - start := by
    rw [utf8Len_append] at hupTo
    omega
  have hslice : slice (before ++ (middle ++ after)) start stop = middle := by
    unfold slice
    rw [← hlen, ← hbefore, dropBytes_append, takeBytes_append]
  rw [hslice]
  exact ⟨before, after, rfl, hbefore, hlen⟩

theorem length_encode (text : Text) : (Utf8.encode text).length = utf8Len text := by
  induction text with
  | nil => rfl
  | cons c text ih =>
    rw [utf8Len_cons, ← ih, Utf8.encode, flatMap_cons, length_append, String.length_utf8EncodeChar]
    rfl

/-- The bytes of a slice are the bytes of the text between the two positions. -/
theorem encode_slice {text : Text} {start stop : ℕ} (hstart : isCharBoundary text start = true)
    (hstop : isCharBoundary text stop = true) (hle : start ≤ stop) :
    Utf8.encode (slice text start stop) = ((Utf8.encode text).drop start).take (stop - start) := by
  obtain ⟨before, after, htext, hbefore, hlen⟩ := slice_middle hstart hstop hle
  have hbytes : Utf8.encode text = Utf8.encode before ++ (Utf8.encode (slice text start stop) ++ Utf8.encode after) := by
    conv_lhs => rw [htext]
    rw [Utf8.encode_append, Utf8.encode_append]
  rw [hbytes, drop_left' (by rw [length_encode, hbefore]), take_left' (by rw [length_encode, hlen])]

/-! ### The inner loops -/

section Align

variable {text : Text}

/-- Moving down stops at the last boundary. -/
theorem alignDown_spec {low : ℕ} (hlow : isCharBoundary text low = true) : ∀ (index : ℕ), low ≤ index →
    low ≤ alignDown text low index ∧ alignDown text low index ≤ index ∧
      isCharBoundary text (alignDown text low index) = true ∧
      ∀ j ≤ index, isCharBoundary text j = true → j ≤ alignDown text low index
  | 0, h => by
    unfold alignDown
    exact ⟨h, Nat.le_refl 0, by simp [isCharBoundary], fun j hj _ => hj⟩
  | index + 1, h => by
    unfold alignDown
    by_cases hgo : low < index + 1 ∧ ¬ isCharBoundary text (index + 1) = true
    · rw [if_pos hgo]
      obtain ⟨hge, hle, hboundary, hlast⟩ := alignDown_spec hlow index (Nat.le_of_lt_succ hgo.1)
      refine ⟨hge, by omega, hboundary, fun j hj hjb => hlast j ?_ hjb⟩
      have hne : j ≠ index + 1 := fun heq => hgo.2 (heq ▸ hjb)
      omega
    · rw [if_neg hgo]
      refine ⟨h, Nat.le_refl _, ?_, fun j hj _ => hj⟩
      by_cases heq : low = index + 1
      · rw [← heq]
        exact hlow
      · by_contra hnot
        exact hgo ⟨by omega, hnot⟩

/-- Moving up stops at the first boundary. -/
theorem alignUp_spec {high : ℕ} (hhigh : isCharBoundary text high = true) : ∀ (rounds index : ℕ), index ≤ high →
    high ≤ index + rounds → index ≤ alignUp text high rounds index ∧ alignUp text high rounds index ≤ high ∧
      isCharBoundary text (alignUp text high rounds index) = true
  | 0, index, hle, hrounds => by
    unfold alignUp
    have heq : index = high := by omega
    exact ⟨Nat.le_refl _, hle, heq ▸ hhigh⟩
  | rounds + 1, index, hle, hrounds => by
    unfold alignUp
    by_cases hgo : index < high ∧ ¬ isCharBoundary text index = true
    · rw [if_pos hgo]
      obtain ⟨hge, hstop, hboundary⟩ := alignUp_spec hhigh rounds (index + 1) (by omega) (by omega)
      exact ⟨by omega, hstop, hboundary⟩
    · rw [if_neg hgo]
      refine ⟨Nat.le_refl _, hle, ?_⟩
      by_cases heq : index = high
      · rw [heq]
        exact hhigh
      · by_contra hnot
        exact hgo ⟨by omega, hnot⟩

/-- The loop over `back` never passes a boundary that leaves the overlap, and so it ends with one. -/
theorem stepBack_spec {start stop near : ℕ} (hstart : isCharBoundary text start = true)
    (hnear : isCharBoundary text near = true) (hafter : start < near) (hroom : near + minOverlapBytes ≤ stop) :
    ∀ (rounds back : ℕ), near ≤ back → back ≤ rounds → isCharBoundary text back = true →
      near ≤ stepBack text start stop rounds back ∧ isCharBoundary text (stepBack text start stop rounds back) = true ∧
        minOverlapBytes ≤ stop - stepBack text start stop rounds back
  | 0, back, hle, hrounds, _ => by omega
  | rounds + 1, back, hle, hrounds, hback => by
    unfold stepBack
    by_cases hgo : start < back ∧ stop - back < minOverlapBytes
    · rw [if_pos hgo]
      have hbelow : near ≤ back - 1 := by omega
      obtain ⟨_, hdown, hboundary, hlast⟩ := alignDown_spec hstart (back - 1) (by omega)
      exact stepBack_spec hstart hnear hafter hroom rounds _ (hlast near hbelow hnear) (by omega) hboundary
    · rw [if_neg hgo]
      refine ⟨hle, hback, ?_⟩
      by_contra hshort
      exact hgo ⟨by omega, by omega⟩

/-- **The next piece starts at a boundary, after this one, and leaves the overlap** but at most three bytes more. -/
theorem nextStart_spec {start stop : ℕ} (hstart : isCharBoundary text start = true)
    (hstop : isCharBoundary text stop = true) (hend : stop ≤ utf8Len text) (hroom : start + minOverlapBytes + 3 < stop) :
    isCharBoundary text (nextStart text start stop) = true ∧ start < nextStart text start stop ∧
      nextStart text start stop + minOverlapBytes ≤ stop ∧ stop ≤ nextStart text start stop + minOverlapBytes + 3 := by
  obtain ⟨near, hbelow, hclose, hnear⟩ := exists_boundary_below text (stop - minOverlapBytes) (by omega)
  obtain ⟨hge, hle, hnext⟩ := alignUp_spec hstop minOverlapBytes (stop - minOverlapBytes) (by omega) (by omega)
  unfold nextStart
  set next := alignUp text stop minOverlapBytes (stop - minOverlapBytes) with hdef
  by_cases hshort : stop - next < minOverlapBytes
  · have hback := stepBack_spec hstart hnear (by omega) (by omega : near + minOverlapBytes ≤ stop) next next
      (by omega) (Nat.le_refl _) hnext
    have htake : start < stepBack text start stop next next ∧
        minOverlapBytes ≤ stop - stepBack text start stop next next := ⟨by omega, hback.2.2⟩
    simp only [if_pos hshort, if_pos htake]
    have hpos : 0 < minOverlapBytes := by decide
    exact ⟨hback.2.1, htake.1, by omega, by omega⟩
  · simp only [if_neg hshort]
    exact ⟨hnext, by omega, by omega, by omega⟩

end Align

/-! ### The pieces -/

/-- What the source promises of one piece. -/
structure Piece (text : Text) (span : ℕ × ℕ) : Prop where
  start : isCharBoundary text span.1 = true
  stop : isCharBoundary text span.2 = true
  nonempty : span.1 < span.2
  limit : span.2 - span.1 ≤ maxFragmentBytes
  inside : span.2 ≤ utf8Len text

/-- The pieces from `start` on. The first ends at the last boundary within the limit. -/
def Cuts (text : Text) (start : ℕ) (found : Option (List (ℕ × ℕ))) : Prop :=
  ∃ stop spans, found = some ((start, stop) :: spans) ∧
    Windows.Row minOverlapBytes start (utf8Len text) ((start, stop) :: spans) ∧
    (∀ span ∈ (start, stop) :: spans, Piece text span) ∧
    ∀ j ≤ min (start + maxFragmentBytes) (utf8Len text), isCharBoundary text j = true → j ≤ stop

/-- **The loop returns a row of pieces up to the end of the text.** -/
theorem pieces_row {text : Text} : ∀ (rounds start : ℕ), start < utf8Len text → utf8Len text ≤ start + rounds →
    isCharBoundary text start = true → Cuts text start (pieces text rounds start)
  | 0, start, hlt, hrounds, _ => by omega
  | rounds + 1, start, hlt, hrounds, hstart => by
    have hmax : maxFragmentBytes = 16384 := rfl
    have hmin : minOverlapBytes = 256 := rfl
    obtain ⟨hge, hle, hboundary, hlast⟩ := alignDown_spec hstart (min (start + maxFragmentBytes) (utf8Len text)) (by omega)
    unfold pieces
    rw [if_neg (by omega)]
    set stop := alignDown text start (min (start + maxFragmentBytes) (utf8Len text)) with hdef
    -- a boundary is at most three bytes below the limit, so the piece is long or the last one
    have hlong : stop = utf8Len text ∨ start + maxFragmentBytes ≤ stop + 3 := by
      by_cases hfits : utf8Len text ≤ start + maxFragmentBytes
      · left
        have hall := hlast (utf8Len text) (by omega) (isCharBoundary_utf8Len text)
        omega
      · right
        obtain ⟨below, hbelow, hclose, hb⟩ := exists_boundary_below text (start + maxFragmentBytes) (by omega)
        have hreach := hlast below (by omega) hb
        omega
    have hpiece : Piece text (start, stop) :=
      ⟨hstart, hboundary, by show start < stop; omega, by show stop - start ≤ _; omega, by show stop ≤ _; omega⟩
    simp only [if_neg (Nat.ne_of_gt hpiece.nonempty)]
    by_cases hend : stop = utf8Len text
    · rw [if_pos hend]
      refine ⟨stop, [], rfl, ?_, by simpa using hpiece, hlast⟩
      rw [hend]
      exact .last
    · rw [if_neg hend]
      obtain ⟨hnext, hafter, hoverlap, hclose⟩ := nextStart_spec hstart hboundary hpiece.inside (by omega)
      have hinside : stop ≤ utf8Len text := hpiece.inside
      obtain ⟨stop', spans, hspans, hrow, hpieces, hreach⟩ := pieces_row rounds (nextStart text start stop)
        (by omega) (by omega) hnext
      rw [if_neg (by omega), hspans]
      -- the next piece reaches at least one character further than this one
      have hfurther : stop < stop' := by
        obtain ⟨below, hbelow, hnear, hb⟩ := exists_boundary_below text (min (stop + 4) (utf8Len text)) (by omega)
        by_cases hfits : utf8Len text ≤ stop + 4
        · have hall := hreach (utf8Len text) (by omega) (isCharBoundary_utf8Len text)
          omega
        · have hone := hreach below (by omega) hb
          omega
      refine ⟨stop, (nextStart text start stop, stop') :: spans, rfl, .more rfl ⟨hafter, hfurther, hoverlap⟩ hrow, ?_, hlast⟩
      intro span hspan
      rcases mem_cons.mp hspan with rfl | hspan
      · exact hpiece
      · exact hpieces span hspan

/-- The bytes of a text are read back as the text. -/
theorem fromUtf8_encode (text : Text) : Traces.fromUtf8 (Utf8.encode text) = some (String.ofList text) := by
  have hbytes : (⟨(Utf8.encode text).toArray⟩ : ByteArray) = (String.ofList text).toByteArray := by
    rw [String.toByteArray_ofList]
    apply ByteArray.ext
    rw [List.utf8Encode, List.data_toByteArray]
    rfl
  have hvalid : (⟨(Utf8.encode text).toArray⟩ : ByteArray).IsValidUTF8 := by
    rw [hbytes]
    exact (String.ofList text).isValidUTF8
  unfold Traces.fromUtf8 String.fromUTF8?
  rw [dif_pos hvalid]
  exact congrArg some (String.toByteArray_inj.mp hbytes)

/-- The pieces of a text that is not empty, whether it fits one piece or not. -/
theorem splitUtf8_eq_pieces (sha256 : List UInt8 → Text) {text : Text} (hne : text ≠ []) : ∃ stop spans,
    splitUtf8 sha256 (Utf8.encode text) =
        some (((0, stop) :: spans).map fun span => fragment sha256 (slice text span.1 span.2)) ∧
      Windows.Row minOverlapBytes 0 (utf8Len text) ((0, stop) :: spans) ∧
      ∀ span ∈ (0, stop) :: spans, Piece text span := by
  have hpos : 0 < utf8Len text := Nat.pos_of_ne_zero fun hzero => hne (eq_nil_of_utf8Len hzero)
  have hzero : isCharBoundary text 0 = true := by simp [isCharBoundary]
  unfold splitUtf8
  rw [fromUtf8_encode]
  simp only [String.toList_ofList, if_neg hne]
  by_cases hfits : utf8Len text ≤ maxFragmentBytes
  · rw [if_pos hfits]
    have hwhole : slice text 0 (utf8Len text) = text := by
      have htake := takeBytes_append text []
      rw [append_nil] at htake
      unfold slice
      rw [dropBytes, Nat.sub_zero, htake]
    refine ⟨utf8Len text, [], by rw [map_singleton, hwhole], .last, ?_⟩
    intro span hspan
    rw [mem_singleton.mp hspan]
    exact ⟨hzero, isCharBoundary_utf8Len text, hpos, hfits, Nat.le_refl _⟩
  · rw [if_neg hfits]
    obtain ⟨stop, spans, hspans, hrow, hpieces, _⟩ := pieces_row (utf8Len text) 0 hpos (by omega) hzero
    exact ⟨stop, spans, by rw [hspans]; rfl, hrow, hpieces⟩

/-- **The fragments are slices of the text at character boundaries, and cover every short phrase.** The body of a
fragment has the bytes of its span. -/
theorem splitUtf8_covers (sha256 : List UInt8 → Text) (text : Text) (hne : text ≠ []) :
    ∃ (fragments : List TextFragment) (spans : List (ℕ × ℕ)),
      splitUtf8 sha256 (Utf8.encode text) = some fragments ∧
      fragments.map (fun f => Utf8.encode f.body) =
        spans.map (fun span => ((Utf8.encode text).drop span.1).take (span.2 - span.1)) ∧
      (∀ f ∈ fragments, f.asciiFold = asciiFold f.body ∧ f.contentDigest = sha256 (Utf8.encode f.body)) ∧
      (∀ span ∈ spans, isCharBoundary text span.1 = true ∧ isCharBoundary text span.2 = true ∧
        span.1 < span.2 ∧ span.2 - span.1 ≤ 16 * 1024) ∧
      spans.head?.map Prod.fst = some 0 ∧ spans.getLast?.map Prod.snd = some (Utf8.encode text).length ∧
      (spans.Pairwise fun a b => a.1 < b.1 ∧ a.2 < b.2) ∧
      ∀ a b, a ≤ b → b ≤ (Utf8.encode text).length → b - a ≤ 256 → ∃ span ∈ spans, span.1 ≤ a ∧ b ≤ span.2 := by
  obtain ⟨stop, spans, hsplit, hrow, hpieces⟩ := splitUtf8_eq_pieces sha256 hne
  refine ⟨_, (0, stop) :: spans, hsplit, ?_, ?_, ?_, hrow.head, ?_, hrow.pairwise, ?_⟩
  · rw [map_map]
    refine map_congr_left fun span hspan => ?_
    have hpiece := hpieces span hspan
    exact encode_slice hpiece.start hpiece.stop (Nat.le_of_lt hpiece.nonempty)
  · intro f hf
    obtain ⟨span, -, rfl⟩ := mem_map.mp hf
    exact ⟨rfl, rfl⟩
  · intro span hspan
    have hpiece := hpieces span hspan
    exact ⟨hpiece.start, hpiece.stop, hpiece.nonempty, hpiece.limit⟩
  · rw [length_encode]
    exact hrow.getLast
  · intro a b hab hb hshort
    rw [length_encode] at hb
    exact hrow.covers (Nat.zero_le a) hab hb hshort

/-- Characters of three bytes, so that none ends at the limit of a fragment. -/
def euros : Text := replicate 6000 '€'

/-- The text has several fragments, and one of them holds the bytes around the end of the first. -/
theorem splitUtf8_covers_euros : ∃ (fragments : List TextFragment) (spans : List (ℕ × ℕ)),
    splitUtf8 (fun _ => []) (Utf8.encode euros) = some fragments ∧ 2 ≤ fragments.length ∧
      fragments.map (fun f => Utf8.encode f.body) =
        spans.map (fun span => ((Utf8.encode euros).drop span.1).take (span.2 - span.1)) ∧
      ∃ span ∈ spans, span.1 ≤ 16300 ∧ 16500 ≤ span.2 := by
  have hlength : (Utf8.encode euros).length = 18000 := by
    rw [length_encode, euros, utf8Len, map_replicate, sum_replicate]
    rfl
  obtain ⟨fragments, spans, hsplit, hbodies, -, hspans, hhead, hlast, -, hcovers⟩ :=
    splitUtf8_covers (fun _ => []) euros (by rw [euros, replicate_succ]; exact cons_ne_nil _ _)
  have hcount := congrArg length hbodies
  rw [length_map, length_map] at hcount
  refine ⟨fragments, spans, hsplit, ?_, hbodies, hcovers 16300 16500 (by omega) (by omega) (by omega)⟩
  rw [hcount]
  by_contra hshort
  match spans, hshort with
  | [], _ => cases hhead
  | [span], _ =>
    -- one fragment would be longer than the limit
    have hlimit := (hspans span (mem_singleton_self span)).2.2.2
    rw [hlength] at hlast
    have hstart : span.1 = 0 := Option.some.inj hhead
    have hstop : span.2 = 18000 := Option.some.inj hlast
    omega
  | _ :: _ :: _, hshort => exact hshort (by simp)

end Fragments
end Mega
