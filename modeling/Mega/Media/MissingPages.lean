/-
# The missing chunks of a sealed session, page by page

`missing_chunks_page_at` of `ceres/lfs/media/service.rs`. The chunk hashes of a
session, each at its first occurrence, are looked up in windows of 4096. An
answer holds the hashes of one window that are not in the store, and the cursor
says where the next window starts. Following the cursors gives the missing
hashes, each once and in order.

An answer must not be longer than the envelope. It never is, since the rows of a
session have hashes of 64 hexadecimal digits, and no more rows than a page
number and an ordinal can tell apart.

A cursor is its decoded value. Which chunks of the scope the store has is given
by `present`, and it does not change from one query to the next.

Key definitions: `missingChunksPage`, `MissingWalk`, `Tidy`.
Key theorems: `tidy_run`, `missing_complete`.
-/
import Mega.Lib.Firsts
import Mega.Media.PageSplit
import Mega.Media.PageRows

namespace Mega
namespace Media

open List View
open Proc (Only)

/-- `MissingCursorV1`. -/
structure MissingCursor where
  scope : Text
  manifestId : Text
  sealGeneration : ℕ
  index : ℕ
deriving DecidableEq

structure MissingChunksResponse where
  hashes : List Text
  nextCursor : Option MissingCursor
deriving DecidableEq

inductive MissingError where
  | notFound
  | notSealed
  | cursorUnauthorized
  | indexOutOfRange
  | objectId
  | envelope
deriving DecidableEq

/-! ### The encoding of an answer -/

def jsonObject (members : List Text) : Text := '\x7b' :: [','].intercalate members ++ ['\x7d']

def jsonStrings (texts : List Text) : Text := '[' :: [','].intercalate (texts.map Json.writeJsonString) ++ [']']

def MissingCursor.json (cursor : MissingCursor) : Text :=
  jsonObject [jsonMember "v" (decimal 1), jsonMember "scope" (Json.writeJsonString cursor.scope),
    jsonMember "manifest_id" (Json.writeJsonString cursor.manifestId),
    jsonMember "seal_generation" (decimal cursor.sealGeneration), jsonMember "index" (decimal cursor.index)]

def sextet (n : ℕ) : Char :=
  "ABCDEFGHIJKLMNOPQRSTUVWXYZabcdefghijklmnopqrstuvwxyz0123456789-_".toList.getD (n % 64) 'A'

/-- `URL_SAFE_NO_PAD`. -/
def base64Url : Bytes → Text
  | a :: b :: c :: rest =>
    sextet (a.toNat / 4) :: sextet (a.toNat % 4 * 16 + b.toNat / 16) :: sextet (b.toNat % 16 * 4 + c.toNat / 64) ::
      sextet c.toNat :: base64Url rest
  | [a, b] => [sextet (a.toNat / 4), sextet (a.toNat % 4 * 16 + b.toNat / 16), sextet (b.toNat % 16 * 4)]
  | [a] => [sextet (a.toNat / 4), sextet (a.toNat % 4 * 16)]
  | [] => []

/-- `encode_missing_cursor`. -/
def MissingCursor.encode (cursor : MissingCursor) : Text := base64Url (cursor.json.flatMap String.utf8EncodeChar)

def MissingChunksResponse.json (response : MissingChunksResponse) : Text :=
  jsonObject (jsonMember "hashes" (jsonStrings response.hashes) ::
    (response.nextCursor.map fun cursor => jsonMember "next_cursor" (Json.writeJsonString cursor.encode)).toList)

/-! ### The query -/

/-- `list_entries`: by page number, then by ordinal. -/
def listEntriesInOrder (db : Paging) (scope manifestId : Text) : List EntryRow :=
  KeySort.sortBy (fun row : EntryRow => toLex (row.pageNo, row.ordinal)) (db.entries.filter (·.ofSession scope manifestId))

/-- The chunk hashes of the rows, in order. -/
def sessionHashes (db : Paging) (scope manifestId : Text) : List Text :=
  (listEntriesInOrder db scope manifestId).map EntryRow.chunkHash

/-- `exists_many`. -/
def existsMany (present : Text → Bool) : List Text → Except MissingError (List Bool)
  | [] => .ok []
  | hash :: hashes =>
    if isKeyToken hash then do
      let flags ← existsMany present hashes
      .ok (present hash :: flags)
    else .error .objectId

/-- Where the window starts. -/
def missingStart (session : SessionRow) (scope manifestId : Text) : Option MissingCursor → Except MissingError ℕ
  | none => .ok 0
  | some cursor =>
    if cursor.scope ≠ scope ∨ cursor.manifestId ≠ manifestId ∨ cursor.sealGeneration ≠ session.sealGeneration then
      .error .cursorUnauthorized
    else .ok cursor.index

def missingWindow (present : Text → Bool) (session : SessionRow) (scope manifestId : Text) (unique : List Text)
    (start : ℕ) : Except MissingError MissingChunksResponse :=
  if unique.length < start then .error .indexOutOfRange
  else do
    let probe := (unique.drop start).take maxPageEntries
    let flags ← existsMany present probe
    let hashes := ((probe.zip flags).filter fun pair => !pair.2).map Prod.fst
    let next := start + probe.length
    let cursor := if unique.length ≤ next then none else some ⟨scope, manifestId, session.sealGeneration, next⟩
    let response : MissingChunksResponse := ⟨hashes, cursor⟩
    if textSize response.json > maxEnvelopeSize then .error .envelope else .ok response

def missingChunksPage (db : Paging) (present : Text → Bool) (scope manifestId : Text) (cursor : Option MissingCursor) :
    Except MissingError MissingChunksResponse :=
  match db.sessions (scope, manifestId) with
  | none => .error .notFound
  | some session =>
    if session.state ≠ .sealed ∧ session.state ≠ .finalized then .error .notSealed
    else do
      let start ← missingStart session scope manifestId cursor
      missingWindow present session scope manifestId (Firsts.firsts [] (sessionHashes db scope manifestId)) start

/-- Following the cursors to the end gives these answers. -/
inductive MissingWalk (db : Paging) (present : Text → Bool) (scope manifestId : Text) :
    Option MissingCursor → List (List Text) → Prop
  | last {cursor : Option MissingCursor} {hashes : List Text}
      (h : missingChunksPage db present scope manifestId cursor = .ok ⟨hashes, none⟩) :
      MissingWalk db present scope manifestId cursor [hashes]
  | next {cursor : Option MissingCursor} {hashes : List Text} {further : MissingCursor} {pages : List (List Text)}
      (h : missingChunksPage db present scope manifestId cursor = .ok ⟨hashes, some further⟩)
      (hrest : MissingWalk db present scope manifestId (some further) pages) :
      MissingWalk db present scope manifestId cursor (hashes :: pages)

/-- There is one walk only. -/
theorem MissingWalk.unique {db : Paging} {present : Text → Bool} {scope manifestId : Text}
    {cursor : Option MissingCursor} {pages pages' : List (List Text)}
    (h : MissingWalk db present scope manifestId cursor pages)
    (h' : MissingWalk db present scope manifestId cursor pages') : pages = pages' := by
  induction h generalizing pages' with
  | last hlast =>
    cases h' with
    | last hlast' =>
      rw [hlast] at hlast'
      cases hlast'
      rfl
    | next hnext' _ =>
      rw [hlast] at hnext'
      cases hnext'
  | next hnext hrest ih =>
    cases h' with
    | last hlast' =>
      rw [hnext] at hlast'
      cases hlast'
    | next hnext' hrest' =>
      rw [hnext] at hnext'
      cases hnext'
      rw [ih hrest']

/-! ### The size of an answer -/

theorem textSize_cons (c : Char) (text : Text) : textSize (c :: text) = c.utf8Size + textSize text := by
  rw [← singleton_append, textSize_append]
  have hone : textSize [c] = c.utf8Size := by
    unfold textSize
    rw [flatMap_singleton, String.length_utf8EncodeChar]
  rw [hone]

theorem textSize_le (text : Text) : textSize text ≤ 4 * text.length := by
  induction text with
  | nil => exact Nat.le_refl 0
  | cons c text ih =>
    have hsize : c.utf8Size ≤ 4 := Char.utf8Size_le_four c
    rw [textSize_cons, length_cons]
    omega

/-- A character of a key token. -/
def plain (c : Char) : Bool := c.isAlphanum ∨ c = '-' ∨ c = '_'

theorem toNat_of_plain {c : Char} (h : plain c = true) : 45 ≤ c.toNat ∧ c.toNat < 128 := by
  have hval : c.toNat = c.val.toNat := rfl
  rcases of_decide_eq_true h with halnum | rfl | rfl
  · simp only [Char.isAlphanum, Char.isAlpha, Char.isUpper, Char.isLower, Char.isDigit, Bool.or_eq_true,
      Bool.and_eq_true, decide_eq_true_eq, ge_iff_le, UInt32.le_iff_toNat_le] at halnum
    rw [hval]
    have hA : 'A'.val.toNat = 65 := rfl
    have hZ : 'Z'.val.toNat = 90 := rfl
    have ha : 'a'.val.toNat = 97 := rfl
    have hz : 'z'.val.toNat = 122 := rfl
    have h0 : '0'.val.toNat = 48 := rfl
    have h9 : '9'.val.toNat = 57 := rfl
    omega
  · decide
  · decide

/-- Such a character is written as it is. -/
theorem writeChar_of_plain {c : Char} (h : plain c = true) : Json.writeChar c = [c] := by
  have hrange := (toNat_of_plain h).1
  have hne : ∀ d : Char, d.toNat < 45 → c ≠ d := by
    rintro d hd rfl
    omega
  have hslash : c ≠ '\\' := by
    rintro rfl
    exact absurd h (by decide)
  unfold Json.writeChar
  rw [if_neg (hne _ (by decide)), if_neg hslash, if_neg (hne _ (by decide)), if_neg (hne _ (by decide)),
    if_neg (hne _ (by decide)), if_neg (hne _ (by decide)), if_neg (hne _ (by decide)), if_neg (by omega)]

theorem textSize_of_plain {text : Text} (h : ∀ c ∈ text, plain c = true) : textSize text = text.length := by
  induction text with
  | nil => rfl
  | cons c text ih =>
    have hone : c.utf8Size = 1 := by
      rw [Char.utf8Size_eq_one_iff, UInt32.le_iff_toNat_le]
      have hlt := (toNat_of_plain (h c mem_cons_self)).2
      have hval : c.toNat = c.val.toNat := rfl
      have h127 : (127 : UInt32).toNat = 127 := rfl
      omega
    rw [textSize_cons, hone, ih fun d hd => h d (mem_cons_of_mem _ hd), length_cons]
    omega

theorem textSize_writeJsonString {text : Text} (h : ∀ c ∈ text, plain c = true) :
    textSize (Json.writeJsonString text) = text.length + 2 := by
  have hsame : text.flatMap Json.writeChar = text := by
    induction text with
    | nil => rfl
    | cons c text ih =>
      rw [flatMap_cons, writeChar_of_plain (h c mem_cons_self), ih fun d hd => h d (mem_cons_of_mem _ hd)]
      rfl
  have hquote : '"'.utf8Size = 1 := by decide
  unfold Json.writeJsonString
  rw [hsame, cons_append, textSize_cons, textSize_append, textSize_of_plain h, textSize_cons, hquote]
  have hnil : textSize [] = 0 := rfl
  omega

theorem plain_of_isSha256Hex {hash : Text} (h : isSha256Hex hash = true) :
    hash.length = 64 ∧ ∀ c ∈ hash, plain c = true := by
  obtain ⟨hlength, hall⟩ := of_decide_eq_true h
  refine ⟨hlength, fun c hc => ?_⟩
  have hchar := of_decide_eq_true (all_eq_true.mp hall c hc)
  refine decide_eq_true (Or.inl ?_)
  rcases hchar with hdigit | ⟨hlow, hhigh⟩
  · rw [Char.isAlphanum, hdigit, Bool.or_true]
  · have hlower : c.isLower = true := by
      have hval : c.toNat = c.val.toNat := rfl
      have ha : 'a'.toNat = 97 := rfl
      have hf : 'f'.toNat = 102 := rfl
      have hval_a : 'a'.val.toNat = 97 := rfl
      have hval_z : 'z'.val.toNat = 122 := rfl
      simp only [Char.isLower, Bool.and_eq_true, decide_eq_true_eq, ge_iff_le, UInt32.le_iff_toNat_le]
      omega
    rw [Char.isAlphanum, Char.isAlpha, hlower, Bool.or_true, Bool.true_or]

theorem isKeyToken_of_isSha256Hex {hash : Text} (h : isSha256Hex hash = true) : isKeyToken hash = true := by
  obtain ⟨hlength, hplain⟩ := plain_of_isSha256Hex h
  refine decide_eq_true ⟨fun hnil => ?_, all_eq_true.mpr hplain⟩
  rw [hnil] at hlength
  cases hlength

theorem plain_sextet (n : ℕ) : plain (sextet n) = true := by
  have hall : ∀ i < 64, plain (sextet i) = true := by decide +kernel
  have hmod : sextet n = sextet (n % 64) := by
    unfold sextet
    rw [Nat.mod_mod]
  rw [hmod]
  exact hall (n % 64) (Nat.mod_lt _ (by decide))

/-- The encoding of a cursor: four characters for every three bytes. -/
theorem base64Url_spec : ∀ bytes : Bytes, (∀ c ∈ base64Url bytes, plain c = true) ∧
    3 * (base64Url bytes).length ≤ 4 * bytes.length + 2
  | a :: b :: c :: rest => by
    obtain ⟨hplain, hlength⟩ := base64Url_spec rest
    unfold base64Url
    refine ⟨?_, by simp only [length_cons]; omega⟩
    simp only [mem_cons, forall_eq_or_imp]
    exact ⟨plain_sextet _, plain_sextet _, plain_sextet _, plain_sextet _, hplain⟩
  | [a, b] => by
    unfold base64Url
    simp [plain_sextet]
  | [a] => by
    unfold base64Url
    simp [plain_sextet]
  | [] => by simp [base64Url]

theorem textSize_intercalate_le : ∀ texts : List Text,
    textSize ([','].intercalate texts) ≤ (texts.map fun text => textSize text + 1).sum
  | [] => Nat.le_refl 0
  | first :: texts => by
    have hsize := textSize_intercalate first texts
    omega

theorem textSize_jsonObject_le (members : List Text) :
    textSize (jsonObject members) ≤ (members.map fun text => textSize text + 1).sum + 2 := by
  have hinner := textSize_intercalate_le members
  have hopen : '\x7b'.utf8Size = 1 := by decide
  have hclose : textSize ['\x7d'] = 1 := by decide
  unfold jsonObject
  rw [cons_append, textSize_cons, textSize_append, hopen, hclose]
  omega

theorem textSize_jsonMember (name : String) (value : Text) :
    textSize (jsonMember name value) = textSize (Json.writeJsonString name.toList) + 1 + textSize value := by
  have hcolon : ':'.utf8Size = 1 := by decide
  unfold jsonMember
  rw [textSize_append, textSize_cons, hcolon]
  omega

theorem textSize_decimal_le {n : ℕ} (h : n < 2 ^ 64) : textSize (decimal n) ≤ 80 := by
  have hlength : n.repr.length ≤ 20 := Nat.repr_length n 20 (by decide) (by omega)
  have hsize := textSize_le (decimal n)
  have heq : (decimal n).length = n.repr.length := String.length_toList
  omega

/-- Sixty-six bytes and a comma for each hash. -/
theorem textSize_jsonStrings_le {hashes : List Text} (h : ∀ hash ∈ hashes, isSha256Hex hash = true) :
    textSize (jsonStrings hashes) ≤ 67 * hashes.length + 2 := by
  have hinner := textSize_intercalate_le (hashes.map Json.writeJsonString)
  have hsum : ((hashes.map Json.writeJsonString).map fun text => textSize text + 1).sum = 67 * hashes.length := by
    induction hashes with
    | nil => rfl
    | cons hash hashes ih =>
      obtain ⟨hlength, hplain⟩ := plain_of_isSha256Hex (h hash mem_cons_self)
      rw [map_cons, map_cons, sum_cons, ih (fun d hd => h d (mem_cons_of_mem _ hd)) (textSize_intercalate_le _),
        textSize_writeJsonString hplain, hlength, length_cons]
      omega
  have hopen : '['.utf8Size = 1 := by decide
  have hclose : textSize [']'] = 1 := by decide
  unfold jsonStrings
  rw [cons_append, textSize_cons, textSize_append, hopen, hclose]
  omega

/-- What is known of a cursor that is handed out. -/
structure MissingCursor.Small (cursor : MissingCursor) : Prop where
  scope : isSha256Hex cursor.scope = true
  manifestId : isSha256Hex cursor.manifestId = true
  sealGeneration : cursor.sealGeneration < 2 ^ 64
  index : cursor.index < 2 ^ 64

theorem textSize_cursor_le {cursor : MissingCursor} (h : cursor.Small) :
    textSize (Json.writeJsonString cursor.encode) ≤ 1000 := by
  obtain ⟨hscopeLength, hscope⟩ := plain_of_isSha256Hex h.scope
  obtain ⟨hmanifestLength, hmanifest⟩ := plain_of_isSha256Hex h.manifestId
  have hgeneration := textSize_decimal_le h.sealGeneration
  have hindex := textSize_decimal_le h.index
  have hone : textSize (decimal 1) = 1 := by decide
  have hv : textSize (Json.writeJsonString "v".toList) = 3 := by decide
  have hname1 : textSize (Json.writeJsonString "scope".toList) = 7 := by decide
  have hname2 : textSize (Json.writeJsonString "manifest_id".toList) = 13 := by decide
  have hname3 : textSize (Json.writeJsonString "seal_generation".toList) = 17 := by decide
  have hname4 : textSize (Json.writeJsonString "index".toList) = 7 := by decide
  have hjson : textSize cursor.json ≤ 400 := by
    refine (textSize_jsonObject_le _).trans ?_
    simp only [map_cons, map_nil, sum_cons, sum_nil, textSize_jsonMember, textSize_writeJsonString hscope,
      textSize_writeJsonString hmanifest, hscopeLength, hmanifestLength, hone, hv, hname1, hname2, hname3, hname4]
    omega
  obtain ⟨hplain, hlength⟩ := base64Url_spec (cursor.json.flatMap String.utf8EncodeChar)
  have hbytes : (cursor.json.flatMap String.utf8EncodeChar).length = textSize cursor.json := rfl
  unfold MissingCursor.encode
  rw [textSize_writeJsonString hplain]
  omega

/-- **An answer fits the envelope.** -/
theorem textSize_response_le {response : MissingChunksResponse}
    (hhashes : ∀ hash ∈ response.hashes, isSha256Hex hash = true) (hlength : response.hashes.length ≤ maxPageEntries)
    (hcursor : ∀ cursor, response.nextCursor = some cursor → cursor.Small) :
    textSize response.json ≤ maxEnvelopeSize := by
  have hstrings := textSize_jsonStrings_le hhashes
  have hname1 : textSize (Json.writeJsonString "hashes".toList) = 8 := by decide
  have hname2 : textSize (Json.writeJsonString "next_cursor".toList) = 13 := by decide
  have hmax : maxPageEntries = 4096 := rfl
  have henvelope : maxEnvelopeSize = 1048576 := rfl
  refine (textSize_jsonObject_le _).trans ?_
  cases hnext : response.nextCursor with
  | none =>
    simp only [Option.map_none, Option.toList_none, map_cons, map_nil, sum_cons, sum_nil, textSize_jsonMember, hname1]
    omega
  | some cursor =>
    have hsize := textSize_cursor_le (hcursor cursor hnext)
    simp only [Option.map_some, Option.toList_some, map_cons, map_nil, sum_cons, sum_nil, textSize_jsonMember, hname1,
      hname2]
    omega

/-! ### Following the cursors -/

theorem existsMany_eq (present : Text → Bool) : ∀ {hashes : List Text}, (∀ hash ∈ hashes, isSha256Hex hash = true) →
    existsMany present hashes = .ok (hashes.map present)
  | [], _ => rfl
  | hash :: hashes, h => by
    have hrest := existsMany_eq present fun d hd => h d (mem_cons_of_mem _ hd)
    unfold existsMany
    rw [if_pos (isKeyToken_of_isSha256Hex (h hash mem_cons_self)), hrest]
    rfl

theorem absent_eq_filter (present : Text → Bool) (hashes : List Text) :
    ((hashes.zip (hashes.map present)).filter fun pair => !pair.2).map Prod.fst = hashes.filter fun hash => !present hash := by
  induction hashes with
  | nil => rfl
  | cons hash hashes ih =>
    cases hpresent : present hash with
    | true => simpa [hpresent] using ih
    | false => simpa [hpresent] using ih

/-- What is known of a session that is queried. -/
structure Queried (db : Paging) (scope manifestId : Text) (session : SessionRow) : Prop where
  found : db.sessions (scope, manifestId) = some session
  sealed : session.state = .sealed ∨ session.state = .finalized
  scopeHex : isSha256Hex scope = true
  manifestHex : isSha256Hex manifestId = true
  sealGeneration : session.sealGeneration < 2 ^ 64
  hashes : ∀ hash ∈ sessionHashes db scope manifestId, isSha256Hex hash = true
  count : (Firsts.firsts [] (sessionHashes db scope manifestId)).length < 2 ^ 64

section Walk

variable {db : Paging} {scope manifestId : Text} {session : SessionRow}

/-- One query: what is missing of a window, and where the next one starts. -/
theorem missingChunksPage_eq (h : Queried db scope manifestId session) (present : Text → Bool)
    {unique : List Text} (hunique : unique = Firsts.firsts [] (sessionHashes db scope manifestId))
    {cursor : Option MissingCursor} {start : ℕ} (hcursor : missingStart session scope manifestId cursor = .ok start)
    (hstart : start ≤ unique.length) :
    missingChunksPage db present scope manifestId cursor =
      .ok ⟨((unique.drop start).take maxPageEntries).filter fun hash => !present hash,
        if unique.length ≤ start + maxPageEntries then none
        else some ⟨scope, manifestId, session.sealGeneration, start + maxPageEntries⟩⟩ := by
  have hhex : ∀ hash ∈ (unique.drop start).take maxPageEntries, isSha256Hex hash = true := by
    intro hash hmem
    have hfirst : hash ∈ unique := mem_of_mem_drop (mem_of_mem_take hmem)
    rw [hunique] at hfirst
    exact h.hashes hash (Firsts.mem_firsts.mp hfirst).1
  have hopen : ¬ (session.state ≠ .sealed ∧ session.state ≠ .finalized) := by
    intro hnot
    rcases h.sealed with hstate | hstate
    · exact hnot.1 hstate
    · exact hnot.2 hstate
  have hlength : ((unique.drop start).take maxPageEntries).length = min maxPageEntries (unique.length - start) := by
    rw [length_take, length_drop]
  have hnext : (if unique.length ≤ start + ((unique.drop start).take maxPageEntries).length then none
      else some (⟨scope, manifestId, session.sealGeneration, start + ((unique.drop start).take maxPageEntries).length⟩ :
        MissingCursor)) = if unique.length ≤ start + maxPageEntries then none
      else some ⟨scope, manifestId, session.sealGeneration, start + maxPageEntries⟩ := by
    rw [hlength]
    by_cases hend : unique.length ≤ start + maxPageEntries
    · rw [if_pos hend, if_pos (by omega)]
    · rw [if_neg hend, if_neg (by omega), Nat.min_eq_left (by omega)]
  have hfits : textSize (MissingChunksResponse.json ⟨((unique.drop start).take maxPageEntries).filter fun hash =>
      !present hash, if unique.length ≤ start + maxPageEntries then none
        else some ⟨scope, manifestId, session.sealGeneration, start + maxPageEntries⟩⟩) ≤ maxEnvelopeSize := by
    refine textSize_response_le (fun hash hmem => hhex hash (mem_of_mem_filter hmem)) ?_ ?_
    · refine (length_filter_le _ _).trans ?_
      rw [hlength]
      exact Nat.min_le_left _ _
    · intro further hfurther
      have hcount := h.count
      rw [← hunique] at hcount
      by_cases hend : unique.length ≤ start + maxPageEntries
      · rw [if_pos hend] at hfurther
        cases hfurther
      · rw [if_neg hend] at hfurther
        cases hfurther
        refine ⟨h.scopeHex, h.manifestHex, h.sealGeneration, ?_⟩
        show start + maxPageEntries < 2 ^ 64
        omega
  unfold missingChunksPage
  rw [h.found]
  show (if session.state ≠ .sealed ∧ session.state ≠ .finalized then _ else _) = _
  rw [if_neg hopen, hcursor, ← hunique]
  show missingWindow present session scope manifestId unique start = _
  unfold missingWindow
  rw [if_neg (by omega)]
  simp only [existsMany_eq present hhex, bind, Except.bind, absent_eq_filter, hnext]
  rw [if_neg (by omega)]

/-- **The walk from a position gives the missing hashes from there on.** -/
theorem missingWalk_from (h : Queried db scope manifestId session) (present : Text → Bool) {unique : List Text}
    (hunique : unique = Firsts.firsts [] (sessionHashes db scope manifestId)) : ∀ (rest start : ℕ)
      (cursor : Option MissingCursor), unique.length ≤ start + rest → start ≤ unique.length →
      missingStart session scope manifestId cursor = .ok start →
      ∃ pages, MissingWalk db present scope manifestId cursor pages ∧
        pages.flatten = (unique.drop start).filter fun hash => !present hash
  | rest, start, cursor, hrest, hstart, hcursor => by
    have hpage := missingChunksPage_eq h present hunique hcursor hstart
    by_cases hend : unique.length ≤ start + maxPageEntries
    · rw [if_pos hend] at hpage
      refine ⟨_, .last hpage, ?_⟩
      have hall : (unique.drop start).take maxPageEntries = unique.drop start := by
        apply take_of_length_le
        rw [length_drop]
        omega
      rw [hall, flatten_cons, flatten_nil, append_nil]
    · rw [if_neg hend] at hpage
      have hmax : maxPageEntries = 4096 := rfl
      have hnext : missingStart session scope manifestId
          (some ⟨scope, manifestId, session.sealGeneration, start + maxPageEntries⟩) = .ok (start + maxPageEntries) := by
        simp [missingStart]
      obtain ⟨pages, hwalk, hflat⟩ := missingWalk_from h present hunique (rest - 1) (start + maxPageEntries) _
        (by omega) (by omega) hnext
      refine ⟨_, .next hpage hwalk, ?_⟩
      rw [flatten_cons, hflat, ← filter_append, ← drop_drop, take_append_drop]
termination_by rest => rest

end Walk

/-! ### The rows of a running service -/

/-- The columns of the unique index of the entry rows. -/
def EntryRow.key (row : EntryRow) : Text × Text × ℤ × ℕ := (row.scope, row.manifestId, row.pageNo, row.ordinal)

structure Tidy (codec : Codec) (w : World) : Prop where
  hashes : ∀ row ∈ w.paging.entries, isSha256Hex row.chunkHash = true
  numbers : ∀ row ∈ w.paging.entries, -2 ^ 31 ≤ row.pageNo ∧ row.pageNo < 2 ^ 31 ∧ row.ordinal < maxPageEntries
  keys : (w.paging.entries.map EntryRow.key).Nodup
  sessions : ∀ scope manifestId session, w.paging.sessions (scope, manifestId) = some session →
    (∃ m : MediaManifest, m.id codec = .ok manifestId) ∧ session.sealGeneration < 2 ^ 63

/-- The call stores a page that was validated, or opens the session of a manifest. -/
def Op.Checked (codec : Codec) : Op → Prop
  | .putPageEntries _ _ pageNo rows => ∃ page : ManifestPage, page.validate codec = .ok () ∧ pageNo = asI32 page.pageNo ∧
    rows = indexRows page.entries
  | .upsertPendingSession _ manifestId _ _ _ _ _ => ∃ m : MediaManifest, m.id codec = .ok manifestId
  | _ => True

theorem asI32_range (n : ℕ) : -2 ^ 31 ≤ asI32 n ∧ asI32 n < 2 ^ 31 := by
  have hlt : n % 2 ^ 32 < 2 ^ 32 := Nat.mod_lt _ (by decide)
  unfold asI32
  split_ifs with hsmall
  · omega
  · omega

section Page

variable {codec : Codec} {page : ManifestPage}

theorem validateChunkFields_hash {i : ℕ} {c : ChunkEntry} {tail : Bool} (h : validateChunkFields i c tail = .ok ()) :
    isSha256Hex c.chunkHash = true := by
  unfold validateChunkFields at h
  simp only [Fallible.guard_eq_ok] at h
  exact not_not.mp h.2.2.1

theorem forM_validate {entries : List (ChunkEntry × ℕ)}
    (h : (entries.forM fun c => validateChunkFields c.2 c.1 true) = .ok ()) :
    ∀ c ∈ entries, isSha256Hex c.1.chunkHash = true := by
  induction entries with
  | nil => exact fun c hc => absurd hc not_mem_nil
  | cons first entries ih =>
    obtain ⟨hfirst, hrest⟩ := Fallible.check_bind_eq_ok.mp h
    intro c hc
    rcases mem_cons.mp hc with rfl | hc
    · exact validateChunkFields_hash hfirst
    · exact ih hrest c hc

/-- The rows of a page that was validated. -/
theorem indexRows_of_validate (h : page.validate codec = .ok ()) :
    ∀ e ∈ indexRows page.entries, isSha256Hex e.chunkHash = true ∧ e.ordinal < maxPageEntries := by
  unfold ManifestPage.validate at h
  simp only [Fallible.guard_eq_ok] at h
  obtain ⟨-, hlength, -, hfields⟩ := h
  intro e he
  obtain ⟨pair, hpair, rfl⟩ := mem_map.mp he
  refine ⟨forM_validate hfields pair hpair, ?_⟩
  have hindex := (mem_zipIdx' hpair).1
  show pair.2 < maxPageEntries
  omega

end Page

section Invariant

variable {codec : Codec} {w : World} {op : Op}

theorem Tidy.of_entries {t : World} (h : Tidy codec w) (hentries : t.paging.entries = w.paging.entries)
    (hsessions : ∀ scope manifestId session, t.paging.sessions (scope, manifestId) = some session →
      (∃ m : MediaManifest, m.id codec = .ok manifestId) ∧ session.sealGeneration < 2 ^ 63) : Tidy codec t :=
  ⟨hentries ▸ h.hashes, hentries ▸ h.numbers, hentries ▸ h.keys, hsessions⟩

/-- The rows of a page have keys that no other row has. -/
theorem nodup_keys_stored {db : Paging} (h : (db.entries.map EntryRow.key).Nodup) {scope manifestId : Text}
    {pageNo : ℤ} {entries : List ChunkEntry} (hnone : listEntriesForPage db scope manifestId pageNo = []) :
    ((db.entries ++ (indexRows entries).map (ChunkIndexRow.toEntry scope manifestId pageNo)).map EntryRow.key).Nodup := by
  have hordinals : (indexRows entries).map ChunkIndexRow.ordinal = range entries.length := by
    rw [indexRows, map_map]
    exact (zipIdx_map_snd 0 entries).trans range_eq_range'.symm
  have hnew : (((indexRows entries).map (ChunkIndexRow.toEntry scope manifestId pageNo)).map EntryRow.key) =
      ((indexRows entries).map ChunkIndexRow.ordinal).map fun n => (scope, manifestId, pageNo, n) := by
    rw [map_map, map_map]
    rfl
  rw [map_append, nodup_append]
  refine ⟨h, ?_, ?_⟩
  · rw [hnew, hordinals]
    refine nodup_range.map ?_
    intro a b hab
    simpa using hab
  · -- an old row with such a key would be a row of the page
    intro key hold other hother heq
    subst heq
    obtain ⟨row, hrow, hkey⟩ := mem_map.mp hold
    rw [hnew] at hother
    obtain ⟨n, -, rfl⟩ := mem_map.mp hother
    have hfields : row.scope = scope ∧ row.manifestId = manifestId ∧ row.pageNo = pageNo ∧ row.ordinal = n := by
      simpa [EntryRow.key] using hkey
    have hmem : row ∈ listEntriesForPage db scope manifestId pageNo := by
      unfold listEntriesForPage
      rw [KeySort.mem_sortBy, mem_filter]
      exact ⟨hrow, by simp [EntryRow.ofSession, hfields.1, hfields.2.1, hfields.2.2.1]⟩
    rw [hnone] at hmem
    exact absurd hmem not_mem_nil

theorem tidy_exec (hop : op.Checked codec) (h : Tidy codec w) (input : Input) : Tidy codec (exec input op w).1 := by
  rcases tablesAfter_exec input op w with ⟨hentries, hsessions⟩ |
    ⟨scope, manifestId, algorithm, oid, size, chunkCount, pageCount, rfl, hnone, hentries, hsessions⟩ |
    ⟨key, before, row, hbefore, -, hgeneration, hentries, hsessions⟩ |
    ⟨scope, manifestId, pageNo, rows, rfl, hnone, -, hentries, hsessions⟩
  · refine h.of_entries hentries ?_
    rw [hsessions]
    exact h.sessions
  · refine h.of_entries hentries ?_
    intro scope' manifestId' session' hsession
    rw [hsessions] at hsession
    by_cases heq : (scope', manifestId') = (scope, manifestId)
    · rw [heq, Function.update_self] at hsession
      cases heq
      cases hsession
      exact ⟨hop, Nat.two_pow_pos 63⟩
    · rw [Function.update_of_ne heq] at hsession
      exact h.sessions scope' manifestId' session' hsession
  · refine h.of_entries hentries ?_
    intro scope' manifestId' session' hsession
    rw [hsessions] at hsession
    by_cases heq : (scope', manifestId') = key
    · subst heq
      rw [Function.update_self] at hsession
      cases hsession
      have hold := h.sessions scope' manifestId' before hbefore
      refine ⟨hold.1, ?_⟩
      rcases hgeneration with hsame | hsmall
      · rw [hsame]
        exact hold.2
      · exact hsmall
    · rw [Function.update_of_ne heq] at hsession
      exact h.sessions scope' manifestId' session' hsession
  · obtain ⟨page, hvalid, rfl, rfl⟩ := hop
    have hrows := indexRows_of_validate hvalid
    have hnew : ∀ row ∈ (indexRows page.entries).map (ChunkIndexRow.toEntry scope manifestId (asI32 page.pageNo)),
        isSha256Hex row.chunkHash = true ∧ -2 ^ 31 ≤ row.pageNo ∧ row.pageNo < 2 ^ 31 ∧ row.ordinal < maxPageEntries := by
      intro row hrow
      obtain ⟨e, he, rfl⟩ := mem_map.mp hrow
      exact ⟨(hrows e he).1, (asI32_range _).1, (asI32_range _).2, (hrows e he).2⟩
    refine ⟨?_, ?_, ?_, ?_⟩
    · rw [hentries]
      exact fun row hrow => (mem_append.mp hrow).elim (h.hashes row) fun hrow => (hnew row hrow).1
    · rw [hentries]
      exact fun row hrow => (mem_append.mp hrow).elim (h.numbers row) fun hrow => (hnew row hrow).2
    · rw [hentries]
      exact nodup_keys_stored h.keys hnone
    · rw [hsessions]
      exact h.sessions

/-- **In every state that a run reaches, the rows and the sessions are tidy.** -/
theorem tidy_run (codec : Codec) (events : List Event) : Tidy codec (run codec System.empty events).shared := by
  have hcode : ∀ request, .start request ∈ events → ∀ w, Tidy codec w → Proc.Safe exec (Tidy codec) (fun _ _ => True)
      (fun (_ : Answer) _ => True) (fun _ _ => True) (code codec request) w := by
    intro request _ w _
    have honly : Only (Op.Checked codec) (code codec request) := by
      refine only_code ?_ ?_ ?_
      · intro op hopens hstores
        cases op <;> trivial
      · exact fun m manifestId hid _ _ _ _ _ _ => ⟨m, hid⟩
      · exact fun scope manifestId page now _ hvalid => ⟨page, hvalid, rfl, rfl⟩
    exact honly.safe (fun op hop s hs input => ⟨tidy_exec hop hs input, trivial⟩) w
  have hempty : Pool.Safe exec (Tidy codec) (fun _ _ => True) (fun _ (_ : Answer) _ => True) System.empty :=
    ⟨⟨fun row hrow => absurd hrow not_mem_nil, fun row hrow => absurd hrow not_mem_nil, nodup_nil,
      fun _ _ _ hsession => by cases hsession⟩, fun thread hthread => absurd hthread not_mem_nil⟩
  have hsafe : Pool.Safe exec (Tidy codec) (fun _ _ => True) (fun _ (_ : Answer) _ => True)
      (run codec System.empty events) :=
    (Pool.Safe.run_rel (fun _ => trivial) (fun _ _ _ _ _ => trivial) hcode hempty).1
  exact hsafe.shared

theorem length_le_of_box {l : List (ℤ × ℕ)} (hnodup : l.Nodup) {low high : ℤ} {n : ℕ}
    (h : ∀ p ∈ l, low ≤ p.1 ∧ p.1 < high ∧ p.2 < n) : l.length ≤ (high - low).toNat * n := by
  have hsubset : l.toFinset ⊆ Finset.Ico low high ×ˢ Finset.range n := by
    intro p hp
    obtain ⟨hlow, hhigh, hn⟩ := h p (mem_toFinset.mp hp)
    rw [Finset.mem_product, Finset.mem_Ico, Finset.mem_range]
    exact ⟨⟨hlow, hhigh⟩, hn⟩
  have hcard := Finset.card_le_card hsubset
  rwa [toFinset_card_of_nodup hnodup, Finset.card_product, Int.card_Ico, Finset.card_range] at hcard

/-- A session has no more rows than there are page numbers and ordinals. -/
theorem length_sessionHashes_le (h : Tidy codec w) (scope manifestId : Text) :
    (sessionHashes w.paging scope manifestId).length ≤ 2 ^ 44 := by
  have hlength : (sessionHashes w.paging scope manifestId).length =
      ((w.paging.entries.filter (·.ofSession scope manifestId)).map fun row => (row.pageNo, row.ordinal)).length := by
    rw [sessionHashes, length_map, listEntriesInOrder, KeySort.length_sortBy, length_map]
  have hnodup : ((w.paging.entries.filter (·.ofSession scope manifestId)).map fun row =>
      (row.pageNo, row.ordinal)).Nodup := by
    have hkeys : ((w.paging.entries.filter (·.ofSession scope manifestId)).map EntryRow.key).Nodup :=
      h.keys.sublist (filter_sublist.map _)
    have hsame : ((w.paging.entries.filter (·.ofSession scope manifestId)).map EntryRow.key) =
        ((w.paging.entries.filter (·.ofSession scope manifestId)).map fun row => (row.pageNo, row.ordinal)).map
          fun number => (scope, manifestId, number) := by
      rw [map_map]
      refine map_congr_left fun row hrow => ?_
      obtain ⟨rfl, rfl⟩ := of_decide_eq_true (mem_filter.mp hrow).2
      rfl
    rw [hsame] at hkeys
    exact hkeys.of_map _
  have hbox : ∀ number ∈ (w.paging.entries.filter (·.ofSession scope manifestId)).map fun row =>
      (row.pageNo, row.ordinal), -2 ^ 31 ≤ number.1 ∧ number.1 < 2 ^ 31 ∧ number.2 < maxPageEntries := by
    intro number hnumber
    obtain ⟨row, hrow, rfl⟩ := mem_map.mp hnumber
    exact h.numbers row (mem_filter.mp hrow).1
  have hcount : ((2 : ℤ) ^ 31 - -2 ^ 31).toNat * maxPageEntries = 2 ^ 44 := by decide
  rw [hlength, ← hcount]
  exact length_le_of_box hnodup hbox

end Invariant

/-- **Following the cursors from the start gives the chunk hashes of the session that are not in the store**, each once
and in the order of their first occurrence, whichever chunks the store has. -/
theorem missing_complete (codec : Codec) (hsha : ∀ bytes, isSha256Hex (codec.sha256 bytes) = true)
    (events : List Event) (present : Text → Bool) {scope manifestId : Text} (hscope : isSha256Hex scope = true)
    {session : SessionRow}
    (hsession : (run codec System.empty events).shared.paging.sessions (scope, manifestId) = some session)
    (hsealed : session.state = .sealed ∨ session.state = .finalized) :
    ∃ pages : List (List Text),
      MissingWalk (run codec System.empty events).shared.paging present scope manifestId none pages ∧
      (∀ other, MissingWalk (run codec System.empty events).shared.paging present scope manifestId none other →
        other = pages) ∧
      (∀ hash, hash ∈ pages.flatten ↔
        hash ∈ sessionHashes (run codec System.empty events).shared.paging scope manifestId ∧ present hash = false) ∧
      pages.flatten.Nodup ∧
      pages.flatten.Pairwise fun a b =>
        (sessionHashes (run codec System.empty events).shared.paging scope manifestId).idxOf a <
          (sessionHashes (run codec System.empty events).shared.paging scope manifestId).idxOf b := by
  have htidy := tidy_run codec events
  set db := (run codec System.empty events).shared.paging with hdb
  obtain ⟨⟨m, hid⟩, hgeneration⟩ := htidy.sessions scope manifestId session hsession
  have hmanifest : isSha256Hex manifestId = true := by
    rw [← (id_eq_ok hid).2]
    exact hsha _
  have hhashes : ∀ hash ∈ sessionHashes db scope manifestId, isSha256Hex hash = true := by
    intro hash hmem
    obtain ⟨row, hrow, rfl⟩ := mem_map.mp hmem
    exact htidy.hashes row (mem_filter.mp ((KeySort.mem_sortBy _).mp hrow)).1
  have hcount : (Firsts.firsts [] (sessionHashes db scope manifestId)).length < 2 ^ 64 := by
    have hsub : (Firsts.firsts [] (sessionHashes db scope manifestId)).length ≤ (sessionHashes db scope manifestId).length :=
      ((Firsts.nodup_firsts _ _).subperm fun hash hmem => (Firsts.mem_firsts.mp hmem).1).length_le
    have hle := length_sessionHashes_le htidy scope manifestId
    rw [← hdb] at hle
    omega
  have hqueried : Queried db scope manifestId session :=
    ⟨hsession, hsealed, hscope, hmanifest, by omega, hhashes, hcount⟩
  obtain ⟨pages, hwalk, hflat⟩ := missingWalk_from hqueried present rfl _ 0 none (Nat.le_add_left _ _) (Nat.zero_le _) rfl
  rw [drop_zero] at hflat
  have hnodup := Firsts.nodup_firsts [] (sessionHashes db scope manifestId)
  have hordered := Firsts.pairwise_firsts [] (sessionHashes db scope manifestId)
  refine ⟨pages, hwalk, fun other hother => hother.unique hwalk, ?_, ?_, ?_⟩
  · intro hash
    rw [hflat, mem_filter, Firsts.mem_firsts]
    simp
  · rw [hflat]
    exact hnodup.filter _
  · rw [hflat]
    exact hordered.filter _

/-- A file whose first chunk comes a second time. -/
def repeatedChunks : List ChunkEntry :=
  [⟨0, minSize, nameEnding 'a', minSize, compressionNone, none⟩,
    ⟨minSize, minSize, nameEnding 'b', minSize, compressionNone, none⟩,
    ⟨2 * minSize, minSize, nameEnding 'a', minSize, compressionNone, none⟩,
    ⟨3 * minSize, 5, nameEnding 'e', 5, compressionNone, none⟩]

/-- It is prepared, its page is put, and the session is sealed. -/
def sealedRepeated : List Event :=
  served (.prepare plainId ⟨manifestVersion, chunkAlgorithm, hashAlgorithm, plainId, 3 * minSize + 5, repeatedChunks,
      ⟨[], [], []⟩, none⟩ 0) 0 6 ++
    served (.putPage plainId (nameEnding 'd') ⟨0, repeatedChunks⟩ 0) 1 4 ++
    served (.sealManifest plainId (nameEnding 'd') 0) 2 4

/-- One of the chunks is in the store; of the others one comes twice. -/
theorem missing_complete_repeated : ∃ pages : List (List Text),
    MissingWalk (run sampleCodec System.empty sealedRepeated).shared.paging (· = nameEnding 'b') plainId (nameEnding 'd')
        none pages ∧ nameEnding 'a' ∈ pages.flatten ∧ nameEnding 'b' ∉ pages.flatten ∧ nameEnding 'e' ∈ pages.flatten ∧
      pages.flatten.Nodup := by
  have hhex : ∀ bytes, isSha256Hex (sampleCodec.sha256 bytes) = true := by
    intro bytes
    simp only [sampleCodec, Codec.canonical, sampleSha]
    split <;> (try split) <;> decide +kernel
  have hsession : (run sampleCodec System.empty sealedRepeated).shared.paging.sessions (plainId, nameEnding 'd') =
      some ⟨chunkAlgorithm, plainId, 3 * minSize + 5, 4, 1, .sealed, 1⟩ := by decide +kernel
  have hhashes : sessionHashes (run sampleCodec System.empty sealedRepeated).shared.paging plainId (nameEnding 'd') =
      repeatedChunks.map ChunkEntry.chunkHash := by decide +kernel
  obtain ⟨pages, hwalk, -, hmem, hnodup, -⟩ := missing_complete sampleCodec hhex sealedRepeated (· = nameEnding 'b')
    (by decide +kernel) hsession (Or.inl rfl)
  rw [hhashes] at hmem
  refine ⟨pages, hwalk, (hmem _).mpr ?_, fun h => ?_, (hmem _).mpr ?_, hnodup⟩
  · decide +kernel
  · cases ((hmem _).mp h).2
  · decide +kernel

end Media
end Mega
