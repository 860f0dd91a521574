/-
# Signature headers of a commit

The text after the `committer` line of a commit: extra headers with their
continuation lines, an empty line, and the message body. Rewriting a commit drops
its signature headers (`strip_signature_headers` of `ceres/view/commit.rs`, over
bytes); elsewhere the text is split into headers and body
(`split_commit_message` of `common/utils.rs`, over a string).

Both scanners go line by line up to the first empty line, so both are functions of
the block of lines the text starts with (`Lines.block`); over the lines, stripping
is `keep` and splitting is `headersOf`. The byte scanner leaves the bytes of the
text that `stripSignatureHeaders` leaves, which commits of a view hold.

Key definitions: `Bytes.stripSignatureHeaders`, `splitCommitMessage`,
`CommitMessageParts.hasSignature`, `keep`, `headersOf`.
Key theorems: `stripLoop_eq`, `splitCommitMessage_eq`, `headersOf_keep`,
`Bytes.stripSignatureHeaders_utf8`, `strip_signature_headers_exact`.
-/
import Mega.Lib.Lines
import Mega.Lib.Utf8
import Mega.View.TreeSource

namespace Mega
namespace View

open Lines
open Utf8 (encode)

variable {lines : List Text} {headers : List (Text × Text)} {text : Text}

/-! ### The code -/

def isSignatureHeader (key : Text) : Bool := key == "gpgsig".toList || key == "gpgsig-sha256".toList

def signatureHeaderLine (line : Text) : Bool :=
  line.contains ' ' && isSignatureHeader (line.takeWhile (· ≠ ' '))

/-- The loop over the lines; `none` if the headers do not end. -/
def stripLines (skip : Bool) (output : Text) : List Text → Option Text
  | [] => none
  | [_] => none
  | line :: next :: rest =>
    if line = [] then some (output ++ '\n' :: List.intercalate ['\n'] (next :: rest))
    else
      let skip := if line.head? = some ' ' then skip else signatureHeaderLine line
      stripLines skip (if skip then output else output ++ line ++ ['\n']) (next :: rest)

def stripSignatureHeaders (input : Text) : Text := (stripLines false [] (input.splitOn '\n')).getD input

namespace Bytes

/-- The key is valid UTF-8 and a signature header. -/
def signatureHeaderLine (line : List UInt8) : Bool :=
  (cut 0x20 line).any fun parts => parts.1 = encode "gpgsig".toList ∨ parts.1 = encode "gpgsig-sha256".toList

end Bytes

section Loop

variable {α : Type} [DecidableEq α]

/-- The loop of `strip_signature_headers`, over any letters. -/
def stripLoop (newline space : α) (signature : List α → Bool) (input rest : List α) (skip : Bool)
    (output : List α) : List α :=
  match _h : cut newline rest with
  | none => input
  | some (line, next) =>
    if line = [] then output ++ newline :: next
    else
      let skip := if line.head? = some space then skip else signature line
      stripLoop newline space signature input next skip (if skip then output else output ++ line ++ [newline])
termination_by rest.length
decreasing_by exact length_of_cut _h

end Loop

/-- `strip_signature_headers`, on bytes. -/
def Bytes.stripSignatureHeaders (input : List UInt8) : List UInt8 :=
  stripLoop 0x0a 0x20 Bytes.signatureHeaderLine input input false []

structure CommitMessageParts where
  headers : List (Text × Text)
  body : Text
deriving DecidableEq

def CommitMessageParts.hasSignature (parts : CommitMessageParts) : Bool :=
  parts.headers.any fun header => isSignatureHeader header.1

def isKeyChar (ch : Char) : Bool := isAsciiAlphanumeric ch || ch == '-'

/-- Adds to the value of the last header. -/
def continueLast (headers : List (Text × Text)) (continuation : Text) : Option (List (Text × Text)) :=
  headers.getLast?.map fun last => headers.dropLast ++ [(last.1, last.2 ++ '\n' :: continuation)]

/-- What one line of a header block does to the headers before it. -/
def headerLine (headers : List (Text × Text)) (line : Text) : Option (List (Text × Text)) :=
  if line.head? = some ' ' then continueLast headers line.tail
  else
    match cut ' ' line with
    | some (key, value) => if key ≠ [] ∧ key.all isKeyChar then some (headers ++ [(key, value)]) else none
    | none => none

/-- The loop of `split_commit_message`. -/
def splitLoop (message : Text) (headers : List (Text × Text)) (rest : Text) : CommitMessageParts :=
  match _h : cut '\n' rest with
  | none => ⟨[], message⟩
  | some (line, after) =>
    if line = [] then ⟨headers, after⟩
    else
      match headerLine headers line with
      | none => ⟨[], message⟩
      | some headers => splitLoop message headers after
termination_by rest.length
decreasing_by exact length_of_cut _h

def splitCommitMessage (message : Text) : CommitMessageParts :=
  match message with
  | '\n' :: body => ⟨[], body⟩
  | message => splitLoop message [] message

/-! ### Both scanners over lines -/

section Keep

variable {α : Type} [DecidableEq α] (newline space : α) (signature : List α → Bool)

/-- The lines that are kept. -/
def keep : Bool → List (List α) → List (List α)
  | _, [] => []
  | skip, line :: lines =>
    let skip := if line.head? = some space then skip else signature line
    if skip then keep skip lines else line :: keep skip lines

/-- A text with only the lines of its block that are kept. -/
def stripBlock (text : List α) : List α :=
  (block newline text).elim text fun parts => blockText newline (keep space signature false parts.1) parts.2

variable {newline space signature}

/-- **Stripping keeps lines**, up to the first empty line. -/
theorem stripLoop_eq (input rest : List α) (skip : Bool) (output : List α) :
    stripLoop newline space signature input rest skip output =
      (block newline rest).elim input fun parts =>
        output ++ blockText newline (keep space signature skip parts.1) parts.2 := by
  induction hlen : rest.length using Nat.strong_induction_on generalizing rest skip output with
  | _ n ih =>
    rw [stripLoop]
    split
    · rename_i hcut
      rw [block_of_cut_none hcut]
      rfl
    · rename_i line next hcut
      rw [block_of_cut hcut]
      by_cases hline : line = []
      · rw [if_pos hline, if_pos hline]
        rfl
      rw [if_neg hline, if_neg hline, ih next.length (hlen ▸ length_of_cut hcut) next _ _ rfl]
      cases block newline next with
      | none => rfl
      | some parts =>
        simp only [Option.elim_some, Option.map_some, keep]
        generalize (if line.head? = some space then skip else signature line) = skip'
        cases skip' with
        | true => rfl
        | false => simp [blockText_cons]

theorem keep_cons_of_skipped {skip : Bool} {line : List α} (lines : List (List α))
    (h : (if line.head? = some space then skip else signature line) = true) :
    keep space signature skip (line :: lines) = keep space signature true lines := by
  rw [keep, h]
  rfl

theorem keep_cons_of_kept {skip : Bool} {line : List α} (lines : List (List α))
    (h : (if line.head? = some space then skip else signature line) = false) :
    keep space signature skip (line :: lines) = line :: keep space signature false lines := by
  rw [keep, h]
  rfl

theorem keep_subset (skip : Bool) (lines : List (List α)) : keep space signature skip lines ⊆ lines := by
  induction lines generalizing skip with
  | nil => exact List.nil_subset []
  | cons line lines ih =>
    cases hskip : (if line.head? = some space then skip else signature line) with
    | true =>
      rw [keep_cons_of_skipped lines hskip]
      exact List.subset_cons_of_subset line (ih true)
    | false =>
      rw [keep_cons_of_kept lines hskip]
      exact List.cons_subset_cons line (ih false)

/-- What is kept once is kept again. -/
theorem keep_keep (skip : Bool) (lines : List (List α)) :
    keep space signature false (keep space signature skip lines) = keep space signature skip lines := by
  induction lines generalizing skip with
  | nil => rfl
  | cons line lines ih =>
    cases hskip : (if line.head? = some space then skip else signature line) with
    | true =>
      rw [keep_cons_of_skipped lines hskip]
      exact ih true
    | false =>
      -- a line that is kept is kept whatever came before it
      have hagain : (if line.head? = some space then false else signature line) = false := by
        by_cases hspace : line.head? = some space
        · rw [if_pos hspace]
        · rwa [if_neg hspace] at hskip ⊢
      rw [keep_cons_of_kept lines hskip, keep_cons_of_kept _ hagain, ih]

/-- No line that is kept starts a signature. -/
theorem signature_of_mem_keep {skip : Bool} {lines : List (List α)} {line : List α}
    (hline : line ∈ keep space signature skip lines) (hspace : line.head? ≠ some space) : signature line = false := by
  induction lines generalizing skip with
  | nil => cases hline
  | cons first lines ih =>
    cases hskip : (if first.head? = some space then skip else signature first) with
    | true =>
      rw [keep_cons_of_skipped lines hskip] at hline
      exact ih hline
    | false =>
      rw [keep_cons_of_kept lines hskip] at hline
      rcases List.mem_cons.mp hline with rfl | hline
      · rwa [if_neg hspace] at hskip
      · exact ih hline

end Keep

/-- The headers of the lines of a block, if they are a header block. -/
def headersOf : List (Text × Text) → List Text → Option (List (Text × Text))
  | headers, [] => some headers
  | headers, line :: lines => (headerLine headers line).bind fun headers => headersOf headers lines

theorem splitLoop_eq (message : Text) (headers : List (Text × Text)) (rest : Text) :
    splitLoop message headers rest =
      (block '\n' rest).elim ⟨[], message⟩ fun parts =>
        (headersOf headers parts.1).elim ⟨[], message⟩ fun headers => ⟨headers, parts.2⟩ := by
  induction hlen : rest.length using Nat.strong_induction_on generalizing rest headers with
  | _ n ih =>
    rw [splitLoop]
    split
    · rename_i hcut
      rw [block_of_cut_none hcut]
      rfl
    · rename_i line after hcut
      rw [block_of_cut hcut]
      by_cases hline : line = []
      · rw [if_pos hline, if_pos hline]
        rfl
      rw [if_neg hline, if_neg hline]
      have hrest := fun headers => ih after.length (hlen ▸ length_of_cut hcut) headers after rfl
      cases hheader : headerLine headers line with
      | none =>
        cases block '\n' after with
        | none => rfl
        | some parts => simp [headersOf, hheader]
      | some headers' =>
        dsimp only
        rw [hrest headers']
        cases block '\n' after with
        | none => rfl
        | some parts => simp [headersOf, hheader]

/-- **Splitting reads the headers off the block of lines.** -/
theorem splitCommitMessage_eq (message : Text) :
    splitCommitMessage message =
      (block '\n' message).elim ⟨[], message⟩ fun parts =>
        (headersOf [] parts.1).elim ⟨[], message⟩ fun headers => ⟨headers, parts.2⟩ := by
  unfold splitCommitMessage
  split
  · rename_i body
    have hcut : cut '\n' ('\n' :: body) = some ([], body) := by simp [cut]
    rw [block_of_cut hcut, if_pos rfl]
    rfl
  · exact splitLoop_eq message [] message

/-! ### The headers that are left -/

theorem signatureHeaderLine_eq_cut (line : Text) :
    signatureHeaderLine line = (cut ' ' line).any fun parts => isSignatureHeader parts.1 := by
  rw [signatureHeaderLine]
  cases hcut : cut ' ' line with
  | none => simp [cut_eq_none.mp hcut]
  | some parts =>
    obtain ⟨key, value⟩ := parts
    obtain ⟨rfl, hkey⟩ := cut_eq_some hcut
    have hno : ∀ c ∈ key, decide (c ≠ ' ') = true := by
      intro c hc
      exact decide_eq_true fun hspace => hkey (hspace ▸ hc)
    have htake : (key ++ ' ' :: value).takeWhile (· ≠ ' ') = key := by
      rw [List.takeWhile_append_of_pos hno, List.takeWhile_cons_of_neg (by simp), List.append_nil]
    rw [htake]
    simp

/-- The last of the headers is a signature. -/
def lastSigned (headers : List (Text × Text)) : Bool := headers.getLast?.any fun header => isSignatureHeader header.1

/-- The headers that are no signatures. -/
def unsigned (headers : List (Text × Text)) : List (Text × Text) :=
  headers.filter fun header => !isSignatureHeader header.1

theorem lastSigned_concat (headers : List (Text × Text)) (header : Text × Text) :
    lastSigned (headers ++ [header]) = isSignatureHeader header.1 := by
  rw [lastSigned, List.getLast?_concat, Option.any_some]

theorem unsigned_concat (headers : List (Text × Text)) (header : Text × Text) :
    unsigned (headers ++ [header]) =
      unsigned headers ++ (if isSignatureHeader header.1 then [] else [header]) := by
  rw [unsigned, List.filter_append, unsigned]
  cases h : isSignatureHeader header.1 <;> simp [h]

/-- One line: dropped after a signature or as one, and otherwise read as before. -/
theorem headerLine_keep {headers' : List (Text × Text)} {line : Text} (h : headerLine headers line = some headers') :
    lastSigned headers' = (if line.head? = some ' ' then lastSigned headers else signatureHeaderLine line) ∧
      (lastSigned headers' = true → unsigned headers' = unsigned headers) ∧
      (lastSigned headers' = false → headerLine (unsigned headers) line = some (unsigned headers')) := by
  unfold headerLine at h
  split at h
  · rename_i hspace
    -- a continuation of the last header, which stays what it is
    obtain ⟨last, hlast, hheaders⟩ := Option.map_eq_some_iff.mp h
    obtain ⟨before, rfl⟩ := List.getLast?_eq_some_iff.mp hlast
    rw [List.dropLast_concat] at hheaders
    subst hheaders
    rw [if_pos hspace, lastSigned_concat, lastSigned_concat, unsigned_concat, unsigned_concat]
    refine ⟨rfl, ?_, ?_⟩
    · intro hsigned
      have hsigned : isSignatureHeader last.1 = true := hsigned
      simp [hsigned]
    · intro hsigned
      have hsigned : isSignatureHeader last.1 = false := hsigned
      simp [hsigned, headerLine, hspace, continueLast]
  · rename_i hspace
    cases hcut : cut ' ' line with
    | none =>
      rw [hcut] at h
      cases h
    | some parts =>
      obtain ⟨key, value⟩ := parts
      simp only [hcut] at h
      split at h
      · rename_i hkey
        obtain rfl := Option.some.inj h
        rw [if_neg hspace, lastSigned_concat, unsigned_concat]
        have hline : signatureHeaderLine line = isSignatureHeader key := by
          rw [signatureHeaderLine_eq_cut, hcut, Option.any_some]
        refine ⟨hline.symm, ?_, ?_⟩
        · intro hsigned
          have hsigned : isSignatureHeader key = true := hsigned
          simp [hsigned]
        · intro hsigned
          have hsigned : isSignatureHeader key = false := hsigned
          simp only [headerLine, if_neg hspace, hcut, if_pos hkey, hsigned]
          rfl
      · cases h

/-- **The lines that are kept hold the headers that are no signatures.** -/
theorem headersOf_keep {out : List (Text × Text)} (h : headersOf headers lines = some out) :
    headersOf (unsigned headers) (keep ' ' signatureHeaderLine (lastSigned headers) lines) = some (unsigned out) := by
  induction lines generalizing headers with
  | nil =>
    rw [← Option.some.inj h]
    rfl
  | cons line lines ih =>
    obtain ⟨headers', hline, hrest⟩ := Option.bind_eq_some_iff.mp h
    obtain ⟨hlast, hdropped, hkept⟩ := headerLine_keep hline
    have hih := ih hrest
    cases hsigned : lastSigned headers' with
    | true =>
      rw [keep_cons_of_skipped lines (hlast.symm.trans hsigned), ← hdropped hsigned]
      rwa [hsigned] at hih
    | false =>
      rw [keep_cons_of_kept lines (hlast.symm.trans hsigned), headersOf, hkept hsigned]
      rwa [hsigned] at hih

theorem lastSigned_of_unsigned (h : unsigned headers = headers) : lastSigned headers = false := by
  rw [lastSigned, Option.any_eq_false]
  intro last hlast
  have hmem := List.mem_of_getLast? hlast
  rw [← h] at hmem
  simpa using (List.mem_filter.mp hmem).2

/-- Lines of which none starts a signature give no signature. -/
theorem unsigned_headersOf {out : List (Text × Text)}
    (hlines : ∀ line ∈ lines, line.head? ≠ some ' ' → signatureHeaderLine line = false)
    (hheaders : unsigned headers = headers) (h : headersOf headers lines = some out) : unsigned out = out := by
  induction lines generalizing headers with
  | nil =>
    rw [← Option.some.inj h]
    exact hheaders
  | cons line lines ih =>
    obtain ⟨headers', hline, hrest⟩ := Option.bind_eq_some_iff.mp h
    refine ih (fun other hother => hlines other (List.mem_cons_of_mem line hother)) ?_ hrest
    obtain ⟨hlast, -, hkept⟩ := headerLine_keep hline
    have hsigned : lastSigned headers' = false := by
      rw [hlast]
      by_cases hspace : line.head? = some ' '
      · rw [if_pos hspace, lastSigned_of_unsigned hheaders]
      · rw [if_neg hspace, hlines line List.mem_cons_self hspace]
    have hsame := hkept hsigned
    rw [hheaders, hline] at hsame
    exact (Option.some.inj hsame).symm

theorem hasSignature_of_unsigned {parts : CommitMessageParts} (h : unsigned parts.headers = parts.headers) :
    parts.hasSignature = false := by
  rw [CommitMessageParts.hasSignature, List.any_eq_false]
  intro header hheader
  rw [← h] at hheader
  simpa using (List.mem_filter.mp hheader).2

/-! ### Stripping over characters -/

theorem stripLines_splitOn (skip : Bool) (output text : Text) :
    stripLines skip output (text.splitOn '\n') =
      (block '\n' text).map fun parts =>
        output ++ blockText '\n' (keep ' ' signatureHeaderLine skip parts.1) parts.2 := by
  induction hlen : text.length using Nat.strong_induction_on generalizing text skip output with
  | _ n ih =>
    cases hcut : cut '\n' text with
    | none =>
      rw [List.splitOn_eq_singleton (cut_eq_none.mp hcut), block_of_cut_none hcut]
      rfl
    | some parts =>
      obtain ⟨line, after⟩ := parts
      obtain ⟨htext, hline⟩ := cut_eq_some hcut
      have hsplit : text.splitOn '\n' = line :: after.splitOn '\n' := by
        rw [htext, List.splitOn_append_cons_self_of_not_mem hline]
      obtain ⟨next, rest, hnext⟩ := List.exists_cons_of_ne_nil (List.splitOn_ne_nil '\n' after)
      have hstep := fun skip output => ih after.length (hlen ▸ length_of_cut hcut) skip output after rfl
      rw [hsplit, block_of_cut hcut, hnext, stripLines, ← hnext]
      by_cases hempty : line = []
      · rw [if_pos hempty, if_pos hempty, List.intercalate_splitOn]
        rfl
      rw [if_neg hempty, if_neg hempty, hstep]
      cases block '\n' after with
      | none => rfl
      | some parts =>
        simp only [Option.map_some, keep]
        generalize (if line.head? = some ' ' then skip else signatureHeaderLine line) = skip'
        cases skip' with
        | true => rfl
        | false => simp [blockText_cons]

/-- **Over characters too, stripping keeps lines.** -/
theorem stripSignatureHeaders_eq (text : Text) :
    stripSignatureHeaders text = stripBlock '\n' ' ' signatureHeaderLine text := by
  rw [stripSignatureHeaders, stripLines_splitOn, stripBlock]
  cases block '\n' text with
  | none => rfl
  | some parts => rfl

/-- The block of what stripping leaves. -/
theorem block_stripSignatureHeaders {body : Text} (h : block '\n' text = some (lines, body)) :
    block '\n' (stripSignatureHeaders text) = some (keep ' ' signatureHeaderLine false lines, body) := by
  have hlines := (block_eq_some h).2
  rw [stripSignatureHeaders_eq, stripBlock, h]
  exact block_blockText (fun line hline => hlines line (keep_subset false lines hline)) body

theorem stripSignatureHeaders_of_block_none (h : block '\n' text = none) : stripSignatureHeaders text = text := by
  rw [stripSignatureHeaders_eq, stripBlock, h]
  rfl

theorem stripSignatureHeaders_idem (text : Text) : stripSignatureHeaders (stripSignatureHeaders text) = stripSignatureHeaders text := by
  cases h : block '\n' text with
  | none => rw [stripSignatureHeaders_of_block_none h, stripSignatureHeaders_of_block_none h]
  | some parts =>
    obtain ⟨lines, body⟩ := parts
    have hstripped := block_stripSignatureHeaders h
    rw [stripSignatureHeaders_eq, stripBlock, hstripped, Option.elim_some, keep_keep]
    exact (block_eq_some hstripped).1.symm

theorem body_ne_of_block {body : Text} (h : block '\n' text = some (lines, body)) : body ≠ text := by
  intro hsame
  have hlen := congrArg List.length (hsame.trans (block_eq_some h).1)
  simp [blockText] at hlen
  omega

theorem splitCommitMessage_of_block {body : Text} (h : block '\n' text = some (lines, body)) :
    splitCommitMessage text = (headersOf [] lines).elim ⟨[], text⟩ fun headers => ⟨headers, body⟩ := by
  rw [splitCommitMessage_eq, h]
  rfl

theorem hasSignature_stripSignatureHeaders (text : Text) : (splitCommitMessage (stripSignatureHeaders text)).hasSignature = false := by
  refine hasSignature_of_unsigned ?_
  cases h : block '\n' text with
  | none =>
    rw [stripSignatureHeaders_of_block_none h, splitCommitMessage_eq, h]
    rfl
  | some parts =>
    obtain ⟨lines, body⟩ := parts
    rw [splitCommitMessage_of_block (block_stripSignatureHeaders h)]
    cases hheaders : headersOf [] (keep ' ' signatureHeaderLine false lines) with
    | none => rfl
    | some headers => exact unsigned_headersOf (fun line hline => signature_of_mem_keep hline) rfl hheaders

/-- A header block is parsed if the text is not its own body. -/
theorem headers_of_parsed (h : (splitCommitMessage text).body ≠ text) :
    ∃ lines body headers, block '\n' text = some (lines, body) ∧ headersOf [] lines = some headers ∧
      splitCommitMessage text = ⟨headers, body⟩ := by
  cases hblock : block '\n' text with
  | none =>
    rw [splitCommitMessage_eq, hblock] at h
    exact absurd rfl h
  | some parts =>
    obtain ⟨lines, body⟩ := parts
    have hsplit := splitCommitMessage_of_block hblock
    cases hheaders : headersOf [] lines with
    | none =>
      rw [hsplit, hheaders] at h
      exact absurd rfl h
    | some headers =>
      rw [hheaders] at hsplit
      exact ⟨lines, body, headers, rfl, hheaders, hsplit⟩

theorem splitCommitMessage_stripSignatureHeaders (h : (splitCommitMessage text).body ≠ text) :
    splitCommitMessage (stripSignatureHeaders text) =
      ⟨unsigned (splitCommitMessage text).headers, (splitCommitMessage text).body⟩ := by
  obtain ⟨lines, body, headers, hblock, hheaders, hsplit⟩ := headers_of_parsed h
  have hkept : headersOf [] (keep ' ' signatureHeaderLine false lines) = some (unsigned headers) := headersOf_keep hheaders
  rw [splitCommitMessage_of_block (block_stripSignatureHeaders hblock), hkept, hsplit]
  rfl

/-! ### Bytes and characters -/

/-- An ASCII byte occurs in the code of its own character only. -/
theorem toNat_of_mem_utf8EncodeChar {c : Char} {b : UInt8} (hb : b.toNat < 128)
    (h : b ∈ String.utf8EncodeChar c) : c.toNat = b.toNat := by
  have hv : c.val.toNat = c.toNat := rfl
  unfold String.utf8EncodeChar at h
  simp only [hv] at h
  split at h
  · rw [List.mem_singleton.mp h]
    simp
    omega
  -- every byte of a longer code is at least 128
  · split at h
    · simp only [List.mem_cons, List.not_mem_nil, or_false] at h
      rcases h with rfl | rfl <;> simp at hb <;> omega
    · split at h
      · simp only [List.mem_cons, List.not_mem_nil, or_false] at h
        rcases h with rfl | rfl | rfl <;> simp at hb <;> omega
      · simp only [List.mem_cons, List.not_mem_nil, or_false] at h
        rcases h with rfl | rfl | rfl | rfl <;> simp at hb <;> omega

theorem utf8EncodeChar_newline : String.utf8EncodeChar '\n' = [0x0a] := rfl

theorem utf8EncodeChar_space : String.utf8EncodeChar ' ' = [0x20] := rfl

theorem newline_notMem_utf8EncodeChar (c : Char) (h : c ≠ '\n') : (0x0a : UInt8) ∉ String.utf8EncodeChar c :=
  fun hmem => h (Char.toNat_inj.mp (toNat_of_mem_utf8EncodeChar (by decide) hmem))

theorem space_notMem_utf8EncodeChar (c : Char) (h : c ≠ ' ') : (0x20 : UInt8) ∉ String.utf8EncodeChar c :=
  fun hmem => h (Char.toNat_inj.mp (toNat_of_mem_utf8EncodeChar (by decide) hmem))

theorem utf8EncodeChar_ne_nil (c : Char) : String.utf8EncodeChar c ≠ [] := by
  rw [← List.length_pos_iff, String.length_utf8EncodeChar]
  exact c.utf8Size_pos

theorem encode_injective {a b : Text} (h : encode a = encode b) : a = b := by
  have hbytes : (String.ofList a).toByteArray = (String.ofList b).toByteArray := by
    rw [String.toByteArray_ofList, String.toByteArray_ofList]
    exact congrArg List.toByteArray h
  exact String.ofList_inj.mp (String.toByteArray_inj.mp hbytes)

theorem encode_inj {a b : Text} : encode a = encode b ↔ a = b := ⟨encode_injective, congrArg encode⟩

theorem head_utf8 (line : Text) : (encode line).head? = some 0x20 ↔ line.head? = some ' ' := by
  cases line with
  | nil => simp [encode]
  | cons c line =>
    obtain ⟨b, code, hcode⟩ := List.exists_cons_of_ne_nil (utf8EncodeChar_ne_nil c)
    rw [encode, List.flatMap_cons, hcode]
    by_cases hc : c = ' '
    · rw [hc, utf8EncodeChar_space] at hcode
      simp [hc, ← (List.cons.inj hcode).1]
    · have hb : b ≠ 0x20 := fun hb => space_notMem_utf8EncodeChar c hc (by rw [hcode, hb]; exact List.mem_cons_self)
      simp [hc, hb]

theorem Bytes.signatureHeaderLine_utf8 (line : Text) :
    Bytes.signatureHeaderLine (encode line) = View.signatureHeaderLine line := by
  have hcut : cut 0x20 (encode line) = (cut ' ' line).map fun parts => (encode parts.1, encode parts.2) :=
    cut_flatMap utf8EncodeChar_space space_notMem_utf8EncodeChar line
  rw [Bytes.signatureHeaderLine, hcut, signatureHeaderLine_eq_cut, Option.any_map]
  refine congrArg (fun p => Option.any p (cut ' ' line)) ?_
  funext parts
  simp only [encode_inj, isSignatureHeader, Bool.decide_or, beq_eq_decide]

theorem keep_map_utf8 (skip : Bool) (lines : List Text) :
    keep 0x20 Bytes.signatureHeaderLine skip (lines.map encode) = (keep ' ' signatureHeaderLine skip lines).map encode := by
  induction lines generalizing skip with
  | nil => rfl
  | cons line lines ih =>
    have hskip : (if (encode line).head? = some 0x20 then skip else Bytes.signatureHeaderLine (encode line)) =
        (if line.head? = some ' ' then skip else signatureHeaderLine line) := by
      rw [Bytes.signatureHeaderLine_utf8]
      exact if_congr (head_utf8 line) rfl rfl
    rw [List.map_cons]
    cases h : (if line.head? = some ' ' then skip else signatureHeaderLine line) with
    | true => rw [keep_cons_of_skipped _ (hskip.trans h), keep_cons_of_skipped _ h, ih]
    | false => rw [keep_cons_of_kept _ (hskip.trans h), keep_cons_of_kept _ h, ih, List.map_cons]

/-- **On the bytes of a text, stripping leaves the bytes of the stripped text.** -/
theorem Bytes.stripSignatureHeaders_utf8 (text : Text) :
    Bytes.stripSignatureHeaders (encode text) = encode (View.stripSignatureHeaders text) := by
  have hblock : block 0x0a (encode text) = (block '\n' text).map fun parts => (parts.1.map encode, encode parts.2) :=
    block_flatMap utf8EncodeChar_newline newline_notMem_utf8EncodeChar utf8EncodeChar_ne_nil text
  rw [Bytes.stripSignatureHeaders, stripLoop_eq, hblock, stripSignatureHeaders_eq, stripBlock]
  cases block '\n' text with
  | none => rfl
  | some parts =>
    rw [Option.map_some, Option.elim_some, Option.elim_some, List.nil_append, keep_map_utf8]
    exact (flatMap_blockText utf8EncodeChar_newline _ _).symm

/-- **Stripping is exact.** It leaves a text. Stripping again changes nothing; the stripped text has no
signature; of a text that parses as a header block it keeps the body and the headers that are no
signatures; and a text without an empty line stays as it is. -/
theorem strip_signature_headers_exact (m : Text) :
    Bytes.stripSignatureHeaders (encode m) = encode (stripSignatureHeaders m) ∧
      Bytes.stripSignatureHeaders (Bytes.stripSignatureHeaders (encode m)) = Bytes.stripSignatureHeaders (encode m) ∧
      (splitCommitMessage (stripSignatureHeaders m)).hasSignature = false ∧
      ((splitCommitMessage m).body ≠ m →
        (splitCommitMessage (stripSignatureHeaders m)).body ≠ stripSignatureHeaders m ∧
        (splitCommitMessage (stripSignatureHeaders m)).body = (splitCommitMessage m).body ∧
        (splitCommitMessage (stripSignatureHeaders m)).headers =
          (splitCommitMessage m).headers.filter fun header => !isSignatureHeader header.1) ∧
      (¬ HasEmptyLine '\n' m → Bytes.stripSignatureHeaders (encode m) = encode m) := by
  refine ⟨Bytes.stripSignatureHeaders_utf8 m, ?_, hasSignature_stripSignatureHeaders m, ?_, ?_⟩
  · rw [Bytes.stripSignatureHeaders_utf8, Bytes.stripSignatureHeaders_utf8, stripSignatureHeaders_idem]
  · intro hparsed
    have hsplit := splitCommitMessage_stripSignatureHeaders hparsed
    refine ⟨?_, by rw [hsplit], by rw [hsplit]; rfl⟩
    obtain ⟨lines, body, headers, hblock, -, hm⟩ := headers_of_parsed hparsed
    rw [hsplit, hm]
    exact body_ne_of_block (block_stripSignatureHeaders hblock)
  · intro hempty
    rw [Bytes.stripSignatureHeaders_utf8, stripSignatureHeaders_of_block_none (block_eq_none.mpr hempty)]

end View
end Mega
