/-
# Media manifests

`ceres/lfs/media/protocol.rs`: a manifest lists the chunks of a media file in
order. Its id is the SHA-256 of the fields that make up its identity, and its
chunks are uploaded as pages, each the longest stretch of the remaining chunks
within two budgets.

SHA-256 and the JSON encoding are parameters: `Codec.identityBytes` is the
encoding of the identity tuple, and the other fields of `Codec` are lengths of
encodings that are compared with a limit.

Key definitions: `MediaManifest`, `MediaManifest.validate`, `MediaManifest.id`,
`splitPages`.
Key theorems: `flatten_splitPages`, `id_eq_ok`.
-/
import Mega.Lib.Fallible
import Mega.View.Filter

namespace Mega
namespace Media

open View Fallible

abbrev Bytes := List UInt8

def manifestVersion : ℕ := 1
def maxEnvelopeSize : ℕ := 1048576
def maxPageEntries : ℕ := 4096
def maxPageEntriesBytes : ℕ := 960 * 1024
def maxCreatedByBytes : ℕ := 4096
def hashAlgorithm : Text := "sha256".toList
def compressionNone : Text := "none".toList

/-- `chunker::ALGORITHM`, `chunker::MIN_SIZE` and `chunker::MAX_SIZE`. -/
def chunkAlgorithm : Text := "fastcdc-v2020-32k".toList
def minSize : ℕ := 32 * 1024
def maxSize : ℕ := 256 * 1024

structure ChunkEntry where
  offset : ℕ
  length : ℕ
  chunkHash : Text
  encodedLength : ℕ
  compression : Text
  checksum : Option Text
deriving DecidableEq

structure CreatedBy where
  client : Text
  version : Text
  capabilities : List Text
deriving DecidableEq

structure MediaManifest where
  version : ℕ
  algorithm : Text
  hashAlgorithm : Text
  mediaOid : Text
  mediaSize : ℕ
  chunks : List ChunkEntry
  createdBy : CreatedBy
  fallbackOid : Option Text
deriving DecidableEq

structure ManifestPage where
  pageNo : ℕ
  entries : List ChunkEntry
deriving DecidableEq

structure ManifestResponse where
  manifestId : Text
  manifest : MediaManifest
deriving DecidableEq

structure PendingSession where
  createdAtUnix : ℕ
  manifest : MediaManifest
deriving DecidableEq

/-- The fields whose encoding is hashed. -/
structure Identity where
  version : ℕ
  algorithm : Text
  hashAlgorithm : Text
  mediaOid : Text
  mediaSize : ℕ
  chunks : List ChunkEntry
deriving DecidableEq

structure Codec where
  sha256 : Bytes → Text
  identityBytes : Identity → Bytes
  entriesSize : List ChunkEntry → ℕ
  createdBySize : CreatedBy → ℕ
  pendingSize : PendingSession → ℕ
  pageSize : ManifestPage → ℕ
  responseSize : ManifestResponse → ℕ

/-- What is wrong with a request, a page or a manifest. -/
inductive Invalid where
  | mismatchedFallback
  | fallbackNotHex
  | version
  | algorithm
  | hashAlgorithm
  | mediaOidNotHex
  | createdBy
  | emptyChunkList
  | checksum (chunk : ℕ)
  | length (chunk : ℕ)
  | chunkHash (chunk : ℕ)
  | compression (chunk : ℕ)
  | encodedLength (chunk : ℕ)
  | contiguity (chunk : ℕ)
  | offsetOverflow
  | mediaSize
  | singleEntry
  | noPage
  | emptyPage
  | pageEntries
  | pageBytes
  | objectId
  | envelope
  | pageCount
  | expired
  | pageOutOfRange
  | notSealed
  | notDeclared
  | chunkLength
  | chunkTooLarge
  | chunkContent
  | manifestId
  | fallbackOid
  | coverage
  | coverageOverflow
  | incomplete
  | digest
  | deadline
deriving DecidableEq

def isSha256Hex (s : Text) : Bool :=
  s.length = 64 ∧ s.all fun c => c.isDigit ∨ ('a'.toNat ≤ c.toNat ∧ c.toNat ≤ 'f'.toNat)

/-! ### Validation -/

/-- The last chunk, or one that may be the last, has no lower bound. -/
def validateChunkFields (i : ℕ) (c : ChunkEntry) (tailOrUnknown : Bool) : Except Invalid Unit :=
  if c.checksum.isSome then .error (.checksum i)
  else if c.length > maxSize ∨ c.length < (if tailOrUnknown then 1 else minSize) then .error (.length i)
  else if ¬ isSha256Hex c.chunkHash then .error (.chunkHash i)
  else if c.compression ≠ compressionNone then .error (.compression i)
  else if c.encodedLength ≠ c.length then .error (.encodedLength i)
  else .ok ()

/-- The loop over the chunks: where the chunks end. -/
def validateChunks (n : ℕ) : ℕ → ℕ → List ChunkEntry → Except Invalid ℕ
  | _, expected, [] => .ok expected
  | i, expected, c :: cs => do
    validateChunkFields i c (i + 1 = n)
    if c.offset ≠ expected then .error (.contiguity i)
    else if 2 ^ 64 ≤ expected + c.length then .error .offsetOverflow
    else validateChunks n (i + 1) (expected + c.length) cs

namespace MediaManifest

variable (codec : Codec) (m : MediaManifest)

def validate : Except Invalid Unit :=
  if m.fallbackOid.any (· ≠ m.mediaOid) then .error .mismatchedFallback
  else if m.fallbackOid.any (¬ isSha256Hex ·) then .error .fallbackNotHex
  else if m.version ≠ manifestVersion then .error .version
  else if m.algorithm ≠ chunkAlgorithm then .error .algorithm
  else if m.hashAlgorithm ≠ Media.hashAlgorithm then .error .hashAlgorithm
  else if ¬ isSha256Hex m.mediaOid then .error .mediaOidNotHex
  else if codec.createdBySize m.createdBy > maxCreatedByBytes then .error .createdBy
  else if m.chunks = [] then if m.mediaSize ≠ 0 then .error .emptyChunkList else .ok ()
  else do
    let covered ← validateChunks m.chunks.length 0 0 m.chunks
    if covered ≠ m.mediaSize then .error .mediaSize else .ok ()

def identity : Identity :=
  ⟨m.version, m.algorithm, m.hashAlgorithm, m.mediaOid, m.mediaSize, m.chunks⟩

def id : Except Invalid Text := do
  m.validate codec
  .ok (codec.sha256 (codec.identityBytes m.identity))

end MediaManifest

theorem id_eq_ok {codec : Codec} {m : MediaManifest} {manifestId : Text} (h : m.id codec = .ok manifestId) :
    m.validate codec = .ok () ∧ codec.sha256 (codec.identityBytes m.identity) = manifestId := by
  obtain ⟨hvalid, h⟩ := check_bind_eq_ok.mp h
  exact ⟨hvalid, Except.ok.inj h⟩

/-- `ManifestPage::validate`. -/
def ManifestPage.validate (codec : Codec) (page : ManifestPage) : Except Invalid Unit :=
  if page.entries = [] then .error .emptyPage
  else if page.entries.length > maxPageEntries then .error .pageEntries
  else if codec.entriesSize page.entries > maxPageEntriesBytes then .error .pageBytes
  else page.entries.zipIdx.forM fun c => validateChunkFields c.2 c.1 true

theorem entries_ne_nil_of_validate {codec : Codec} {page : ManifestPage} (h : page.validate codec = .ok ()) :
    page.entries ≠ [] := by
  unfold ManifestPage.validate at h
  exact (guard_eq_ok.mp h).1

/-! ### Pages -/

section Split

variable (codec : Codec)

/-- The binary search of `longest_page_prefix`; `fuel` bounds the rounds. -/
def searchPage (chunks : List ChunkEntry) : ℕ → ℕ → ℕ → ℕ → Except Invalid ℕ
  | 0, _, _, best => .ok best
  | fuel + 1, lo, hi, best =>
    if hi < lo then .ok best
    else
      let mid := (lo + hi) / 2
      if codec.entriesSize (chunks.take mid) ≤ maxPageEntriesBytes then
        searchPage chunks fuel (mid + 1) hi mid
      else if mid = 1 then .error .singleEntry
      else searchPage chunks fuel lo (mid - 1) best

/-- How many chunks the next page holds. -/
def longestPage (chunks : List ChunkEntry) : Except Invalid ℕ :=
  if chunks = [] then .ok 0
  else do
    let hi := min chunks.length maxPageEntries
    let best ← searchPage codec chunks hi 1 hi 0
    if best = 0 then .error .noPage else .ok best

/-- The loop of `split_pages`; each page takes at least one chunk. -/
def splitFrom : ℕ → List ChunkEntry → Except Invalid (List (List ChunkEntry))
  | 0, _ => .ok []
  | fuel + 1, rest =>
    if rest = [] then .ok []
    else do
      let n ← longestPage codec rest
      let pages ← splitFrom fuel (rest.drop n)
      .ok (rest.take n :: pages)

def splitPages (chunks : List ChunkEntry) : Except Invalid (List (List ChunkEntry)) :=
  splitFrom codec chunks.length chunks

variable {codec}

theorem longestPage_pos {chunks : List ChunkEntry} {n : ℕ} (hne : chunks ≠ [])
    (h : longestPage codec chunks = .ok n) : 0 < n := by
  rw [longestPage, if_neg hne] at h
  obtain ⟨best, -, h⟩ := bind_eq_ok.mp h
  obtain ⟨h0, h⟩ := guard_eq_ok.mp h
  cases h
  omega

theorem flatten_splitFrom : ∀ {fuel : ℕ} {rest : List ChunkEntry} {pages : List (List ChunkEntry)},
    rest.length ≤ fuel → splitFrom codec fuel rest = .ok pages → pages.flatten = rest
  | 0, rest, pages, hle, h => by
    cases h
    exact (List.length_eq_zero_iff.mp (Nat.le_zero.mp hle)).symm
  | fuel + 1, rest, pages, hle, h => by
    unfold splitFrom at h
    split_ifs at h with hnil
    · cases h
      exact hnil.symm
    · obtain ⟨n, hpage, h⟩ := bind_eq_ok.mp h
      obtain ⟨pages', hrest, h⟩ := bind_eq_ok.mp h
      have hpos := longestPage_pos hnil hpage
      have hdrop : (rest.drop n).length ≤ fuel := by
        rw [List.length_drop]
        omega
      cases h
      rw [List.flatten_cons, flatten_splitFrom hdrop hrest, List.take_append_drop]

/-- The pages hold the chunks, in order. -/
theorem flatten_splitPages {chunks : List ChunkEntry} {pages : List (List ChunkEntry)}
    (h : splitPages codec chunks = .ok pages) : pages.flatten = chunks :=
  flatten_splitFrom (Nat.le_refl _) h

end Split

end Media
end Mega
