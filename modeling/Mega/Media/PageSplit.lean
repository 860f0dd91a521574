/-
# The split into pages

`canonical_entries_bytes`, `longest_page_prefix` and `split_pages` of
`ceres/lfs/media/protocol.rs`. The encoding of a list of entries is written out
here: it grows with the list, so the binary search of `longest_page_prefix`
finds the longest page, and pages that are as long as they can be are as few as
they can be.

Key definitions: `canonicalEntriesBytes`, `Codec.canonical`, `LegalPage`.
Key theorems: `longestPage_spec`, `splitPages_exact`.
-/
import Mega.Lib.GreedySplit
import Mega.Json.Strings
import Mega.Media.Protocol

namespace Mega
namespace Media

open List View Fallible

/-! ### The encoding -/

def decimal (n : ℕ) : Text := n.repr.toList

/-- A member of a JSON object. -/
def jsonMember (name : String) (value : Text) : Text := Json.writeJsonString name.toList ++ ':' :: value

/-- One entry; a checksum that is not there is left out. -/
def entryText (c : ChunkEntry) : Text :=
  let fields := [jsonMember "offset" (decimal c.offset), jsonMember "length" (decimal c.length),
    jsonMember "chunk_hash" (Json.writeJsonString c.chunkHash), jsonMember "encoded_length" (decimal c.encodedLength),
    jsonMember "compression" (Json.writeJsonString c.compression)] ++
    (c.checksum.map fun checksum => jsonMember "checksum" (Json.writeJsonString checksum)).toList
  '\x7b' :: [','].intercalate fields ++ ['\x7d']

def canonicalEntriesBytes (entries : List ChunkEntry) : Bytes :=
  ('[' :: [','].intercalate (entries.map entryText) ++ [']']).flatMap String.utf8EncodeChar

/-- The codec, with the sizes of entries as they are. -/
def Codec.canonical (codec : Codec) : Codec :=
  { codec with entriesSize := fun entries => (canonicalEntriesBytes entries).length }

/-- The JSON that `MediaManifest::id` hashes. -/
def identityJson (i : Identity) : Bytes :=
  ('[' :: [','].intercalate [decimal i.version, Json.writeJsonString i.algorithm, Json.writeJsonString i.hashAlgorithm,
    Json.writeJsonString i.mediaOid, decimal i.mediaSize] ++ [',']).flatMap String.utf8EncodeChar ++
    canonicalEntriesBytes i.chunks ++ "]".toList.flatMap String.utf8EncodeChar

def nameEnding (digit : Char) : Text := List.replicate 63 '0' ++ [digit]

/-- A stand-in for SHA-256, which looks at the first byte and, if that is 1, at the length. -/
def sampleSha (bytes : Bytes) : Text :=
  match bytes.head? with
  | some 1 => if bytes.length = minSize then nameEnding 'a' else nameEnding 'c'
  | some 2 => nameEnding 'b'
  | _ => nameEnding 'd'

def sampleCodec : Codec :=
  Codec.canonical ⟨sampleSha, identityJson, fun _ => 0, fun _ => 0, fun _ => 0, fun _ => 0, fun _ => 0⟩

def PageFits (entries : List ChunkEntry) : Prop :=
  entries.length ≤ maxPageEntries ∧ (canonicalEntriesBytes entries).length ≤ maxPageEntriesBytes

/-- What may be a page. -/
def LegalPage (page : List ChunkEntry) : Prop := page ≠ [] ∧ PageFits page

/-! ### Sizes -/

def textSize (text : Text) : ℕ := (text.flatMap String.utf8EncodeChar).length

/-- The bytes of the entries, each with the comma or bracket after it. -/
def weight (entries : List ChunkEntry) : ℕ := (entries.map fun c => textSize (entryText c) + 1).sum

theorem textSize_append (a b : Text) : textSize (a ++ b) = textSize a + textSize b := by simp [textSize]

theorem textSize_intercalate : ∀ (first : Text) (texts : List Text),
    textSize ([','].intercalate (first :: texts)) + 1 = ((first :: texts).map fun text => textSize text + 1).sum
  | first, [] => by simp [intercalate]
  | first, second :: texts => by
    have hcons : [','].intercalate (first :: second :: texts) = first ++ ',' :: [','].intercalate (second :: texts) := by
      simp [intercalate]
    have hcomma : textSize (',' :: [','].intercalate (second :: texts)) =
        textSize ([','].intercalate (second :: texts)) + 1 := by
      rw [← singleton_append, textSize_append, Nat.add_comm]
      rfl
    rw [hcons, textSize_append, hcomma, map_cons, sum_cons, ← textSize_intercalate second texts]
    omega

theorem length_canonicalEntriesBytes {entries : List ChunkEntry} (hne : entries ≠ []) :
    (canonicalEntriesBytes entries).length = weight entries + 1 := by
  rcases entries with _ | ⟨first, entries⟩
  · exact absurd rfl hne
  · have hsum := textSize_intercalate (entryText first) (entries.map entryText)
    have hsize : (canonicalEntriesBytes (first :: entries)).length =
        textSize ['['] + textSize ([','].intercalate ((first :: entries).map entryText)) + textSize [']'] := by
      rw [← textSize_append, ← textSize_append]
      rfl
    have hopen : textSize ['['] = 1 := rfl
    have hclose : textSize [']'] = 1 := rfl
    rw [hsize, hopen, hclose, map_cons]
    have hweight : weight (first :: entries) =
        ((entryText first :: entries.map entryText).map fun text => textSize text + 1).sum := by
      simp [weight, Function.comp_def]
    omega

/-- A part of a page is no longer than the page. -/
theorem pageFits_hereditary : GreedySplit.Hereditary PageFits := by
  intro page part hpart hne hfits
  obtain ⟨before, after, rfl⟩ := hpart
  have hweight : weight (before ++ part ++ after) = weight before + weight part + weight after := by
    simp [weight, Nat.add_assoc]
  have hsize := length_canonicalEntriesBytes hne
  have hwhole := length_canonicalEntriesBytes (by simp [hne] : before ++ part ++ after ≠ [])
  have hlength : (before ++ part ++ after).length = before.length + part.length + after.length := by
    simp [Nat.add_assoc]
  unfold PageFits at hfits ⊢
  exact ⟨by omega, by omega⟩

/-! ### The search -/

section Search

variable (codec : Codec) {chunks : List ChunkEntry}

/-- Longer first parts do not fit if a shorter one does not. -/
theorem pageFits_take_of_le {n m : ℕ} (hle : n ≤ m) (hpos : 0 < n) (hne : chunks ≠ []) (h : PageFits (chunks.take m)) :
    PageFits (chunks.take n) := by
  have hpart : chunks.take n <:+: chunks.take m := by
    have htake : chunks.take n = (chunks.take m).take n := by rw [take_take, Nat.min_eq_left hle]
    rw [htake]
    have hfront := take_prefix n (chunks.take m)
    exact hfront.isInfix
  refine pageFits_hereditary hpart ?_ h
  intro hnil
  rcases take_eq_nil_iff.mp hnil with hzero | hempty
  · omega
  · exact hne hempty

/-- The search narrows `lo..=hi`: what is below `lo` fits and what is above `hi` does not. -/
theorem searchPage_spec (hne : chunks ≠ []) (hone : PageFits (chunks.take 1)) {top : ℕ}
    (htop : top = min chunks.length maxPageEntries) : ∀ (fuel lo hi : ℕ), 1 ≤ lo → lo ≤ hi + 1 → hi ≤ top →
      hi + 1 ≤ lo + fuel → (lo = 1 ∨ PageFits (chunks.take (lo - 1))) →
      (∀ n ≤ top, hi < n → ¬ PageFits (chunks.take n)) →
      ∃ best, searchPage codec.canonical chunks fuel lo hi (lo - 1) = .ok best ∧ best ≤ top ∧
        (best = 0 ∨ PageFits (chunks.take best)) ∧ ∀ n ≤ top, best < n → ¬ PageFits (chunks.take n)
  | 0, lo, hi, hlo, hle, hhi, hfuel, hbelow, habove => by
    refine ⟨lo - 1, rfl, by omega, ?_, fun n hn hlt => habove n hn (by omega)⟩
    rcases hbelow with hone' | hfits
    · exact Or.inl (by omega)
    · exact Or.inr hfits
  | fuel + 1, lo, hi, hlo, hle, hhi, hfuel, hbelow, habove => by
    unfold searchPage
    by_cases hdone : hi < lo
    · rw [if_pos hdone]
      refine ⟨lo - 1, rfl, by omega, ?_, fun n hn hlt => habove n hn (by omega)⟩
      rcases hbelow with hone' | hfits
      · exact Or.inl (by omega)
      · exact Or.inr hfits
    · rw [if_neg hdone]
      set mid := (lo + hi) / 2 with hmid
      have hcount : (chunks.take mid).length ≤ maxPageEntries := by
        rw [length_take]
        omega
      by_cases hfits : codec.canonical.entriesSize (chunks.take mid) ≤ maxPageEntriesBytes
      · simp only [if_pos hfits]
        have hsearch := searchPage_spec hne hone htop fuel (mid + 1) hi (by omega) (by omega)
          hhi (by omega) (Or.inr ⟨hcount, hfits⟩) habove
        simpa only [Nat.add_sub_cancel] using hsearch
      · simp only [if_neg hfits]
        have hmidne : mid ≠ 1 := fun heq => hfits (heq ▸ hone.2)
        rw [if_neg hmidne]
        have hnot : ¬ PageFits (chunks.take mid) := fun h => hfits h.2
        refine searchPage_spec hne hone htop fuel lo (mid - 1) hlo (by omega) (by omega) (by omega) hbelow fun n hn hlt h => ?_
        exact hnot (pageFits_take_of_le (by omega) (by omega) hne h)

/-- **`longest_page_prefix` finds the longest page.** -/
theorem longestPage_spec (hne : chunks ≠ []) (hone : PageFits (chunks.take 1)) :
    ∃ n, longestPage codec.canonical chunks = .ok n ∧ 0 < n ∧ n ≤ chunks.length ∧ PageFits (chunks.take n) ∧
      ∀ m ≤ chunks.length, n < m → ¬ PageFits (chunks.take m) := by
  have hlen : 0 < chunks.length := length_pos_iff.mpr hne
  have hmax : 0 < maxPageEntries := by decide
  obtain ⟨best, hsearch, hle, hfits, habove⟩ := searchPage_spec codec hne hone rfl
    (min chunks.length maxPageEntries) 1 (min chunks.length maxPageEntries) (Nat.le_refl 1) (by omega)
    (Nat.le_refl _) (by omega) (Or.inl rfl) (fun n hn hlt => by omega)
  have hpos : 0 < best := by
    by_contra hzero
    exact habove 1 (by omega) (by omega) hone
  refine ⟨best, ?_, hpos, by omega, hfits.resolve_left (by omega), ?_⟩
  · unfold longestPage
    rw [if_neg hne]
    show (searchPage codec.canonical chunks (min chunks.length maxPageEntries) 1 (min chunks.length maxPageEntries)
      (1 - 1) >>= fun best => if best = 0 then .error .noPage else .ok best) = .ok best
    rw [hsearch]
    show (if best = 0 then _ else _) = _
    rw [if_neg (by omega)]
  · intro m hm hlt hfit
    by_cases htop : m ≤ maxPageEntries
    · exact habove m (by omega) hlt hfit
    · have hlength := hfit.1
      rw [length_take] at hlength
      omega

end Search

/-! ### The split -/

/-- **The loop cuts off the longest page each time.** -/
theorem splitFrom_spec (codec : Codec) : ∀ (fuel : ℕ) (rest : List ChunkEntry), rest.length ≤ fuel →
    (∀ c ∈ rest, PageFits [c]) → ∃ pages, splitFrom codec.canonical fuel rest = .ok pages ∧ pages.flatten = rest ∧
      GreedySplit.Legal PageFits pages ∧ GreedySplit.Full PageFits pages
  | 0, rest, hle, _ => by
    have hnil : rest = [] := length_eq_zero_iff.mp (Nat.le_zero.mp hle)
    exact ⟨[], rfl, hnil.symm, fun _ h => absurd h not_mem_nil, .nil⟩
  | fuel + 1, rest, hle, hone => by
    unfold splitFrom
    by_cases hnil : rest = []
    · rw [if_pos hnil]
      exact ⟨[], rfl, hnil.symm, fun _ h => absurd h not_mem_nil, .nil⟩
    · rw [if_neg hnil]
      have hfirst : PageFits (rest.take 1) := by
        rcases rest with _ | ⟨c, rest⟩
        · exact absurd rfl hnil
        · exact hone c mem_cons_self
      obtain ⟨n, hpage, hpos, hlen, hfits, hlongest⟩ := longestPage_spec codec hnil hfirst
      obtain ⟨pages, hpages, hflat, hlegal, hfull⟩ := splitFrom_spec codec fuel (rest.drop n)
        (by rw [length_drop]; omega) fun c hc => hone c (mem_of_mem_drop hc)
      refine ⟨rest.take n :: pages, ?_, ?_, ?_, .cons ?_ hfull⟩
      · rw [hpage]
        show (splitFrom codec.canonical fuel (rest.drop n) >>= fun pages => .ok (rest.take n :: pages)) = _
        rw [hpages]
        rfl
      · rw [flatten_cons, hflat, take_append_drop]
      · intro page hmem
        rcases mem_cons.mp hmem with rfl | hmem
        · refine ⟨fun hempty => ?_, hfits⟩
          rcases take_eq_nil_iff.mp hempty with hzero | hempty
          · omega
          · exact hnil hempty
        · exact hlegal page hmem
      · -- one more entry would make a longer first part of the rest
        intro c after hafter hmore
        rw [hflat] at hafter
        have hlt : n < rest.length := by
          have hdrop := congrArg length hafter
          rw [length_drop, length_cons] at hdrop
          omega
        have htake : rest.take (n + 1) = rest.take n ++ [c] := by
          have hget : rest[n]? = some c := by
            have hhead := congrArg head? hafter
            rw [head?_drop] at hhead
            exact hhead
          rw [take_add_one, hget]
          rfl
        exact hlongest (n + 1) hlt (Nat.lt_succ_self n) (htake ▸ hmore)

/-- **The split into pages is exact, and no other has fewer pages.** -/
theorem splitPages_exact (codec : Codec) (chunks : List ChunkEntry)
    (hone : ∀ c ∈ chunks, (canonicalEntriesBytes [c]).length ≤ maxPageEntriesBytes) :
    ∃ pages, splitPages codec.canonical chunks = .ok pages ∧ pages.flatten = chunks ∧
      (∀ page ∈ pages, LegalPage page) ∧
      (∀ before page after c rest, pages = before ++ page :: after → after.flatten = c :: rest →
        ¬ LegalPage (page ++ [c])) ∧
      (∀ others : List (List ChunkEntry), others.flatten = chunks → (∀ page ∈ others, LegalPage page) →
        pages.length ≤ others.length) ∧
      splitPages codec.canonical pages.flatten = .ok pages := by
  have hsingle : ∀ c ∈ chunks, PageFits [c] := fun c hc => ⟨by simp [maxPageEntries], hone c hc⟩
  obtain ⟨pages, hpages, hflat, hlegal, hfull⟩ := splitFrom_spec codec chunks.length chunks (Nat.le_refl _) hsingle
  refine ⟨pages, hpages, hflat, hlegal, ?_, ?_, ?_⟩
  · intro before page after c rest hsplit hafter hlonger
    exact hfull.stops hsplit hafter hlonger.2
  · intro others hothers hlegal'
    refine hfull.length_le pageFits_hereditary hlegal hlegal' ?_
    rw [hflat, hothers]
  · rw [hflat]
    exact hpages

def smallEntry : ChunkEntry := ⟨0, 70000, List.replicate 64 'a', 70000, compressionNone, none⟩

theorem splitPages_exact_twoEntries : ∃ pages,
    splitPages (Codec.canonical ⟨fun _ => [], fun _ => [], fun _ => 0, fun _ => 0, fun _ => 0, fun _ => 0, fun _ => 0⟩)
      [smallEntry, smallEntry] = .ok pages ∧ pages.flatten = [smallEntry, smallEntry] ∧ pages.length ≤ 2 := by
  have hsmall : (canonicalEntriesBytes [smallEntry]).length ≤ maxPageEntriesBytes := by decide +kernel
  have hone : ∀ c ∈ [smallEntry, smallEntry], (canonicalEntriesBytes [c]).length ≤ maxPageEntriesBytes := by
    simpa using hsmall
  obtain ⟨pages, hpages, hflat, _, _, hmin, _⟩ := splitPages_exact
    ⟨fun _ => [], fun _ => [], fun _ => 0, fun _ => 0, fun _ => 0, fun _ => 0, fun _ => 0⟩ [smallEntry, smallEntry] hone
  refine ⟨pages, hpages, hflat, hmin [[smallEntry], [smallEntry]] rfl ?_⟩
  intro page hpage
  have hpage : page = [smallEntry] := by simpa using hpage
  rw [hpage]
  exact ⟨by simp, by simp [maxPageEntries], hsmall⟩

end Media
end Mega
