/-
# The similarity of two contents

`content_similarity_percent` of `ceres/diff/similarity.rs` scores two contents for
rename detection. A content is cut into spans, at its newlines if it is text and
after 64 bytes at the latest, and the lengths of spans with the same hash are added
up. The score is the percentage of the larger content that both have in common.

The size guard answers zero without hashing when the sizes alone keep the score
below the minimum. The product of the score is taken in `u64` and goes round, which
can only make the score smaller.

Key definitions: `buildSpanHashes`, `passesSizeGuard`, `contentSimilarityPercent`, `unguardedSimilarityPercent`.
Key theorems: `total_buildSpanHashes`, `similarity_laws`.
-/
import Mega.Lib.SortBy
import Mega.Lib.Weights

namespace Mega
namespace Similarity

open List

def maxScore : ℕ := 100

def spanSize : ℕ := 64

/-- A content with a zero byte counts as binary. -/
def isProbablyBinary (content : List UInt8) : Bool := content.contains 0

/-! ### Spans -/

/-- Folds one completed span into the table of weights. -/
def addSpanHash (spans : List (UInt32 × ℕ)) (accum1 accum2 : UInt32) (spanLen : ℕ) : List (UInt32 × ℕ) :=
  Weights.add spans (accum1 + accum2 * 0x61) spanLen

/-- The state of the loop over the bytes. -/
structure Scan where
  spans : List (UInt32 × ℕ) := []
  accum1 : UInt32 := 0
  accum2 : UInt32 := 0
  spanLen : ℕ := 0

def Scan.close (scan : Scan) : List (UInt32 × ℕ) := addSpanHash scan.spans scan.accum1 scan.accum2 scan.spanLen

/-- One byte that is hashed. -/
def Scan.push (isText : Bool) (scan : Scan) (byte : UInt8) : Scan :=
  let next : Scan :=
    { spans := scan.spans
      accum1 := ((scan.accum1 <<< 7) ^^^ (scan.accum2 >>> 25)) + byte.toUInt32
      accum2 := (scan.accum2 <<< 7) ^^^ (scan.accum1 >>> 25)
      spanLen := scan.spanLen + 1 }
  if next.spanLen < spanSize ∧ (isText = false ∨ byte ≠ 10) then next else { spans := next.close }

/-- A carriage return before a newline of a text is left out. -/
def isSkipped (isText : Bool) (byte : UInt8) (rest : List UInt8) : Bool :=
  isText && byte == 13 && rest.head? == some 10

def scanBytes (isText : Bool) : Scan → List UInt8 → Scan
  | scan, [] => scan
  | scan, byte :: rest =>
    if isSkipped isText byte rest then scanBytes isText scan rest else scanBytes isText (scan.push isText byte) rest

/-- The table of weights of a content, in the order its spans came. -/
def spanTable (content : List UInt8) : List (UInt32 × ℕ) :=
  let scan := scanBytes (!isProbablyBinary content) {} content
  if 0 < scan.spanLen then scan.close else scan.spans

/-- The weights of the spans, sorted by hash. -/
def buildSpanHashes (content : List UInt8) : List (UInt32 × ℕ) :=
  KeySort.sortBy (fun span => span.1.toNat) (spanTable content)

/-- The bytes of a content that are hashed. -/
def hashedBytes (isText : Bool) : List UInt8 → List UInt8
  | [] => []
  | byte :: rest =>
    if isSkipped isText byte rest then hashedBytes isText rest else byte :: hashedBytes isText rest

/-! ### Score -/

/-- The sorted tables are merged; a span counts with the smaller of its weights. -/
def countCopiedSourceBytes (srcSpans dstSpans : List (UInt32 × ℕ)) : ℕ :=
  Weights.common (srcSpans.map fun span => (span.1.toNat, span.2)) (dstSpans.map fun span => (span.1.toNat, span.2))

def passesSizeGuard (oldSize newSize minimumScore : ℕ) : Bool :=
  let maxSize := max oldSize newSize
  let baseSize := min oldSize newSize
  (maxSize - baseSize) * maxScore ≤ maxSize * (maxScore - minimumScore)

/-- The score of two contents that differ and are not empty. -/
def spanScore (oldBytes newBytes : List UInt8) : ℕ :=
  let srcCopied := countCopiedSourceBytes (buildSpanHashes oldBytes) (buildSpanHashes newBytes)
  let maxSize := max oldBytes.length newBytes.length
  if maxSize = 0 then 0 else min (srcCopied * maxScore % 2 ^ 64 / maxSize) maxScore

def contentSimilarityPercent (oldBytes newBytes : List UInt8) (minimumScore : ℕ) : ℕ :=
  if oldBytes = newBytes then 100
  else if oldBytes = [] ∨ newBytes = [] then 0
  else if !passesSizeGuard oldBytes.length newBytes.length (min minimumScore maxScore) then 0
  else spanScore oldBytes newBytes

/-- The score without the size guard. -/
def unguardedSimilarityPercent (oldBytes newBytes : List UInt8) : ℕ :=
  if oldBytes = newBytes then 100
  else if oldBytes = [] ∨ newBytes = [] then 0
  else spanScore oldBytes newBytes

/-! ### Weights of spans -/

theorem total_close (scan : Scan) : Weights.total scan.close = Weights.total scan.spans + scan.spanLen :=
  Weights.total_add _ _ _

/-- What a scan has counted so far. -/
def Scan.counted (scan : Scan) : ℕ := Weights.total scan.spans + scan.spanLen

theorem counted_push (isText : Bool) (scan : Scan) (byte : UInt8) :
    (scan.push isText byte).counted = scan.counted + 1 := by
  unfold Scan.push
  simp only
  split_ifs
  · rfl
  · show Weights.total (Scan.close _) + 0 = _
    rw [total_close]
    rfl

/-- The loop counts every byte that is hashed. -/
theorem counted_scanBytes (isText : Bool) : ∀ (content : List UInt8) (scan : Scan),
    (scanBytes isText scan content).counted = scan.counted + (hashedBytes isText content).length
  | [], scan => rfl
  | byte :: rest, scan => by
    rw [scanBytes, hashedBytes]
    split_ifs
    · exact counted_scanBytes isText rest scan
    · rw [counted_scanBytes isText rest, counted_push, length_cons]
      omega

theorem total_spanTable (content : List UInt8) :
    Weights.total (spanTable content) = (hashedBytes (!isProbablyBinary content) content).length := by
  have hcounted := counted_scanBytes (!isProbablyBinary content) content {}
  have hstart : Scan.counted {} = 0 := rfl
  rw [hstart, Nat.zero_add] at hcounted
  rw [← hcounted, spanTable, Scan.counted]
  split_ifs with hopen
  · exact total_close _
  · omega

/-- **The weights of a content's spans add up to the number of its hashed bytes.** -/
theorem total_buildSpanHashes (content : List UInt8) :
    Weights.total (buildSpanHashes content) = (hashedBytes (!isProbablyBinary content) content).length := by
  rw [← total_spanTable]
  exact Weights.total_perm (KeySort.sortBy_perm _ _)

theorem length_hashedBytes_le (isText : Bool) : ∀ content : List UInt8, (hashedBytes isText content).length ≤ content.length
  | [] => le_rfl
  | byte :: rest => by
    have ih := length_hashedBytes_le isText rest
    rw [hashedBytes]
    split_ifs
    · rw [length_cons]
      omega
    · rw [length_cons, length_cons]
      omega

/-! ### Hashes in common -/

theorem copied_comm (srcSpans dstSpans : List (UInt32 × ℕ)) :
    countCopiedSourceBytes srcSpans dstSpans = countCopiedSourceBytes dstSpans srcSpans := Weights.common_comm _ _

theorem copied_le_length (oldBytes newBytes : List UInt8) :
    countCopiedSourceBytes (buildSpanHashes oldBytes) (buildSpanHashes newBytes) ≤ oldBytes.length := by
  have htotal : Weights.total ((buildSpanHashes oldBytes).map fun span => (span.1.toNat, span.2)) =
      Weights.total (buildSpanHashes oldBytes) := by
    rw [Weights.total, map_map]
    rfl
  calc countCopiedSourceBytes (buildSpanHashes oldBytes) (buildSpanHashes newBytes)
      ≤ Weights.total ((buildSpanHashes oldBytes).map fun span => (span.1.toNat, span.2)) := Weights.common_le_total _ _
    _ = (hashedBytes (!isProbablyBinary oldBytes) oldBytes).length := by rw [htotal, total_buildSpanHashes]
    _ ≤ oldBytes.length := length_hashedBytes_le _ _

/-- No more is copied than the smaller content has. -/
theorem copied_le_min (oldBytes newBytes : List UInt8) :
    countCopiedSourceBytes (buildSpanHashes oldBytes) (buildSpanHashes newBytes) ≤
      min oldBytes.length newBytes.length := by
  refine le_min (copied_le_length oldBytes newBytes) ?_
  rw [copied_comm]
  exact copied_le_length newBytes oldBytes

/-! ### The size guard -/

theorem passesSizeGuard_comm (oldSize newSize m : ℕ) :
    passesSizeGuard oldSize newSize m = passesSizeGuard newSize oldSize m := by
  unfold passesSizeGuard
  rw [max_comm, min_comm]

/-- What the guard keeps out: the smaller size is less than `m` percent of the larger one. -/
theorem min_lt_of_not_passes {oldSize newSize m : ℕ} (hm : m ≤ maxScore) (h : passesSizeGuard oldSize newSize m = false) :
    min oldSize newSize * maxScore < m * max oldSize newSize := by
  have hskew : max oldSize newSize * (maxScore - m) < (max oldSize newSize - min oldSize newSize) * maxScore := by
    simpa [passesSizeGuard] using h
  have hle : min oldSize newSize ≤ max oldSize newSize := min_le_max
  obtain ⟨d, hd⟩ := Nat.exists_eq_add_of_le hle
  obtain ⟨c, hc⟩ := Nat.exists_eq_add_of_le hm
  rw [hc, Nat.add_sub_cancel_left, hd, Nat.add_sub_cancel_left] at hskew
  rw [hc, hd]
  nlinarith

/-- Contents that the guard keeps out score less than the minimum. -/
theorem spanScore_lt {oldBytes newBytes : List UInt8} {m : ℕ} (hm : m ≤ maxScore)
    (h : passesSizeGuard oldBytes.length newBytes.length m = false) : spanScore oldBytes newBytes < m := by
  have hguard := min_lt_of_not_passes hm h
  have hcopied := copied_le_min oldBytes newBytes
  have hpos : 0 < m := by
    rcases Nat.eq_zero_or_pos m with rfl | hpos
    · omega
    · exact hpos
  unfold spanScore
  simp only
  split_ifs with hsize
  · exact hpos
  · refine lt_of_le_of_lt (min_le_left _ _) ?_
    rw [Nat.div_lt_iff_lt_mul (Nat.pos_of_ne_zero hsize)]
    calc _ ≤ countCopiedSourceBytes (buildSpanHashes oldBytes) (buildSpanHashes newBytes) * maxScore := Nat.mod_le _ _
      _ ≤ min oldBytes.length newBytes.length * maxScore := Nat.mul_le_mul_right _ hcopied
      _ < m * max oldBytes.length newBytes.length := hguard

/-! ### The laws of the score -/

theorem spanScore_comm (oldBytes newBytes : List UInt8) : spanScore oldBytes newBytes = spanScore newBytes oldBytes := by
  unfold spanScore
  rw [copied_comm, max_comm]

theorem spanScore_le (oldBytes newBytes : List UInt8) : spanScore oldBytes newBytes ≤ 100 := by
  unfold spanScore
  simp only
  split_ifs
  · exact Nat.zero_le _
  · exact min_le_right _ _

theorem similarity_comm (a b : List UInt8) (m : ℕ) : contentSimilarityPercent a b m = contentSimilarityPercent b a m := by
  have hequal : a = b ↔ b = a := eq_comm
  have hempty : a = [] ∨ b = [] ↔ b = [] ∨ a = [] := or_comm
  unfold contentSimilarityPercent
  rw [passesSizeGuard_comm, spanScore_comm]
  simp only [hequal, hempty]

theorem similarity_le (a b : List UInt8) (m : ℕ) : contentSimilarityPercent a b m ≤ 100 := by
  unfold contentSimilarityPercent
  split_ifs
  · exact le_rfl
  · exact Nat.zero_le _
  · exact Nat.zero_le _
  · exact spanScore_le a b

/-- The guard never changes whether the minimum is reached. -/
theorem similarity_guard (a b : List UInt8) (m : ℕ) :
    m ≤ contentSimilarityPercent a b m ↔ m ≤ unguardedSimilarityPercent a b := by
  unfold contentSimilarityPercent unguardedSimilarityPercent
  split_ifs with heq hempty hguard
  · rfl
  · rfl
  · -- kept out: neither score reaches the minimum
    have hlow := spanScore_lt (min_le_right m maxScore) (by simpa using hguard)
    have hmin : min m maxScore ≤ m := min_le_left _ _
    omega
  · rfl

/-- **The laws of the similarity score**, for all contents and every minimum. -/
theorem similarity_laws (a b : List UInt8) (m : ℕ) :
    contentSimilarityPercent a b m ≤ 100 ∧
      contentSimilarityPercent a b m = contentSimilarityPercent b a m ∧
      contentSimilarityPercent a a m = 100 ∧
      (m ≤ contentSimilarityPercent a b m ↔ m ≤ unguardedSimilarityPercent a b) ∧
      Weights.total (buildSpanHashes a) = (hashedBytes (!isProbablyBinary a) a).length :=
  ⟨similarity_le a b m, similarity_comm a b m, if_pos rfl, similarity_guard a b m, total_buildSpanHashes a⟩

end Similarity
end Mega
