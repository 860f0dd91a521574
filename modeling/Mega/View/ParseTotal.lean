/-
# The parser always answers

The recursion of the parser is bounded: every operator, member and selector
takes characters off the text. So with fuel for twice the length the parser never
runs out of it. The paths it reads hold no control characters and no backslashes,
so the assertion of their constructor never fails. Both are errors of the model's
own (`FilterParseError.own`), and `parseWithMax` never answers one.

Every parsing function is described by `Answers`: what holds of a result, if
there is one.

Key definitions: `FilterParseError.own`, `Answers`, `depth`.
Key theorems: `parsePath_answers`, `descent_answers`, `parseWithMax_answers`.
-/
import Mega.View.Parse
import Mega.View.PrintUnique

namespace Mega
namespace View

open List

variable {α β : Type}

/-- The errors that only the model has. -/
def FilterParseError.own : FilterParseError → Bool
  | .assertionFailed => true
  | .outOfFuel => true
  | _ => false

/-- A result has the property, and an error is one of the source's. -/
def Answers (Q : α → Prop) : ParseM α → Prop
  | .ok a => Q a
  | .error e => e.own = false

theorem Answers.bind {Q : α → Prop} {R : β → Prop} {x : ParseM α} {f : α → ParseM β} (hx : Answers Q x)
    (hf : ∀ a, Q a → Answers R (f a)) : Answers R (x >>= f) := by
  cases x with
  | error e => exact hx
  | ok a => exact hf a hx

theorem Answers.map {Q : α → Prop} {R : β → Prop} {x : ParseM α} {f : α → β} (hx : Answers Q x)
    (hf : ∀ a, Q a → R (f a)) : Answers R (x.map f) := by
  cases x with
  | error e => exact hx
  | ok a => exact hf a hx

theorem Answers.conseq {Q R : α → Prop} {x : ParseM α} (hx : Answers Q x) (h : ∀ a, Q a → R a) : Answers R x := by
  cases x with
  | error e => exact hx
  | ok a => exact h a hx

/-! ### Characters -/

theorem length_skipSpace_le (rest : Text) : (skipSpace rest).length ≤ rest.length :=
  (dropWhile_suffix _).length_le

theorem length_of_eat {word rest rest' : Text} (h : eat word rest = some rest') :
    rest'.length + word.length = rest.length := by
  unfold eat at h
  split at h
  · rename_i hword
    obtain ⟨t, rfl⟩ := isPrefixOf_iff_prefix.mp hword
    cases h
    simp
    omega
  · cases h

theorem length_lt_of_eat {c : Char} {word rest rest' : Text} (h : eat (c :: word) rest = some rest') :
    rest'.length < rest.length := by
  have hlen := length_of_eat h
  rw [length_cons] at hlen
  omega

/-! ### Paths -/

/-- A character that a path may hold. -/
def pathLetter (ch : Char) : Prop := ch ≠ '\\' ∧ isControl ch = false

theorem readQuoted_answers : ∀ rest : Text,
    Answers (fun result => (∀ ch ∈ result.1, pathLetter ch) ∧ result.2.length ≤ rest.length) (readQuoted rest)
  | [] => rfl
  | ch :: rest => by
    unfold readQuoted
    split
    · exact ⟨by simp, by simp⟩
    · split
      · cases rest with
        | nil => exact rfl
        | cons next rest =>
          simp only
          split
          · refine (readQuoted_answers rest).map fun result hresult => ⟨?_, by simpa using by omega⟩
            simpa [pathLetter, isControl] using hresult.1
          · exact rfl
      · rename_i hslash
        split
        · exact rfl
        · rename_i hcontrol
          refine (readQuoted_answers rest).map fun result hresult => ⟨?_, by simpa using by omega⟩
          simpa [pathLetter, hcontrol, show ch ≠ '\\' by simpa using hslash] using hresult.1

theorem readPlain_answers : ∀ rest : Text,
    Answers (fun result => (∀ ch ∈ result.1, pathLetter ch) ∧ result.2.length ≤ rest.length) (readPlain rest)
  | [] => ⟨by simp, by simp⟩
  | ch :: rest => by
    unfold readPlain
    split
    · exact ⟨by simp, le_rfl⟩
    split
    · exact ⟨by simp, le_rfl⟩
    split
    · exact rfl
    split
    · exact rfl
    rename_i hslash
    split
    · exact rfl
    rename_i hcontrol
    split
    · refine (readPlain_answers rest).map fun result hresult => ⟨?_, by simpa using by omega⟩
      simpa [pathLetter, hcontrol, show ch ≠ '\\' by simpa using hslash] using hresult.1
    · exact rfl

theorem checkPlainEnd_answers (rest : Text) : Answers (fun _ => True) (checkPlainEnd rest) := by
  unfold checkPlainEnd
  split
  · split <;> trivial
  · trivial

theorem checkQuotedEnd_answers (rest : Text) : Answers (fun _ => True) (checkQuotedEnd rest) := by
  unfold checkQuotedEnd
  split
  · trivial
  · split
    · rfl
    · split
      · rfl
      · split
        · trivial
        · rfl

theorem checkEnd_answers (quoted : Bool) (rest : Text) : Answers (fun _ => True) (checkEnd quoted rest) := by
  unfold checkEnd
  split
  · exact checkQuotedEnd_answers rest
  · trivial

theorem readPath_answers (rest : Text) :
    Answers (fun result => (∀ ch ∈ result.1, pathLetter ch) ∧ result.2.2.length ≤ rest.length) (readPath rest) := by
  unfold readPath
  split
  · rename_i rest' heat
    have hlen := length_of_eat heat
    refine (readQuoted_answers rest').bind fun result hresult => ⟨hresult.1, ?_⟩
    have hleft := hresult.2
    show result.2.length ≤ rest.length
    omega
  · refine (readPlain_answers rest).bind fun result hresult => ?_
    exact (checkPlainEnd_answers result.2).bind fun _ _ => hresult

theorem trimPath_spec (kind : PathKind) (quoted : Bool) (raw rest : Text) :
    (trimPath kind quoted raw rest).1 ⊆ raw ∧ (trimPath kind quoted raw rest).2.2.length ≤ rest.length := by
  have hlast : ∀ t : Text, dropLastSlash t ⊆ t := by
    intro t
    unfold dropLastSlash
    split
    · exact dropLast_subset t
    · exact fun _ h => h
  have hfirst : ∀ t : Text, dropFirstSlash t ⊆ t := by
    intro t
    unfold dropFirstSlash
    split
    · exact tail_subset t
    · exact fun _ h => h
  unfold trimPath
  cases kind with
  | selector =>
    simp only
    split
    · split
      · rename_i rest' heat
        have hlen := length_of_eat heat
        refine ⟨fun _ h => h, ?_⟩
        show rest'.length ≤ rest.length
        omega
      · exact ⟨fun _ h => h, le_rfl⟩
    · exact ⟨hlast raw, le_rfl⟩
  | operator => exact ⟨fun c hc => hfirst raw (hlast _ hc), le_rfl⟩

/-- What `checkSegment` finds out. -/
structure Checked (segment : Text) : Prop where
  nonempty : segment ≠ []
  notDot : segment ≠ ['.']
  notDots : segment ≠ ['.', '.']
  first : segment.head?.any isWhitespace = false
  last : segment.getLast?.any isWhitespace = false

theorem checkSegment_answers (kind : PathKind) (last : Bool) (segment : Text) :
    Answers (fun _ => Checked segment) (checkSegment kind last segment) := by
  unfold checkSegment
  split
  · split <;> rfl
  rename_i hempty
  split
  · rfl
  rename_i hdots
  split
  · rfl
  rename_i hspace
  simp only [Bool.or_eq_true, beq_iff_eq, not_or] at hdots
  simp only [Bool.or_eq_true, not_or, Bool.not_eq_true] at hspace
  exact ⟨by simpa using hempty, hdots.1, hdots.2, hspace.1, hspace.2⟩

theorem checkSegments_answers (kind : PathKind) : ∀ segments : List Text,
    Answers (fun _ => ∀ segment ∈ segments, Checked segment) (checkSegments kind segments)
  | [] => by simp [checkSegments, Answers]
  | segment :: segments =>
    (checkSegment_answers kind _ segment).bind fun _ hsegment =>
      (checkSegments_answers kind segments).conseq fun _ hsegments => by simpa using ⟨hsegment, hsegments⟩

theorem Checked.valid {segment : Text} (h : Checked segment) (hletters : ∀ ch ∈ segment, pathLetter ch ∧ ch ≠ '/') :
    validPathSegment segment = true := by
  have hslash : '/' ∉ segment := fun hmem => (hletters _ hmem).2 rfl
  have hback : '\\' ∉ segment := fun hmem => (hletters _ hmem).1.1 rfl
  have hcontrol : segment.any isControl = false := by
    rw [any_eq_false]
    exact fun ch hch => by simp [(hletters ch hch).1.2]
  simp [validPathSegment, h.nonempty, h.notDot, h.notDots, hslash, hback, hcontrol, h.first, h.last]

/-- The pieces of a split text. -/
theorem mem_of_mem_splitOn {ch : Char} : ∀ {text piece : Text}, piece ∈ text.splitOn '/' → ch ∈ piece →
    ch ∈ text ∧ ch ≠ '/'
  | [], piece, hpiece, hch => by
    rw [splitOn_nil, mem_singleton] at hpiece
    rw [hpiece] at hch
    cases hch
  | c :: text, piece, hpiece, hch => by
    rw [List.splitOn, splitOnP_cons_eq_if_modifyHead] at hpiece
    split at hpiece
    · rcases mem_cons.mp hpiece with rfl | hpiece
      · cases hch
      · have hrest := mem_of_mem_splitOn hpiece hch
        exact ⟨mem_cons_of_mem _ hrest.1, hrest.2⟩
    · rename_i hc
      obtain ⟨first, others, hsplit⟩ := exists_cons_of_ne_nil
        (splitOnP_ne_nil (fun x : Char => x == '/') text)
      rw [hsplit, modifyHead_cons] at hpiece
      have hrest : ∀ p ∈ first :: others, ch ∈ p → ch ∈ text ∧ ch ≠ '/' := by
        rw [← hsplit]
        exact fun p hp hchp => mem_of_mem_splitOn hp hchp
      rcases mem_cons.mp hpiece with rfl | hpiece
      · rcases mem_cons.mp hch with rfl | hch
        · exact ⟨by simp, by simpa using hc⟩
        · have hfirst := hrest first (by simp) hch
          exact ⟨mem_cons_of_mem _ hfirst.1, hfirst.2⟩
      · have hother := hrest piece (mem_cons_of_mem _ hpiece) hch
        exact ⟨mem_cons_of_mem _ hother.1, hother.2⟩

theorem parsePath_answers (kind : PathKind) (rest : Text) :
    Answers (fun result => result.2.2.length ≤ rest.length) (parsePath kind rest) := by
  unfold parsePath
  refine (readPath_answers rest).bind fun result hresult => ?_
  obtain ⟨raw, quoted, left⟩ := result
  obtain ⟨hletters, hleft⟩ := hresult
  have htrim := trimPath_spec kind quoted raw left
  refine (checkEnd_answers quoted _).bind fun _ _ => (checkSegments_answers kind _).bind fun _ hchecked => ?_
  have hvalid : ∀ segment ∈ (trimPath kind quoted raw left).1.splitOn '/', validPathSegment segment = true := by
    intro segment hsegment
    refine (hchecked segment hsegment).valid fun ch hch => ?_
    have hmem := mem_of_mem_splitOn hsegment hch
    exact ⟨hletters ch (htrim.1 hmem.1), hmem.2⟩
  rw [newViewPath, dif_pos ⟨splitOn_ne_nil _ _, hvalid⟩]
  show (trimPath kind quoted raw left).2.2.length ≤ rest.length
  exact htrim.2.trans hleft

/-! ### Filters -/

theorem parseSelectors_answers : ∀ (fuel : ℕ) (rest : Text), rest.length < fuel →
    Answers (fun result => result.2.length ≤ rest.length) (parseSelectors fuel rest)
  | 0, _, h => absurd h (Nat.not_lt_zero _)
  | fuel + 1, rest, hfuel => by
    unfold parseSelectors
    cases hcolons : eat [':', ':'] rest with
    | none => rfl
    | some rest₁ =>
      have hlen₁ := length_of_eat hcolons
      refine (parsePath_answers .selector rest₁).bind fun result hresult => ?_
      obtain ⟨path, tree, rest₂⟩ := result
      have hlen₂ : (skipSpace rest₂).length ≤ rest₁.length := (length_skipSpace_le rest₂).trans hresult
      simp only [length_cons, length_nil] at hlen₁
      simp only
      cases hcomma : eat [','] (skipSpace rest₂) with
      | some rest₃ =>
        have hlen₃ := length_of_eat hcomma
        have hlen₄ := length_skipSpace_le rest₃
        simp only [length_cons, length_nil] at hlen₃
        refine (parseSelectors_answers fuel (skipSpace rest₃) (by omega)).bind fun result hresult => ?_
        show result.2.length ≤ rest.length
        omega
      | none =>
        simp only
        cases hend : eat [']'] (skipSpace rest₂) with
        | none => rfl
        | some rest₃ =>
          have hlen₃ := length_of_eat hend
          show rest₃.length ≤ rest.length
          omega

mutual

/-- How deep composes are nested. -/
def depth : Filter → ℕ
  | .compose members => depthAll members + 1
  | .chain ops => depthAll ops
  | _ => 0

def depthAll : List Filter → ℕ
  | [] => 0
  | f :: fs => max (depth f) (depthAll fs)

end

theorem depthAll_le_iff {n : ℕ} : ∀ {fs : List Filter}, depthAll fs ≤ n ↔ ∀ f ∈ fs, depth f ≤ n
  | [] => by simp [depthAll]
  | f :: fs => by simp [depthAll, depthAll_le_iff]

theorem depth_chainOf (ops : List Filter) : depth (chainOf ops) = depthAll ops := by
  unfold chainOf
  split
  · simp [depthAll]
  · rw [depth]

theorem parseExclude_answers (rest : Text) :
    Answers (fun result => result.2.length ≤ rest.length ∧ depth result.1 = 0) (parseExclude rest) := by
  have hlen := length_skipSpace_le rest
  exact (parseSelectors_answers (rest.length + 1) (skipSpace rest) (by omega)).bind fun result hresult =>
    ⟨hresult.trans hlen, by simp [depth]⟩

/-- The three functions of the descent, by their fuel: they take characters off
the text, and the limit bounds the depth of what they read. -/
theorem descent_answers {maxNesting : ℕ} : ∀ (fuel nesting : ℕ) (rest : Text), nesting ≤ maxNesting →
    (2 * rest.length + 3 ≤ fuel → Answers
      (fun result => result.2.length < rest.length ∧ nesting + depthAll result.1 ≤ maxNesting)
      (parseOps maxNesting fuel nesting rest)) ∧
    (2 * rest.length + 2 ≤ fuel → Answers
      (fun result => result.2.length < rest.length ∧ nesting + depth result.1 ≤ maxNesting)
      (parseOp maxNesting fuel nesting rest)) ∧
    (2 * rest.length + 4 ≤ fuel → Answers
      (fun result => result.2.length ≤ rest.length ∧ nesting + depthAll result.1 ≤ maxNesting)
      (parseMembers maxNesting fuel nesting rest))
  | 0, _, _, _ => ⟨by omega, by omega, by omega⟩
  | fuel + 1, nesting, rest, hnesting => by
    refine ⟨fun hfuel => ?_, fun hfuel => ?_, fun hfuel => ?_⟩
    · unfold parseOps
      split
      · rfl
      refine ((descent_answers fuel nesting rest hnesting).2.1 (by omega)).bind fun result hresult => ?_
      obtain ⟨op, rest₁⟩ := result
      obtain ⟨hshort, hdepth⟩ := hresult
      simp only at hshort hdepth
      have hlen := length_skipSpace_le rest₁
      have hlast : (skipSpace rest₁).length < rest.length ∧ nesting + depthAll [op] ≤ maxNesting :=
        ⟨by omega, by simpa [depthAll] using hdepth⟩
      simp only
      split
      · split
        · rfl
        · refine ((descent_answers fuel nesting (skipSpace rest₁) hnesting).1 (by omega)).bind
            fun result hresult => ?_
          exact ⟨lt_trans hresult.1 hlast.1, by simp only [depthAll]; omega⟩
      · exact hlast
      · exact hlast
      · exact hlast
      · rfl
    · unfold parseOp
      have hleaf : ∀ {f : Filter}, depth f = 0 → nesting + depth f ≤ maxNesting := fun h => by omega
      split
      · rename_i rest₁ heat
        exact (parsePath_answers .operator rest₁).map fun result hresult =>
          ⟨lt_of_le_of_lt hresult (length_lt_of_eat heat), hleaf (by simp [depth])⟩
      split
      · rename_i rest₁ heat
        exact (parseExclude_answers rest₁).conseq fun result hresult =>
          ⟨lt_of_le_of_lt hresult.1 (length_lt_of_eat heat), hleaf hresult.2⟩
      split
      · rename_i rest₁ heat
        have hlen := length_of_eat heat
        have hskip := length_skipSpace_le rest₁
        simp only [length_cons, length_nil] at hlen
        split
        · rfl
        · refine ((descent_answers fuel (nesting + 1) (skipSpace rest₁) (by omega)).2.2 (by omega)).map
            fun result hresult => ?_
          obtain ⟨hshort, hdepth⟩ := hresult
          refine ⟨?_, ?_⟩
          · show result.2.length < rest.length
            omega
          · show nesting + (depthAll result.1 + 1) ≤ maxNesting
            omega
      split
      · rename_i rest₁ heat
        exact (parsePath_answers .operator rest₁).map fun result hresult =>
          ⟨lt_of_le_of_lt hresult (length_lt_of_eat heat), hleaf (by simp [depth])⟩
      split
      · rename_i rest₁ heat
        exact ⟨length_lt_of_eat heat, hleaf (by simp [depth])⟩
      split
      · rename_i rest₁ heat
        exact ⟨length_lt_of_eat heat, hleaf (by simp [depth])⟩
      · rfl
    · unfold parseMembers
      refine ((descent_answers fuel nesting rest hnesting).1 (by omega)).bind fun result hresult => ?_
      obtain ⟨ops, rest₁⟩ := result
      obtain ⟨hshort, hdepth⟩ := hresult
      simp only at hshort hdepth
      have hskip := length_skipSpace_le rest₁
      simp only
      cases hcomma : eat [','] (skipSpace rest₁) with
      | some rest₂ =>
        have hlen := length_of_eat hcomma
        have hskip₂ := length_skipSpace_le rest₂
        simp only [length_cons, length_nil] at hlen
        refine ((descent_answers fuel nesting (skipSpace rest₂) hnesting).2.2 (by omega)).bind
          fun result hresult => ?_
        obtain ⟨hshort₂, hdepth₂⟩ := hresult
        refine ⟨?_, ?_⟩
        · show result.2.length ≤ rest.length
          omega
        · simp only [depthAll, depth_chainOf]
          omega
      | none =>
        simp only
        cases hend : eat [']'] (skipSpace rest₁) with
        | none => rfl
        | some rest₂ =>
          have hlen := length_of_eat hend
          refine ⟨?_, ?_⟩
          · show rest₂.length ≤ rest.length
            omega
          · simpa [depthAll, depth_chainOf] using hdepth

/-- **The parser always answers**, with a filter nested no deeper than allowed or
with an error of the source. -/
theorem parseWithMax_answers (text : Text) (maxNesting : ℕ) :
    Answers (fun filter => depth filter ≤ maxNesting) (parseWithMax text maxNesting) := by
  have hlen := length_skipSpace_le text
  have hops := (descent_answers (2 * text.length + 3) 0 (skipSpace text) (Nat.zero_le maxNesting)).1 (by omega)
  refine hops.bind fun result hresult => ?_
  obtain ⟨ops, rest⟩ := result
  simp only
  split
  · rfl
  · show depth (chainOf ops) ≤ maxNesting
    rw [depth_chainOf]
    have hdepth := hresult.2
    simp only at hdepth
    omega

end View
end Mega
