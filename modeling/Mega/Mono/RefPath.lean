/-
# Ref paths are canonicalized

`canonicalize_mono_ref_path` of `common/utils.rs` trims a path, collapses its
slashes, leaves out `.` and rejects `..` and backslashes, so that a ref has one
path. Trimming comes first and looks at the whole path, so the blanks of a first or
last component go away or stay depending on whether a slash stands outside them:
`/a ` is canonicalized to `/a`, but `/a /` to `/a `.

A path is brought to a normal form exactly if its last component does not end in a
blank and its first does not begin with one (unless trimming it makes the path one
that is rejected).

Key definitions: `canonicalizeMonoRefPath`, `components`, `NormalAt`, `Settled`.
Key theorems: `canonicalize_eq_ok`, `normalAt_iff_settled`.
-/
import Mega.Lib.Splits
import Mega.View.Filter

namespace Mega
namespace RefPath

open List View

/-- `str::trim`. -/
def trim (s : Text) : Text := (s.rdropWhile isWhitespace).dropWhile isWhitespace

/-- A component that is neither empty nor `.`. -/
def isKept (part : Text) : Prop := part ≠ [] ∧ part ≠ ['.']

instance (part : Text) : Decidable (isKept part) := inferInstanceAs (Decidable (_ ∧ _))

/-- The components of a path, without the empty ones and `.`. -/
def components (s : Text) : List Text := (s.splitOn '/').filter isKept

def canonicalizeMonoRefPath (path : Text) : Except Text Text :=
  let s := trim path
  if s = [] then .error "path cannot be empty".toList
  else if (s.splitOn '/').any (· = ['.', '.']) then .error ("path traversal not allowed: ".toList ++ s)
  else if '\\' ∈ s then .error ("path must use '/' separator: ".toList ++ s)
  else
    let s := s.rdropWhile (· = '/')
    if s = [] then .ok ['/']
    else if components s = [] then .error "path cannot be empty or consist only of '.' segments".toList
    else .ok ('/' :: joinSlash (components s))

/-! ### Components -/

/-- A component of a path. -/
structure IsComponent (part : Text) : Prop where
  slash : '/' ∉ part
  kept : isKept part

theorem mem_components {s part : Text} : part ∈ components s ↔ part ∈ s.splitOn '/' ∧ isKept part := by
  rw [components, mem_filter, decide_eq_true_iff]

theorem isComponent_of_mem {s part : Text} (h : part ∈ components s) : IsComponent part :=
  ⟨Splits.not_mem_of_mem_splitOn (mem_components.mp h).1, (mem_components.mp h).2⟩

theorem filter_cons_kept {part : Text} (h : isKept part) (more : List Text) :
    (part :: more).filter isKept = part :: more.filter isKept := filter_cons_of_pos (by simpa using h)

theorem filter_eq_self_of_components {parts : List Text} (h : ∀ part ∈ parts, IsComponent part) :
    parts.filter isKept = parts := filter_eq_self.mpr fun part hpart => decide_eq_true (h part hpart).kept

theorem splitOn_joinSlash {parts : List Text} (h : ∀ part ∈ parts, IsComponent part) (hne : parts ≠ []) :
    (joinSlash parts).splitOn '/' = parts := splitOn_intercalate '/' (fun part hpart => (h part hpart).slash) hne

theorem components_joinSlash {parts : List Text} (h : ∀ part ∈ parts, IsComponent part) :
    components (joinSlash parts) = parts := by
  by_cases hne : parts = []
  · subst hne
    rfl
  · rw [components, splitOn_joinSlash h hne, filter_eq_self_of_components h]

theorem joinSlash_inj {parts parts' : List Text} (h : ∀ part ∈ parts, IsComponent part)
    (h' : ∀ part ∈ parts', IsComponent part) (heq : joinSlash parts = joinSlash parts') : parts = parts' := by
  rw [← components_joinSlash h, heq, components_joinSlash h']

theorem components_slash (s : Text) : components ('/' :: s) = components s := by
  rw [components, Splits.splitOn_cons_self, filter_cons_of_neg (by decide)]
  rfl

theorem components_append_slash (s : Text) : components (s ++ ['/']) = components s := by
  rw [components, splitOn_append_cons_self, filter_append]
  exact append_nil _

/-- Slashes at the end do not matter. -/
theorem components_rdropWhile (s : Text) : components (s.rdropWhile (· = '/')) = components s := by
  induction s using List.reverseRecOn with
  | nil => rfl
  | append_singleton s ch ih =>
    rw [rdropWhile_concat]
    split_ifs with hch
    · rw [ih, of_decide_eq_true hch, components_append_slash]
    · rfl

/-! ### What is accepted -/

/-- A trimmed path that is not rejected. -/
structure Accepted (s : Text) : Prop where
  nonempty : s ≠ []
  traversal : ['.', '.'] ∉ s.splitOn '/'
  separator : '\\' ∉ s
  some : (∀ ch ∈ s, ch = '/') ∨ components s ≠ []

theorem components_of_slashes {s : Text} (h : ∀ ch ∈ s, ch = '/') : components s = [] := by
  induction s with
  | nil => rfl
  | cons ch s ih =>
    rw [h ch mem_cons_self, components_slash]
    exact ih fun ch' hch' => h ch' (mem_cons_of_mem _ hch')

/-- **What is accepted, and what is answered.** -/
theorem canonicalize_eq_ok {path out : Text} : canonicalizeMonoRefPath path = .ok out ↔
    Accepted (trim path) ∧ out = '/' :: joinSlash (components (trim path)) := by
  have hslashes : (trim path).rdropWhile (· = '/') = [] ↔ ∀ ch ∈ trim path, ch = '/' := by
    rw [rdropWhile_eq_nil_iff]
    simp
  have hdots : ((trim path).splitOn '/').any (· = ['.', '.']) = true ↔ ['.', '.'] ∈ (trim path).splitOn '/' := by simp
  unfold canonicalizeMonoRefPath
  simp only [components_rdropWhile, hslashes, hdots]
  constructor
  · intro h
    split_ifs at h with hempty htraversal hseparator hall hnone
    · cases h
      exact ⟨⟨hempty, htraversal, hseparator, .inl hall⟩, by rw [components_of_slashes hall]; rfl⟩
    · cases h
      exact ⟨⟨hempty, htraversal, hseparator, .inr hnone⟩, rfl⟩
  · rintro ⟨⟨hempty, htraversal, hseparator, hsome⟩, rfl⟩
    rw [if_neg hempty, if_neg htraversal, if_neg hseparator]
    split_ifs with hall hnone
    · rw [components_of_slashes hall]
      rfl
    · exact absurd hnone (hsome.resolve_left hall)
    · rfl

/-- Components that no path is rejected for. -/
structure Sound (parts : List Text) : Prop where
  traversal : ['.', '.'] ∉ parts
  separator : ∀ part ∈ parts, '\\' ∉ part

theorem accepted_of_sound {s : Text} (hne : s ≠ []) (h : Sound (components s))
    (hsome : (∀ ch ∈ s, ch = '/') ∨ components s ≠ []) : Accepted s := by
  refine ⟨hne, fun hmem => h.traversal (mem_components.mpr ⟨hmem, by decide⟩), fun hmem => ?_, hsome⟩
  obtain ⟨part, hpart, hch⟩ := (Splits.mem_iff_mem_splitOn (by decide : '\\' ≠ '/')).mp hmem
  by_cases hkept : isKept part
  · exact h.separator part (mem_components.mpr ⟨hpart, hkept⟩) hch
  · by_cases hnil : part = []
    · rw [hnil] at hch
      cases hch
    · rw [not_not.mp fun hdot => hkept ⟨hnil, hdot⟩] at hch
      exact absurd (mem_singleton.mp hch) (by decide)

/-! ### Blanks at the ends -/

def startsBlank (part : Text) : Bool := part.head?.any isWhitespace

def endsBlank (part : Text) : Bool := part.getLast?.any isWhitespace

theorem ne_of_isWhitespace {ch other : Char} (h : isWhitespace ch = true) (hother : isWhitespace other = false) :
    ch ≠ other := by
  rintro rfl
  rw [h] at hother
  cases hother

/-- A blank at the front of a path belongs to its first component. -/
theorem components_cons_blank {ch : Char} (h : isWhitespace ch = true) (s : Text) : ∃ first more,
    (ch :: s).splitOn '/' = (ch :: first) :: more ∧ components (ch :: s) = (ch :: first) :: more.filter isKept := by
  obtain ⟨first, more, -, hcons⟩ := Splits.splitOn_cons_ne (ne_of_isWhitespace h (by decide : isWhitespace '/' = false)) s
  have hkept : isKept (ch :: first) := by
    refine ⟨cons_ne_nil _ _, fun hdot => ?_⟩
    exact ne_of_isWhitespace h (by decide : isWhitespace '.' = false) (cons.inj hdot).1
  exact ⟨first, more, hcons, by rw [components, hcons, filter_cons_kept hkept]⟩

/-- A blank at the end of a path belongs to its last component. -/
theorem components_concat_blank {ch : Char} (h : isWhitespace ch = true) (s : Text) : ∃ before last,
    s.splitOn '/' = before ++ [last] ∧ (s ++ [ch]).splitOn '/' = before ++ [last ++ [ch]] ∧
      components (s ++ [ch]) = before.filter isKept ++ [last ++ [ch]] := by
  obtain ⟨before, last, hsplit, hconcat⟩ :=
    Splits.splitOn_concat_ne (ne_of_isWhitespace h (by decide : isWhitespace '/' = false)) s
  have hkept : isKept (last ++ [ch]) := by
    refine ⟨by simp, fun hdot => ?_⟩
    have hlast : (last ++ [ch]).getLast? = some '.' := by rw [hdot]; rfl
    rw [getLast?_append_of_ne_nil _ (cons_ne_nil _ _)] at hlast
    exact ne_of_isWhitespace h (by decide : isWhitespace '.' = false) (Option.some.inj hlast)
  refine ⟨before, last, hsplit, hconcat, ?_⟩
  rw [components, hconcat, filter_append, filter_cons_kept hkept]
  rfl

/-- The last component ends in no blank. -/
def EndsClean (parts : List Text) : Prop := ∀ part ∈ parts.getLast?, endsBlank part = false

theorem rdropWhile_of_endsClean {s : Text} (h : EndsClean (components s)) : s.rdropWhile isWhitespace = s := by
  rcases s.eq_nil_or_concat' with rfl | ⟨s, ch, rfl⟩
  · rfl
  rw [rdropWhile_concat, if_neg]
  intro hch
  obtain ⟨before, last, -, -, hcomponents⟩ := components_concat_blank hch s
  have hclean : endsBlank (last ++ [ch]) = false := h _ (by rw [hcomponents, getLast?_append_of_ne_nil _ (cons_ne_nil _ _)]; rfl)
  rw [endsBlank, getLast?_append_of_ne_nil _ (cons_ne_nil _ _)] at hclean
  exact ne_of_isWhitespace hch hclean rfl

theorem dropWhile_of_not_startsBlank {s : Text} (h : startsBlank s = false) : s.dropWhile isWhitespace = s := by
  rcases s with _ | ⟨ch, s⟩
  · rfl
  · have hch : isWhitespace ch = false := h
    rw [dropWhile_cons, if_neg (by rw [hch]; decide)]

/-- A path whose components end in no blank is trimmed at the front only. -/
theorem trim_of_endsClean {s : Text} (h : EndsClean (components s)) : trim s = s.dropWhile isWhitespace := by
  rw [trim, rdropWhile_of_endsClean h]

/-- Trimming turns no component of the path into one that is not rejected. -/
theorem traversal_trimEnd (s : Text) (h : ['.', '.'] ∈ s.splitOn '/') :
    ['.', '.'] ∈ (s.rdropWhile isWhitespace).splitOn '/' := by
  induction s using List.reverseRecOn with
  | nil => exact h
  | append_singleton s ch ih =>
    rw [rdropWhile_concat]
    split_ifs with hch
    · obtain ⟨before, last, hsplit, hconcat, -⟩ := components_concat_blank hch s
      rw [hconcat] at h
      refine ih ?_
      rw [hsplit]
      rcases mem_append.mp h with h | h
      · exact mem_append_left _ h
      · have hlast : (last ++ [ch]).getLast? = some '.' := by rw [← mem_singleton.mp h]; rfl
        rw [getLast?_append_of_ne_nil _ (cons_ne_nil _ _)] at hlast
        exact absurd (Option.some.inj hlast) (ne_of_isWhitespace hch (by decide))
    · exact h

theorem traversal_trimStart (s : Text) (h : ['.', '.'] ∈ s.splitOn '/') :
    ['.', '.'] ∈ (s.dropWhile isWhitespace).splitOn '/' := by
  rw [Splits.splitOn_dropWhile (by decide)]
  obtain ⟨first, more, hsplit⟩ := exists_cons_of_ne_nil (splitOn_ne_nil '/' s)
  rw [hsplit] at h ⊢
  rw [modifyHead_cons]
  rcases mem_cons.mp h with rfl | h
  · exact mem_cons_self
  · exact mem_cons_of_mem _ h

theorem mem_trim {s : Text} {ch : Char} (hch : isWhitespace ch = false) (h : ch ∈ s) : ch ∈ trim s := by
  have hend : ch ∈ s.rdropWhile isWhitespace := by
    have hsplit : s.rdropWhile isWhitespace ++ s.rtakeWhile isWhitespace = s := rdropWhile_append_rtakeWhile
    rw [← hsplit] at h
    refine (mem_append.mp h).resolve_right fun hmem => ?_
    exact ne_of_isWhitespace (mem_rtakeWhile_imp hmem) hch rfl
  have hsplit : (s.rdropWhile isWhitespace).takeWhile isWhitespace ++ trim s = s.rdropWhile isWhitespace :=
    takeWhile_append_dropWhile
  rw [← hsplit] at hend
  refine (mem_append.mp hend).resolve_left fun hmem => ?_
  exact ne_of_isWhitespace (mem_takeWhile_imp hmem) hch rfl

/-- The components of an accepted path are sound, before trimming too. -/
theorem Accepted.sound {path : Text} (h : Accepted (trim path)) : Sound (components path) := by
  refine ⟨fun hmem => h.traversal ?_, fun part hpart hch => h.separator (mem_trim (by decide) ?_)⟩
  · exact traversal_trimStart _ (traversal_trimEnd _ (mem_components.mp hmem).1)
  · exact (Splits.mem_iff_mem_splitOn (by decide)).mpr ⟨part, (mem_components.mp hpart).1, hch⟩

/-! ### Which paths have a normal form -/

/-- What is answered for the path is its own canonical form, and the answer for every path with the same components. -/
def NormalAt (path out : Text) : Prop :=
  canonicalizeMonoRefPath out = .ok out ∧
    ∀ path' out', canonicalizeMonoRefPath path' = .ok out' → components path' = components path → out' = out

/-- The last component ends in no blank, and the first begins with none; or it is one that a path may not begin with
once it is trimmed. -/
def Settled (parts : List Text) : Prop :=
  EndsClean parts ∧ ∀ first ∈ parts.head?, startsBlank first = true →
    first.dropWhile isWhitespace = ['.', '.'] ∨ parts = [first] ∧ first.dropWhile isWhitespace = ['.']

section Absolute

variable {parts : List Text} (h : ∀ part ∈ parts, IsComponent part)

include h

theorem components_absolute : components ('/' :: joinSlash parts) = parts := by
  rw [components_slash, components_joinSlash h]

/-- A path between slashes is not trimmed. -/
theorem canonicalize_enclosed (hsound : Sound parts) (hne : parts ≠ []) :
    components ('/' :: joinSlash parts ++ ['/']) = parts ∧
      canonicalizeMonoRefPath ('/' :: joinSlash parts ++ ['/']) = .ok ('/' :: joinSlash parts) := by
  have hparts : components ('/' :: joinSlash parts ++ ['/']) = parts := by
    rw [components_append_slash, components_absolute h]
  have htrim : trim ('/' :: joinSlash parts ++ ['/']) = '/' :: joinSlash parts ++ ['/'] := by
    rw [trim, rdropWhile_concat, if_neg (by decide)]
    exact dropWhile_of_not_startsBlank rfl
  refine ⟨hparts, canonicalize_eq_ok.mpr ?_⟩
  rw [htrim, hparts]
  refine ⟨accepted_of_sound (by simp) (by rw [hparts]; exact hsound) (.inr ?_), rfl⟩
  rw [hparts]
  exact hne

theorem canonicalize_absolute (hsound : Sound parts) (hclean : EndsClean parts) :
    canonicalizeMonoRefPath ('/' :: joinSlash parts) = .ok ('/' :: joinSlash parts) := by
  have hparts := components_absolute h
  have htrim : trim ('/' :: joinSlash parts) = '/' :: joinSlash parts := by
    rw [trim_of_endsClean (by rw [hparts]; exact hclean)]
    exact dropWhile_of_not_startsBlank rfl
  refine canonicalize_eq_ok.mpr ?_
  rw [htrim, hparts]
  refine ⟨accepted_of_sound (cons_ne_nil _ _) (by rw [hparts]; exact hsound) ?_, rfl⟩
  rw [hparts]
  by_cases hne : parts = []
  · subst hne
    exact .inl (forall_mem_singleton.mpr rfl)
  · exact .inr hne

end Absolute

/-- An accepted path with settled components is not trimmed. -/
theorem trim_of_settled {path : Text} (h : Accepted (trim path)) (hsettled : Settled (components path)) :
    trim path = path := by
  obtain ⟨hclean, hfirst⟩ := hsettled
  have htrim := trim_of_endsClean hclean
  rcases path with _ | ⟨ch, rest⟩
  · rfl
  by_cases hch : isWhitespace ch = true
  · -- a blank in front: trimming makes the path one that is rejected
    exfalso
    obtain ⟨first, more, hsplit, hcomponents⟩ := components_cons_blank hch rest
    have hpieces : (trim (ch :: rest)).splitOn '/' = (ch :: first).dropWhile isWhitespace :: more := by
      rw [htrim, Splits.splitOn_dropWhile (by decide), hsplit, modifyHead_cons]
    rcases hfirst (ch :: first) (by rw [hcomponents]; rfl) hch with hdots | ⟨hsingle, hdot⟩
    · exact h.traversal (by rw [hpieces, hdots]; exact mem_cons_self)
    · rw [hdot] at hpieces
      have hnone : components (trim (ch :: rest)) = [] := by
        rw [hcomponents] at hsingle
        rw [components, hpieces, filter_cons_of_neg (by decide), (cons.inj hsingle).2]
      refine h.some.elim (fun hall => ?_) fun hsome => hsome hnone
      have hmem : '.' ∈ trim (ch :: rest) :=
        (Splits.mem_iff_mem_splitOn (by decide : '.' ≠ '/')).mpr ⟨['.'], by rw [hpieces]; exact mem_cons_self, mem_cons_self⟩
      exact absurd (hall '.' hmem) (by decide)
  · rw [htrim]
    exact dropWhile_of_not_startsBlank (by simpa [startsBlank] using hch)

theorem normalAt_of_settled {path out : Text} (h : canonicalizeMonoRefPath path = .ok out)
    (hsettled : Settled (components path)) : NormalAt path out := by
  have hanswer : ∀ path' out', canonicalizeMonoRefPath path' = .ok out' → components path' = components path →
      out' = '/' :: joinSlash (components path) := by
    intro path' out' h' hsame
    obtain ⟨haccepted, rfl⟩ := canonicalize_eq_ok.mp h'
    rw [trim_of_settled haccepted (hsame ▸ hsettled), hsame]
  have hout := hanswer path out h rfl
  refine ⟨?_, fun path' out' h' hsame => by rw [hanswer path' out' h' hsame, hout]⟩
  rw [hout]
  exact canonicalize_absolute (fun _ => isComponent_of_mem) (canonicalize_eq_ok.mp h).1.sound hsettled.1

/-! ### Paths without a normal form -/

theorem length_joinSlash {parts : List Text} (hne : parts ≠ []) :
    (joinSlash parts).length + 1 = (parts.map fun part => part.length + 1).sum := by
  induction parts with
  | nil => exact absurd rfl hne
  | cons part parts ih =>
    rcases parts with _ | ⟨next, parts⟩
    · simp [joinSlash, intercalate]
    · have hcons : joinSlash (part :: next :: parts) = part ++ '/' :: joinSlash (next :: parts) := by
        simp [joinSlash, intercalate]
      rw [hcons, length_append, length_cons, map_cons, sum_cons, ← ih (cons_ne_nil _ _)]
      omega

theorem length_joinSlash_components_le (s : Text) : (joinSlash (components s)).length ≤ s.length := by
  by_cases hnone : components s = []
  · rw [hnone]
    exact Nat.zero_le _
  · have hsub : (components s).Sublist (s.splitOn '/') := filter_sublist
    have hsum := (hsub.map fun part => part.length + 1).sum_le_sum fun _ _ => Nat.zero_le _
    have hwhole : joinSlash (s.splitOn '/') = s := intercalate_splitOn '/'
    rw [← length_joinSlash hnone, ← length_joinSlash (splitOn_ne_nil '/' s), hwhole] at hsum
    omega

theorem rdropWhile_slash (s : Text) : ('/' :: s).rdropWhile isWhitespace = '/' :: s.rdropWhile isWhitespace := by
  induction s using List.reverseRecOn with
  | nil => rfl
  | append_singleton s ch ih =>
    rw [← cons_append, rdropWhile_concat, rdropWhile_concat, ih]
    split_ifs <;> rfl

/-- An absolute path that is its own canonical form ends in no blank. -/
theorem rdropWhile_of_canonical {s : Text} (h : canonicalizeMonoRefPath ('/' :: s) = .ok ('/' :: s)) :
    s.rdropWhile isWhitespace = s := by
  obtain ⟨-, hout⟩ := canonicalize_eq_ok.mp h
  have htrim : trim ('/' :: s) = '/' :: s.rdropWhile isWhitespace := by
    rw [trim, rdropWhile_slash]
    exact dropWhile_of_not_startsBlank rfl
  rw [htrim, components_slash] at hout
  have hlength := length_joinSlash_components_le (s.rdropWhile isWhitespace)
  rw [← (cons.inj hout).2] at hlength
  have hfront := rdropWhile_prefix isWhitespace s
  exact hfront.eq_of_length_le hlength

theorem endsClean_of_rdropWhile {parts : List Text} (h : (joinSlash parts).rdropWhile isWhitespace = joinSlash parts) :
    EndsClean parts := by
  intro part hpart
  obtain ⟨before, rfl⟩ := getLast?_eq_some_iff.mp hpart
  rcases part.eq_nil_or_concat' with rfl | ⟨part, ch, rfl⟩
  · rfl
  rw [joinSlash, Splits.intercalate_concat, rdropWhile_concat] at h
  split_ifs at h with hch
  · have hfront := rdropWhile_prefix isWhitespace (['/'].intercalate (before ++ [part]))
    have hlength := hfront.length_le
    rw [h, length_append, length_singleton] at hlength
    omega
  · rw [endsBlank, getLast?_append_of_ne_nil _ (cons_ne_nil _ _)]
    simpa using hch

/-- Without a slash in front the first component is trimmed. -/
theorem canonicalize_relative {first : Text} {more : List Text} (h : ∀ part ∈ first :: more, IsComponent part)
    (hsound : Sound (first :: more)) (hclean : EndsClean (first :: more))
    (hdots : first.dropWhile isWhitespace ≠ ['.', '.'])
    (hdot : more = [] → first.dropWhile isWhitespace ≠ ['.']) :
    canonicalizeMonoRefPath (joinSlash (first :: more)) =
      .ok ('/' :: joinSlash ((first.dropWhile isWhitespace :: more).filter isKept)) := by
  have hcomponents := components_joinSlash h
  have htrim : trim (joinSlash (first :: more)) = (joinSlash (first :: more)).dropWhile isWhitespace :=
    trim_of_endsClean (by rw [hcomponents]; exact hclean)
  have hpieces : (trim (joinSlash (first :: more))).splitOn '/' = first.dropWhile isWhitespace :: more := by
    rw [htrim, Splits.splitOn_dropWhile (by decide), splitOn_joinSlash h (cons_ne_nil _ _), modifyHead_cons]
  -- a single component does not vanish, since it ends in no blank
  have hfirst : more = [] → first.dropWhile isWhitespace ≠ [] := by
    rintro rfl hnil
    have hlast := hclean first rfl
    rcases first.eq_nil_or_concat' with rfl | ⟨first, ch, rfl⟩
    · exact (h [] mem_cons_self).kept.1 rfl
    · rw [endsBlank, getLast?_append_of_ne_nil _ (cons_ne_nil _ _)] at hlast
      have hch := dropWhile_eq_nil_iff.mp hnil ch (mem_append_right _ mem_cons_self)
      exact ne_of_isWhitespace hch hlast rfl
  have hmore : more.filter isKept = more :=
    filter_eq_self_of_components fun part hpart => h part (mem_cons_of_mem _ hpart)
  have hsome : (first.dropWhile isWhitespace :: more).filter isKept ≠ [] := by
    by_cases hnil : more = []
    · rw [filter_cons_kept ⟨hfirst hnil, hdot hnil⟩]
      exact cons_ne_nil _ _
    · rw [filter_cons, hmore]
      split_ifs
      · exact cons_ne_nil _ _
      · exact hnil
  refine canonicalize_eq_ok.mpr ⟨⟨?_, ?_, ?_, .inr ?_⟩, by rw [components, hpieces]⟩
  · intro hnil
    rw [hnil, splitOn_nil] at hpieces
    exact hfirst (cons.inj hpieces).2.symm (cons.inj hpieces).1.symm
  · rw [hpieces, mem_cons, not_or]
    exact ⟨fun heq => hdots heq.symm, fun hmem => hsound.traversal (mem_cons_of_mem _ hmem)⟩
  · rw [htrim]
    intro hmem
    obtain ⟨part, hpart, hch⟩ :=
      (Splits.mem_iff_mem_splitOn (by decide : '\\' ≠ '/')).mp ((dropWhile_suffix _).subset hmem)
    rw [splitOn_joinSlash h (cons_ne_nil _ _)] at hpart
    exact hsound.separator part hpart hch
  · rw [components, hpieces]
    exact hsome

theorem settled_of_normalAt {path out : Text} (h : canonicalizeMonoRefPath path = .ok out) (hnormal : NormalAt path out) :
    Settled (components path) := by
  have hsound := (canonicalize_eq_ok.mp h).1.sound
  have hparts : ∀ part ∈ components path, IsComponent part := fun _ => isComponent_of_mem
  rcases hcomponents : components path with _ | ⟨first, more⟩
  · exact ⟨fun _ hmem => absurd hmem (by simp), fun _ hmem => absurd hmem (by simp)⟩
  obtain ⟨hstable, hsame⟩ := hnormal
  rw [hcomponents] at hsound hparts hsame
  obtain ⟨henclosed, hanswer⟩ := canonicalize_enclosed hparts hsound (cons_ne_nil _ _)
  have hout : out = '/' :: joinSlash (first :: more) := (hsame _ _ hanswer henclosed).symm
  rw [hout] at hstable hsame
  have hclean := endsClean_of_rdropWhile (rdropWhile_of_canonical hstable)
  refine ⟨hclean, ?_⟩
  rintro _ ⟨⟩ hblank
  by_contra hnot
  rw [not_or, not_and] at hnot
  have hrelative := canonicalize_relative hparts hsound hclean hnot.1 fun hnil => hnot.2 (by rw [hnil])
  have heq := hsame _ _ hrelative (components_joinSlash hparts)
  have hkept : ∀ part ∈ (first.dropWhile isWhitespace :: more).filter isKept, IsComponent part := by
    intro part hpart
    obtain ⟨hmem, hkept⟩ := mem_filter.mp hpart
    refine ⟨?_, of_decide_eq_true hkept⟩
    rcases mem_cons.mp hmem with rfl | hmem
    · exact fun hslash => (hparts first mem_cons_self).slash ((dropWhile_suffix _).subset hslash)
    · exact (hparts part (mem_cons_of_mem _ hmem)).slash
  have hlist := joinSlash_inj hkept hparts (cons.inj heq).2
  rw [filter_cons] at hlist
  rw [filter_eq_self_of_components fun part hpart => hparts part (mem_cons_of_mem _ hpart)] at hlist
  split_ifs at hlist
  · -- the first component begins with a blank, so trimming changes it
    have hfirst := (cons.inj hlist).1
    rcases first with _ | ⟨ch, first⟩
    · cases hblank
    have hch : isWhitespace ch = true := hblank
    have hlength : (first.dropWhile isWhitespace).length ≤ first.length := (dropWhile_suffix _).length_le
    rw [dropWhile_cons_of_pos hch] at hfirst
    rw [hfirst, length_cons] at hlength
    omega
  · have hlength := congrArg length hlist
    rw [length_cons] at hlength
    omega

/-- **An accepted path has a normal form exactly if its components are settled.** -/
theorem normalAt_iff_settled {path out : Text} (h : canonicalizeMonoRefPath path = .ok out) :
    NormalAt path out ↔ Settled (components path) :=
  ⟨settled_of_normalAt h, normalAt_of_settled h⟩

theorem normalAt_iff_settled_plain : NormalAt ['a', '/', '.', '/', '/', 'b'] ['/', 'a', '/', 'b'] ↔
    Settled (components ['a', '/', '.', '/', '/', 'b']) := normalAt_iff_settled rfl

/-- `/a /` and `/a ` have the same component but not the same canonical form, that of `/a /` is not its own, and that
of `/a/.. /` is rejected. -/
theorem blank_before_slash_stays :
    components ['/', 'a', ' ', '/'] = components ['/', 'a', ' '] ∧
      canonicalizeMonoRefPath ['/', 'a', ' ', '/'] = .ok ['/', 'a', ' '] ∧
      canonicalizeMonoRefPath ['/', 'a', ' '] = .ok ['/', 'a'] ∧
      canonicalizeMonoRefPath ['/', 'a', '/', '.', '.', ' ', '/'] = .ok ['/', 'a', '/', '.', '.', ' '] ∧
      canonicalizeMonoRefPath ['/', 'a', '/', '.', '.', ' '] =
        .error ("path traversal not allowed: ".toList ++ ['/', 'a', '/', '.', '.']) :=
  ⟨rfl, rfl, rfl, rfl, rfl⟩

end RefPath
end Mega
