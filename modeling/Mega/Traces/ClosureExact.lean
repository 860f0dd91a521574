/-
# Which histories a publication admits

`closure` walks from the proposed tip over everything it refers to. A tree may
be met several times, at different depths; whenever it is met deeper than before
it is expanded again, so that in the end each object is marked with the length
of the longest chain of nested trees that leads to it.

The walk accepts exactly the closed well-formed histories (`Admissible`), and it
ends: an expansion raises the mark of an object, and a mark is never above the
limit on the depth.

Key definitions: `Refers`, `Admissible`.
Key theorems: `closure_finishes`, `Marks.admissible`, `closure_of_admissible`, `closure_admits`.
-/
import Mega.Traces.Publication

namespace Mega
namespace Traces

open List Relation

section Graph

variable (content : String → Option VerifiedRawObject) (reads : Reads)

/-- The pack has the object, or it is published and can be read, and it has the type. -/
structure Available (ref : Ref) (bytes : List UInt8) : Prop where
  content : content ref.1 = some ⟨ref.2, bytes⟩
  found : ref.1 ∈ reads.incoming ∨ (reads.published ref.1 = true ∧ reads.readable ref.1 = true)

/-- The object is there with its type, and is well formed. -/
structure Holds (ref : Ref) (bytes : List UInt8) (refs : List Ref) : Prop extends Available content reads ref bytes where
  refs : RefsIn reads.kind.width ref.2 bytes refs

/-- One object refers to another. -/
def Refers (a b : Ref) : Prop := ∃ bytes refs, Holds content reads a bytes refs ∧ b ∈ refs

/-- What is reached from a tip. -/
def Reached (tip : String) (ref : Ref) : Prop := ReflTransGen (Refers content reads) (tip, .commit) ref

/-- A chain of trees, each of which is an entry of the one before. -/
structure TreeChain (tip : String) (chain : List String) : Prop where
  first : ∀ oid ∈ chain.head?, Reached content reads tip (oid, .tree)
  nested : chain.IsChain fun a b => Refers content reads (a, .tree) (b, .tree)

/-- A commit has at most one parent. -/
def OneParent (ref : Ref) (bytes : List UInt8) : Prop :=
  ref.2 = .commit → ∀ links, CommitBytes reads.kind.width bytes links → links.parents.length ≤ 1

/-- A closed well-formed history. -/
structure Admissible (tip : String) : Prop where
  wellFormed : ∀ ref, Reached content reads tip ref → ∃ bytes refs, Holds content reads ref bytes refs
  oneParent : ∀ ref bytes refs, Reached content reads tip ref → Holds content reads ref bytes refs →
    OneParent reads ref bytes
  oneType : ∀ oid kind kind', Reached content reads tip (oid, kind) → Reached content reads tip (oid, kind') → kind = kind'
  depth : ∀ chain, TreeChain content reads tip chain → chain.length ≤ maxTreeDepth

end Graph

variable {content : String → Option VerifiedRawObject} {reads : Reads} {tip : String} {builder builder' : Builder} {visit : Visit}

/-! ### One visit -/

/-- The depth at which an object is met that one of type `kind` and depth `depth` refers to. -/
def depthBelow (kind : RawObjectType) (depth : ℕ) (child : RawObjectType) : ℕ :=
  match kind, child with
  | .commit, .tree => 1
  | .commit, _ => 0
  | _, .tree => depth + 1
  | _, _ => depth

/-- The visit of a reference. -/
def Visit.follow (visit : Visit) (ref : Ref) : Visit := ⟨ref.1, ref.2, depthBelow visit.kind visit.depth ref.2⟩

def Visit.ref (visit : Visit) : Ref := (visit.oid, visit.kind)

theorem Available.unique {ref : Ref} {bytes bytes' : List UInt8} (h : Available content reads ref bytes)
    (h' : Available content reads ref bytes') : bytes = bytes' := by
  simpa using h.content.symm.trans h'.content

/-- What is available is read, and the marks stay as they are; anything else is an error. -/
theorem object_cases (builder : Builder) (oid : String) (kind : RawObjectType) :
    (∃ builder' bytes, builder.object content reads oid kind = .ok (builder', bytes) ∧
      Available content reads (oid, kind) bytes ∧ builder'.seen = builder.seen) ∨
    (builder.object content reads oid kind = .error integrity ∧ ∀ bytes, ¬ Available content reads (oid, kind) bytes) := by
  unfold Builder.object
  rcases hcontent : content oid with _ | ⟨kind', bytes⟩
  · refine .inr ⟨rfl, fun bytes h => ?_⟩
    cases hcontent.symm.trans h.content
  by_cases hkind : kind' = kind
  · subst hkind
    by_cases hincoming : oid ∈ reads.incoming
    · by_cases hmember : oid ∈ builder.membership
      · exact .inl ⟨builder, bytes, by simp [hincoming, hmember], ⟨hcontent, .inl hincoming⟩, rfl⟩
      · simp only [ne_eq, not_true_eq_false, ↓reduceIte, hincoming, hmember]
        exact .inl ⟨_, bytes, rfl, ⟨hcontent, .inl hincoming⟩, rfl⟩
    · by_cases hread : reads.published oid = true ∧ reads.readable oid = true
      · exact .inl ⟨builder, bytes, by simp [hincoming, hread], ⟨hcontent, .inr hread⟩, rfl⟩
      · refine .inr ⟨by simpa [hincoming] using hread, fun bytes h => ?_⟩
        exact h.found.elim hincoming hread
  · refine .inr ⟨by simp [hkind], fun bytes h => ?_⟩
    cases hcontent.symm.trans h.content
    exact hkind rfl

/-- **What a visit does**: it marks an object that is there and well formed, and queues what the object refers
to. Anything else is an error. -/
theorem visitObject_cases (builder : Builder) (visit : Visit) (previous : Bool) :
    (∃ builder' bytes refs, builder.visitObject content reads visit previous = .ok (builder', refs.map visit.follow) ∧
      Holds content reads visit.ref bytes refs ∧ OneParent reads visit.ref bytes ∧
      builder'.seen = Function.update builder.seen visit.oid (some (visit.kind, visit.depth))) ∨
    ∃ e ≠ TracesError.unfinished, builder.visitObject content reads visit previous = .error e ∧
      ∀ bytes refs, Holds content reads visit.ref bytes refs → ¬ OneParent reads visit.ref bytes := by
  obtain ⟨oid, kind, depth⟩ := visit
  unfold Builder.visitObject
  rcases object_cases builder oid kind with ⟨read, bytes, hobject, havailable, hseen⟩ | ⟨hobject, hmissing⟩
  swap
  · exact .inr ⟨integrity, by decide, by simp [hobject], fun bytes _ h => absurd h.toAvailable (hmissing bytes)⟩
  simp only [hobject]
  cases kind with
  | commit =>
    unfold Builder.visitCommit
    rcases hlinks : verifiedCommitLinks reads.kind.width bytes with _ | links
    · refine .inr ⟨.invalidParameter, by decide, rfl, fun bytes' refs h => ?_⟩
      obtain rfl := havailable.unique h.toAvailable
      obtain ⟨hcommit⟩ := h.refs
      cases hlinks.symm.trans (verifiedCommitLinks_eq_some.mpr hcommit)
    · have hcommit := verifiedCommitLinks_eq_some.mp hlinks
      by_cases hparents : 1 < links.parents.length
      · refine .inr ⟨integrity, by decide, by simp [hparents], fun bytes' refs h hone => ?_⟩
        obtain rfl := havailable.unique h.toAvailable
        exact Nat.not_lt.mpr (hone rfl links hcommit) hparents
      · simp only [if_neg hparents]
        refine .inl ⟨_, bytes, links.refs, congrArg (fun next => Except.ok (_, next)) ?_, ⟨havailable, .commit hcommit⟩, ?_, ?_⟩
        · simp [CommitLinks.refs, Visit.follow, depthBelow]
        · intro _ links' hlinks'
          rw [← hcommit.unique hlinks']
          exact Nat.not_lt.mp hparents
        · cases previous <;> simp [hseen]
  | tree =>
    unfold Builder.visitTree
    rcases hentries : verifiedTreeEntries (reads.kind.width / 2) bytes with _ | entries
    · refine .inr ⟨.invalidParameter, by decide, rfl, fun bytes' refs h => ?_⟩
      obtain rfl := havailable.unique h.toAvailable
      obtain _ | ⟨htree, horder⟩ := h.refs
      cases hentries.symm.trans (verifiedTreeEntries_eq_some.mpr ⟨htree, horder⟩)
    · obtain ⟨htree, horder⟩ := verifiedTreeEntries_eq_some.mp hentries
      refine .inl ⟨_, bytes, _, congrArg (fun next => Except.ok (_, next)) ?_, ⟨havailable, .tree htree horder⟩, nofun, ?_⟩
      · rw [map_filterMap]
        congr 1
        funext entry
        rcases entry with ⟨_ | _ | _, name, id⟩ <;> rfl
      · cases previous <;> simp [hseen]
  | blob => exact .inl ⟨_, bytes, [], rfl, ⟨havailable, .blob⟩, nofun, by rw [hseen]⟩
  | tag =>
    refine .inr ⟨integrity, by decide, rfl, fun _ _ h => ?_⟩
    cases h.refs

/-! ### One round of the walk -/

/-- The object was not met yet, or it was met as the same type and less deep. -/
def Rises (builder : Builder) (visit : Visit) : Prop :=
  ∀ kind depth, builder.seen visit.oid = some (kind, depth) → kind = visit.kind ∧ depth < visit.depth

variable (content reads) in
/-- What the walk does with the next visit: it stops, it passes over the visit, or it goes on with the references
of the object. -/
inductive Round (builder : Builder) (visit : Visit) (queue : List Visit) : Prop
  | stop (e : TracesError) (he : e ≠ .unfinished)
      (hwhy : maxTreeDepth < visit.depth ∨ (∃ kind depth, builder.seen visit.oid = some (kind, depth) ∧ kind ≠ visit.kind) ∨
        ∀ bytes refs, Holds content reads visit.ref bytes refs → ¬ OneParent reads visit.ref bytes)
      (heq : ∀ fuel, builder.closure content reads (fuel + 1) (visit :: queue) = .error e)
  | pass (depth : ℕ) (hseen : builder.seen visit.oid = some (visit.kind, depth)) (hdepth : visit.depth ≤ depth)
      (heq : ∀ fuel, builder.closure content reads (fuel + 1) (visit :: queue) = builder.closure content reads fuel queue)
  | follow (builder' : Builder) (bytes : List UInt8) (refs : List Ref) (hdepth : visit.depth ≤ maxTreeDepth)
      (hrises : Rises builder visit) (hholds : Holds content reads visit.ref bytes refs)
      (hparents : OneParent reads visit.ref bytes)
      (hseen : builder'.seen = Function.update builder.seen visit.oid (some (visit.kind, visit.depth)))
      (heq : ∀ fuel, builder.closure content reads (fuel + 1) (visit :: queue) =
        builder'.closure content reads fuel (queue ++ refs.map visit.follow))

/-- A visit that is due. -/
theorem Round.of_visitObject {queue : List Visit} (previous : Bool) (hdepth : visit.depth ≤ maxTreeDepth)
    (hrises : Rises builder visit)
    (heq : ∀ fuel, builder.closure content reads (fuel + 1) (visit :: queue) =
      (builder.visitObject content reads visit previous).bind fun visited =>
        visited.1.closure content reads fuel (queue ++ visited.2)) :
    Round content reads builder visit queue := by
  rcases visitObject_cases builder visit previous with
    ⟨builder', bytes, refs, hvisit, hholds, hparents, hseen⟩ | ⟨e, he, hvisit, hwhy⟩
  · exact .follow builder' bytes refs hdepth hrises hholds hparents hseen fun fuel => by rw [heq, hvisit]; rfl
  · exact .stop e he (.inr (.inr hwhy)) fun fuel => by rw [heq, hvisit]; rfl

/-- **Every round does one of the three.** -/
theorem closure_round (builder : Builder) (visit : Visit) (queue : List Visit) :
    Round content reads builder visit queue := by
  by_cases hdeep : maxTreeDepth < visit.depth
  · refine .stop .responseBudget (by decide) (.inl hdeep) fun fuel => ?_
    rw [Builder.closure, if_pos hdeep]
  · have hdepth : visit.depth ≤ maxTreeDepth := by omega
    rcases hseen : builder.seen visit.oid with _ | ⟨kind, depth⟩
    · refine .of_visitObject false hdepth (fun kind depth h => ?_) fun fuel => ?_
      · rw [hseen] at h
        cases h
      · simp only [Builder.closure, if_neg hdeep, hseen]
        cases builder.visitObject content reads visit false <;> rfl
    · by_cases hkind : kind = visit.kind
      · subst hkind
        by_cases hle : visit.depth ≤ depth
        · refine .pass depth hseen hle fun fuel => ?_
          rw [Builder.closure, if_neg hdeep]
          simp only [hseen, ne_eq, not_true_eq_false, ↓reduceIte, if_pos hle]
        · refine .of_visitObject true hdepth (fun kind' depth' h => ?_) fun fuel => ?_
          · rw [hseen] at h
            cases h
            exact ⟨rfl, by omega⟩
          · simp only [Builder.closure, if_neg hdeep, hseen, ne_eq, not_true_eq_false, ↓reduceIte, if_neg hle]
            cases builder.visitObject content reads visit true <;> rfl
      · refine .stop integrity (by decide) (.inr (.inl ⟨kind, depth, hseen, hkind⟩)) fun fuel => ?_
        rw [Builder.closure, if_neg hdeep]
        simp only [hseen, ne_eq, hkind, not_false_eq_true, ↓reduceIte]

/-! ### The walk ends -/

/-- How far the mark of an object may still rise. -/
def room (builder : Builder) (oid : String) : ℕ :=
  match builder.seen oid with
  | none => maxTreeDepth + 1
  | some (_, depth) => maxTreeDepth - depth

/-- An expansion raises a mark. -/
theorem room_lt {ids : List String} (hmem : visit.oid ∈ ids) (hdepth : visit.depth ≤ maxTreeDepth)
    (hrises : Rises builder visit)
    (hseen : builder'.seen = Function.update builder.seen visit.oid (some (visit.kind, visit.depth))) :
    (ids.map (room builder')).sum < (ids.map (room builder)).sum := by
  have hself : room builder' visit.oid < room builder visit.oid := by
    unfold room
    rw [hseen, Function.update_self]
    rcases hold : builder.seen visit.oid with _ | ⟨kind, depth⟩
    · show maxTreeDepth - visit.depth < maxTreeDepth + 1
      omega
    · have hlt := (hrises kind depth hold).2
      show maxTreeDepth - visit.depth < maxTreeDepth - depth
      omega
  have hle : ∀ oid ∈ ids, room builder' oid ≤ room builder oid := by
    intro oid _
    by_cases heq : oid = visit.oid
    · rw [heq]
      exact hself.le
    · unfold room
      rw [hseen, Function.update_of_ne heq]
  exact sum_lt_sum _ _ hle ⟨visit.oid, hmem, hself⟩

/-- With enough rounds the walk ends, whatever it finds. -/
theorem closure_finishes {ids : List String} (hids : ∀ ref bytes, Available content reads ref bytes → ref.1 ∈ ids) :
    ∀ (total : ℕ) (builder : Builder) (queue : List Visit), (ids.map (room builder)).sum ≤ total →
      ∃ fuel₀, ∀ fuel ≥ fuel₀, builder.closure content reads fuel queue ≠ .error .unfinished := by
  intro total
  induction total using Nat.strong_induction_on with
  | _ total ih =>
    intro builder queue hroom
    induction queue with
    | nil =>
      refine ⟨0, fun fuel _ => ?_⟩
      unfold Builder.closure
      simp
    | cons visit queue ihqueue =>
      -- a visit that is passed over shortens the queue, one that is followed uses up room
      rcases closure_round builder visit queue with ⟨e, he, -, heq⟩ | ⟨depth, -, -, heq⟩ |
        ⟨builder', bytes, refs, hdepth, hrises, hholds, -, hseen, heq⟩
      · refine ⟨1, fun fuel hfuel => ?_⟩
        obtain ⟨fuel, rfl⟩ : ∃ k, fuel = k + 1 := ⟨fuel - 1, by omega⟩
        rw [heq]
        simpa using he
      · obtain ⟨fuel₀, hfuel₀⟩ := ihqueue
        refine ⟨fuel₀ + 1, fun fuel hfuel => ?_⟩
        obtain ⟨fuel, rfl⟩ : ∃ k, fuel = k + 1 := ⟨fuel - 1, by omega⟩
        rw [heq]
        exact hfuel₀ fuel (by omega)
      · have hlt := room_lt (hids _ bytes hholds.toAvailable) hdepth hrises hseen
        obtain ⟨fuel₀, hfuel₀⟩ := ih _ (by omega) builder' (queue ++ refs.map visit.follow) (Nat.le_refl _)
        refine ⟨fuel₀ + 1, fun fuel hfuel => ?_⟩
        obtain ⟨fuel, rfl⟩ : ∃ k, fuel = k + 1 := ⟨fuel - 1, by omega⟩
        rw [heq]
        exact hfuel₀ fuel (by omega)

/-! ### What is accepted -/

/-- The object was marked at least so deep, or it is queued at least so deep. -/
def Pending (builder : Builder) (queue : List Visit) (ref : Ref) (depth : ℕ) : Prop :=
  (∃ marked, builder.seen ref.1 = some (ref.2, marked) ∧ depth ≤ marked) ∨
    ∃ visit ∈ queue, visit.ref = ref ∧ depth ≤ visit.depth

variable (content reads) in
/-- Between two rounds: what is marked is there and well formed, and its references are marked or queued. -/
structure Marks (builder : Builder) (queue : List Visit) : Prop where
  depth : ∀ oid kind depth, builder.seen oid = some (kind, depth) → depth ≤ maxTreeDepth
  holds : ∀ oid kind depth, builder.seen oid = some (kind, depth) →
    ∃ bytes refs, Holds content reads (oid, kind) bytes refs ∧ OneParent reads (oid, kind) bytes ∧
      ∀ ref ∈ refs, Pending builder queue ref (depthBelow kind depth ref.2)

/-- A visit that is passed over is no longer needed. -/
theorem Pending.pass {queue : List Visit} {ref : Ref} {depth marked : ℕ}
    (hseen : builder.seen visit.oid = some (visit.kind, marked)) (hle : visit.depth ≤ marked)
    (h : Pending builder (visit :: queue) ref depth) : Pending builder queue ref depth := by
  rcases h with hmarked | ⟨queued, hmem, href, hdepth⟩
  · exact .inl hmarked
  · rcases mem_cons.mp hmem with rfl | hmem
    · subst href
      exact .inl ⟨marked, hseen, by omega⟩
    · exact .inr ⟨queued, hmem, href, hdepth⟩

/-- A visit that is followed leaves its mark. -/
theorem Pending.follow {queue next : List Visit} {ref : Ref} {depth : ℕ} (hrises : Rises builder visit)
    (hseen : builder'.seen = Function.update builder.seen visit.oid (some (visit.kind, visit.depth)))
    (h : Pending builder (visit :: queue) ref depth) : Pending builder' (queue ++ next) ref depth := by
  rcases h with ⟨marked, hmarked, hle⟩ | ⟨queued, hmem, href, hdepth⟩
  · refine .inl ?_
    by_cases heq : ref.1 = visit.oid
    · rw [heq] at hmarked
      obtain ⟨hkind, hlt⟩ := hrises _ _ hmarked
      refine ⟨visit.depth, ?_, by omega⟩
      rw [hseen, heq, Function.update_self, hkind]
    · refine ⟨marked, ?_, hle⟩
      rw [hseen, Function.update_of_ne heq]
      exact hmarked
  · rcases mem_cons.mp hmem with rfl | hmem
    · subst href
      refine .inl ⟨queued.depth, ?_, hdepth⟩
      show builder'.seen queued.oid = _
      rw [hseen, Function.update_self]
      rfl
    · exact .inr ⟨queued, mem_append_left _ hmem, href, hdepth⟩

/-- A mark after a visit is that of the visit, or it was there before. -/
theorem seen_cases (hseen : builder'.seen = Function.update builder.seen visit.oid (some (visit.kind, visit.depth)))
    {oid : String} {kind : RawObjectType} {depth : ℕ} (h : builder'.seen oid = some (kind, depth)) :
    visit = ⟨oid, kind, depth⟩ ∨ builder.seen oid = some (kind, depth) := by
  by_cases heq : oid = visit.oid
  · rw [hseen, heq, Function.update_self] at h
    cases h
    exact .inl (by rw [heq])
  · rw [hseen, Function.update_of_ne heq] at h
    exact .inr h

theorem Marks.pass {queue : List Visit} {marked : ℕ} (h : Marks content reads builder (visit :: queue))
    (hseen : builder.seen visit.oid = some (visit.kind, marked)) (hle : visit.depth ≤ marked) :
    Marks content reads builder queue := by
  refine ⟨h.depth, fun oid kind depth hmarked => ?_⟩
  obtain ⟨bytes, refs, hholds, hparents, hrefs⟩ := h.holds oid kind depth hmarked
  exact ⟨bytes, refs, hholds, hparents, fun ref href => (hrefs ref href).pass hseen hle⟩

theorem Marks.follow {queue : List Visit} {bytes : List UInt8} {refs : List Ref}
    (h : Marks content reads builder (visit :: queue)) (hdepth : visit.depth ≤ maxTreeDepth)
    (hrises : Rises builder visit) (hholds : Holds content reads visit.ref bytes refs)
    (hparents : OneParent reads visit.ref bytes)
    (hseen : builder'.seen = Function.update builder.seen visit.oid (some (visit.kind, visit.depth))) :
    Marks content reads builder' (queue ++ refs.map visit.follow) := by
  constructor
  · intro oid kind depth hmarked
    obtain rfl | hmarked := seen_cases hseen hmarked
    · exact hdepth
    · exact h.depth oid kind depth hmarked
  · intro oid kind depth hmarked
    obtain rfl | hmarked := seen_cases hseen hmarked
    · refine ⟨bytes, refs, hholds, hparents, fun ref href => .inr
        ⟨Visit.follow ⟨oid, kind, depth⟩ ref, ?_, rfl, Nat.le_refl _⟩⟩
      exact mem_append_right _ (mem_map_of_mem href)
    · obtain ⟨bytes', refs', hholds', hparents', hrefs'⟩ := h.holds oid kind depth hmarked
      exact ⟨bytes', refs', hholds', hparents', fun ref href => (hrefs' ref href).follow hrises hseen⟩

/-- A walk that accepts leaves marks that are closed, and marks all that was queued. -/
theorem marks_of_closure : ∀ (fuel : ℕ) (queue : List Visit) (builder builder' : Builder),
    Marks content reads builder queue → builder.closure content reads fuel queue = .ok builder' →
    Marks content reads builder' [] ∧ ∀ ref depth, Pending builder queue ref depth → Pending builder' [] ref depth
  | fuel, [], builder, builder', hmarks, h => by
    unfold Builder.closure at h
    cases h
    exact ⟨hmarks, fun _ _ hpending => hpending⟩
  | 0, visit :: queue, builder, builder', hmarks, h => by
    unfold Builder.closure at h
    cases h
  | fuel + 1, visit :: queue, builder, builder', hmarks, h => by
    rcases closure_round builder visit queue with ⟨e, -, -, heq⟩ | ⟨marked, hseen, hle, heq⟩ |
      ⟨mid, bytes, refs, hdepth, hrises, hholds, hparents, hseen, heq⟩
    · rw [heq] at h
      cases h
    · rw [heq] at h
      obtain ⟨hfinal, hkept⟩ := marks_of_closure fuel queue builder builder' (hmarks.pass hseen hle) h
      exact ⟨hfinal, fun ref depth hpending => hkept ref depth (hpending.pass hseen hle)⟩
    · rw [heq] at h
      have hmid := hmarks.follow hdepth hrises hholds hparents hseen
      obtain ⟨hfinal, hkept⟩ := marks_of_closure fuel _ mid builder' hmid h
      exact ⟨hfinal, fun ref depth hpending => hkept ref depth (hpending.follow hrises hseen)⟩

section Marked

variable (hmarks : Marks content reads builder []) (htip : Pending builder [] (tip, .commit) 0)
include hmarks

/-- When nothing is queued, what a marked object refers to is marked below it. -/
theorem Marks.below {a b : Ref} {depth : ℕ} (hseen : builder.seen a.1 = some (a.2, depth))
    (h : Refers content reads a b) : ∃ depth', builder.seen b.1 = some (b.2, depth') ∧ depthBelow a.2 depth b.2 ≤ depth' := by
  obtain ⟨bytes, refs, hholds, -, hrefs⟩ := hmarks.holds _ _ _ hseen
  obtain ⟨bytes', refs', hholds', hmem⟩ := h
  obtain rfl := hholds.toAvailable.unique hholds'.toAvailable
  obtain rfl := hholds.refs.unique hholds'.refs
  rcases hrefs b hmem with hmarked | ⟨visit, hvisit, -⟩
  · exact hmarked
  · exact absurd hvisit not_mem_nil

include htip

theorem Marks.reached {ref : Ref} (h : Reached content reads tip ref) : ∃ depth, builder.seen ref.1 = some (ref.2, depth) := by
  induction h with
  | refl =>
    rcases htip with ⟨depth, hseen, -⟩ | ⟨visit, hvisit, -⟩
    · exact ⟨depth, hseen⟩
    · exact absurd hvisit not_mem_nil
  | tail _ hstep ih =>
    obtain ⟨depth, hseen⟩ := ih
    obtain ⟨depth', hseen', -⟩ := hmarks.below hseen hstep
    exact ⟨depth', hseen'⟩

/-- The trees of a commit have depth one, those below deeper ones. -/
theorem Marks.one_le_depth {oid : String} (h : Reached content reads tip (oid, .tree)) {depth : ℕ}
    (hseen : builder.seen oid = some (.tree, depth)) : 1 ≤ depth := by
  rcases ReflTransGen.cases_tail h with heq | ⟨a, hreach, hstep⟩
  · cases heq
  · obtain ⟨above, habove⟩ := hmarks.reached htip hreach
    obtain ⟨depth', hseen', hle⟩ := hmarks.below habove hstep
    obtain rfl : depth = depth' := by
      have hsame := hseen.symm.trans hseen'
      simpa using hsame
    have hpos : 1 ≤ depthBelow a.2 above .tree := by
      unfold depthBelow
      cases a.2 <;> simp
    exact hpos.trans hle

omit htip in
/-- Along a chain of nested trees the marks rise. -/
theorem Marks.rise_along : ∀ {oid : String} {chain : List String} {depth : ℕ},
    (oid :: chain).IsChain (fun a b => Refers content reads (a, .tree) (b, .tree)) →
    builder.seen oid = some (.tree, depth) → depth + chain.length ≤ maxTreeDepth
  | oid, [], depth, _, hseen => by
    have hle := hmarks.depth oid .tree depth hseen
    simpa using hle
  | oid, next :: chain, depth, hchain, hseen => by
    have hlinks := isChain_cons.mp hchain
    obtain ⟨depth', hseen', hle⟩ := hmarks.below (a := (oid, .tree)) hseen (hlinks.1 next rfl)
    have hle : depth + 1 ≤ depth' := hle
    have hrest := Marks.rise_along hlinks.2 hseen'
    rw [length_cons]
    omega

/-- **What is accepted is a closed well-formed history.** -/
theorem Marks.admissible : Admissible content reads tip := by
  constructor
  · intro ref hreach
    obtain ⟨depth, hseen⟩ := hmarks.reached htip hreach
    obtain ⟨bytes, refs, hholds, -⟩ := hmarks.holds _ _ _ hseen
    exact ⟨bytes, refs, hholds⟩
  · intro ref bytes refs hreach hholds
    obtain ⟨depth, hseen⟩ := hmarks.reached htip hreach
    obtain ⟨bytes', refs', hholds', hparents, -⟩ := hmarks.holds _ _ _ hseen
    obtain rfl := hholds.toAvailable.unique hholds'.toAvailable
    exact hparents
  · intro oid kind kind' hreach hreach'
    obtain ⟨depth, hseen⟩ := hmarks.reached htip hreach
    obtain ⟨depth', hseen'⟩ := hmarks.reached htip hreach'
    have hsame := hseen.symm.trans hseen'
    simp only [Option.some.injEq, Prod.mk.injEq] at hsame
    exact hsame.1
  · intro chain hchain
    rcases chain with _ | ⟨oid, chain⟩
    · exact Nat.zero_le _
    · have hreach : Reached content reads tip (oid, .tree) := hchain.first oid rfl
      obtain ⟨depth, hseen⟩ := hmarks.reached htip hreach
      have hpos := hmarks.one_le_depth htip hreach hseen
      have hrise := hmarks.rise_along hchain.nested hseen
      rw [length_cons]
      omega

end Marked

/-! ### What is refused -/

variable (content reads) in
/-- A visit of an object that is reached, as deep as a chain of nested trees that leads to it. -/
structure Due (tip : String) (visit : Visit) : Prop where
  reached : Reached content reads tip visit.ref
  depth : match visit.kind with
    | .commit => visit.depth = 0
    | .tree => ∃ chain, TreeChain content reads tip chain ∧ chain.getLast? = some visit.oid ∧ chain.length = visit.depth
    | _ => ∃ chain, TreeChain content reads tip chain ∧ chain.length = visit.depth

theorem Due.depth_le (h : Due content reads tip visit) (hadmissible : Admissible content reads tip) :
    visit.depth ≤ maxTreeDepth := by
  have hchain : visit.depth = 0 ∨ ∃ chain, TreeChain content reads tip chain ∧ chain.length = visit.depth := by
    have hdepth := h.depth
    split at hdepth
    · exact .inl hdepth
    · obtain ⟨chain, hchain, -, hlen⟩ := hdepth
      exact .inr ⟨chain, hchain, hlen⟩
    · exact .inr hdepth
  rcases hchain with hzero | ⟨chain, hchain, hlen⟩
  · omega
  · exact hlen ▸ hadmissible.depth chain hchain

theorem TreeChain.concat {chain : List String} {oid next : String} (h : TreeChain content reads tip chain)
    (hlast : chain.getLast? = some oid) (hstep : Refers content reads (oid, .tree) (next, .tree)) :
    TreeChain content reads tip (chain ++ [next]) := by
  have hne : chain ≠ [] := by
    intro hnil
    rw [hnil] at hlast
    cases hlast
  refine ⟨fun a ha => h.first a ?_, ?_⟩
  · rwa [head?_append_of_ne_nil _ hne] at ha
  · rw [isChain_append]
    refine ⟨h.nested, .singleton _, fun a ha b hb => ?_⟩
    have ha : a = oid := Option.some.inj (ha.symm.trans hlast)
    have hb : b = next := by simpa using hb.symm
    rw [ha, hb]
    exact hstep

/-- The references of a visit that is due are due. -/
theorem Due.follow {bytes : List UInt8} {refs : List Ref} (h : Due content reads tip visit)
    (hholds : Holds content reads visit.ref bytes refs) {ref : Ref} (hmem : ref ∈ refs) :
    Due content reads tip (visit.follow ref) := by
  obtain ⟨oid, kind, depth⟩ := visit
  have hstep : Refers content reads (oid, kind) ref := ⟨bytes, refs, hholds, hmem⟩
  have hreach : Reached content reads tip ref := h.reached.tail hstep
  have hrefs : RefsIn reads.kind.width kind bytes refs := hholds.refs
  have hdepth := h.depth
  refine ⟨hreach, ?_⟩
  cases hrefs with
  | @commit _ links hcommit =>
    rcases mem_cons.mp hmem with rfl | hparent
    · refine ⟨[links.tree], ⟨fun a ha => ?_, .singleton _⟩, rfl, rfl⟩
      obtain rfl : links.tree = a := Option.some.inj ha
      exact hreach
    · obtain ⟨parent, -, rfl⟩ := mem_map.mp hparent
      rfl
  | tree htree horder =>
    obtain ⟨entry, -, hentry⟩ := mem_filterMap.mp hmem
    obtain ⟨chain, hchain, hlast, hlen⟩ := hdepth
    rcases entry with ⟨_ | _ | _, name, id⟩
    · cases hentry
      refine ⟨chain ++ [id], hchain.concat hlast hstep, by simp [Visit.follow], ?_⟩
      rw [length_append, hlen]
      rfl
    · cases hentry
      exact ⟨chain, hchain, hlen⟩
    · cases hentry
  | blob => exact absurd hmem not_mem_nil

/-- **A closed well-formed history is accepted**, unless the rounds are too few. -/
theorem closure_of_admissible (hadmissible : Admissible content reads tip) :
    ∀ (fuel : ℕ) (queue : List Visit) (builder : Builder), (∀ visit ∈ queue, Due content reads tip visit) →
      (∀ oid kind depth, builder.seen oid = some (kind, depth) → Reached content reads tip (oid, kind)) →
      (∃ builder', builder.closure content reads fuel queue = .ok builder') ∨
        builder.closure content reads fuel queue = .error .unfinished
  | fuel, [], builder, hqueue, hseen => by
    unfold Builder.closure
    exact .inl ⟨builder, rfl⟩
  | 0, visit :: queue, builder, hqueue, hseen => by
    unfold Builder.closure
    exact .inr rfl
  | fuel + 1, visit :: queue, builder, hqueue, hseen => by
    have hdue : Due content reads tip visit := hqueue visit mem_cons_self
    have hrest : ∀ later ∈ queue, Due content reads tip later := fun later hlater => hqueue later (mem_cons_of_mem _ hlater)
    rcases closure_round builder visit queue with ⟨e, -, hwhy, -⟩ | ⟨marked, -, -, heq⟩ |
      ⟨mid, bytes, refs, -, -, hholds, -, hmid, heq⟩
    · exfalso
      rcases hwhy with hdeep | ⟨kind, depth, hmarked, hkind⟩ | hmissing
      · have hle := hdue.depth_le hadmissible
        omega
      · exact hkind (hadmissible.oneType visit.oid kind visit.kind (hseen _ _ _ hmarked) hdue.reached)
      · obtain ⟨bytes, refs, hholds⟩ := hadmissible.wellFormed visit.ref hdue.reached
        exact hmissing bytes refs hholds (hadmissible.oneParent _ _ _ hdue.reached hholds)
    · rw [heq]
      exact closure_of_admissible hadmissible fuel queue builder hrest hseen
    · rw [heq]
      refine closure_of_admissible hadmissible fuel _ mid ?_ ?_
      · intro later hlater
        rcases mem_append.mp hlater with hlater | hlater
        · exact hrest later hlater
        · obtain ⟨ref, href, rfl⟩ := mem_map.mp hlater
          exact hdue.follow hholds href
      · intro oid kind depth hmarked
        obtain rfl | hmarked := seen_cases hmid hmarked
        · exact hdue.reached
        · exact hseen oid kind depth hmarked

/-- More rounds change nothing. -/
theorem closure_of_le : ∀ {fuel more : ℕ} {queue : List Visit} {builder : Builder}, fuel ≤ more →
    builder.closure content reads fuel queue ≠ .error .unfinished →
    builder.closure content reads more queue = builder.closure content reads fuel queue
  | fuel, more, [], builder, _, _ => by
    unfold Builder.closure
    rfl
  | 0, more, visit :: queue, builder, _, h => by
    unfold Builder.closure at h
    exact absurd rfl h
  | fuel + 1, more + 1, visit :: queue, builder, hle, h => by
    rcases closure_round builder visit queue with ⟨e, -, -, heq⟩ | ⟨marked, -, -, heq⟩ |
      ⟨mid, bytes, refs, -, -, -, -, -, heq⟩
    · rw [heq, heq]
    · rw [heq] at h ⊢
      rw [heq]
      exact closure_of_le (Nat.le_of_succ_le_succ hle) h
    · rw [heq] at h ⊢
      rw [heq]
      exact closure_of_le (Nat.le_of_succ_le_succ hle) h

/-- **A publication admits exactly the closed well-formed histories.** The walk from the tip ends, and it accepts
if and only if every object that is reached from the tip is in the pack or visible with the type its reference
asks for and is well formed, no commit has two parents, no object is referred to under two types, and no chain
of nested trees is longer than the limit. -/
theorem closure_admits (content : String → Option VerifiedRawObject) (reads : Reads) (tip : String)
    (hfinite : {oid | reads.published oid = true}.Finite) :
    ∃ fuel₀, ∀ fuel ≥ fuel₀,
      Builder.empty.closure content reads fuel [⟨tip, .commit, 0⟩] ≠ .error .unfinished ∧
        ((∃ builder, Builder.empty.closure content reads fuel [⟨tip, .commit, 0⟩] = .ok builder) ↔
          Admissible content reads tip) := by
  have hids : ∀ ref bytes, Available content reads ref bytes →
      ref.1 ∈ reads.incoming ++ hfinite.toFinset.toList := by
    intro ref bytes havailable
    rcases havailable.found with hincoming | ⟨hpublished, -⟩
    · exact mem_append_left _ hincoming
    · exact mem_append_right _ (by simpa using hpublished)
  have hempty : ∀ oid kind depth, Builder.empty.seen oid = some (kind, depth) → False := by
    intro oid kind depth h
    cases h
  obtain ⟨fuel₀, hfuel₀⟩ := closure_finishes hids _ Builder.empty [⟨tip, .commit, 0⟩] (Nat.le_refl _)
  refine ⟨fuel₀, fun fuel hfuel => ⟨hfuel₀ fuel hfuel, ?_, ?_⟩⟩
  · intro h
    obtain ⟨builder, h⟩ := h
    have hmarks : Marks content reads Builder.empty [⟨tip, .commit, 0⟩] :=
      ⟨fun oid kind depth hseen => (hempty oid kind depth hseen).elim,
        fun oid kind depth hseen => (hempty oid kind depth hseen).elim⟩
    obtain ⟨hfinal, hkept⟩ := marks_of_closure fuel _ _ builder hmarks h
    exact hfinal.admissible (hkept (tip, .commit) 0 (.inr ⟨_, mem_cons_self, rfl, Nat.le_refl _⟩))
  · intro hadmissible
    have hqueue : ∀ visit ∈ [(⟨tip, .commit, 0⟩ : Visit)],
        Due content reads tip visit := by
      intro visit hvisit
      rw [mem_singleton.mp hvisit]
      exact ⟨ReflTransGen.refl, rfl⟩
    rcases closure_of_admissible hadmissible fuel _ Builder.empty hqueue
      (fun oid kind depth hseen => (hempty oid kind depth hseen).elim) with hok | hunfinished
    · exact hok
    · exact absurd hunfinished (hfuel₀ fuel hfuel)

/-- A pack with the small history but for its second commit, which is published. -/
def sampleReads : Reads where
  kind := .sha1
  incoming := [1, 2, 3, 4, 5].map sampleOid
  published := fun oid => oid = sampleOid 7
  readable := fun _ => true

theorem closure_admits_sample : Admissible sampleContent sampleReads (sampleOid 1) := by
  have hfinite : {oid | sampleReads.published oid = true}.Finite := by simp [sampleReads]
  have hok : (Builder.empty.closure sampleContent sampleReads 12 [⟨sampleOid 1, .commit, 0⟩]).isOk = true := by
    decide +kernel
  obtain ⟨fuel₀, hfuel₀⟩ := closure_admits sampleContent sampleReads (sampleOid 1) hfinite
  rcases hclosure : Builder.empty.closure sampleContent sampleReads 12 [⟨sampleOid 1, .commit, 0⟩] with e | builder
  · rw [hclosure] at hok
    cases hok
  · refine (hfuel₀ (fuel₀ + 12) (by omega)).2.mp ⟨builder, ?_⟩
    rw [closure_of_le (Nat.le_add_left 12 fuel₀) (by simp [hclosure]), hclosure]

end Traces
end Mega
