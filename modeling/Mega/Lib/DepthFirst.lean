/-
# Depth-first walks with leave frames

An iterative depth-first walk keeps a stack of frames. Entering a node puts a
leave frame for it on the stack, and above that one enter frame for each of its
edges; the node is open until its leave frame comes up again, and closed from
then on. An enter frame of an open node closes a cycle, so the walk stops there.

The frames above a node's leave frame are below that node in the graph, and what
a node still has to close stands above its leave frame. So the walk ends, stops
exactly when the root leads to a cycle, and otherwise closes what the root leads to.

`gather` is the walk that collects a closure over a graph already known: it
marks a node when it takes it, and does not enter the nodes it skips.

Key definitions: `walk`, `Inv`, `gather`, `Covers`.
Key theorems: `walk_cases`, `walk_root`, `gather_cases`, `gather_covers`.
-/
import Mega.Lib.Explore

namespace Mega
namespace DepthFirst

open List Relation

open Explore (ahead ahead_append_le)

universe u

variable {ν : Type u}

/-- How a walk ends. -/
inductive Outcome (ν : Type u) where
  /-- it had too few steps -/
  | exhausted
  /-- it came back to an open node -/
  | cycle
  | done (opened closed : List ν)

/-- The walk over the frames of a stack, a frame being a node and whether the node is left. -/
def walk [DecidableEq ν] (edges : ν → List ν) : ℕ → List (ν × Bool) → List ν → List ν → Outcome ν
  | _, [], opened, closed => .done opened closed
  | 0, _ :: _, _, _ => .exhausted
  | fuel + 1, (v, leave) :: stack, opened, closed =>
    if v ∈ opened then
      if leave = true ∧ v ∉ closed then walk edges fuel stack opened (v :: closed)
      else if v ∉ closed then .cycle
      else walk edges fuel stack opened closed
    else if leave then .cycle
    else
      walk edges fuel ((edges v).reverse.map (fun w => (w, false)) ++ (v, true) :: stack) (opened ++ [v]) closed

section Walk

variable (edges : ν → List ν)

/-- `b` is an edge's target of `a`. -/
def Next (a b : ν) : Prop := b ∈ edges a

/-- Each node was closed after all its edges' targets. -/
def Settled : List ν → Prop
  | [] => True
  | v :: rest => v ∉ rest ∧ (∀ w ∈ edges v, w ∈ rest) ∧ Settled rest

/-- What holds between two steps of a walk. -/
structure Inv (root : ν) (stack : List (ν × Bool)) (opened closed : List ν) : Prop where
  closed_opened : ∀ v ∈ closed, v ∈ opened
  settled : Settled edges closed
  /-- the nodes on the way are those with a leave frame -/
  leave_iff : ∀ v, (v, true) ∈ stack ↔ v ∈ opened ∧ v ∉ closed
  leave_once : (stack.filter (·.2)).Nodup
  reached : ∀ frame ∈ stack, ReflTransGen (Next edges) root frame.1
  reached_opened : ∀ v ∈ opened, ReflTransGen (Next edges) root v
  /-- what stands above a leave frame is below its node -/
  below : stack.Pairwise fun upper lower => lower.2 = true → TransGen (Next edges) lower.1 upper.1
  /-- what a node still waits for stands above its leave frame -/
  awaited : ∀ v, (v, true) ∈ stack → ∀ w ∈ edges v, w ∈ closed ∨ ∃ leave, [(w, leave), (v, true)].Sublist stack
  root_met : root ∈ opened ∨ (root, false) ∈ stack

theorem Inv.start (root : ν) : Inv edges root [(root, false)] [] [] := by
  constructor <;> simp [Settled, ReflTransGen.refl]

variable {edges} {root v : ν} {leave : Bool} {stack : List (ν × Bool)} {opened closed : List ν}

/-- A leave frame occurs once. -/
theorem Inv.leave_notMem (h : Inv edges root ((v, true) :: stack) opened closed) : (v, true) ∉ stack := by
  have honce : ((v, true) :: stack.filter (·.2)).Nodup := by simpa using h.leave_once
  intro hmem
  exact (nodup_cons.mp honce).1 (mem_filter.mpr ⟨hmem, rfl⟩)

/-- A node whose leave frame comes up is closed. -/
theorem Inv.close (h : Inv edges root ((v, true) :: stack) opened closed) :
    Inv edges root stack opened (v :: closed) := by
  have hv : v ∈ opened ∧ v ∉ closed := (h.leave_iff v).mp mem_cons_self
  have honce : (v, true) ∉ stack := h.leave_notMem
  have htargets : ∀ w ∈ edges v, w ∈ closed := by
    intro w hw
    obtain hclosed | ⟨leave, habove⟩ := h.awaited v mem_cons_self w hw
    · exact hclosed
    · exfalso
      have htail : [(v, true)].Sublist stack := by
        cases habove with
        | cons _ hsub => exact (sublist_cons_self _ _).trans hsub
        | cons_cons _ hsub => exact hsub
      exact honce (singleton_sublist.mp htail)
  constructor
  case closed_opened =>
    exact forall_mem_cons.mpr ⟨hv.1, h.closed_opened⟩
  case settled => exact ⟨hv.2, htargets, h.settled⟩
  case leave_iff =>
    intro w
    have hw := h.leave_iff w
    by_cases heq : w = v
    · subst heq
      simp [honce]
    · simpa [heq] using hw
  case leave_once => exact h.leave_once.sublist ((sublist_cons_self _ _).filter _)
  case reached => exact fun frame hframe => h.reached frame (mem_cons_of_mem _ hframe)
  case reached_opened => exact h.reached_opened
  case below => exact (pairwise_cons.mp h.below).2
  case awaited =>
    intro u hu w hw
    obtain hclosed | ⟨leave, habove⟩ := h.awaited u (mem_cons_of_mem _ hu) w hw
    · exact .inl (mem_cons_of_mem _ hclosed)
    · cases habove with
      | cons _ hsub => exact .inr ⟨leave, hsub⟩
      | cons_cons _ _ => exact .inl mem_cons_self
  case root_met => simpa using h.root_met

/-- A frame of a closed node is dropped. -/
theorem Inv.drop (h : Inv edges root ((v, leave) :: stack) opened closed) (hv : v ∈ closed) :
    Inv edges root stack opened closed := by
  have hleave : leave = false := by
    by_contra hleave
    rw [Bool.not_eq_false] at hleave
    subst hleave
    exact ((h.leave_iff v).mp mem_cons_self).2 hv
  subst hleave
  constructor
  case closed_opened => exact h.closed_opened
  case settled => exact h.settled
  case leave_iff => exact fun w => by simpa using h.leave_iff w
  case leave_once => simpa using h.leave_once
  case reached => exact fun frame hframe => h.reached frame (mem_cons_of_mem _ hframe)
  case reached_opened => exact h.reached_opened
  case below => exact (pairwise_cons.mp h.below).2
  case awaited =>
    intro u hu w hw
    obtain hclosed | ⟨leave, habove⟩ := h.awaited u (mem_cons_of_mem _ hu) w hw
    · exact .inl hclosed
    · cases habove with
      | cons _ hsub => exact .inr ⟨leave, hsub⟩
      | cons_cons _ _ => exact .inl hv
  case root_met =>
    obtain hroot | hroot := h.root_met
    · exact .inl hroot
    · obtain hroot | hroot := mem_cons.mp hroot
      · simp only [Prod.mk.injEq, and_true] at hroot
        exact .inl (hroot ▸ h.closed_opened v hv)
      · exact .inr hroot

/-- Entering a node. -/
theorem Inv.enter (h : Inv edges root ((v, false) :: stack) opened closed) (hv : v ∉ opened) :
    Inv edges root ((edges v).reverse.map (fun w => (w, false)) ++ (v, true) :: stack) (opened ++ [v]) closed := by
  have hreached : ReflTransGen (Next edges) root v := h.reached _ mem_cons_self
  have hbelow := pairwise_cons.mp h.below
  have hfresh : (v, true) ∉ stack := fun hmem => hv ((h.leave_iff v).mp (mem_cons_of_mem _ hmem)).1
  have hstack : stack.Sublist ((edges v).reverse.map (fun w => (w, false)) ++ (v, true) :: stack) :=
    (sublist_cons_self _ _).trans (sublist_append_right _ _)
  constructor
  case closed_opened => exact fun w hw => mem_append_left _ (h.closed_opened w hw)
  case settled => exact h.settled
  case leave_iff =>
    intro w
    have hw := h.leave_iff w
    have hclosed : v ∉ closed := fun hmem => hv (h.closed_opened v hmem)
    by_cases heq : w = v
    · subst heq
      simp [hclosed]
    · simpa [heq] using hw
  case leave_once =>
    have honce : (stack.filter (·.2)).Nodup := by simpa using h.leave_once
    have hnone : ((edges v).reverse.map (fun w => (w, false))).filter (·.2) = [] := by
      rw [filter_eq_nil_iff]
      simp
    rw [filter_append, hnone, nil_append, filter_cons_of_pos rfl, nodup_cons]
    exact ⟨fun hmem => hfresh (mem_filter.mp hmem).1, honce⟩
  case reached =>
    intro frame hframe
    obtain hframe | hframe := mem_append.mp hframe
    · obtain ⟨w, hw, rfl⟩ := mem_map.mp hframe
      exact hreached.tail (mem_reverse.mp hw)
    · obtain rfl | hframe := mem_cons.mp hframe
      · exact hreached
      · exact h.reached frame (mem_cons_of_mem _ hframe)
  case reached_opened =>
    exact forall_mem_append.mpr ⟨h.reached_opened, forall_mem_singleton.mpr hreached⟩
  case below =>
    refine pairwise_append.mpr ⟨?_, pairwise_cons.mpr ⟨hbelow.1, hbelow.2⟩, ?_⟩
    · rw [pairwise_map]
      exact pairwise_of_forall (by simp)
    · intro upper hupper lower hlower hleave
      obtain ⟨w, hw, rfl⟩ := mem_map.mp hupper
      have hstep : Next edges v w := mem_reverse.mp hw
      obtain rfl | hlower := mem_cons.mp hlower
      · exact .single hstep
      · exact (hbelow.1 lower hlower hleave).tail hstep
  case awaited =>
    intro u hu w hw
    by_cases heq : u = v
    · subst heq
      have hpushed : [(w, false)].Sublist ((edges u).reverse.map fun w => (w, false)) :=
        singleton_sublist.mpr (mem_map.mpr ⟨w, mem_reverse.mpr hw, rfl⟩)
      exact .inr ⟨false, hpushed.append (singleton_sublist.mpr mem_cons_self)⟩
    · have hu : (u, true) ∈ stack := by simpa [heq] using hu
      obtain hclosed | ⟨leave, habove⟩ := h.awaited u (mem_cons_of_mem _ hu) w hw
      · exact .inl hclosed
      · cases habove with
        | cons _ hsub => exact .inr ⟨leave, hsub.trans hstack⟩
        | cons_cons _ hsub =>
          exact .inr ⟨true, (hsub.cons_cons _).trans (sublist_append_right _ _)⟩
  case root_met =>
    obtain hroot | hroot := h.root_met
    · exact .inl (mem_append_left _ hroot)
    · obtain hroot | hroot := mem_cons.mp hroot
      · simp only [Prod.mk.injEq, and_true] at hroot
        exact .inl (by simp [hroot])
      · exact .inr (hstack.subset hroot)

/-- An enter frame of an open node closes a cycle. -/
theorem Inv.cycle (h : Inv edges root ((v, leave) :: stack) opened closed) (hv : v ∈ opened) (hopen : v ∉ closed)
    (hleave : leave = false) : TransGen (Next edges) v v := by
  subst hleave
  have hmem : (v, true) ∈ stack := by simpa using (h.leave_iff v).mpr ⟨hv, hopen⟩
  exact (pairwise_cons.mp h.below).1 _ hmem rfl

theorem Settled.next {a b : ν} : ∀ {l : List ν}, Settled edges l → a ∈ l → Next edges a b → b ∈ l
  | [], _, ha, _ => by simp at ha
  | w :: rest, h, ha, hab => by
    obtain ⟨-, htargets, hrest⟩ := h
    obtain rfl | ha := mem_cons.mp ha
    · exact mem_cons_of_mem _ (htargets b hab)
    · exact mem_cons_of_mem _ (Settled.next hrest ha hab)

/-- A step from a settled node leads into the nodes settled before it, so there is no way back. -/
theorem Settled.acyclic {a : ν} : ∀ {l : List ν}, Settled edges l → a ∈ l → ¬ TransGen (Next edges) a a
  | [], _, ha, _ => by simp at ha
  | w :: rest, h, ha, hcycle => by
    obtain ⟨hw, htargets, hrest⟩ := h
    have hinner : ∀ {b c : ν}, b ∈ rest → TransGen (Next edges) b c → c ∈ rest := by
      intro b c hb hpath
      induction hpath with
      | single hstep => exact hrest.next hb hstep
      | tail _ hstep ih => exact hrest.next ih hstep
    obtain rfl | ha := mem_cons.mp ha
    · obtain ⟨b, hstep, hpath⟩ := TransGen.head'_iff.mp hcycle
      have hb : b ∈ rest := htargets b hstep
      obtain heq | hpath := reflTransGen_iff_eq_or_transGen.mp hpath
      · exact hw (heq ▸ hb)
      · exact hw (hinner hb hpath)
    · exact Settled.acyclic hrest ha hcycle

variable [DecidableEq ν]

/-- Taking a node leaves the successors of the others ahead. -/
theorem ahead_append_singleton_le (succ : ν → List ν) {all taken : List ν} (hall : v ∈ all) (hv : v ∉ taken) :
    ahead succ all (taken ++ [v]) + (succ v).length ≤ ahead succ all taken := by
  simpa using ahead_append_le succ all (nodup_singleton v) (forall_mem_singleton.mpr hall)
    (forall_mem_singleton.mpr hv)

/-- **A walk with enough steps ends**, at a cycle that the root leads to or with nothing left on the
stack. -/
theorem walk_cases (all : List ν) (hall : ∀ v, ReflTransGen (Next edges) root v → v ∈ all) :
    ∀ (fuel : ℕ) (stack : List (ν × Bool)) (opened closed : List ν), Inv edges root stack opened closed →
      stack.length + ahead (fun v => v :: edges v) all opened ≤ fuel →
      (walk edges fuel stack opened closed = .cycle ∧
        ∃ v, ReflTransGen (Next edges) root v ∧ TransGen (Next edges) v v) ∨
      ∃ opened' closed', walk edges fuel stack opened closed = .done opened' closed' ∧
        Inv edges root [] opened' closed'
  | fuel, [], opened, closed, hinv, _ => by
    refine .inr ⟨opened, closed, ?_, hinv⟩
    unfold walk
    rfl
  | 0, _ :: _, _, _, _, hfuel => by simp at hfuel
  | fuel + 1, (v, leave) :: stack, opened, closed, hinv, hfuel => by
    rw [length_cons] at hfuel
    unfold walk
    by_cases hv : v ∈ opened
    · rw [if_pos hv]
      by_cases hopen : v ∈ closed
      · rw [if_neg (by simp [hopen]), if_neg (by simp [hopen])]
        exact walk_cases all hall fuel stack opened closed (hinv.drop hopen) (by omega)
      · cases hleave : leave with
        | true =>
          rw [if_pos ⟨rfl, hopen⟩]
          subst hleave
          exact walk_cases all hall fuel stack opened (v :: closed) hinv.close (by omega)
        | false =>
          rw [if_neg (by simp), if_pos hopen]
          exact .inl ⟨rfl, v, hinv.reached_opened v hv, hinv.cycle hv hopen hleave⟩
    · have hleave : leave = false := by
        by_contra hleave
        rw [Bool.not_eq_false] at hleave
        subst hleave
        exact hv ((hinv.leave_iff v).mp mem_cons_self).1
      subst hleave
      rw [if_neg hv, if_neg (by simp)]
      have hbatch := ahead_append_singleton_le (fun v => v :: edges v) (hall v (hinv.reached _ mem_cons_self)) hv
      apply walk_cases all hall fuel _ _ _ (hinv.enter hv)
      rw [length_cons] at hbatch
      simp only [length_append, length_map, length_reverse, length_cons]
      omega

/-- **The walk from a root** stops at a cycle exactly when the root leads to one; otherwise it closes
each node that the root leads to, once. -/
theorem walk_root (all : List ν) (hall : ∀ v, ReflTransGen (Next edges) root v → v ∈ all) {fuel : ℕ}
    (hfuel : 1 + ahead (fun v => v :: edges v) all [] ≤ fuel) :
    (walk edges fuel [(root, false)] [] [] = .cycle ∧
      ∃ v, ReflTransGen (Next edges) root v ∧ TransGen (Next edges) v v) ∨
    ∃ opened closed, walk edges fuel [(root, false)] [] [] = .done opened closed ∧
      (∀ v, v ∈ closed ↔ ReflTransGen (Next edges) root v) ∧ (∀ v, v ∈ opened ↔ v ∈ closed) ∧
      ∀ v, ReflTransGen (Next edges) root v → ¬ TransGen (Next edges) v v := by
  obtain hcycle | ⟨opened, closed, hdone, hinv⟩ :=
    walk_cases all hall fuel [(root, false)] [] [] (Inv.start edges root) (by simpa using hfuel)
  · exact .inl hcycle
  · refine .inr ⟨opened, closed, hdone, ?_⟩
    have hsame : ∀ v ∈ opened, v ∈ closed := by
      intro v hv
      by_contra hopen
      simpa using (hinv.leave_iff v).mpr ⟨hv, hopen⟩
    have hroot : root ∈ closed := hsame root (by simpa using hinv.root_met)
    have hmem : ∀ v, v ∈ closed ↔ ReflTransGen (Next edges) root v := by
      intro v
      refine ⟨fun hv => hinv.reached_opened v (hinv.closed_opened v hv), fun hreach => ?_⟩
      induction hreach with
      | refl => exact hroot
      | tail _ hstep ih => exact hinv.settled.next ih hstep
    exact ⟨hmem, fun v => ⟨hsame v, hinv.closed_opened v⟩, fun v hv => hinv.settled.acyclic ((hmem v).mpr hv)⟩

end Walk

/-! ### Collecting a closure -/

/-- Takes nodes from a stack, marks those that are neither skipped nor marked, and goes on with their
edges. -/
def gather [DecidableEq ν] (edges : ν → List ν) (skip : ν → Bool) : ℕ → List ν → List ν → Option (List ν)
  | _, [], marked => some marked
  | 0, _ :: _, _ => none
  | fuel + 1, v :: stack, marked =>
    if skip v = true ∨ v ∈ marked then gather edges skip fuel stack marked
    else gather edges skip fuel ((edges v).reverse ++ stack) (marked ++ [v])

section Gather

variable (edges : ν → List ν) (skip : ν → Bool)

/-- What a collection from `stack` adds to the nodes marked before. -/
structure Gathered (stack marked marked' : List ν) : Prop where
  nodup : marked.Nodup → marked'.Nodup
  kept : ∀ x ∈ marked, x ∈ marked'
  taken : ∀ x ∈ stack, skip x = true ∨ x ∈ marked'
  below : ∀ x ∈ marked', x ∈ marked ∨ skip x = false ∧ ∃ p ∈ stack, ReflTransGen (Next edges) p x
  closed : ∀ a ∈ marked', a ∈ marked ∨ ∀ b ∈ edges a, skip b = true ∨ b ∈ marked'

/-- The marked nodes are those that the roots lead to and that are not skipped, each once. -/
structure Covers (roots : ν → Prop) (marked : List ν) : Prop where
  nodup : marked.Nodup
  mem_iff : ∀ x, x ∈ marked ↔ skip x = false ∧ ∃ r, roots r ∧ ReflTransGen (Next edges) r x

variable {edges skip}

theorem Covers.nil : Covers edges skip (fun _ => False) [] := ⟨nodup_nil, by simp⟩

theorem Covers.of_iff {roots roots' : ν → Prop} {marked : List ν} (h : Covers edges skip roots marked)
    (hroots : ∀ r, roots r ↔ roots' r) : Covers edges skip roots' marked := by
  obtain rfl : roots = roots' := funext fun r => propext (hroots r)
  exact h

variable [DecidableEq ν]

/-- **A collection with enough steps ends**, with all that the stack leads to. -/
theorem gather_cases (all : List ν) (hinner : ∀ a ∈ all, ∀ b ∈ edges a, b ∈ all) :
    ∀ (fuel : ℕ) (stack marked : List ν), (∀ x ∈ stack, x ∈ all) → stack.length + ahead edges all marked ≤ fuel →
      ∃ marked', gather edges skip fuel stack marked = some marked' ∧ Gathered edges skip stack marked marked'
  | fuel, [], marked, _, _ => by
    refine ⟨marked, by unfold gather; rfl, ?_⟩
    constructor <;> simp +contextual
  | 0, _ :: _, _, _, hfuel => by simp at hfuel
  | fuel + 1, v :: stack, marked, hstack, hfuel => by
    rw [length_cons] at hfuel
    have hrest : ∀ x ∈ stack, x ∈ all := fun x hx => hstack x (mem_cons_of_mem _ hx)
    unfold gather
    by_cases hold : skip v = true ∨ v ∈ marked
    · rw [if_pos hold]
      obtain ⟨marked', hgather, h⟩ := gather_cases all hinner fuel stack marked hrest (by omega)
      refine ⟨marked', hgather, h.nodup, h.kept, ?_, ?_, h.closed⟩
      · intro x hx
        obtain rfl | hx := mem_cons.mp hx
        · exact hold.imp_right (h.kept x)
        · exact h.taken x hx
      · intro x hx
        obtain hx | ⟨hskip, p, hp, hreach⟩ := h.below x hx
        · exact .inl hx
        · exact .inr ⟨hskip, p, mem_cons_of_mem _ hp, hreach⟩
    · rw [if_neg hold]
      rw [not_or, Bool.not_eq_true] at hold
      have hv : v ∈ all := hstack v mem_cons_self
      have hbatch := ahead_append_singleton_le edges hv hold.2
      have hfuel' : ((edges v).reverse ++ stack).length + ahead edges all (marked ++ [v]) ≤ fuel := by
        simp only [length_append, length_reverse]
        omega
      have hstack' : ∀ x ∈ (edges v).reverse ++ stack, x ∈ all :=
        forall_mem_append.mpr ⟨fun x hx => hinner v hv x (mem_reverse.mp hx), hrest⟩
      obtain ⟨marked', hgather, h⟩ := gather_cases all hinner fuel _ _ hstack' hfuel'
      have hmarked : v ∈ marked' := h.kept v (by simp)
      refine ⟨marked', hgather, ?_, fun x hx => h.kept x (mem_append_left _ hx), ?_, ?_, ?_⟩
      · intro hnodup
        apply h.nodup
        rw [nodup_append]
        refine ⟨hnodup, nodup_singleton v, fun x hx y hy heq => hold.2 ?_⟩
        rwa [← mem_singleton.mp hy, ← heq]
      · intro x hx
        obtain rfl | hx := mem_cons.mp hx
        · exact .inr hmarked
        · exact h.taken x (mem_append_right _ hx)
      · intro x hx
        obtain hx | ⟨hskip, p, hp, hreach⟩ := h.below x hx
        · obtain hx | hx := mem_append.mp hx
          · exact .inl hx
          · obtain rfl := mem_singleton.mp hx
            exact .inr ⟨hold.1, x, mem_cons_self, .refl⟩
        · obtain hp | hp := mem_append.mp hp
          · exact .inr ⟨hskip, v, mem_cons_self, .head (mem_reverse.mp hp) hreach⟩
          · exact .inr ⟨hskip, p, mem_cons_of_mem _ hp, hreach⟩
      · intro a ha
        obtain ha | hnext := h.closed a ha
        · obtain ha | ha := mem_append.mp ha
          · exact .inl ha
          · obtain rfl := mem_singleton.mp ha
            exact .inr fun b hb => h.taken b (mem_append_left _ (mem_reverse.mpr hb))
        · exact .inr hnext

/-- Collecting from one more root; what is skipped leads only to what is skipped. -/
theorem gather_covers (all : List ν) (hinner : ∀ a ∈ all, ∀ b ∈ edges a, b ∈ all)
    (hskip : ∀ a b, skip a = true → b ∈ edges a → skip b = true) {roots : ν → Prop} {marked : List ν}
    (h : Covers edges skip roots marked) {root : ν} (hroot : root ∈ all) {fuel : ℕ}
    (hfuel : 1 + ahead edges all marked ≤ fuel) :
    ∃ marked', gather edges skip fuel [root] marked = some marked' ∧
      Covers edges skip (fun r => roots r ∨ r = root) marked' := by
  obtain ⟨marked', hgather, hnew⟩ : ∃ marked', gather edges skip fuel [root] marked = some marked' ∧
      Gathered edges skip [root] marked marked' := by
    apply gather_cases all hinner
    · simpa using hroot
    · simpa using hfuel
  have hclosed : ∀ a ∈ marked', ∀ b ∈ edges a, skip b = true ∨ b ∈ marked' := by
    intro a ha b hb
    obtain ha | hnext := hnew.closed a ha
    · obtain ⟨-, r, hr, hreach⟩ := (h.mem_iff a).mp ha
      by_cases hb' : skip b = true
      · exact .inl hb'
      · exact .inr (hnew.kept b ((h.mem_iff b).mpr ⟨by simpa using hb', r, hr, hreach.tail hb⟩))
    · exact hnext b hb
  refine ⟨marked', hgather, hnew.nodup h.nodup, fun x => ⟨fun hx => ?_, fun hx => ?_⟩⟩
  · obtain hx | ⟨hx, p, hp, hreach⟩ := hnew.below x hx
    · obtain ⟨hx, r, hr, hreach⟩ := (h.mem_iff x).mp hx
      exact ⟨hx, r, .inl hr, hreach⟩
    · exact ⟨hx, p, .inr (mem_singleton.mp hp), hreach⟩
  · obtain ⟨hx, r, hr, hreach⟩ := hx
    obtain hr | rfl := hr
    · exact hnew.kept x ((h.mem_iff x).mpr ⟨hx, r, hr, hreach⟩)
    · -- along a way to what is not skipped nothing is skipped, so nothing on it was left out
      have hmet : ∀ y, ReflTransGen (Next edges) r y → skip y = true ∨ y ∈ marked' := by
        intro y hy
        induction hy with
        | refl => exact hnew.taken r mem_cons_self
        | tail _ hstep ih =>
          obtain hold | hmarked := ih
          · exact .inl (hskip _ _ hold hstep)
          · exact hclosed _ hmarked _ hstep
      exact (hmet x hreach).resolve_left (by simp [hx])

end Gather

end DepthFirst
end Mega
