/-
# Pages of the commit history

`ceres/api_service/commit_ops.rs` lists the history of a path in pages. The shas of the
filtered history are kept in a cache; a request slices the cached index, or the commits
it has just traversed. Both slices are taken with unsigned 64-bit arithmetic and without
a look at whether the page starts after the end, where slicing panics. So the pages
partition the index, and every page is served up to the first one that starts after it.

The traversal, the key of the cache and its time to live are left out: a history is any
list of commits that can still be read by their shas.

Key definitions: `listCommitHistory`, `Indexed`, `PageRight`, `Reached`.
Key theorems: `listCached_eq`, `computed_iff`, `history_pages_partition`.
-/
import Mega.Lib.Fallible

namespace Mega
namespace History

open List Fallible

inductive Failure where
  | panic
  | git
  deriving DecidableEq

structure Pagination where
  page : UInt64
  perPage : UInt64

/-- How many entries stand before the page, as a number without bound. -/
def Pagination.before (page : Pagination) : ℕ := (page.page.toNat - 1) * page.perPage.toNat

/-- A sum or product of `u64` values. It overflows with a panic where the build checks
for overflows, and else wraps. -/
def u64 (checks : Bool) (n : ℕ) : Except Failure ℕ :=
  if n < 2 ^ 64 then .ok n else if checks then .error .panic else .ok (n % 2 ^ 64)

/-- The slice `&xs[start..stop]`. -/
def slice {α : Type} (xs : List α) (start stop : ℕ) : Except Failure (List α) :=
  if start ≤ stop ∧ stop ≤ xs.length then .ok ((xs.take stop).drop start) else .error .panic

structure Handler (Sha Commit Summary : Type) where
  getCommitByHash : Sha → Except Failure Commit
  id : Commit → Sha
  /-- With the bound username and the signature status. -/
  commitSummary : Commit → Summary

section List

variable {Sha Commit Summary : Type} (handler : Handler Sha Commit Summary) (checks : Bool)

/-- The first entry of the page, and the one after its last. -/
def pageBounds (page : Pagination) (total : ℕ) : Except Failure (ℕ × ℕ) := do
  let start ← u64 checks page.before
  let stop ← u64 checks (start + page.perPage.toNat)
  pure (start, min stop total)

def readSummary (sha : Sha) : Except Failure Summary := do
  let c ← handler.getCommitByHash sha
  pure (handler.commitSummary c)

def listCached (index : List Sha) (page : Pagination) : Except Failure (List Summary × ℕ) := do
  let bounds ← pageBounds checks page index.length
  -- No vector has the capacity `end - start` of a negative difference.
  if bounds.2 < bounds.1 then .error .panic
  else do
    let shas ← slice index bounds.1 bounds.2
    let res ← shas.mapM (readSummary handler)
    pure (res, index.length)

/-- The requested page and the length of the whole index, from the cached index if there
is one and else from the `traversed` commits. -/
def listCommitHistory (cached : Option (List Sha)) (traversed : Except Failure (List Commit)) (page : Pagination) :
    Except Failure (List Summary × ℕ) :=
  match cached with
  | some index => listCached handler checks index page
  | none => do
    let commits ← traversed
    let bounds ← pageBounds checks page commits.length
    let part ← slice commits bounds.1 bounds.2
    pure (part.map handler.commitSummary, commits.length)

/-- A filtered history whose commits can be read again. -/
structure Indexed where
  commits : List Commit
  /-- No vector is longer. -/
  fits : commits.length < 2 ^ 63
  readable : ∀ c ∈ commits, handler.getCommitByHash (handler.id c) = .ok c

variable {handler}

def Indexed.index (history : Indexed handler) : List Sha := history.commits.map handler.id

/-- The entries of the history on the page of the given size after `start` entries. -/
def Indexed.window (history : Indexed handler) (start size : ℕ) : List Summary :=
  ((history.commits.map handler.commitSummary).drop start).take size

/-- A page is answered with its window of the history and the length of the history,
from the cache and without it. -/
structure PageRight (history : Indexed handler) (page : Pagination) : Prop where
  computed : listCommitHistory handler checks none (.ok history.commits) page =
    .ok (history.window page.before page.perPage.toNat, history.commits.length)
  cached : ∀ traversed, listCommitHistory handler checks (some history.index) traversed page =
    listCommitHistory handler checks none (.ok history.commits) page

/-- The page starts in the history or right at its end, and ends before `2^64`. A start
that wraps around to the very end of the history is as good. -/
def Reached (history : Indexed handler) (page : Pagination) : Prop :=
  page.before ≤ history.commits.length ∧ page.before + page.perPage.toNat < 2 ^ 64 ∨
    checks = false ∧ 2 ^ 64 ≤ page.before ∧ page.before % 2 ^ 64 = history.commits.length ∧
      history.commits.length + page.perPage.toNat < 2 ^ 64

/-! ### The two ways to a page -/

theorem u64_eq_ok {n m : ℕ} : u64 checks n = .ok m ↔ n < 2 ^ 64 ∧ n = m ∨
    checks = false ∧ 2 ^ 64 ≤ n ∧ n % 2 ^ 64 = m := by
  unfold u64
  by_cases h : n < 2 ^ 64
  · rw [if_pos h, Except.ok.injEq]
    exact ⟨fun hm => .inl ⟨h, hm⟩, fun hm => hm.elim And.right fun hm => absurd hm.2.1 (Nat.not_le.mpr h)⟩
  · rw [if_neg h]
    cases checks with
    | false =>
      rw [if_neg Bool.false_ne_true, Except.ok.injEq]
      exact ⟨fun hm => .inr ⟨rfl, Nat.not_lt.mp h, hm⟩, fun hm => hm.elim (fun hm => absurd hm.1 h) (·.2.2)⟩
    | true =>
      rw [if_pos rfl]
      exact ⟨nofun, fun hm => hm.elim (fun hm => absurd hm.1 h) nofun⟩

theorem slice_eq_ok {α : Type} {xs part : List α} {start stop : ℕ} : slice xs start stop = .ok part ↔
    start ≤ stop ∧ stop ≤ xs.length ∧ (xs.take stop).drop start = part := by
  unfold slice
  split_ifs with h
  · simp [h]
  · exact ⟨nofun, fun hpart => absurd ⟨hpart.1, hpart.2.1⟩ h⟩

theorem mapM_read (history : Indexed handler) : ∀ {part : List Commit}, part ⊆ history.commits →
    (part.map handler.id).mapM (readSummary handler) = .ok (part.map handler.commitSummary)
  | [], _ => rfl
  | c :: part, hsub => by
    rw [map_cons, mapM_cons, readSummary, history.readable c (hsub mem_cons_self),
      mapM_read history fun x hx => hsub (mem_cons_of_mem c hx)]
    rfl

/-- The cached index gives what the traversed commits give. -/
theorem listCached_eq (history : Indexed handler) (page : Pagination) :
    listCached handler checks history.index page =
      listCommitHistory handler checks none (.ok history.commits) page := by
  have hslice (start stop : ℕ) : slice history.index start stop = (slice history.commits start stop).map
      (List.map handler.id) := by
    rw [slice, slice, Indexed.index, length_map, ← map_take, ← map_drop]
    split_ifs <;> rfl
  unfold listCached
  rw [show history.index.length = history.commits.length from length_map _]
  refine congrArg (pageBounds checks page history.commits.length >>= ·) (funext fun bounds => ?_)
  rw [hslice]
  by_cases hle : bounds.1 ≤ bounds.2 ∧ bounds.2 ≤ history.commits.length
  · have hsub : (history.commits.take bounds.2).drop bounds.1 ⊆ history.commits := fun x hx =>
      mem_of_mem_take (mem_of_mem_drop hx)
    rw [if_neg (Nat.not_lt.mpr hle.1), slice, if_pos hle]
    simp only [Except.map, bind, Except.bind, mapM_read history hsub]
  · rw [slice, if_neg hle]
    split_ifs <;> rfl

theorem computed_iff (history : Indexed handler) (page : Pagination) :
    listCommitHistory handler checks none (.ok history.commits) page =
      .ok (history.window page.before page.perPage.toNat, history.commits.length) ↔
      Reached checks history page := by
  set start := page.before with hstart
  set size := page.perPage.toNat with hsize
  have hfits := history.fits
  have hsize64 : size < 2 ^ 64 := page.perPage.toNat_lt
  have hread : listCommitHistory handler checks none (.ok history.commits) page =
      .ok (history.window start size, history.commits.length) ↔ ∃ first stop, u64 checks start = .ok first ∧
        u64 checks (first + size) = .ok stop ∧ first ≤ min stop history.commits.length ∧
        ((history.commits.take (min stop history.commits.length)).drop first).map handler.commitSummary =
          history.window start size := by
    simp only [listCommitHistory, pageBounds, bind_eq_ok, slice_eq_ok, pure, Except.pure, Except.ok.injEq, Prod.mk.injEq,
      ← hstart, ← hsize]
    constructor
    · rintro ⟨_, rfl, _, ⟨first, hfirst, stop, hstop, rfl⟩, _, ⟨hle, _, rfl⟩, hwin, _⟩
      exact ⟨first, stop, hfirst, hstop, hle, hwin⟩
    · rintro ⟨first, stop, hfirst, hstop, hle, hwin⟩
      exact ⟨_, rfl, _, ⟨first, hfirst, stop, hstop, rfl⟩, _, ⟨hle, Nat.min_le_right _ _, rfl⟩, hwin, rfl⟩
  have hempty (hge : 2 ^ 64 ≤ start) : history.window start size = [] := by
    rw [Indexed.window, drop_eq_nil_of_le (by rw [length_map]; omega), take_nil]
  rw [hread]
  constructor
  · rintro ⟨first, stop, hfirst, hstop, hle, hwin⟩
    obtain ⟨hlt, rfl⟩ | ⟨hwraps, hge, rfl⟩ := (u64_eq_ok checks).mp hfirst
    · obtain ⟨hlt', rfl⟩ | ⟨-, hge', rfl⟩ := (u64_eq_ok checks).mp hstop
      · exact .inl ⟨le_trans hle (Nat.min_le_right _ _), hlt'⟩
      · omega
    · obtain ⟨hlt', rfl⟩ | ⟨-, hge', rfl⟩ := (u64_eq_ok checks).mp hstop
      · -- The window is empty, so the slice has to be.
        have hlen := congrArg List.length hwin
        have hpos : size ≠ 0 := by
          rintro h0
          rw [hstart, Pagination.before, ← hsize, h0] at hge
          omega
        simp only [hempty hge, length_map, length_drop, length_take, length_nil] at hlen
        exact .inr ⟨hwraps, hge, by omega, by omega⟩
      · omega
  · rintro (⟨hle, hlt⟩ | ⟨hwraps, hge, heq, hlt⟩)
    · refine ⟨start, start + size, (u64_eq_ok checks).mpr (.inl ⟨by omega, rfl⟩),
        (u64_eq_ok checks).mpr (.inl ⟨hlt, rfl⟩), by omega, ?_⟩
      rw [Indexed.window, ← map_drop, ← map_take, take_drop, take_eq_take_min (i := start + size)]
    · refine ⟨_, _, (u64_eq_ok checks).mpr (.inr ⟨hwraps, hge, rfl⟩),
        (u64_eq_ok checks).mpr (.inl ⟨by omega, rfl⟩), by omega, ?_⟩
      rw [hempty hge, heq, drop_eq_nil_of_le (length_take_le' _ _), map_nil]

/-- **The pages partition the history as far as they are served.** A page is answered with
its window of the history, from the cache and without it, exactly if it starts in the
history or at its end and its bounds do not overflow; a page that starts later panics
although its window is empty. -/
theorem history_pages_partition (history : Indexed handler) (perPage : UInt64) :
    (∀ page, PageRight checks history ⟨page, perPage⟩ ↔ Reached checks history ⟨page, perPage⟩) ∧
    (∀ pages, history.commits.length ≤ pages * perPage.toNat →
      (List.range pages).flatMap (fun i => history.window (i * perPage.toNat) perPage.toNat) =
        history.commits.map handler.commitSummary) ∧
    ∀ i, history.commits.length ≤ i * perPage.toNat → history.window (i * perPage.toNat) perPage.toNat = [] := by
  refine ⟨fun page => ?_, fun pages hpages => ?_, fun i hi => ?_⟩
  · exact ⟨fun h => (computed_iff checks history _).mp h.computed, fun h =>
      ⟨(computed_iff checks history _).mpr h, fun _ => listCached_eq checks history _⟩⟩
  · have htake : ∀ pages, (List.range pages).flatMap (fun i => history.window (i * perPage.toNat) perPage.toNat) =
        (history.commits.map handler.commitSummary).take (pages * perPage.toNat) := by
      intro pages
      induction pages with
      | zero => simp
      | succ pages ih =>
        rw [range_succ, flatMap_append, ih, flatMap_singleton, Indexed.window, Nat.add_mul, Nat.one_mul,
          take_add]
    rw [htake, take_of_length_le (by simpa using hpages)]
  · rw [Indexed.window, drop_eq_nil_of_le (by simpa using hi), take_nil]

end List

def emptyHistory : Indexed (⟨.ok, id, id⟩ : Handler ℕ ℕ ℕ) := ⟨[], by decide, nofun⟩

theorem empty_history_page_panics :
    listCommitHistory ⟨.ok, id, id⟩ false none (.ok emptyHistory.commits) ⟨2, 1⟩ = .error .panic ∧
      ¬ PageRight false emptyHistory ⟨2, 1⟩ := by
  refine ⟨rfl, fun h => ?_⟩
  have hpanic : Except.error Failure.panic = Except.ok _ := h.computed
  cases hpanic

end History
end Mega
