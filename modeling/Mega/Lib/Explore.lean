/-
# Worklist searches

A search keeps the nodes it has seen and a list of those it still has to
expand. A round takes some of the pending nodes, asks for their successors and
adds those that are neither skipped nor seen. How many nodes a round takes, and
from which end, is a parameter: what a search finds does not depend on it.

`freshBy` is the part of a round that picks the new candidates, `explore` the
search. Expanding a batch changes a state and may fail, and so may a check of
what has been seen so far (a budget). With enough rounds nothing else fails, and
the nodes found are closed under the successors. What a search finds that may
stop after some rounds is that many steps away (`Leveled`).

Key definitions: `freshBy`, `explore`, `Explored`, `Leveled`.
Key theorems: `explore_cases`, `Explored.mem_iff`, `Leveled.round`.
-/
import Mathlib

namespace Mega
namespace Explore

open List

universe u

variable {α β σ ε : Type u} [DecidableEq α]
variable {skip : α → Bool} {seen level : List α} {next : α → α → Prop}

/-! ### New candidates -/

/-- The candidates whose key is neither skipped nor seen, each key at its first place. -/
def freshBy (key : β → α) (skip : α → Bool) : List β → List α → List β
  | [], _ => []
  | x :: xs, seen =>
    if skip (key x) || decide (key x ∈ seen) then freshBy key skip xs seen
    else x :: freshBy key skip xs (key x :: seen)

theorem mem_of_mem_freshBy {key : β → α} {x : β} :
    ∀ {xs : List β} {seen : List α}, x ∈ freshBy key skip xs seen →
      x ∈ xs ∧ skip (key x) = false ∧ key x ∉ seen
  | [], seen, h => by simp [freshBy] at h
  | y :: ys, seen, h => by
    unfold freshBy at h
    by_cases hold : (skip (key y) || decide (key y ∈ seen)) = true
    · rw [if_pos hold] at h
      obtain ⟨hmem, hrest⟩ := mem_of_mem_freshBy h
      exact ⟨mem_cons_of_mem _ hmem, hrest⟩
    · rw [if_neg hold] at h
      obtain rfl | h := mem_cons.mp h
      · simp only [Bool.or_eq_true, decide_eq_true_eq, not_or, Bool.not_eq_true] at hold
        exact ⟨mem_cons_self, hold⟩
      · obtain ⟨hmem, hskip, hseen⟩ := mem_of_mem_freshBy h
        exact ⟨mem_cons_of_mem _ hmem, hskip, fun hs => hseen (mem_cons_of_mem _ hs)⟩

theorem nodup_freshBy (key : β → α) (skip : α → Bool) :
    ∀ (xs : List β) (seen : List α), ((freshBy key skip xs seen).map key).Nodup
  | [], seen => by simp [freshBy]
  | y :: ys, seen => by
    unfold freshBy
    split
    · exact nodup_freshBy key skip ys seen
    · rw [map_cons, nodup_cons]
      refine ⟨fun hmem => ?_, nodup_freshBy key skip ys _⟩
      obtain ⟨z, hz, hkey⟩ := mem_map.mp hmem
      apply (mem_of_mem_freshBy hz).2.2
      simp [hkey]

/-- A candidate is skipped, was seen, or its key is now among the new ones. -/
theorem covered_freshBy (key : β → α) (skip : α → Bool) {x : β} :
    ∀ {xs : List β} (seen : List α), x ∈ xs →
      skip (key x) = true ∨ key x ∈ seen ∨ key x ∈ (freshBy key skip xs seen).map key
  | [], seen, h => by simp at h
  | y :: ys, seen, h => by
    unfold freshBy
    by_cases hold : (skip (key y) || decide (key y ∈ seen)) = true
    · rw [if_pos hold]
      obtain rfl | h := mem_cons.mp h
      · simp only [Bool.or_eq_true, decide_eq_true_eq] at hold
        exact hold.imp_right .inl
      · exact covered_freshBy key skip seen h
    · rw [if_neg hold, map_cons]
      obtain rfl | h := mem_cons.mp h
      · exact .inr (.inr mem_cons_self)
      · obtain hskip | hseen | hnew := covered_freshBy key skip (key y :: seen) h
        · exact .inl hskip
        · obtain heq | hseen := mem_cons.mp hseen
          · exact .inr (.inr (by simp [heq]))
          · exact .inr (.inl hseen)
        · exact .inr (.inr (mem_cons_of_mem _ hnew))

/-- `freshBy` where the candidates are their own keys. -/
def fresh (skip : α → Bool) (xs seen : List α) : List α := freshBy id skip xs seen

theorem mem_fresh {x : α} {xs : List α} : x ∈ fresh skip xs seen ↔ x ∈ xs ∧ skip x = false ∧ x ∉ seen := by
  refine ⟨fun h => mem_of_mem_freshBy h, fun h => ?_⟩
  obtain ⟨hmem, hskip, hseen⟩ := h
  have hcovered : skip x = true ∨ x ∈ seen ∨ x ∈ (freshBy id skip xs seen).map id :=
    covered_freshBy id skip seen hmem
  simpa [hskip, hseen, fresh] using hcovered

theorem nodup_fresh (skip : α → Bool) (xs seen : List α) : (fresh skip xs seen).Nodup := by
  simpa [fresh] using nodup_freshBy id skip xs seen

/-- What is found after the new nodes were seen is found together with them. -/
theorem new_fresh_append {candidates found : List α} (hnodup : found.Nodup)
    (hfound : ∀ x ∈ found, x ∉ seen ++ fresh skip candidates seen) :
    (fresh skip candidates seen ++ found).Nodup ∧ ∀ x ∈ fresh skip candidates seen ++ found, x ∉ seen := by
  refine ⟨nodup_append.mpr ⟨nodup_fresh _ _ _, hnodup, fun x hx y hy heq => ?_⟩, ?_⟩
  · exact hfound y hy (mem_append_right _ (heq ▸ hx))
  · exact forall_mem_append.mpr ⟨fun x hx => (mem_fresh.mp hx).2.2,
      fun x hx hseen => hfound x hx (mem_append_left _ hseen)⟩

/-! ### Rounds -/

/-- A search ready to run. -/
structure Search (α σ ε : Type u) where
  /-- what a round takes of the pending nodes, and what it leaves -/
  take : List α → List α × List α
  /-- the successors of a batch, and the state with what was read -/
  expand : List α → σ → Except ε (List α × σ)
  /-- nodes that are never entered -/
  skip : α → Bool
  /-- looks at the seen nodes, the new ones and the state after a round -/
  check : List α → List α → σ → Except ε PUnit.{u + 1}
  /-- what a search that ran out of rounds ends with; without it, it stops there -/
  stuck : Option ε

/-- The nodes found in at most so many rounds, in the order in which they were found. -/
def explore (s : Search α σ ε) : ℕ → List α → List α → σ → Except ε (List α × σ)
  | _, [], _, st => .ok ([], st)
  | 0, _ :: _, _, st =>
    match s.stuck with
    | some e => .error e
    | none => .ok ([], st)
  | rounds + 1, p :: ps, seen, st => do
    let batch := (s.take (p :: ps)).1
    let rest := (s.take (p :: ps)).2
    let (candidates, st) ← s.expand batch st
    let new := fresh s.skip candidates seen
    s.check (seen ++ new) new st
    let (more, st) ← explore s rounds (rest ++ new) (seen ++ new) st
    .ok (new ++ more, st)

/-- Takes up to `k` nodes from the end, the last one first. -/
def takeLast (k : ℕ) (pending : List α) : List α × List α :=
  ((pending.drop (pending.length - k)).reverse, pending.take (pending.length - k))

/-- A round takes at least one node, and no node is lost or doubled. -/
def Takes (take : List α → List α × List α) : Prop :=
  ∀ pending, pending ≠ [] → (take pending).1 ≠ [] ∧ ((take pending).1 ++ (take pending).2).Perm pending

omit [DecidableEq α] in
theorem takes_takeLast {k : ℕ} (hk : 0 < k) : Takes (fun pending : List α => takeLast k pending) := by
  intro pending hne
  have hlen := length_pos_iff.mpr hne
  constructor
  · show (pending.drop (pending.length - k)).reverse ≠ []
    rw [ne_eq, reverse_eq_nil_iff, drop_eq_nil_iff]
    omega
  · calc (takeLast k pending).1 ++ (takeLast k pending).2
        |>.Perm (pending.drop (pending.length - k) ++ pending.take (pending.length - k)) :=
          (reverse_perm _).append_right _
      _ |>.Perm (pending.take (pending.length - k) ++ pending.drop (pending.length - k)) :=
          perm_append_comm
      _ |>.Perm pending := by rw [take_append_drop]

/-- A step that enters the node it leads to. -/
def Enters (next : α → α → Prop) (skip : α → Bool) (a b : α) : Prop := next a b ∧ skip b = false

/-- What a search finds from `pending` when `seen` was seen: new nodes, each once, below the pending
ones, with which the successors of all of them are skipped, seen or found. -/
structure Explored (next : α → α → Prop) (skip : α → Bool) (pending seen found : List α) : Prop where
  nodup : found.Nodup
  unseen : ∀ x ∈ found, x ∉ seen
  entered : ∀ x ∈ found, skip x = false
  below : ∀ x ∈ found, ∃ p ∈ pending, Relation.TransGen (Enters next skip) p x
  closed : ∀ a, a ∈ pending ∨ a ∈ found → ∀ b, next a b → skip b = true ∨ b ∈ seen ∨ b ∈ found

/-- Where a step from the batch enters a node, the node is seen after the round. -/
theorem seen_of_enters {batch candidates : List α} (hcandidates : ∀ b, b ∈ candidates ↔ ∃ a ∈ batch, next a b)
    {a b : α} (ha : a ∈ batch) (hab : Enters next skip a b) : b ∈ seen ++ fresh skip candidates seen := by
  rw [mem_append]
  by_cases hseen : b ∈ seen
  · exact .inl hseen
  · exact .inr (mem_fresh.mpr ⟨(hcandidates b).mpr ⟨a, ha, hab.1⟩, hab.2, hseen⟩)

omit [DecidableEq α] in
theorem explored_nil (next : α → α → Prop) (skip : α → Bool) (seen : List α) :
    Explored next skip [] seen [] := by
  constructor <;> simp

/-- A round, and then the search from what it left and what it found. -/
theorem Explored.round {pending batch rest : List α} {candidates found : List α}
    (hperm : (batch ++ rest).Perm pending) (hcandidates : ∀ b, b ∈ candidates ↔ ∃ a ∈ batch, next a b)
    (h : Explored next skip (rest ++ fresh skip candidates seen) (seen ++ fresh skip candidates seen) found) :
    Explored next skip pending seen (fresh skip candidates seen ++ found) := by
  have hnew : ∀ x ∈ fresh skip candidates seen, ∃ p ∈ pending, Relation.TransGen (Enters next skip) p x := by
    intro x hx
    obtain ⟨a, ha, hnext⟩ := (hcandidates x).mp (mem_fresh.mp hx).1
    exact ⟨a, hperm.subset (mem_append_left _ ha), .single ⟨hnext, (mem_fresh.mp hx).2.1⟩⟩
  constructor
  case nodup => exact (new_fresh_append h.nodup h.unseen).1
  case unseen => exact (new_fresh_append h.nodup h.unseen).2
  case entered => exact forall_mem_append.mpr ⟨fun x hx => (mem_fresh.mp hx).2.1, h.entered⟩
  case below =>
    intro x hx
    obtain hx | hx := mem_append.mp hx
    · exact hnew x hx
    · obtain ⟨p, hp, hreach⟩ := h.below x hx
      obtain hp | hp := mem_append.mp hp
      · exact ⟨p, hperm.subset (mem_append_right _ hp), hreach⟩
      · obtain ⟨q, hq, hstep⟩ := hnew p hp
        exact ⟨q, hq, hstep.trans hreach⟩
  case closed =>
    intro a ha b hnext
    have hlater : a ∈ rest ++ fresh skip candidates seen ∨ a ∈ found →
        skip b = true ∨ b ∈ seen ∨ b ∈ fresh skip candidates seen ++ found := by
      intro ha
      obtain hskip | hseen | hfound := h.closed a ha b hnext
      · exact .inl hskip
      · exact .inr ((mem_append.mp hseen).imp_right (mem_append_left _))
      · exact .inr (.inr (mem_append_right _ hfound))
    obtain ha | ha := ha
    · obtain ha | ha := mem_append.mp (hperm.symm.subset ha)
      · cases hskip : skip b with
        | true => exact .inl rfl
        | false =>
          have hseen : b ∈ seen ++ fresh skip candidates seen := seen_of_enters hcandidates ha ⟨hnext, hskip⟩
          exact .inr ((mem_append.mp hseen).imp_right (mem_append_left _))
      · exact hlater (.inl (mem_append_left _ ha))
    · obtain ha | ha := mem_append.mp ha
      · exact hlater (.inl (mem_append_right _ ha))
      · exact hlater (.inr ha)

/-- The successors of the nodes of `all` that have not been taken. -/
def ahead (succ : α → List α) (all seen : List α) : ℕ :=
  ((all.filter (· ∉ seen)).flatMap succ).length

theorem ahead_append_le (succ : α → List α) (all : List α) {batch : List α} (hnodup : batch.Nodup)
    (hall : ∀ x ∈ batch, x ∈ all) (hseen : ∀ x ∈ batch, x ∉ seen) :
    ahead succ all (seen ++ batch) + (batch.flatMap succ).length ≤ ahead succ all seen := by
  have hsplit : ∀ l : List α, ((l.filter (· ∉ seen ++ batch)).flatMap succ).length +
      ((l.filter (· ∈ batch)).flatMap succ).length ≤ ((l.filter (· ∉ seen)).flatMap succ).length := by
    intro l
    induction l with
    | nil => simp
    | cons x xs ih =>
      by_cases hx : x ∈ batch
      · have hxs := hseen x hx
        simp only [mem_append, filter_cons, hx, hxs] at ih ⊢
        simp at ih ⊢
        omega
      · by_cases hxs : x ∈ seen
        · simp only [mem_append, filter_cons, hx, hxs] at ih ⊢
          simpa using ih
        · simp only [mem_append, filter_cons, hx, hxs] at ih ⊢
          simp at ih ⊢
          omega
  have hlen : (batch.flatMap succ).length ≤ ((all.filter (· ∈ batch)).flatMap succ).length := by
    have hsub : batch.Subperm (all.filter (· ∈ batch)) := by
      apply subperm_of_subset hnodup
      intro x hx
      simpa using ⟨hall x hx, hx⟩
    obtain ⟨l, hperm, hsublist⟩ := hsub
    calc (batch.flatMap succ).length = (l.flatMap succ).length := (hperm.symm.flatMap_right _).length_eq
      _ ≤ ((all.filter (· ∈ batch)).flatMap succ).length := by
          rw [flatMap_def, flatMap_def]
          exact (List.Sublist.flatten (hsublist.map succ)).length_le
  have hall := hsplit all
  unfold ahead
  omega

/-- How many nodes of `all` have not been seen. -/
def unseen (all seen : List α) : ℕ := (all.filter (· ∉ seen)).length

/-- New nodes are no longer unseen. -/
theorem unseen_append_le (all : List α) {new : List α} (hnodup : new.Nodup) (hall : ∀ x ∈ new, x ∈ all)
    (hseen : ∀ x ∈ new, x ∉ seen) : unseen all (seen ++ new) + new.length ≤ unseen all seen := by
  simpa [ahead, unseen] using ahead_append_le (fun x => [x]) all hnodup hall hseen

theorem unseen_append (all seen new : List α) : unseen all (seen ++ new) ≤ unseen all seen := by
  apply List.Sublist.length_le
  apply monotone_filter_right
  intro x hx
  simp only [decide_eq_true_eq, mem_append, not_or] at hx ⊢
  exact hx.1

theorem unseen_le (all seen : List α) : unseen all seen ≤ all.length := length_filter_le _ _

/-- What expanding a batch does on the nodes of `all`: it gives their successors and keeps an invariant
of the nodes taken so far and the state, or it fails with an error in `fails`. -/
def Expands (s : Search α σ ε) (next : α → α → Prop) (all : List α) (fails : ε → Prop)
    (inv : List α → σ → Prop) : Prop :=
  ∀ done batch st, batch.Nodup → (∀ a ∈ batch, a ∈ all) → inv done st →
    (∃ candidates st', s.expand batch st = .ok (candidates, st') ∧
      (∀ b, b ∈ candidates ↔ ∃ a ∈ batch, next a b) ∧ inv (done ++ batch) st') ∨
    ∃ e, s.expand batch st = .error e ∧ fails e

/-- A check of nodes of `all` succeeds or fails with an error in `fails`. -/
def Checks (s : Search α σ ε) (all : List α) (fails : ε → Prop) : Prop :=
  ∀ seen new st, new.Nodup → (∀ x ∈ new, x ∈ all) →
    s.check seen new st = .ok ⟨⟩ ∨ ∃ e, s.check seen new st = .error e ∧ fails e

/-- **A search with enough rounds ends.** If on the nodes of `all` expanding and checking either
succeed or fail with an error in `fails`, so does the search. What it finds is closed, and the
invariant holds of all nodes, taken in some order. -/
theorem explore_cases (s : Search α σ ε) (next : α → α → Prop) (all : List α) (fails : ε → Prop)
    (inv : List α → σ → Prop) (htake : Takes s.take) (hexpand : Expands s next all fails inv)
    (hinner : ∀ a b, a ∈ all → next a b → s.skip b = false → b ∈ all) (hcheck : Checks s all fails) :
    ∀ (rounds : ℕ) (pending seen done : List α) (st : σ), pending.Nodup → (∀ p ∈ pending, p ∈ seen) →
      (∀ p ∈ pending, p ∈ all) → inv done st → pending.length + unseen all seen ≤ rounds →
      (∃ found st', explore s rounds pending seen st = .ok (found, st') ∧
        Explored next s.skip pending seen found ∧
        ∃ order, order.Perm (pending ++ found) ∧ inv (done ++ order) st') ∨
      ∃ e, explore s rounds pending seen st = .error e ∧ fails e
  | rounds, [], seen, done, st, _, _, _, hinv, _ => by
    refine .inl ⟨[], st, by unfold explore; rfl, explored_nil _ _ _, [], .refl _, by simpa using hinv⟩
  | 0, p :: ps, seen, done, st, _, _, _, _, hrounds => by simp at hrounds
  | rounds + 1, p :: ps, seen, done, st, hnodup, hseen, hpending, hinv, hrounds => by
    obtain ⟨hne, hperm⟩ := htake (p :: ps) (by simp)
    set batch := (s.take (p :: ps)).1 with hbatch
    set rest := (s.take (p :: ps)).2 with hrest
    have hbatchAll : ∀ a ∈ batch, a ∈ all := fun a ha =>
      hpending a (hperm.subset (mem_append_left _ ha))
    have hlen := hperm.length_eq
    have hpos := length_pos_iff.mpr hne
    rw [length_append] at hlen
    obtain ⟨hbatchNodup, hrestNodup, -⟩ := nodup_append.mp (hperm.nodup_iff.mpr hnodup)
    unfold explore
    dsimp only
    rw [← hbatch, ← hrest]
    obtain ⟨candidates, st₁, hok, hcandidates, hinv₁⟩ | ⟨e, he, hfail⟩ := hexpand done batch st hbatchNodup hbatchAll hinv
    · set new := fresh s.skip candidates seen with hnew
      have hnewAll : ∀ x ∈ new, x ∈ all := by
        intro x hx
        obtain ⟨hmem, hskip, -⟩ := mem_fresh.mp hx
        obtain ⟨a, ha, hnext⟩ := (hcandidates x).mp hmem
        exact hinner a x (hbatchAll a ha) hnext hskip
      have hunseen := unseen_append_le all (nodup_fresh s.skip candidates seen) hnewAll
        (fun x hx => (mem_fresh.mp hx).2.2)
      rw [hok]
      simp only [bind, Except.bind, ← hnew]
      obtain hck | ⟨e, he, hfail⟩ := hcheck (seen ++ new) new st₁ (nodup_fresh _ _ _) hnewAll
      · rw [hck]
        have hrestSeen : ∀ q ∈ rest, q ∈ seen := fun q hq => hseen q (hperm.subset (mem_append_right _ hq))
        have hnodup' : (rest ++ new).Nodup :=
          nodup_append.mpr ⟨hrestNodup, nodup_fresh _ _ _, fun x hx y hy heq =>
            (mem_fresh.mp hy).2.2 (heq ▸ hrestSeen x hx)⟩
        have hseen' : ∀ q ∈ rest ++ new, q ∈ seen ++ new := forall_mem_append.mpr
          ⟨fun q hq => mem_append_left _ (hrestSeen q hq), fun q hq => mem_append_right _ hq⟩
        have hpending' : ∀ q ∈ rest ++ new, q ∈ all := forall_mem_append.mpr
          ⟨fun q hq => hpending q (hperm.subset (mem_append_right _ hq)), hnewAll⟩
        have hrounds' : (rest ++ new).length + unseen all (seen ++ new) ≤ rounds := by
          rw [length_append]
          rw [← hnew] at hunseen
          omega
        obtain ⟨found, st', hfound, hspec, order, horder, hinv'⟩ | ⟨e, he, hfail⟩ :=
          explore_cases s next all fails inv htake hexpand hinner hcheck rounds (rest ++ new)
            (seen ++ new) (done ++ batch) st₁ hnodup' hseen' hpending' hinv₁ hrounds'
        · refine .inl ⟨new ++ found, st', by simp [hfound], Explored.round hperm hcandidates hspec,
            batch ++ order, ?_, by simpa using hinv'⟩
          calc batch ++ order
              |>.Perm (batch ++ (rest ++ new ++ found)) := horder.append_left _
            _ |>.Perm ((p :: ps) ++ (new ++ found)) := by
                rw [append_assoc, ← append_assoc]
                exact hperm.append_right _
        · exact .inr ⟨e, by simp [he], hfail⟩
      · exact .inr ⟨e, by simp [he], hfail⟩
    · exact .inr ⟨e, by simp [he, bind, Except.bind], hfail⟩

/-! ### What a search finds -/

omit [DecidableEq α] in
/-- A search that starts with all it has seen finds what steps that enter their nodes lead to. -/
theorem Explored.mem_iff {pending found : List α} (h : Explored next skip pending seen found)
    (hseen : ∀ x ∈ seen, x ∈ pending) (x : α) :
    x ∈ pending ∨ x ∈ found ↔ ∃ p ∈ pending, Relation.ReflTransGen (Enters next skip) p x := by
  constructor
  · intro hx
    obtain hx | hx := hx
    · exact ⟨x, hx, .refl⟩
    · obtain ⟨p, hp, hreach⟩ := h.below x hx
      exact ⟨p, hp, hreach.to_reflTransGen⟩
  · intro hx
    obtain ⟨p, hp, hreach⟩ := hx
    induction hreach with
    | refl => exact .inl hp
    | @tail b c _ hstep ih =>
      obtain hskip | hold | hfound := h.closed b ih c hstep.1
      · simp [hstep.2] at hskip
      · exact .inl (hseen c hold)
      · exact .inr hfound

/-! ### Searches that stop after some rounds -/

/-- So many steps lead from `a` to `b`. -/
def Steps (r : α → α → Prop) : ℕ → α → α → Prop
  | 0, a, b => a = b
  | n + 1, a, b => ∃ c, r a c ∧ Steps r n c b

omit [DecidableEq α] in
/-- What a search has expanded leads to what it has seen, until it leads to the nodes it has not
expanded yet. -/
theorem steps_seen {r : α → α → Prop} (hseen : ∀ v ∈ seen, v ∈ level ∨ ∀ w, r v w → w ∈ seen) {x : α} :
    ∀ {n : ℕ} {v : α}, v ∈ seen → Steps r n v x →
      x ∈ seen ∨ ∃ c ∈ level, ∃ m, m ≤ n ∧ Steps r m c x
  | 0, v, hv, hsteps => .inl (hsteps ▸ hv)
  | n + 1, v, hv, hsteps => by
    obtain hlevel | hnext := hseen v hv
    · exact .inr ⟨v, hlevel, n + 1, le_refl _, hsteps⟩
    · obtain ⟨w, hw, hsteps⟩ := hsteps
      obtain hx | ⟨c, hc, m, hm, hsteps⟩ := steps_seen hseen (hnext w hw) hsteps
      · exact .inl hx
      · exact .inr ⟨c, hc, m, by omega, hsteps⟩

/-- What a search that takes all nodes in each round finds in so many rounds from a level. -/
structure Leveled (next : α → α → Prop) (skip : α → Bool) (rounds : ℕ) (level seen found : List α) : Prop where
  nodup : found.Nodup
  unseen : ∀ x ∈ found, x ∉ seen
  mem : ∀ x, x ∈ seen ∨ x ∈ found ↔
    x ∈ seen ∨ ∃ c ∈ level, ∃ n, n ≤ rounds ∧ Steps (Enters next skip) n c x

omit [DecidableEq α] in
/-- A level whose nodes lead nowhere, or a search without rounds. -/
theorem leveled_nil {rounds : ℕ} (hlevel : ∀ c ∈ level, c ∈ seen) (h : level = [] ∨ rounds = 0) :
    Leveled next skip rounds level seen [] := by
  constructor
  case nodup => exact nodup_nil
  case unseen => simp
  case mem =>
    intro x
    simp only [not_mem_nil, or_false]
    refine ⟨.inl, fun hx => hx.elim id fun hx => ?_⟩
    obtain ⟨c, hc, n, hn, hsteps⟩ := hx
    obtain rfl | rfl := h
    · simp at hc
    · obtain rfl : n = 0 := by omega
      exact hsteps ▸ hlevel c hc

/-- After a round, only the new nodes have not been expanded. -/
theorem expanded_round {candidates : List α} (hseen : ∀ v ∈ seen, v ∈ level ∨ ∀ w, Enters next skip v w → w ∈ seen)
    (hcandidates : ∀ b, b ∈ candidates ↔ ∃ a ∈ level, next a b) :
    ∀ v ∈ seen ++ fresh skip candidates seen, v ∈ fresh skip candidates seen ∨
      ∀ w, Enters next skip v w → w ∈ seen ++ fresh skip candidates seen := by
  intro v hv
  obtain hv | hv := mem_append.mp hv
  · obtain hv | hv := hseen v hv
    · exact .inr fun w hw => seen_of_enters hcandidates hv hw
    · exact .inr fun w hw => mem_append_left _ (hv w hw)
  · exact .inl hv

/-- One level, and then the levels after it. -/
theorem Leveled.round {rounds : ℕ} {candidates found : List α} (hlevel : ∀ c ∈ level, c ∈ seen)
    (hseen : ∀ v ∈ seen, v ∈ level ∨ ∀ w, Enters next skip v w → w ∈ seen)
    (hcandidates : ∀ b, b ∈ candidates ↔ ∃ a ∈ level, next a b)
    (h : Leveled next skip rounds (fresh skip candidates seen) (seen ++ fresh skip candidates seen) found) :
    Leveled next skip (rounds + 1) level seen (fresh skip candidates seen ++ found) := by
  set new := fresh skip candidates seen with hnew
  have hseen' := expanded_round hseen hcandidates
  have hparent : ∀ x ∈ new, ∃ c ∈ level, Enters next skip c x := by
    intro x hx
    obtain ⟨hmem, hskip, -⟩ := mem_fresh.mp hx
    obtain ⟨a, ha, hnext⟩ := (hcandidates x).mp hmem
    exact ⟨a, ha, hnext, hskip⟩
  constructor
  case nodup => exact (new_fresh_append h.nodup h.unseen).1
  case unseen => exact (new_fresh_append h.nodup h.unseen).2
  case mem =>
    intro x
    have hlater := h.mem x
    rw [mem_append] at hlater
    rw [mem_append, ← or_assoc, hlater]
    constructor
    · intro hx
      obtain (hx | hx) | ⟨c, hc, n, hn, hsteps⟩ := hx
      · exact .inl hx
      · obtain ⟨c, hc, hcx⟩ := hparent x hx
        exact .inr ⟨c, hc, 1, by omega, x, hcx, rfl⟩
      · obtain ⟨d, hd, hdc⟩ := hparent c hc
        exact .inr ⟨d, hd, n + 1, by omega, c, hdc, hsteps⟩
    · intro hx
      obtain hx | ⟨c, hc, n, hn, hsteps⟩ := hx
      · exact .inl (.inl hx)
      · cases n with
        | zero => exact .inl (.inl (hsteps ▸ hlevel c hc))
        | succ n =>
          obtain ⟨w, hw, hsteps⟩ := hsteps
          obtain hx | ⟨d, hd, m, hm, hsteps⟩ := steps_seen hseen' (seen_of_enters hcandidates hc hw) hsteps
          · exact .inl (mem_append.mp hx)
          · exact .inr ⟨d, hd, m, by omega, hsteps⟩

end Explore
end Mega
